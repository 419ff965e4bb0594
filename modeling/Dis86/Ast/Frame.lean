import Dis86.Ast.Builder
import Dis86.Lib.Text
import Dis86.Lib.WordArith

namespace Dis86.Ast

/-- A frame cannot be grounded: an addition, a negation or a subtraction of signed words has overflowed, which
panics, or the extents form no frame. -/
inductive GroundFault where
  | overflow
  | invalid (message : String)
deriving DecidableEq, Repr

abbrev Grounding := Except GroundFault

/-- The start of a local, and its size. -/
abbrev Extent := BitVec 32 × BitVec 16

namespace Frame

def absI32 (x : BitVec 32) : Grounding (BitVec 32) :=
  if x = BitVec.intMin 32 then .error .overflow else .ok x.abs

def subI32 (x y : BitVec 32) : Grounding (BitVec 32) :=
  if x.ssubOverflow y then .error .overflow else .ok (x - y)

/-- The checked conversions and the checked addition. -/
def i16OfI32 (x : BitVec 32) : Option (BitVec 16) :=
  if (x.setWidth 16).signExtend 32 = x then some (x.setWidth 16) else none

def i16OfU16 (x : BitVec 16) : Option (BitVec 16) := if x.msb then none else some x

def checkedAdd (x y : BitVec 16) : Option (BitVec 16) := if x.saddOverflow y then none else some (x + y)

def orInvalid {A : Type} (value : Option A) (message : String) : Grounding A :=
  match value with
  | some value => .ok value
  | none => .error (.invalid message)

/-- Both bounds are compared by their distance from zero. -/
def widenFrame (low high start stop : BitVec 16) : Grounding (BitVec 16 × BitVec 16) := do
  let startDepth ← absI32 (start.signExtend 32)
  let highDepth ← absI32 (high.signExtend 32)
  let stopDepth ← absI32 (stop.signExtend 32)
  let lowDepth ← absI32 (low.signExtend 32)
  return (if stopDepth.slt lowDepth then stop else low, if highDepth.slt startDepth then start else high)

def boundsOf (extent : Extent) : Grounding (BitVec 16 × BitVec 16) := do
  let start ← orInvalid (i16OfI32 extent.1)
    ("frame local start offset out of i16 range: " ++ toString extent.1.toInt)
  let size ← orInvalid (i16OfU16 extent.2)
    ("frame local size out of i16 range: " ++ toString extent.2.toNat)
  let stop ← orInvalid (checkedAdd start size)
    ("frame local extent overflows i16: start " ++ toString start.toInt ++ " size " ++ toString size.toInt)
  return (start, stop)

def widenBy (frame : BitVec 16 × BitVec 16) (extent : Extent) : Grounding (BitVec 16 × BitVec 16) := do
  let (start, stop) ← boundsOf extent
  widenFrame frame.1 frame.2 start stop

/-- The frame of the widened bounds. -/
def frameOf (low high : BitVec 16) : Grounding (BitVec 16 × BitVec 16 × BitVec 16) :=
  if high = 0 then .ok (low, high, 0)
  else if low.slt (-2) then
    .error (.invalid ("frame offsets are below the return address location (-2): shallowest local ends at " ++
      toString low.toInt))
  else if low.slt high then
    .error (.invalid ("inconsistent frame extents: shallowest local end " ++ toString low.toInt ++
      " is below deepest local start " ++ toString high.toInt))
  else do
    let depth ← absI32 (high.signExtend 32)
    if depth.slt 2 then
      .error (.invalid ("frame too shallow for a return address slot: depth " ++ toString depth.toInt))
    else do
      let size ← subI32 depth 2
      return (low, high, size.setWidth 16)

def groundFrame (low high : BitVec 16) (extents : List Extent) :
    Grounding (BitVec 16 × BitVec 16 × BitVec 16) := do
  let (low, high) ← extents.foldlM widenBy (low, high)
  frameOf low high

section Bounds

def start (extent : Extent) : Int := extent.1.toInt

def stop (extent : Extent) : Int := extent.1.toInt + extent.2.toNat

/-- The extent has words of sixteen bits for its bounds. -/
def Representable (extent : Extent) : Prop :=
  -2 ^ 15 ≤ start extent ∧ start extent < 2 ^ 15 ∧ extent.2.toNat < 2 ^ 15 ∧ stop extent < 2 ^ 15

/-- A number of sixteen bits has a distance from zero. -/
theorem absI32_signExtend (x : BitVec 16) :
    ∃ depth, absI32 (x.signExtend 32) = .ok depth ∧ depth.toInt = x.toInt.natAbs := by
  have low := BitVec.le_toInt x
  have high := BitVec.toInt_lt (x := x)
  have same : (x.signExtend 32).toInt = x.toInt := BitVec.toInt_signExtend_of_le (by decide)
  have inside : x.signExtend 32 ≠ BitVec.intMin 32 := by
    intro least
    rw [least] at same
    have value : (BitVec.intMin 32).toInt = -2 ^ 31 := by decide
    omega
  refine ⟨_, if_neg inside, ?_⟩
  rw [BitVec.toInt_abs_eq_natAbs_of_ne_intMin inside, same]

/-- The words of a widened frame have the numbers that the frame's growth describes. -/
theorem widenFrame_eq (low high start stop : BitVec 16) : ∃ frame, widenFrame low high start stop = .ok frame ∧
    (frame.1.toInt, frame.2.toInt) = Ast.widenFrame low.toInt high.toInt start.toInt stop.toInt := by
  obtain ⟨startDepth, startRead, startValue⟩ := absI32_signExtend start
  obtain ⟨highDepth, highRead, highValue⟩ := absI32_signExtend high
  obtain ⟨stopDepth, stopRead, stopValue⟩ := absI32_signExtend stop
  obtain ⟨lowDepth, lowRead, lowValue⟩ := absI32_signExtend low
  refine ⟨_, by rw [widenFrame, startRead, highRead, stopRead, lowRead]; rfl, ?_⟩
  have deeper : highDepth.slt startDepth = true ↔ start.toInt.natAbs > high.toInt.natAbs := by
    rw [BitVec.slt_iff_toInt_lt, startValue, highValue]
    omega
  have shallower : stopDepth.slt lowDepth = true ↔ stop.toInt.natAbs < low.toInt.natAbs := by
    rw [BitVec.slt_iff_toInt_lt, stopValue, lowValue]
    omega
  rw [Ast.widenFrame, Prod.mk.injEq]
  simp only [deeper, shallower]
  constructor
  · split <;> rfl
  · split <;> rfl

theorem i16OfI32_eq_some {x : BitVec 32} {y : BitVec 16} : i16OfI32 x = some y ↔ y.toInt = x.toInt := by
  have narrow : x = Lib.extendTo 32 true (x.setWidth 16) ∧ x.setWidth 16 = y ↔ _ := Lib.narrow_iff (by decide)
  change x = (x.setWidth 16).signExtend 32 ∧ _ ↔ y.toInt = x.toInt at narrow
  rw [← narrow, i16OfI32, eq_comm (a := x)]
  simp

theorem i16OfU16_eq_some {x y : BitVec 16} : i16OfU16 x = some y ↔ y.toInt = x.toNat := by
  have high := BitVec.toInt_lt (x := y)
  unfold i16OfU16
  by_cases top : x.msb = true
  · have large := BitVec.toNat_ge_of_msb_true top
    rw [if_pos top]
    simp only [reduceCtorEq, false_iff]
    omega
  · rw [if_neg top, Option.some.injEq, ← BitVec.toInt_inj,
      BitVec.toInt_eq_toNat_of_msb (Bool.eq_false_iff.mpr top), eq_comm]

theorem checkedAdd_eq_some {x y z : BitVec 16} : checkedAdd x y = some z ↔ z.toInt = x.toInt + y.toInt := by
  have low := BitVec.le_toInt z
  have high := BitVec.toInt_lt (x := z)
  unfold checkedAdd
  by_cases overflow : x.saddOverflow y = true
  · rw [if_pos overflow]
    simp only [reduceCtorEq, false_iff]
    simp only [BitVec.saddOverflow, Bool.or_eq_true, decide_eq_true_eq] at overflow
    omega
  · rw [if_neg overflow, Option.some.injEq, ← BitVec.toInt_inj, BitVec.toInt_add_of_not_saddOverflow overflow, eq_comm]

theorem orInvalid_eq_ok {A : Type} {value : Option A} {message : String} {x : A} :
    orInvalid value message = .ok x ↔ value = some x := by
  cases value <;> simp [orInvalid]

theorem boundsOf_eq_ok {extent : Extent} {bounds : BitVec 16 × BitVec 16} : boundsOf extent = .ok bounds ↔
    bounds.1.toInt = start extent ∧ bounds.2.toInt = stop extent ∧ extent.2.toNat < 2 ^ 15 := by
  constructor
  · intro read
    obtain ⟨first, isFirst, read⟩ := Lib.except_bind_eq_ok.mp read
    obtain ⟨size, isSize, read⟩ := Lib.except_bind_eq_ok.mp read
    obtain ⟨last, isLast, read⟩ := Lib.except_bind_eq_ok.mp read
    obtain rfl := Except.ok.inj read
    have firstValue := i16OfI32_eq_some.mp (orInvalid_eq_ok.mp isFirst)
    have sizeValue := i16OfU16_eq_some.mp (orInvalid_eq_ok.mp isSize)
    have lastValue := checkedAdd_eq_some.mp (orInvalid_eq_ok.mp isLast)
    have high := BitVec.toInt_lt (x := size)
    rw [firstValue, sizeValue] at lastValue
    exact ⟨firstValue, lastValue, by omega⟩
  · rintro ⟨firstValue, lastValue, small⟩
    obtain ⟨size, sizeValue⟩ : ∃ size : BitVec 16, size.toInt = extent.2.toNat :=
      Lib.exists_toInt (by decide) (by omega) (by omega)
    have added : checkedAdd bounds.1 size = some bounds.2 := by
      rw [checkedAdd_eq_some, firstValue, sizeValue, lastValue]
      rfl
    rw [boundsOf, i16OfI32_eq_some.mpr firstValue, i16OfU16_eq_some.mpr sizeValue]
    simp only [orInvalid, bind, Except.bind, added]
    rfl

theorem exists_boundsOf_iff {extent : Extent} : (∃ bounds, boundsOf extent = .ok bounds) ↔ Representable extent := by
  simp only [boundsOf_eq_ok]
  constructor
  · rintro ⟨⟨first, last⟩, firstValue, lastValue, small⟩
    have bounds := And.intro (BitVec.le_toInt first) (BitVec.toInt_lt (x := first))
    have high := BitVec.toInt_lt (x := last)
    dsimp only at firstValue lastValue
    rw [firstValue] at bounds
    rw [lastValue] at high
    exact ⟨bounds.1, bounds.2, small, high⟩
  · rintro ⟨low, high, small, last⟩
    obtain ⟨first, firstValue⟩ := Lib.exists_toInt (w := 16) (by decide) low high
    obtain ⟨last, lastValue⟩ := Lib.exists_toInt (w := 16) (by decide) (by unfold start at low; unfold stop; omega) last
    exact ⟨⟨first, last⟩, firstValue, lastValue, small⟩

end Bounds

section Folds

/-- The frame's growth by a local, in numbers. -/
def grow (frame : Int × Int) (extent : Extent) : Int × Int :=
  Ast.widenFrame frame.1 frame.2 (start extent) (stop extent)

def numbers (frame : BitVec 16 × BitVec 16) : Int × Int := (frame.1.toInt, frame.2.toInt)

theorem numbers_injective {a b : BitVec 16 × BitVec 16} (same : numbers a = numbers b) : a = b := by
  obtain ⟨first, second⟩ := Prod.mk.inj same
  exact Prod.ext (BitVec.eq_of_toInt_eq first) (BitVec.eq_of_toInt_eq second)

theorem widenBy_eq_ok {frame next : BitVec 16 × BitVec 16} {extent : Extent} : widenBy frame extent = .ok next ↔
    Representable extent ∧ numbers next = grow (numbers frame) extent := by
  rw [widenBy, Lib.except_bind_eq_ok, ← exists_boundsOf_iff]
  constructor
  · rintro ⟨bounds, read, widened⟩
    obtain ⟨grown, isGrown, value⟩ := widenFrame_eq frame.1 frame.2 bounds.1 bounds.2
    obtain rfl := Except.ok.inj (isGrown.symm.trans widened)
    obtain ⟨first, last, _⟩ := boundsOf_eq_ok.mp read
    rw [first, last] at value
    exact ⟨⟨bounds, read⟩, value⟩
  · rintro ⟨⟨bounds, read⟩, value⟩
    obtain ⟨grown, isGrown, grownValue⟩ := widenFrame_eq frame.1 frame.2 bounds.1 bounds.2
    obtain ⟨first, last, _⟩ := boundsOf_eq_ok.mp read
    rw [first, last] at grownValue
    refine ⟨bounds, read, ?_⟩
    rw [numbers_injective (value.trans grownValue.symm)]
    exact isGrown

/-- The locals are taken into the frame one by one. -/
theorem foldlM_widenBy_eq_ok {frame last : BitVec 16 × BitVec 16} {extents : List Extent} :
    extents.foldlM widenBy frame = .ok last ↔
      (∀ e ∈ extents, Representable e) ∧ numbers last = extents.foldl grow (numbers frame) := by
  induction extents generalizing frame with
  | nil =>
      constructor
      · intro same
        obtain rfl := Except.ok.inj same
        exact ⟨fun e absent => (by cases absent), rfl⟩
      · rintro ⟨-, same⟩
        rw [numbers_injective same]
        rfl
  | cons extent extents hypothesis =>
      rw [List.foldlM_cons, Lib.except_bind_eq_ok, List.forall_mem_cons, List.foldl_cons]
      constructor
      · rintro ⟨next, widened, rest⟩
        obtain ⟨here, value⟩ := widenBy_eq_ok.mp widened
        obtain ⟨later, lastValue⟩ := hypothesis.mp rest
        exact ⟨⟨here, later⟩, value ▸ lastValue⟩
      · rintro ⟨⟨here, later⟩, lastValue⟩
        obtain ⟨bounds, read⟩ := exists_boundsOf_iff.mpr here
        obtain ⟨next, isNext, value⟩ := widenFrame_eq frame.1 frame.2 bounds.1 bounds.2
        have widened : widenBy frame extent = .ok next := by
          rw [widenBy, read]
          exact isNext
        obtain ⟨_, value⟩ := widenBy_eq_ok.mp widened
        exact ⟨next, widened, hypothesis.mpr ⟨later, value.symm ▸ lastValue⟩⟩

/-- The size of the frame with such bounds, when there is one. -/
def verdict (low high : Int) : Option Nat :=
  if high = 0 then some 0
  else if -2 ≤ low ∧ high ≤ low ∧ 2 ≤ high.natAbs then some (high.natAbs - 2)
  else none

theorem verdict_eq_some {low high : Int} {n : Nat} : verdict low high = some n ↔
    high = 0 ∧ n = 0 ∨ high ≠ 0 ∧ -2 ≤ low ∧ high ≤ low ∧ n + 2 = high.natAbs := by
  unfold verdict
  split
  · rw [Option.some.injEq]
    omega
  · split
    · rw [Option.some.injEq]
      omega
    · simp only [reduceCtorEq, false_iff]
      omega

/-- Two bytes less than a depth that has them. -/
theorem subI32_depth {depth : BitVec 32} {n : Nat} (value : depth.toInt = n) (least : 2 ≤ n) (most : n ≤ 2 ^ 15) :
    subI32 depth 2 = .ok (depth - 2) ∧ ((depth - 2).setWidth 16).toNat = n - 2 := by
  have two : (2 : BitVec 32).toInt = 2 := rfl
  have inside : ¬ depth.ssubOverflow 2 = true := by
    simp only [BitVec.ssubOverflow, Bool.or_eq_true, decide_eq_true_eq, two]
    omega
  have rest : (depth - 2).toInt = n - 2 := by
    rw [BitVec.toInt_sub_of_not_ssubOverflow inside, two, value]
  refine ⟨if_neg inside, ?_⟩
  have small := (depth - 2).isLt
  rw [BitVec.toInt_eq_toNat_cond] at rest
  rw [BitVec.toNat_setWidth]
  split at rest <;> omega

theorem frameOf_eq_ok {low high low' high' size : BitVec 16} : frameOf low high = .ok (low', high', size) ↔
    low' = low ∧ high' = high ∧ verdict low.toInt high.toInt = some size.toNat := by
  have minusTwo : (-2 : BitVec 16).toInt = -2 := rfl
  have isZero : high.toInt = 0 ↔ high = 0 := by
    rw [← BitVec.toInt_inj]
    rfl
  unfold frameOf verdict
  by_cases zero : high = 0
  · rw [if_pos zero, if_pos (isZero.mpr zero)]
    have sizeZero : (0 : Nat) = size.toNat ↔ size = 0 := by
      rw [← BitVec.toNat_inj, eq_comm]
      rfl
    simp only [Except.ok.injEq, Prod.mk.injEq, Option.some.injEq, sizeZero]
    constructor
    · rintro ⟨rfl, rfl, rfl⟩
      exact ⟨rfl, rfl, rfl⟩
    · rintro ⟨rfl, rfl, rfl⟩
      exact ⟨rfl, rfl, rfl⟩
  · rw [if_neg zero, if_neg (mt isZero.mp zero)]
    by_cases below : low.slt (-2) = true
    · have outside : ¬ (-2 ≤ low.toInt ∧ high.toInt ≤ low.toInt ∧ 2 ≤ high.toInt.natAbs) := by
        rw [BitVec.slt_iff_toInt_lt, minusTwo] at below
        omega
      rw [if_pos below, if_neg outside]
      simp
    · rw [if_neg below]
      by_cases inverted : low.slt high = true
      · have outside : ¬ (-2 ≤ low.toInt ∧ high.toInt ≤ low.toInt ∧ 2 ≤ high.toInt.natAbs) := by
          rw [BitVec.slt_iff_toInt_lt] at inverted
          omega
        rw [if_pos inverted, if_neg outside]
        simp
      · rw [if_neg inverted]
        obtain ⟨depth, read, value⟩ := absI32_signExtend high
        rw [BitVec.slt_iff_toInt_lt, minusTwo] at below
        rw [BitVec.slt_iff_toInt_lt] at inverted
        have shallow : depth.slt 2 = true ↔ high.toInt.natAbs < 2 := by
          rw [BitVec.slt_iff_toInt_lt, value]
          exact Int.ofNat_lt
        rw [read]
        change (if depth.slt 2 = true then _ else _) = _ ↔ _
        by_cases few : depth.slt 2 = true
        · have outside : ¬ (-2 ≤ low.toInt ∧ high.toInt ≤ low.toInt ∧ 2 ≤ high.toInt.natAbs) := by
            rw [shallow] at few
            omega
          rw [if_pos few, if_neg outside]
          simp
        · rw [shallow, Nat.not_lt] at few
          have bound := BitVec.le_toInt high
          have bound' := BitVec.toInt_lt (x := high)
          obtain ⟨sub, sizeValue⟩ := subI32_depth value few (by omega)
          rw [if_neg (mt shallow.mp (Nat.not_lt.mpr few)), if_pos (by omega), sub]
          change Except.ok (low, high, (depth - 2).setWidth 16) = _ ↔ _
          rw [Except.ok.injEq, Prod.mk.injEq, Prod.mk.injEq, Option.some.injEq, ← sizeValue, BitVec.toNat_inj]
          constructor
          · rintro ⟨rfl, rfl, rfl⟩
            exact ⟨rfl, rfl, rfl⟩
          · rintro ⟨rfl, rfl, rfl⟩
            exact ⟨rfl, rfl, rfl⟩

end Folds

end Frame

end Dis86.Ast
