import Dis86.Ast.Frame
import Mathlib.Data.List.MinMax

namespace Dis86.Ast.Frame

section Totality

/-- No step of a computation has overflowed. -/
def Total {A : Type} (result : Grounding A) : Prop := result ≠ .error .overflow

variable {A B : Type}

theorem Total.bind {result : Grounding A} {next : A → Grounding B} (first : Total result)
    (rest : ∀ a, result = .ok a → Total (next a)) : Total (result >>= next) := by
  cases result with
  | error fault => exact fun same => first (congrArg Except.error (Except.error.inj same))
  | ok a => exact rest a rfl

theorem total_ok (a : A) : Total (.ok a : Grounding A) := fun same => by cases same

theorem total_invalid (message : String) : Total (.error (.invalid message) : Grounding A) := fun same => by cases same

theorem total_orInvalid (value : Option A) (message : String) : Total (orInvalid value message) := by
  cases value with
  | none => exact total_invalid message
  | some a => exact total_ok a

theorem total_widenBy (frame : BitVec 16 × BitVec 16) (extent : Extent) : Total (widenBy frame extent) := by
  have bounds : Total (boundsOf extent) :=
    (total_orInvalid _ _).bind fun _ _ => (total_orInvalid _ _).bind fun _ _ =>
      (total_orInvalid _ _).bind fun _ _ => total_ok _
  refine bounds.bind fun bounds _ => ?_
  obtain ⟨grown, isGrown, _⟩ := widenFrame_eq frame.1 frame.2 bounds.1 bounds.2
  change Total (widenFrame frame.1 frame.2 bounds.1 bounds.2)
  rw [isGrown]
  exact total_ok grown

theorem total_foldlM_widenBy (frame : BitVec 16 × BitVec 16) (extents : List Extent) :
    Total (extents.foldlM widenBy frame) := by
  induction extents generalizing frame with
  | nil => exact total_ok frame
  | cons extent extents hypothesis =>
      rw [List.foldlM_cons]
      exact (total_widenBy frame extent).bind fun next _ => hypothesis next

theorem total_frameOf (low high : BitVec 16) : Total (frameOf low high) := by
  unfold frameOf
  split
  · exact total_ok _
  split
  · exact total_invalid _
  split
  · exact total_invalid _
  obtain ⟨depth, read, value⟩ := absI32_signExtend high
  have two : (2 : BitVec 32).toInt = 2 := rfl
  have least := BitVec.le_toInt high
  have most := BitVec.toInt_lt (x := high)
  rw [read]
  change Total (if depth.slt 2 = true then _ else _)
  split
  · exact total_invalid _
  · rename_i deep
    rw [BitVec.slt_iff_toInt_lt, two] at deep
    rw [(subI32_depth value (by omega) (by omega)).1]
    exact total_ok _

/-- No arithmetic step overflows, whatever the extents are. -/
theorem total_groundFrame (low high : BitVec 16) (extents : List Extent) : Total (groundFrame low high extents) :=
  (total_foldlM_widenBy _ _).bind fun _ _ => total_frameOf _ _

end Totality

section Extremes

/-- A fold that keeps the better of two values finds the first one that no other beats. -/
theorem foldl_argAux_some {A : Type} (r : A → A → Prop) [DecidableRel r] (best : A) (items : List A) :
    items.foldl (List.argAux r) (some best) =
      some (items.foldl (fun best x => if r x best then x else best) best) := by
  induction items generalizing best with
  | nil => rfl
  | cons x items hypothesis =>
      rw [List.foldl_cons, List.foldl_cons, ← hypothesis, List.argAux]
      by_cases better : r x best
      · simp only [if_pos better]
      · simp only [if_neg better]

/-- A value that none beats is kept. -/
theorem foldl_eq_of_unbeaten {A : Type} (r : A → A → Prop) [DecidableRel r] {best : A} {items : List A}
    (unbeaten : ∀ x ∈ items, ¬ r x best) : items.foldl (fun best x => if r x best then x else best) best = best := by
  induction items with
  | nil => rfl
  | cons x items hypothesis =>
      rw [List.foldl_cons, if_neg (unbeaten x List.mem_cons_self)]
      exact hypothesis fun y inside => unbeaten y (List.mem_cons_of_mem x inside)

variable {frame : Int × Int} {extents : List Extent}

theorem foldl_grow : extents.foldl grow frame =
    ((extents.map stop).foldl (fun low x => if x.natAbs < low.natAbs then x else low) frame.1,
      (extents.map start).foldl (fun high x => if high.natAbs < x.natAbs then x else high) frame.2) := by
  induction extents generalizing frame with
  | nil => rfl
  | cons extent extents hypothesis =>
      rw [List.foldl_cons, hypothesis]
      rfl

/-- The low bound is the first end, the frame's own one included, that lies closest to zero. -/
theorem low_mem_argmin : (extents.foldl grow frame).1 ∈ (frame.1 :: extents.map stop).argmin Int.natAbs := by
  rw [foldl_grow]
  exact foldl_argAux_some (fun x low : Int => x.natAbs < low.natAbs) frame.1 (extents.map stop)

/-- The high bound is the first start that lies farthest from zero. -/
theorem high_mem_argmax : (extents.foldl grow frame).2 ∈ (frame.2 :: extents.map start).argmax Int.natAbs := by
  rw [foldl_grow]
  exact foldl_argAux_some (fun x high : Int => high.natAbs < x.natAbs) frame.2 (extents.map start)

theorem low_mem (frame : Int × Int) (extents : List Extent) : (extents.foldl grow frame).1 = frame.1 ∨
    ∃ extent ∈ extents, (extents.foldl grow frame).1 = stop extent := by
  rcases List.mem_cons.mp (List.argmin_mem low_mem_argmin) with own | among
  · exact .inl own
  · obtain ⟨extent, inside, same⟩ := List.mem_map.mp among
    exact .inr ⟨extent, inside, same.symm⟩

theorem low_least (frame : Int × Int) (extents : List Extent) : (extents.foldl grow frame).1.natAbs ≤ frame.1.natAbs ∧
    ∀ extent ∈ extents, (extents.foldl grow frame).1.natAbs ≤ (stop extent).natAbs :=
  ⟨List.le_of_mem_argmin List.mem_cons_self low_mem_argmin, fun _ inside =>
    List.le_of_mem_argmin (List.mem_cons_of_mem _ (List.mem_map_of_mem inside)) low_mem_argmin⟩

/-- A frame whose low bound lies as close to zero as any end keeps it. -/
theorem low_kept (closest : ∀ extent ∈ extents, frame.1.natAbs ≤ (stop extent).natAbs) :
    (extents.foldl grow frame).1 = frame.1 := by
  rw [foldl_grow]
  apply foldl_eq_of_unbeaten (fun x low : Int => x.natAbs < low.natAbs)
  intro x among
  obtain ⟨extent, inside, rfl⟩ := List.mem_map.mp among
  exact Nat.not_lt.mpr (closest extent inside)

theorem high_mem (frame : Int × Int) (extents : List Extent) : (extents.foldl grow frame).2 = frame.2 ∨
    ∃ extent ∈ extents, (extents.foldl grow frame).2 = start extent := by
  rcases List.mem_cons.mp (List.argmax_mem high_mem_argmax) with own | among
  · exact .inl own
  · obtain ⟨extent, inside, same⟩ := List.mem_map.mp among
    exact .inr ⟨extent, inside, same.symm⟩

theorem high_most (frame : Int × Int) (extents : List Extent) : frame.2.natAbs ≤ (extents.foldl grow frame).2.natAbs ∧
    ∀ extent ∈ extents, (start extent).natAbs ≤ (extents.foldl grow frame).2.natAbs :=
  ⟨List.le_of_mem_argmax List.mem_cons_self high_mem_argmax, fun _ inside =>
    List.le_of_mem_argmax (List.mem_cons_of_mem _ (List.mem_map_of_mem inside)) high_mem_argmax⟩

end Extremes

section Outcomes

variable {low high : BitVec 16} {extents : List Extent}

/-- Whether a frame is grounded, and the size it has. -/
def outcome (result : Grounding (BitVec 16 × BitVec 16 × BitVec 16)) : Option Nat :=
  match result with
  | .ok (_, _, size) => some size.toNat
  | .error _ => none

theorem groundFrame_eq_ok {low' high' size : BitVec 16} : groundFrame low high extents = .ok (low', high', size) ↔
    (∀ e ∈ extents, Representable e) ∧ numbers (low', high') = extents.foldl grow (numbers (low, high)) ∧
      verdict low'.toInt high'.toInt = some size.toNat := by
  rw [groundFrame, Lib.except_bind_eq_ok]
  constructor
  · rintro ⟨⟨first, last⟩, read, framed⟩
    obtain ⟨rfl, rfl, sized⟩ := frameOf_eq_ok.mp framed
    obtain ⟨fits, grown⟩ := foldlM_widenBy_eq_ok.mp read
    exact ⟨fits, grown, sized⟩
  · rintro ⟨fits, grown, sized⟩
    exact ⟨(low', high'), foldlM_widenBy_eq_ok.mpr ⟨fits, grown⟩, frameOf_eq_ok.mpr ⟨rfl, rfl, sized⟩⟩

theorem exists_numbers_foldl_grow (frame : BitVec 16 × BitVec 16) (fits : ∀ e ∈ extents, Representable e) :
    ∃ last, numbers last = extents.foldl grow (numbers frame) := by
  induction extents generalizing frame with
  | nil => exact ⟨frame, rfl⟩
  | cons extent extents hypothesis =>
      obtain ⟨here, later⟩ := List.forall_mem_cons.mp fits
      obtain ⟨bounds, read⟩ := exists_boundsOf_iff.mpr here
      obtain ⟨first, last, _⟩ := boundsOf_eq_ok.mp read
      obtain ⟨next, _, value⟩ := widenFrame_eq frame.1 frame.2 bounds.1 bounds.2
      rw [first, last] at value
      obtain ⟨final, same⟩ := hypothesis next later
      refine ⟨final, ?_⟩
      rw [same, List.foldl_cons]
      exact congrArg (extents.foldl grow) value

/-- The outcome is known from the bounds of the frame. -/
theorem outcome_groundFrame {n : Nat} : outcome (groundFrame low high extents) = some n ↔
    (∀ e ∈ extents, Representable e) ∧ verdict (extents.foldl grow (numbers (low, high))).1
      (extents.foldl grow (numbers (low, high))).2 = some n := by
  constructor
  · intro grounded
    cases result : groundFrame low high extents with
    | error fault =>
        rw [result] at grounded
        cases grounded
    | ok frame =>
        obtain ⟨low', high', size⟩ := frame
        rw [result] at grounded
        obtain rfl : size.toNat = n := Option.some.inj grounded
        obtain ⟨fits, grown, sized⟩ := groundFrame_eq_ok.mp result
        rw [← grown]
        exact ⟨fits, sized⟩
  · rintro ⟨fits, sized⟩
    obtain ⟨last, value⟩ := exists_numbers_foldl_grow (low, high) fits
    rw [← value] at sized
    have least := BitVec.le_toInt last.2
    have most := BitVec.toInt_lt (x := last.2)
    have small : n < 2 ^ 16 := by
      have bounds := verdict_eq_some.mp sized
      change last.2.toInt = 0 ∧ n = 0 ∨ last.2.toInt ≠ 0 ∧ _ ∧ _ ∧ n + 2 = last.2.toInt.natAbs at bounds
      omega
    have word : (BitVec.ofNat 16 n).toNat = n := by rw [BitVec.toNat_ofNat, Nat.mod_eq_of_lt small]
    have grounded : groundFrame low high extents = .ok (last.1, last.2, .ofNat 16 n) := by
      rw [groundFrame_eq_ok, word]
      exact ⟨fits, value, sized⟩
    rw [grounded]
    exact congrArg some word

end Outcomes

section Grounding

/-- The bounds that have been seen so far come from some of the locals. -/
def Seeded (low high : BitVec 16) (extents : List Extent) : Prop :=
  ∃ seen : List Extent, (∀ e ∈ seen, e ∈ extents) ∧ seen.foldlM widenBy (-32767, 0) = .ok (low, high)

/-- The order of the locals does not matter, a frame reaches down to the deepest local, and nothing overflows. -/
structure WellGrounded (low high : BitVec 16) (extents : List Extent) : Prop where
  order : ∀ extents', extents'.Perm extents →
    outcome (groundFrame low high extents') = outcome (groundFrame low high extents)
  covers : ∀ low' high' size, groundFrame low high extents = .ok (low', high', size) → high' ≠ 0 →
    (∃ e ∈ extents, start e = -(size.toNat + 2)) ∧ ∀ e ∈ extents, -(size.toNat + 2) ≤ start e
  total : ∀ low high extents, Total (groundFrame low high extents)

/-- Two locals end equally far below and above zero, at least three bytes from it, and nothing ends closer to it. -/
def Ambiguous (low : BitVec 16) (extents : List Extent) : Prop :=
  (∀ e ∈ extents, Representable e) ∧ ∃ m : Nat, 3 ≤ m ∧ m < low.toInt.natAbs ∧
    (∃ e ∈ extents, stop e = m) ∧ (∃ e ∈ extents, stop e = -m) ∧ ∀ e ∈ extents, m ≤ (stop e).natAbs

variable {low high : BitVec 16} {extents extents' : List Extent}

theorem Seeded.deepest (seeded : Seeded low high extents) :
    high.toInt = 0 ∨ ∃ e ∈ extents, high.toInt = start e := by
  obtain ⟨seen, among, read⟩ := seeded
  obtain ⟨_, grown⟩ := foldlM_widenBy_eq_ok.mp read
  have bound : high.toInt = _ := congrArg Prod.snd grown
  rw [bound]
  rcases high_mem (numbers (-32767, 0)) seen with own | ⟨e, inside, same⟩
  · exact .inl own
  · exact .inr ⟨e, among e inside, same⟩

theorem Seeded.perm (seeded : Seeded low high extents) (same : extents'.Perm extents) : Seeded low high extents' := by
  obtain ⟨seen, among, read⟩ := seeded
  exact ⟨seen, fun e inside => same.mem_iff.mpr (among e inside), read⟩

theorem Seeded.deepest_nonpos (seeded : Seeded low high extents) (locals : ∀ e ∈ extents, start e ≤ 0) :
    (extents.foldl grow (numbers (low, high))).2 ≤ 0 := by
  rcases high_mem (numbers (low, high)) extents with own | ⟨e, inside, same⟩
  · rw [own]
    change high.toInt ≤ 0
    rcases seeded.deepest with zero | ⟨e, inside, same⟩
    · omega
    · have := locals e inside
      omega
  · have := locals e inside
    omega

theorem deepest_le_of_perm (frame : Int × Int) (same : extents'.Perm extents) :
    (extents'.foldl grow frame).2.natAbs ≤ (extents.foldl grow frame).2.natAbs := by
  rcases high_mem frame extents' with own | ⟨e, inside, value⟩
  · rw [own]
    exact (high_most _ _).1
  · rw [value]
    exact (high_most _ _).2 e (same.mem_iff.mp inside)

theorem shallowest_le_of_perm (frame : Int × Int) (same : extents'.Perm extents) :
    (extents'.foldl grow frame).1.natAbs ≤ (extents.foldl grow frame).1.natAbs := by
  rcases low_mem frame extents with own | ⟨e, inside, value⟩
  · rw [own]
    exact (low_least _ _).1
  · rw [value]
    exact (low_least _ _).2 e (same.mem_iff.mpr inside)

/-- The deepest start does not depend on the order. -/
theorem deepest_perm (seeded : Seeded low high extents) (locals : ∀ e ∈ extents, start e ≤ 0)
    (same : extents'.Perm extents) : (extents'.foldl grow (numbers (low, high))).2 =
      (extents.foldl grow (numbers (low, high))).2 := by
  have first := seeded.deepest_nonpos locals
  have second := (seeded.perm same).deepest_nonpos fun e inside => locals e (same.mem_iff.mp inside)
  have up := deepest_le_of_perm (numbers (low, high)) same
  have down := deepest_le_of_perm (numbers (low, high)) same.symm
  omega

/-- The shallowest end may only differ in its sign, and then both signs occur among the locals. -/
theorem shallowest_perm {frame : Int × Int} (same : extents'.Perm extents)
    (other : (extents'.foldl grow frame).1 ≠ (extents.foldl grow frame).1) :
    ∃ m : Nat, (extents'.foldl grow frame).1.natAbs = m ∧ (extents.foldl grow frame).1.natAbs = m ∧
      m < frame.1.natAbs ∧ (∃ e ∈ extents, stop e = m) ∧ (∃ e ∈ extents, stop e = -m) ∧
        ∀ e ∈ extents, m ≤ (stop e).natAbs := by
  have up := shallowest_le_of_perm frame same
  have down := shallowest_le_of_perm frame same.symm
  have beaten : (extents.foldl grow frame).1.natAbs < frame.1.natAbs := by
    apply Nat.lt_of_le_of_ne (low_least _ _).1
    intro closest
    have kept : (extents.foldl grow frame).1 = frame.1 := low_kept fun e inside => closest ▸ (low_least _ _).2 e inside
    have kept' : (extents'.foldl grow frame).1 = frame.1 := low_kept fun e inside =>
      closest ▸ (low_least _ _).2 e (same.mem_iff.mp inside)
    exact other (kept'.trans kept.symm)
  have ends : ∃ e ∈ extents, (extents.foldl grow frame).1 = stop e := by
    rcases low_mem frame extents with own | ended
    · rw [own] at beaten
      omega
    · exact ended
  have ends' : ∃ e ∈ extents, (extents'.foldl grow frame).1 = stop e := by
    rcases low_mem frame extents' with own | ⟨e, inside, ended⟩
    · rw [own] at up down
      omega
    · exact ⟨e, same.mem_iff.mp inside, ended⟩
  refine ⟨_, Nat.le_antisymm up down, rfl, beaten, ?_, ?_, (low_least _ _).2⟩
  · rcases Int.natAbs_eq (extents.foldl grow frame).1 with positive | negative
    · obtain ⟨e, inside, ended⟩ := ends
      exact ⟨e, inside, by omega⟩
    · obtain ⟨e, inside, ended⟩ := ends'
      exact ⟨e, inside, by omega⟩
  · rcases Int.natAbs_eq (extents.foldl grow frame).1 with positive | negative
    · obtain ⟨e, inside, ended⟩ := ends'
      exact ⟨e, inside, by omega⟩
    · obtain ⟨e, inside, ended⟩ := ends
      exact ⟨e, inside, by omega⟩

/-- A frame is as deep as its deepest local. -/
theorem grounded_covers (seeded : Seeded low high extents) (locals : ∀ e ∈ extents, start e ≤ 0)
    {low' high' size : BitVec 16} (grounded : groundFrame low high extents = .ok (low', high', size))
    (frame : high' ≠ 0) :
    (∃ e ∈ extents, start e = -(size.toNat + 2)) ∧ ∀ e ∈ extents, -(size.toNat + 2) ≤ start e := by
  obtain ⟨_, grown, sized⟩ := groundFrame_eq_ok.mp grounded
  have bound : high'.toInt = _ := congrArg Prod.snd grown
  have nonpos := seeded.deepest_nonpos locals
  have most := high_most (numbers (low, high)) extents
  rw [← bound] at nonpos most
  have some : high'.toInt ≠ 0 := fun zero => frame (BitVec.eq_of_toInt_eq zero)
  have depth : high'.toInt = -(size.toNat + 2) := by
    have bounds := verdict_eq_some.mp sized
    omega
  constructor
  · rw [← depth, bound]
    rcases high_mem (numbers (low, high)) extents with own | ⟨e, inside, same⟩
    · rcases seeded.deepest with zero | ⟨e, inside, same⟩
      · exact absurd (bound.trans (own.trans zero)) some
      · exact ⟨e, inside, same.symm.trans own.symm⟩
    · exact ⟨e, inside, same.symm⟩
  · intro e inside
    have farthest := most.2 e inside
    have below := locals e inside
    omega

/-- When the shallowest end may be either of two, the first of them decides whether there is a frame. -/
theorem outcome_of_first {m : Nat} {e f : Extent} (seeded : Seeded low high extents)
    (locals : ∀ e ∈ extents, start e ≤ 0) (fits : ∀ e ∈ extents, Representable e) (far : 3 ≤ m)
    (beaten : m < low.toInt.natAbs) (inside : e ∈ extents) (ended : (stop e).natAbs = m) (below : f ∈ extents)
    (endedBelow : stop f = -m) (closest : ∀ e ∈ extents, m ≤ (stop e).natAbs) :
    (outcome (groundFrame low high (e :: extents.erase e))).isSome = true ↔ stop e = m := by
  have same := List.perm_cons_erase inside
  have lowest : ((e :: extents.erase e).foldl grow (numbers (low, high))).1 = stop e := by
    rw [List.foldl_cons]
    have first : (grow (numbers (low, high)) e).1 = stop e := if_pos (by rw [ended]; exact beaten)
    rw [low_kept fun g among => ?_, first]
    rw [first, ended]
    exact closest g (List.mem_of_mem_erase among)
  have deepest := deepest_perm seeded locals same.symm
  have nonpos := seeded.deepest_nonpos locals
  have most := (high_most (numbers (low, high)) extents).2 f below
  have start_le : start f ≤ stop f := by
    unfold start stop
    omega
  rw [Option.isSome_iff_exists]
  simp only [outcome_groundFrame, lowest, deepest, verdict_eq_some]
  constructor
  · rintro ⟨n, _, sized⟩
    omega
  · intro above
    refine ⟨(extents.foldl grow (numbers (low, high))).2.natAbs - 2, fun g among => fits g (same.mem_iff.mpr among), ?_⟩
    omega

/-- Grounding has these properties unless the shallowest end is ambiguous. -/
theorem wellGrounded_iff (seeded : Seeded low high extents) (locals : ∀ e ∈ extents, start e ≤ 0) :
    WellGrounded low high extents ↔ ¬ Ambiguous low extents := by
  constructor
  · rintro grounds ⟨fits, m, far, beaten, ⟨above, aboveInside, endedAbove⟩, ⟨below, belowInside, endedBelow⟩, closest⟩
    have first := outcome_of_first seeded locals fits far beaten aboveInside (by omega) belowInside endedBelow closest
    have second := outcome_of_first seeded locals fits far beaten belowInside (by omega) belowInside endedBelow closest
    rw [grounds.order _ (List.perm_cons_erase aboveInside).symm] at first
    rw [grounds.order _ (List.perm_cons_erase belowInside).symm] at second
    have wrong := second.mp (first.mpr endedAbove)
    omega
  · intro clear
    refine ⟨fun extents' same => ?_, fun _ _ _ => grounded_covers seeded locals, total_groundFrame⟩
    apply Option.ext
    intro n
    rw [outcome_groundFrame, outcome_groundFrame, deepest_perm seeded locals same]
    have members : (∀ e ∈ extents', Representable e) ↔ ∀ e ∈ extents, Representable e :=
      forall_congr' fun e => imp_congr_left same.mem_iff
    rw [members, verdict_eq_some, verdict_eq_some]
    apply and_congr_right
    intro fits
    by_cases other : (extents'.foldl grow (numbers (low, high))).1 = (extents.foldl grow (numbers (low, high))).1
    · rw [other]
    · obtain ⟨m, first, second, beaten, above, ⟨f, below, ended⟩, closest⟩ := shallowest_perm same other
      have near : m < 3 := by
        by_contra far
        exact clear ⟨fits, m, Nat.not_lt.mp far, beaten, above, ⟨f, below, ended⟩, closest⟩
      have most := (high_most (numbers (low, high)) extents).2 f below
      have nonpos := seeded.deepest_nonpos locals
      have start_le : start f ≤ stop f := by
        unfold start stop
        omega
      omega

/-- A frame of saved registers whose deepest locals have been seen in expressions. -/
theorem saved_registers_are_wellGrounded : WellGrounded (-4) (-6) [(-2, 2), (-4, 2), (-6, 2), (-8, 2)] := by
  have seeded : Seeded (-4) (-6) [(-2, 2), (-4, 2), (-6, 2), (-8, 2)] := ⟨[(-6, 2)], by simp, rfl⟩
  refine (wellGrounded_iff seeded (by simp [start])).mpr ?_
  rintro ⟨_, m, far, _, _, _, closest⟩
  have ended : (stop (-2, 2)).natAbs = 0 := by decide
  have := closest (-2, 2) List.mem_cons_self
  omega

/-- A byte ends three bytes below zero and a double word three bytes above it. The byte comes first in the table, and
the frame is rejected. -/
theorem straddling_locals_depend_on_order : ¬ WellGrounded (-32767) 0 [(-4, 1), (-1, 4)] := by
  intro grounds
  have swapped := grounds.order [(-1, 4), (-4, 1)] (List.Perm.swap _ _ [])
  have rejected : outcome (groundFrame (-32767) 0 [(-4, 1), (-1, 4)]) = none := by decide
  have accepted : outcome (groundFrame (-32767) 0 [(-1, 4), (-4, 1)]) = some 2 := by decide
  rw [rejected, accepted] at swapped
  cases swapped

end Grounding

end Dis86.Ast.Frame
