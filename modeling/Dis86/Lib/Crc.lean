import Mathlib.Data.BitVec
import Mathlib.Logic.Function.Iterate
import Mathlib.Tactic.Common

namespace Dis86.Lib.Crc

/-- A division step of a reflected register, which has its low bit first. -/
def step {w : Nat} (poly c : BitVec w) : BitVec w :=
  (c >>> 1) ^^^ if c.getLsbD 0 then poly else 0

/-- A bit of the message enters at the low end. -/
def feed {w : Nat} (poly c : BitVec w) (b : Bool) : BitVec w :=
  step poly (c ^^^ (BitVec.ofBool b).setWidth w)

/-- The first bit of a message is the lowest bit of the word. -/
def word (w : Nat) (bits : List Bool) : BitVec w := (BitVec.ofBoolListLE bits).setWidth w

def bitsOf {k : Nat} (x : BitVec k) : List Bool := List.ofFn fun i : Fin k => x.getLsbD i

/-- Two messages of a length agree outside `n` bits from `s` on. -/
structure AgreeOutside (s n : Nat) (bits bits' : List Bool) : Prop where
  length : bits.length = bits'.length
  before : ∀ i < s, bits[i]? = bits'[i]?
  after : ∀ i, s + n ≤ i → bits[i]? = bits'[i]?

section
variable {w : Nat} {poly : BitVec w}

theorem width_pos (top : poly.msb = true) : 0 < w := by
  cases w with
  | zero => exact absurd top (by simp [BitVec.msb, BitVec.getMsbD])
  | succ w => exact Nat.succ_pos w

theorem step_getLsbD (c : BitVec w) (i : Nat) :
    (step poly c).getLsbD i = (c.getLsbD (1 + i) ^^ (c.getLsbD 0 && poly.getLsbD i)) := by
  unfold step
  rw [BitVec.getLsbD_xor, BitVec.getLsbD_ushiftRight]
  cases c.getLsbD 0 <;> simp

/-- The top bit of the polynomial tells which step was made. -/
theorem step_injective (top : poly.msb = true) : Function.Injective (step poly) := by
  have pos := width_pos top
  have last : poly.getLsbD (w - 1) = true := by rwa [BitVec.msb_eq_getLsbD_last] at top
  intro a b same
  have bit (i : Nat) : (a.getLsbD (1 + i) ^^ (a.getLsbD 0 && poly.getLsbD i)) =
      (b.getLsbD (1 + i) ^^ (b.getLsbD 0 && poly.getLsbD i)) := by
    rw [← step_getLsbD, ← step_getLsbD, same]
  have low : a.getLsbD 0 = b.getLsbD 0 := by
    have high := bit (w - 1)
    rw [show 1 + (w - 1) = w by omega, BitVec.getLsbD_of_ge a w (Nat.le_refl w),
      BitVec.getLsbD_of_ge b w (Nat.le_refl w), last] at high
    simpa using high
  apply BitVec.eq_of_getLsbD_eq
  intro i _
  cases i with
  | zero => exact low
  | succ i =>
      have high := bit i
      rw [low] at high
      rw [Nat.add_comm i 1]
      exact Bool.xor_left_inj.mp high

/-- Bits that are still above the low end do not take part in a step. -/
theorem step_xor_shift (c r : BitVec w) (clear : ∀ i, w ≤ i + 1 → r.getLsbD i = false) :
    step poly (c ^^^ (r <<< 1)) = step poly c ^^^ r := by
  apply BitVec.eq_of_getLsbD_eq
  intro i inside
  have low : (c ^^^ (r <<< 1)).getLsbD 0 = c.getLsbD 0 := by
    rw [BitVec.getLsbD_xor, BitVec.getLsbD_shiftLeft]
    simp
  have next : (r <<< 1).getLsbD (1 + i) = r.getLsbD i := by
    rw [BitVec.getLsbD_shiftLeft, Nat.add_sub_cancel_left]
    by_cases high : 1 + i < w
    · simp [high]
    · simp [high, clear i (by omega)]
  rw [step_getLsbD, low, BitVec.getLsbD_xor, next, BitVec.getLsbD_xor, step_getLsbD,
    Bool.xor_assoc, Bool.xor_assoc, Bool.xor_comm (r.getLsbD i)]

@[simp] theorem word_getElem (bits : List Bool) (i : Nat) (inside : i < w) :
    (word w bits)[i] = bits.getD i false := by
  simp [word]

theorem word_cons (b : Bool) (bits : List Bool) :
    word w (b :: bits) = (BitVec.ofBool b).setWidth w ^^^ (word w bits <<< 1) := by
  apply BitVec.eq_of_getElem_eq
  intro i inside
  cases i with
  | zero => cases b <;> simp
  | succ i => simp

theorem word_injective {bits bits' : List Bool} (length : bits.length = bits'.length)
    (fits : bits.length ≤ w) (same : word w bits = word w bits') : bits = bits' := by
  apply List.ext_getElem length
  intro i inside inside'
  have bit : (word w bits)[i] = (word w bits')[i] := by rw [same]
  simpa [inside, inside'] using bit

/-- As many bits as the register has are the same as a word that enters at once. -/
theorem foldl_feed (poly c : BitVec w) (bits : List Bool) (fits : bits.length ≤ w) :
    bits.foldl (feed poly) c = (step poly)^[bits.length] (c ^^^ word w bits) := by
  induction bits generalizing c with
  | nil => simp [word, BitVec.ofBoolListLE]
  | cons b bits ih =>
      have clear : ∀ i, w ≤ i + 1 → (word w bits).getLsbD i = false := by
        intro i high
        have short : bits.length ≤ i := by
          rw [List.length_cons] at fits
          omega
        simp [word, List.getElem?_eq_none short]
      rw [List.foldl_cons, ih _ (Nat.le_of_succ_le fits), List.length_cons,
        Function.iterate_succ_apply, word_cons, ← BitVec.xor_assoc, step_xor_shift _ _ clear]
      rfl

theorem word_bitsOf {k : Nat} (x : BitVec k) : word w (bitsOf x) = x.setWidth w := by
  apply BitVec.eq_of_getElem_eq
  intro i inside
  by_cases low : i < k
  · simp [bitsOf, low]
  · simp [bitsOf, low, BitVec.getLsbD_of_ge x i (by omega)]

theorem foldl_feed_injective (top : poly.msb = true) (bits : List Bool) :
    Function.Injective fun c => bits.foldl (feed poly) c := by
  induction bits with
  | nil => exact fun _ _ same => same
  | cons b bits ih =>
      intro c c' same
      exact BitVec.xor_left_inj _ |>.mp (step_injective top (ih same))

/-- A burst no longer than the register always changes the remainder. -/
theorem foldl_feed_ne {bits bits' : List Bool} {s n : Nat} (c : BitVec w)
    (top : poly.msb = true) (short : n ≤ w) (agree : AgreeOutside s n bits bits')
    (changed : bits ≠ bits') : bits.foldl (feed poly) c ≠ bits'.foldl (feed poly) c := by
  have early : bits.take s = bits'.take s := by
    apply List.ext_getElem?
    intro i
    by_cases inside : i < s
    · simp [inside, agree.before i inside]
    · simp [inside]
  have late : bits.drop (s + n) = bits'.drop (s + n) := by
    apply List.ext_getElem?
    intro i
    simpa using agree.after (s + n + i) (Nat.le_add_right _ _)
  have split (m : List Bool) : m = m.take s ++ ((m.drop s).take n ++ m.drop (s + n)) := by
    rw [← List.drop_drop, List.take_append_drop, List.take_append_drop]
  have lengths : ((bits.drop s).take n).length = ((bits'.drop s).take n).length := by
    simp [agree.length]
  have fits (m : List Bool) : ((m.drop s).take n).length ≤ w :=
    (List.length_take_le _ _).trans short
  intro same
  apply changed
  rw [split bits, split bits', early, late] at same ⊢
  simp only [List.foldl_append] at same
  have middle := foldl_feed_injective top _ same
  rw [foldl_feed _ _ _ (fits bits), foldl_feed _ _ _ (fits bits'), lengths] at middle
  have words := BitVec.xor_right_inj _ |>.mp ((step_injective top).iterate _ middle)
  rw [word_injective lengths (fits bits) words]

end

/-- The bytes of a message enter with their low bit first. -/
def bytesBits (bytes : List (BitVec 8)) : List Bool := bytes.flatMap bitsOf

@[simp] theorem bitsOf_length {k : Nat} (x : BitVec k) : (bitsOf x).length = k := by
  simp [bitsOf]

theorem bytesBits_length (bytes : List (BitVec 8)) :
    (bytesBits bytes).length = 8 * bytes.length := by
  induction bytes with
  | nil => rfl
  | cons x bytes ih =>
      rw [bytesBits, List.flatMap_cons, List.length_append, bitsOf_length, List.length_cons]
      rw [bytesBits] at ih
      omega

theorem bytesBits_append (bytes more : List (BitVec 8)) :
    bytesBits (bytes ++ more) = bytesBits bytes ++ bytesBits more := List.flatMap_append

/-- The bits are cut where the bytes are cut. -/
theorem bytesBits_cut (bytes : List (BitVec 8)) (k : Nat) (inside : k ≤ bytes.length) :
    (bytesBits bytes).take (8 * k) = bytesBits (bytes.take k) ∧
      (bytesBits bytes).drop (8 * k) = bytesBits (bytes.drop k) := by
  have joined : bytesBits bytes = bytesBits (bytes.take k) ++ bytesBits (bytes.drop k) := by
    rw [← bytesBits_append, List.take_append_drop]
  have length : (bytesBits (bytes.take k)).length = 8 * k := by
    rw [bytesBits_length, List.length_take, Nat.min_eq_left inside]
  rw [joined]
  exact ⟨List.take_left' length, List.drop_left' length⟩

theorem bytesBits_getElem? (bytes : List (BitVec 8)) (i j : Nat) (low : j < 8) :
    (bytesBits bytes)[8 * i + j]? = bytes[i]?.map fun x => x.getLsbD j := by
  induction bytes generalizing i with
  | nil => rfl
  | cons x bytes ih =>
      rw [bytesBits, List.flatMap_cons]
      cases i with
      | zero =>
          rw [Nat.mul_zero, Nat.zero_add, List.getElem?_append_left (by rwa [bitsOf_length]),
            bitsOf, List.getElem?_ofFn, dif_pos low]
          rfl
      | succ i =>
          rw [List.getElem?_append_right (by rw [bitsOf_length]; omega), bitsOf_length,
            show 8 * (i + 1) + j - 8 = 8 * i + j by omega, List.getElem?_cons_succ]
          exact ih i

/-- A byte is known from its eight bits. -/
theorem getElem?_of_bits {bytes bytes' : List (BitVec 8)} {i : Nat}
    (same : ∀ j < 8, (bytesBits bytes)[8 * i + j]? = (bytesBits bytes')[8 * i + j]?) :
    bytes[i]? = bytes'[i]? := by
  have bit (j : Nat) (low : j < 8) :
      bytes[i]?.map (fun x => x.getLsbD j) = bytes'[i]?.map (fun x => x.getLsbD j) := by
    rw [← bytesBits_getElem? _ _ _ low, ← bytesBits_getElem? _ _ _ low, same j low]
  cases found : bytes[i]? with
  | none => simpa [found, eq_comm] using bit 0 (by decide)
  | some x =>
      cases found' : bytes'[i]? with
      | none => simpa [found, found'] using bit 0 (by decide)
      | some x' =>
          congr 1
          apply BitVec.eq_of_getLsbD_eq
          intro j low
          simpa [found, found'] using bit j low

theorem bytesBits_injective {bytes bytes' : List (BitVec 8)}
    (same : bytesBits bytes = bytesBits bytes') : bytes = bytes' := by
  apply List.ext_getElem?
  intro i
  exact getElem?_of_bits fun j _ => by rw [same]

/-- A field of the message that is replaced does not touch a burst beside it. -/
theorem AgreeOutside.replace {s n a b : Nat} {bits bits' : List Bool} (field : List Bool)
    (agree : AgreeOutside s n bits bits') (size : field.length = b - a) (order : a ≤ b)
    (apart : s + n ≤ a ∨ b ≤ s) (inside : b ≤ bits.length) :
    AgreeOutside s n (bits.take a ++ field ++ bits.drop b)
      (bits'.take a ++ field ++ bits'.drop b) := by
  have inside' : b ≤ bits'.length := agree.length ▸ inside
  have at' (m : List Bool) (long : b ≤ m.length) (i : Nat) :
      (m.take a ++ field ++ m.drop b)[i]? =
        if i < a then m[i]? else if i < b then field[i - a]? else m[i]? := by
    have start : (m.take a).length = a := by simp; omega
    rw [List.append_assoc]
    by_cases first : i < a
    · rw [List.getElem?_append_left (by omega), List.getElem?_take, if_pos first, if_pos first]
    rw [List.getElem?_append_right (by omega), start, if_neg first]
    by_cases second : i < b
    · rw [List.getElem?_append_left (by omega), if_pos second]
    · rw [List.getElem?_append_right (by omega), List.getElem?_drop, if_neg second]
      congr 1
      omega
  refine ⟨?_, ?_, ?_⟩
  · simp [agree.length]
  · intro i early
    rw [at' bits inside, at' bits' inside', agree.before i early]
  · intro i late
    rw [at' bits inside, at' bits' inside', agree.after i late]

end Dis86.Lib.Crc
