import Mathlib.Data.BitVec
import Mathlib.Tactic.Common

namespace Dis86.Lib

variable {v w : Nat}

/-- A word read as a signed or an unsigned number. -/
def reading (signed : Bool) (x : BitVec w) : Int := if signed then x.toInt else x.toNat

/-- The product of two words in twice the width. -/
def product (signed : Bool) (a b : BitVec w) : BitVec (w + w) :=
  .ofInt (w + w) (reading signed a * reading signed b)

/-- The quotient and the remainder of a division that rounds towards zero. The divisor must not be zero,
and the quotient must fit. -/
def divide? (signed : Bool) (dividend : BitVec (w + w)) (divisor : BitVec w) : Option (BitVec w × BitVec w) :=
  let n := reading signed dividend
  let d := reading signed divisor
  if d ≠ 0 ∧ reading signed (BitVec.ofInt w (n.tdiv d)) = n.tdiv d then
    some (.ofInt w (n.tdiv d), .ofInt w (n.tmod d))
  else none

def extendTo (v : Nat) (signed : Bool) (x : BitVec w) : BitVec v :=
  if signed then x.signExtend v else x.setWidth v

def quotient (signed : Bool) (a b : BitVec w) : BitVec w := if signed then a.sdiv b else a / b

def remainder (signed : Bool) (a b : BitVec w) : BitVec w := if signed then a.srem b else a % b

theorem setWidth_ofInt (narrower : v ≤ w) (i : Int) : (BitVec.ofInt w i).setWidth v = BitVec.ofInt v i := by
  apply BitVec.eq_of_toNat_eq
  have divides : ((2 ^ v : Nat) : Int) ∣ ((2 ^ w : Nat) : Int) :=
    Int.natCast_dvd_natCast.mpr (Nat.pow_dvd_pow 2 narrower)
  have nonneg : 0 ≤ i % ((2 ^ w : Nat) : Int) := Int.emod_nonneg _ (by exact_mod_cast (Nat.two_pow_pos w).ne')
  rw [BitVec.toNat_setWidth, BitVec.toNat_ofInt, BitVec.toNat_ofInt, ← Int.emod_emod_of_dvd i divides,
    Int.toNat_emod nonneg (Int.natCast_nonneg _), Int.toNat_natCast]

/-- A word is extended by its number. -/
theorem extendTo_eq (signed : Bool) (x : BitVec w) : extendTo v signed x = BitVec.ofInt v (reading signed x) := by
  cases signed with
  | true => rfl
  | false =>
      rw [extendTo, reading, if_neg Bool.false_ne_true, if_neg Bool.false_ne_true, BitVec.ofInt_natCast,
        BitVec.ofNat_toNat]

theorem ofInt_reading (signed : Bool) (x : BitVec w) : BitVec.ofInt w (reading signed x) = x := by
  rw [← extendTo_eq]
  cases signed <;> simp [extendTo]

theorem reading_extendTo (wider : w ≤ v) (signed : Bool) (x : BitVec w) :
    reading signed (extendTo v signed x) = reading signed x := by
  cases signed with
  | true => exact BitVec.toInt_signExtend_of_le wider
  | false =>
      have small : x.toNat < 2 ^ v := lt_of_lt_of_le x.isLt (Nat.pow_le_pow_right (by decide) wider)
      simp [reading, extendTo, Nat.mod_eq_of_lt small]

theorem reading_eq_zero_iff (signed : Bool) (x : BitVec w) : reading signed x = 0 ↔ x = 0 := by
  constructor
  · intro zero
    rw [← ofInt_reading signed x, zero]
    simp
  · rintro rfl
    cases signed <;> simp [reading]

theorem quotient_eq (signed : Bool) (a b : BitVec w) :
    quotient signed a b = BitVec.ofInt w ((reading signed a).tdiv (reading signed b)) := by
  cases signed with
  | true =>
      apply BitVec.eq_of_toInt_eq
      rw [BitVec.toInt_ofInt]
      exact BitVec.toInt_sdiv a b
  | false =>
      have whole : (reading false a).tdiv (reading false b) = ((a / b).toNat : Int) := by
        rw [BitVec.toNat_udiv]
        exact (Int.ofNat_tdiv _ _).symm
      rw [whole, BitVec.ofInt_natCast, BitVec.ofNat_toNat, BitVec.setWidth_eq]
      rfl

theorem remainder_eq (signed : Bool) (a b : BitVec w) :
    remainder signed a b = BitVec.ofInt w ((reading signed a).tmod (reading signed b)) := by
  cases signed with
  | true =>
      rw [← BitVec.ofInt_toInt (x := remainder true a b)]
      exact congrArg (BitVec.ofInt w) (BitVec.toInt_srem a b)
  | false =>
      have whole : (reading false a).tmod (reading false b) = ((a % b).toNat : Int) := by
        rw [BitVec.toNat_umod]
        exact (Int.ofNat_tmod _ _).symm
      rw [whole, BitVec.ofInt_natCast, BitVec.ofNat_toNat, BitVec.setWidth_eq]
      rfl

/-- A product of extended words is the product of the words. -/
theorem product_eq (signed : Bool) (a b : BitVec w) (wider : w + w ≤ v) :
    product signed a b = (extendTo v signed a * extendTo v signed b).setWidth (w + w) := by
  rw [extendTo_eq, extendTo_eq, ← BitVec.ofInt_mul, setWidth_ofInt wider]
  rfl

/-- A division of extended words is a division of the words. -/
theorem quotient_extendTo (wider : w ≤ v) (signed : Bool) (a b : BitVec w) :
    (quotient signed (extendTo v signed a) (extendTo v signed b)).setWidth w = quotient signed a b := by
  rw [quotient_eq, setWidth_ofInt wider, reading_extendTo wider, reading_extendTo wider, quotient_eq]

theorem remainder_extendTo (wider : w ≤ v) (signed : Bool) (a b : BitVec w) :
    (remainder signed (extendTo v signed a) (extendTo v signed b)).setWidth w = remainder signed a b := by
  rw [remainder_eq, setWidth_ofInt wider, reading_extendTo wider, reading_extendTo wider, remainder_eq]

theorem extendTo_eq_zero_iff (wider : w ≤ v) (signed : Bool) (x : BitVec w) : extendTo v signed x = 0 ↔ x = 0 := by
  rw [← reading_eq_zero_iff signed, reading_extendTo wider, reading_eq_zero_iff]

/-- A word loses nothing in fewer bits just when a word of these has its number. -/
theorem narrow_iff (narrower : w ≤ v) {signed : Bool} {x : BitVec v} {y : BitVec w} :
    x = extendTo v signed (x.setWidth w) ∧ x.setWidth w = y ↔ reading signed y = reading signed x := by
  constructor
  · rintro ⟨same, rfl⟩
    rw [← reading_extendTo narrower, ← same]
  · intro same
    have back : x = extendTo v signed y := by rw [extendTo_eq, same, ofInt_reading]
    have kept : x.setWidth w = y := by rw [back, extendTo_eq, setWidth_ofInt narrower, ofInt_reading]
    exact ⟨kept.symm ▸ back, kept⟩

/-- A number between the bounds of a signed word has a word. -/
theorem exists_toInt (positive : 0 < w) {z : Int} (low : -2 ^ (w - 1) ≤ z) (high : z < 2 ^ (w - 1)) :
    ∃ x : BitVec w, x.toInt = z := by
  obtain ⟨n, rfl⟩ := Nat.exists_eq_succ_of_ne_zero positive.ne'
  refine ⟨.ofInt _ z, ?_⟩
  have double : ((2 ^ n.succ : Nat) : Int) = 2 ^ n * 2 := by
    rw [Nat.cast_pow, pow_succ]
    rfl
  change -2 ^ n ≤ z at low
  change z < 2 ^ n at high
  rw [BitVec.toInt_ofInt]
  exact Int.bmod_eq_of_le (by omega) (by omega)

end Dis86.Lib
