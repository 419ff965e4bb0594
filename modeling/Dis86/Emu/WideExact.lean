import Dis86.Emu.AluExact
import Dis86.Lib.WordArith

namespace Dis86.Emu
open Lib (Outcome reading product divide? extendTo)

namespace Width

/-- A value of twice the width. -/
def doubleValue (w : Width) (p : BitVec (w.bits + w.bits)) : Value :=
  match w with
  | byte => .u16 p
  | word => .u32 p

end Width

def MultiplyOp.signed : MultiplyOp → Bool
  | .Unsigned => false
  | .Signed => true

def DivideOp.signed : DivideOp → Bool
  | .Unsigned => false
  | .Signed => true

section Multiply

variable {n : Nat}

/-- The low half of a product has lost something. -/
def losesHigh (signed : Bool) (p : BitVec (n + n)) : Bool := reading signed (p.setWidth n) != reading signed p

/-- The unsigned multiplication reports a product of zero. -/
def MultiplyOp.report (op : MultiplyOp) (x y : BitVec n) : Flag → Option Bool
  | .CF | .OF => some (losesHigh op.signed (product op.signed x y))
  | .ZF => if op.signed then none else some (product op.signed x y == 0)
  | _ => none

theorem losesHigh_eq (signed : Bool) (p : BitVec (n + n)) :
    losesHigh signed p = (p != extendTo (n + n) signed (p.setWidth n)) := by
  have narrow : p = extendTo (n + n) signed (p.setWidth n) ∧ p.setWidth n = p.setWidth n ↔
      reading signed (p.setWidth n) = reading signed p := Lib.narrow_iff (Nat.le_add_left n n)
  rw [losesHigh, Bool.eq_iff_iff, bne_iff_ne, bne_iff_ne, ne_eq, ne_eq, not_iff_not, ← narrow]
  simp

variable (f : Flags) (w : Width) (x y : BitVec w.bits)

/-- The unsigned product in the wide register has no loss. -/
def wideProduct : BitVec 32 := (x.setWidth 16).setWidth 32 * (y.setWidth 16).setWidth 32

theorem wideProduct_toNat : (wideProduct w x y).toNat = x.toNat * y.toNat := by
  have bits := w.bits_bounds
  have boundX := Nat.lt_of_lt_of_le x.isLt (Nat.pow_le_pow_right Nat.two_pos bits.2)
  have boundY := Nat.lt_of_lt_of_le y.isLt (Nat.pow_le_pow_right Nat.two_pos bits.2)
  have small := Nat.mul_lt_mul'' boundX boundY
  rw [← Nat.pow_add] at small
  simp only [wideProduct, BitVec.toNat_mul, BitVec.toNat_setWidth]
  rw [Nat.mod_eq_of_lt boundX, Nat.mod_eq_of_lt boundY, Nat.mod_eq_of_lt (by omega : x.toNat < 2 ^ 32),
    Nat.mod_eq_of_lt (by omega : y.toNat < 2 ^ 32), Nat.mod_eq_of_lt small]

theorem product_toNat {n : Nat} (x y : BitVec n) : (product false x y).toNat = x.toNat * y.toNat := by
  have small : x.toNat * y.toNat < 2 ^ (n + n) := by
    rw [Nat.pow_add]
    exact Nat.mul_lt_mul'' x.isLt y.isLt
  rw [product, reading, reading, if_neg Bool.false_ne_true, if_neg Bool.false_ne_true, ← Int.natCast_mul,
    BitVec.ofInt_natCast, BitVec.toNat_ofNat, Nat.mod_eq_of_lt small]

theorem wideProduct_setWidth : (wideProduct w x y).setWidth (w.bits + w.bits) = product false x y := by
  apply BitVec.eq_of_toNat_eq
  have bound := (product false x y).isLt
  rw [product_toNat] at bound
  rw [BitVec.toNat_setWidth, wideProduct_toNat, product_toNat, Nat.mod_eq_of_lt bound]

theorem valueMask_and (r : BitVec 32) : (r &&& w.valueMask.setWidth 32).toNat = r.toNat % 2 ^ w.bits := by
  rw [BitVec.toNat_and]
  cases w with
  | byte => exact Nat.and_two_pow_sub_one_eq_mod r.toNat 8
  | word => exact Nat.and_two_pow_sub_one_eq_mod r.toNat 16

theorem wideProduct_loses :
    (wideProduct w x y &&& w.valueMask.setWidth 32 != wideProduct w x y) = losesHigh false (product false x y) := by
  rw [Bool.eq_iff_iff, bne_iff_ne, losesHigh, bne_iff_ne, ne_eq, ne_eq, not_iff_not, ← BitVec.toNat_inj,
    valueMask_and, wideProduct_toNat, reading, reading, if_neg Bool.false_ne_true, if_neg Bool.false_ne_true,
    BitVec.toNat_setWidth, product_toNat]
  exact Int.natCast_inj.symm

theorem wideProduct_zero : (wideProduct w x y == 0) = (product false x y == 0) := by
  rw [Bool.eq_iff_iff, beq_iff_eq, beq_iff_eq, ← BitVec.toNat_inj, ← BitVec.toNat_inj, wideProduct_toNat,
    product_toNat]
  rfl

theorem packDouble_eq (r : BitVec 32) : w.packDouble r = w.doubleValue (r.setWidth (w.bits + w.bits)) := by
  cases w with
  | byte => rfl
  | word => exact congrArg Value.u32 (BitVec.setWidth_eq r).symm

theorem signedProduct_setWidth :
    (Alu.signedProduct w (x.setWidth 16) (y.setWidth 16)).setWidth (w.bits + w.bits) = product true x y := by
  rw [Lib.product_eq true x y (Nat.le_refl _), BitVec.setWidth_eq]
  cases w with
  | byte =>
      have back (z : BitVec 8) : (z.setWidth 16).setWidth 8 = z := by
        rw [BitVec.setWidth_setWidth_of_le _ (by decide), BitVec.setWidth_eq]
      have same (r : BitVec 16) : (r.setWidth 32).setWidth 16 = r := by
        rw [BitVec.setWidth_setWidth_of_le _ (by decide), BitVec.setWidth_eq]
      exact (same _).trans (congrArg₂ (fun x y : BitVec 8 => x.signExtend 16 * y.signExtend 16) (back x) (back y))
  | word =>
      have same (z : BitVec 16) : z.setWidth 16 = z := BitVec.setWidth_eq z
      exact (BitVec.setWidth_eq _).trans
        (congrArg₂ (fun x y : BitVec 16 => x.signExtend 32 * y.signExtend 32) (same x) (same y))

theorem signedLoses_eq (r : BitVec 32) : Alu.signedLoses w r = losesHigh true (r.setWidth (w.bits + w.bits)) := by
  rw [losesHigh_eq]
  cases w with
  | byte =>
      have low : (r &&& 0xff).setWidth 8 = (r.setWidth 16).setWidth 8 := by
        have masked : (r &&& 0xff).toNat = r.toNat % 2 ^ 8 := valueMask_and .byte r
        apply BitVec.eq_of_toNat_eq
        rw [BitVec.toNat_setWidth, BitVec.toNat_setWidth, BitVec.toNat_setWidth, masked]
        omega
      exact congrArg (fun low : BitVec 8 => r.setWidth 16 != low.signExtend 16) low
  | word =>
      have low : (r &&& 0xffff).setWidth 16 = (r.setWidth 32).setWidth 16 := by
        have masked : (r &&& 0xffff).toNat = r.toNat % 2 ^ 16 := valueMask_and .word r
        apply BitVec.eq_of_toNat_eq
        rw [BitVec.toNat_setWidth, BitVec.toNat_setWidth, BitVec.toNat_setWidth, masked]
        omega
      have same : r = r.setWidth 32 := (BitVec.setWidth_eq r).symm
      exact congrArg₂ (fun (whole : BitVec 32) (low : BitVec 16) => whole != low.signExtend 32) same low

/-- A multiplication gives the whole product in twice the width. The carry and the overflow say that the high half
counts. -/
theorem multiply_exact (op : MultiplyOp) :
    Alu.multiply op (w.value x) (w.value y) f =
      .ok (w.doubleValue (product op.signed x y), f.update (op.report x y)) := by
  rw [Alu.multiply, unpackPair_value, Lib.Outcome.ok_bind]
  cases op with
  | Unsigned =>
      have wide : (x.setWidth 16).setWidth 32 * (y.setWidth 16).setWidth 32 = wideProduct w x y := rfl
      simp -bitVecOfNat only [wide, wideProduct_loses, wideProduct_zero, packDouble_eq, wideProduct_setWidth]
      refine congrArg (fun flags => Lib.Outcome.ok (_, flags)) ?_
      apply Flags.ext_flags
      · intro flag
        cases flag <;> simp [MultiplyOp.report, MultiplyOp.signed]
      · simp
  | Signed =>
      simp -bitVecOfNat only [signedLoses_eq, signedProduct_setWidth, packDouble_eq]
      refine congrArg (fun flags => Lib.Outcome.ok (_, flags)) ?_
      apply Flags.ext_flags
      · intro flag
        cases flag <;> simp [MultiplyOp.report, MultiplyOp.signed]
      · simp

end Multiply

section Divide

theorem require_bind {A : Type} (c : Prop) [Decidable c] (x : Result A) :
    (Outcome.require c >>= fun _ => x) = if c then x else .panic := by
  unfold Outcome.require
  by_cases holds : c
  · rw [if_pos holds, if_pos holds]
    rfl
  · rw [if_neg holds, if_neg holds]
    rfl

variable (a : BitVec 32) (b : BitVec 16)

theorem divide?_unsigned :
    divide? (w := 16) false a b =
      if b ≠ 0 ∧ a.toNat / b.toNat < 2 ^ 16 then
        some (BitVec.ofNat 16 (a.toNat / b.toNat), BitVec.ofNat 16 (a.toNat % b.toNat))
      else none := by
  have quotient : (a.toNat : Int).tdiv b.toNat = ((a.toNat / b.toNat : Nat) : Int) := (Int.ofNat_tdiv _ _).symm
  have remainder : (a.toNat : Int).tmod b.toNat = ((a.toNat % b.toNat : Nat) : Int) := (Int.ofNat_tmod _ _).symm
  have fits (q : Nat) : (((q % 2 ^ 16 : Nat) : Int) = q) ↔ q < 2 ^ 16 := by omega
  have zero : reading false b ≠ 0 ↔ b ≠ 0 := not_congr (Lib.reading_eq_zero_iff false b)
  simp only [divide?, zero]
  simp only [reading, if_neg Bool.false_ne_true, quotient, remainder, BitVec.ofInt_natCast, BitVec.toNat_ofNat, fits]

theorem divide_unsigned :
    Alu.divide .Unsigned a b =
      (divide? (w := 16) false a b).elim .panic fun pair =>
        .ok (extendTo 32 false pair.1, extendTo 32 false pair.2) := by
  have bound := b.isLt
  have wide : (b.setWidth 32).toNat = b.toNat := by
    rw [BitVec.toNat_setWidth, Nat.mod_eq_of_lt (by omega)]
  have zero : b.setWidth 32 ≠ 0 ↔ b ≠ 0 := not_congr (Lib.extendTo_eq_zero_iff (by decide) false b)
  have quotient : (a / b.setWidth 32).toNat = a.toNat / b.toNat := by rw [BitVec.toNat_udiv, wide]
  have remainder : (a % b.setWidth 32).toNat = a.toNat % b.toNat := by rw [BitVec.toNat_umod, wide]
  rw [divide?_unsigned, Alu.divide, require_bind, require_bind, quotient]
  by_cases nonzero : b ≠ 0
  · have positive : 0 < b.toNat := Nat.pos_of_ne_zero fun none => nonzero (BitVec.eq_of_toNat_eq none)
    have small := Nat.mod_lt a.toNat positive
    rw [if_pos (zero.mpr nonzero)]
    by_cases fits : a.toNat / b.toNat < 2 ^ 16
    · rw [if_pos (by omega), if_pos ⟨nonzero, fits⟩]
      refine congrArg₂ (fun quotient remainder => Outcome.ok (quotient, remainder)) ?_ ?_ <;>
        apply BitVec.eq_of_toNat_eq
      · rw [quotient, extendTo, if_neg Bool.false_ne_true, BitVec.toNat_setWidth, BitVec.toNat_ofNat,
          Nat.mod_eq_of_lt fits, Nat.mod_eq_of_lt (by omega)]
      · rw [remainder, extendTo, if_neg Bool.false_ne_true, BitVec.toNat_setWidth, BitVec.toNat_ofNat,
          Nat.mod_eq_of_lt (by omega : a.toNat % b.toNat < 2 ^ 16),
          Nat.mod_eq_of_lt (by omega : a.toNat % b.toNat < 2 ^ 32)]
    · have large : a.toNat / b.toNat > 0xffff := Nat.le_of_not_lt fits
      rw [if_neg (not_not.mpr large), if_neg fun both => fits both.2]
      rfl
  · rw [if_neg (mt zero.mp nonzero), if_neg fun both => nonzero both.1]
    rfl

theorem signed_fits (z : Int) : reading true (BitVec.ofInt 16 z) = z ↔ -2 ^ 15 ≤ z ∧ z < 2 ^ 15 := by
  constructor
  · intro same
    have high := BitVec.toInt_lt (x := BitVec.ofInt 16 z)
    have low := BitVec.le_toInt (BitVec.ofInt 16 z)
    rw [reading, if_pos rfl] at same
    rw [same] at high low
    exact ⟨low, high⟩
  · intro inside
    rw [reading, if_pos rfl, BitVec.toInt_ofInt]
    exact Int.bmod_eq_of_le (by omega) (by omega)

/-- The check of a quotient in 32 bits, which may wrap, is the check of the whole quotient. -/
theorem signed_inside {z : Int} (bound : z.natAbs ≤ 2 ^ 31) :
    ¬ ((BitVec.ofInt 32 z).toInt > 0x7fff ∨ (BitVec.ofInt 32 z).toInt < -0x8000) ↔ -2 ^ 15 ≤ z ∧ z < 2 ^ 15 := by
  by_cases wraps : z = 2 ^ 31
  · subst wraps
    decide
  · have same : (BitVec.ofInt 32 z).toInt = z := by
      rw [BitVec.toInt_ofInt]
      exact Int.bmod_eq_of_le (by omega) (by omega)
    rw [same]
    omega

theorem divide_signed :
    Alu.divide .Signed a b =
      (divide? (w := 16) true a b).elim .panic fun pair => .ok (extendTo 32 true pair.1, extendTo 32 true pair.2) := by
  have zero : b.signExtend 64 ≠ 0 ↔ b ≠ 0 := not_congr (Lib.extendTo_eq_zero_iff (by decide) true b)
  have zero' : reading true b ≠ 0 ↔ b ≠ 0 := not_congr (Lib.reading_eq_zero_iff true b)
  have quotient : ((a.signExtend 64).sdiv (b.signExtend 64)).setWidth 32 =
      BitVec.ofInt 32 (a.toInt.tdiv b.toInt) := by
    have exact := Lib.quotient_eq true (extendTo 64 true a) (extendTo 64 true b)
    rw [Lib.reading_extendTo (by decide), Lib.reading_extendTo (by decide)] at exact
    exact (congrArg (BitVec.setWidth 32) exact).trans (Lib.setWidth_ofInt (by decide) _)
  have remainder : ((a.signExtend 64).srem (b.signExtend 64)).setWidth 32 =
      BitVec.ofInt 32 (a.toInt.tmod b.toInt) := by
    have exact := Lib.remainder_eq true (extendTo 64 true a) (extendTo 64 true b)
    rw [Lib.reading_extendTo (by decide), Lib.reading_extendTo (by decide)] at exact
    exact (congrArg (BitVec.setWidth 32) exact).trans (Lib.setWidth_ofInt (by decide) _)
  rw [Alu.divide, require_bind, require_bind, quotient]
  simp only [divide?, zero']
  by_cases nonzero : b ≠ 0
  · rw [if_pos (zero.mpr nonzero), remainder]
    have quotientBound : (a.toInt.tdiv b.toInt).natAbs ≤ 2 ^ 31 := by
      have less := Int.natAbs_tdiv_le_natAbs a.toInt b.toInt
      have high := BitVec.toInt_lt (x := a)
      have low := BitVec.le_toInt a
      omega
    have remainderBound : (a.toInt.tmod b.toInt).natAbs < 2 ^ 15 := by
      have less : (a.toInt.tmod b.toInt).natAbs < b.toInt.natAbs := by
        rw [Int.natAbs_tmod]
        exact Nat.mod_lt _ (Int.natAbs_pos.mpr (zero'.mpr nonzero))
      have high := BitVec.toInt_lt (x := b)
      have low := BitVec.le_toInt b
      omega
    have remainderFits := (signed_fits (a.toInt.tmod b.toInt)).mpr ⟨by omega, by omega⟩
    by_cases fits : -2 ^ 15 ≤ a.toInt.tdiv b.toInt ∧ a.toInt.tdiv b.toInt < 2 ^ 15
    · have exact := (signed_fits _).mpr fits
      rw [if_pos ((signed_inside quotientBound).mpr fits), if_pos ⟨nonzero, exact⟩]
      refine congrArg₂ (fun quotient remainder => Outcome.ok (quotient, remainder)) ?_ ?_
      · rw [Lib.extendTo_eq]
        exact congrArg (BitVec.ofInt 32) exact.symm
      · rw [Lib.extendTo_eq]
        exact congrArg (BitVec.ofInt 32) remainderFits.symm
    · rw [if_neg (mt (signed_inside quotientBound).mp fits), if_neg fun both => fits ((signed_fits _).mp both.2)]
      rfl
  · rw [if_neg (mt zero.mp nonzero), if_neg fun both => nonzero both.1]
    rfl

/-- The flags of a division are taken from the low bits of the quotient and of the remainder. -/
def divideReport (quotient remainder : BitVec 32) : Flag → Option Bool
  | .CF => some (remainder.toNat % 4 == 1 || remainder.toNat % 4 == 2)
  | .ZF => some (remainder == 0 && quotient.toNat % 2 == 1)
  | .SF | .OF | .AF => some false
  | .PF => some (evenOnes remainder == evenOnes quotient)
  | _ => none

theorem divide_eq (op : DivideOp) :
    Alu.divide op a b =
      (divide? (w := 16) op.signed a b).elim .panic fun pair =>
        .ok (extendTo 32 op.signed pair.1, extendTo 32 op.signed pair.2) := by
  cases op with
  | Unsigned => exact divide_unsigned a b
  | Signed => exact divide_signed a b

theorem carry_of_remainder (r : BitVec 32) :
    (decide (1 ≤ r &&& 3) && decide (r &&& 3 ≤ 2)) = (r.toNat % 4 == 1 || r.toNat % 4 == 2) := by
  have masked : (r &&& 3).toNat = r.toNat % 2 ^ 2 := by
    rw [BitVec.toNat_and]
    exact Nat.and_two_pow_sub_one_eq_mod r.toNat 2
  have low : (1 ≤ r &&& 3) ↔ 1 ≤ r.toNat % 2 ^ 2 := by
    rw [BitVec.le_def, masked]
    rfl
  have high : (r &&& 3 ≤ 2) ↔ r.toNat % 2 ^ 2 ≤ 2 := by
    rw [BitVec.le_def, masked]
    rfl
  rw [Bool.eq_iff_iff]
  simp only [Bool.and_eq_true, Bool.or_eq_true, decide_eq_true_eq, beq_iff_eq, low, high]
  omega

theorem odd_quotient (q : BitVec 32) : (q &&& 1 != 0) = (q.toNat % 2 == 1) := by
  have masked : (q &&& 1).toNat = q.toNat % 2 ^ 1 := by
    rw [BitVec.toNat_and]
    exact Nat.and_two_pow_sub_one_eq_mod q.toNat 1
  rw [Bool.eq_iff_iff, bne_iff_ne, beq_iff_eq, ne_eq, ← BitVec.toNat_inj, masked]
  change ¬ q.toNat % 2 ^ 1 = 0 ↔ q.toNat % 2 = 1
  omega

/-- A division of words gives the quotient and the remainder, and it panics exactly where there is no quotient. -/
theorem divmod_exact (op : DivideOp) (f : Flags) :
    Alu.divmod op (.u32 a) (.u16 b) f =
      (divide? (w := 16) op.signed a b).elim .panic fun pair =>
        .ok (.u16 pair.1, .u16 pair.2,
          f.update (divideReport (extendTo 32 op.signed pair.1) (extendTo 32 op.signed pair.2))) := by
  have back (x : BitVec 16) : (extendTo 32 op.signed x).setWidth 16 = x := by
    rw [Lib.extendTo_eq, Lib.setWidth_ofInt (by decide), Lib.ofInt_reading]
  have flags (q r : BitVec 32) : ((((((f.set .CF (r.toNat % 4 == 1 || r.toNat % 4 == 2)).set .ZF
      (r == 0 && q.toNat % 2 == 1)).set .SF false).set .OF false).set .AF false).set .PF
        (evenOnes r == evenOnes q)) = f.update (divideReport q r) := by
    apply Flags.ext_flags
    · intro flag
      cases flag <;> simp [divideReport]
    · simp
  rw [Alu.divmod, Value.unwrapU32, Value.unwrapU16, Outcome.ok_bind, Outcome.ok_bind, divide_eq]
  cases divide? (w := 16) op.signed a b with
  | none => rfl
  | some pair =>
      rw [Option.elim_some, Outcome.ok_bind, Option.elim_some]
      simp -bitVecOfNat only [carry_of_remainder, odd_quotient, flags, back]
      rfl

end Divide

end Dis86.Emu
