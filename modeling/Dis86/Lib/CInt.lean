import Mathlib.Data.BitVec
import Mathlib.Tactic.Common

namespace Dis86.Lib

/-- The three widths of an exact-width integer. -/
inductive Width where
  | byte | word | dword
deriving DecidableEq, Repr

namespace Width

def bits : Width → Nat
  | byte => 8
  | word => 16
  | dword => 32

theorem bits_le (w : Width) : w.bits ≤ 32 := by
  cases w <;> decide

/-- The low bits of a word at a width. -/
def low (w : Width) (x : BitVec 32) : BitVec w.bits := x.setWidth w.bits

/-- The value of a word at a width, with the bits above cleared. -/
def wrap (w : Width) (x : BitVec 32) : BitVec 32 := (w.low x).setWidth 32

/-- The signed value of a word at a width. -/
def signed (w : Width) (x : BitVec 32) : Int := (w.low x).toInt

/-- The sign bit at a width is copied into the bits above. -/
def signExtend (w : Width) (x : BitVec 32) : BitVec 32 := (w.low x).signExtend 32

@[simp] theorem low_wrap (w : Width) (x : BitVec 32) : w.low (w.wrap x) = w.low x := by
  unfold wrap low
  rw [BitVec.setWidth_setWidth_of_le _ w.bits_le, BitVec.setWidth_eq]

theorem wrap_eq_iff {w : Width} {x y : BitVec 32} : w.wrap x = w.wrap y ↔ w.low x = w.low y := by
  constructor
  · intro same
    rw [← w.low_wrap x, same, w.low_wrap]
  · intro same
    unfold wrap
    rw [same]

@[simp] theorem wrap_wrap (w : Width) (x : BitVec 32) : w.wrap (w.wrap x) = w.wrap x :=
  wrap_eq_iff.mpr (w.low_wrap x)

@[simp] theorem wrap_dword (x : BitVec 32) : dword.wrap x = x := by
  simp [wrap, low, bits]

/-- Words that agree at a width agree at every narrower one. -/
theorem low_mono {v w : Width} (narrower : v.bits ≤ w.bits) {x y : BitVec 32}
    (same : w.low x = w.low y) : v.low x = v.low y := by
  have shrink : ∀ z : BitVec 32, v.low z = (w.low z).setWidth v.bits := by
    intro z
    unfold low
    rw [BitVec.setWidth_setWidth_of_le _ narrower]
  rw [shrink, shrink, same]

theorem low_wrap_of_le {v w : Width} (narrower : v.bits ≤ w.bits) (x : BitVec 32) :
    v.low (w.wrap x) = v.low x :=
  low_mono narrower (w.low_wrap x)

theorem wrap_of_le {v w : Width} (narrower : v.bits ≤ w.bits) (x : BitVec 32) :
    w.wrap (v.wrap x) = v.wrap x := by
  have := v.bits_le
  unfold wrap low
  ext i bound
  simp only [BitVec.getElem_setWidth, BitVec.getLsbD_setWidth]
  by_cases inside : i < v.bits
  · simp [inside, show i < w.bits by omega, bound]
  · simp [inside]

theorem low_signExtendWord (x : BitVec 16) : word.low (x.signExtend 32) = word.low (x.setWidth 32) := by
  unfold low
  ext i bound
  have inside : i < 16 := bound
  simp only [BitVec.getElem_setWidth, BitVec.getLsbD_signExtend, BitVec.getLsbD_setWidth]
  simp [inside, show i < 32 by omega]

theorem low_add (w : Width) (x y : BitVec 32) : w.low (x + y) = w.low x + w.low y :=
  BitVec.setWidth_add x y w.bits_le

theorem low_mul (w : Width) (x y : BitVec 32) : w.low (x * y) = w.low x * w.low y :=
  BitVec.setWidth_mul x y w.bits_le

theorem low_neg (w : Width) (x : BitVec 32) : w.low (-x) = -w.low x :=
  BitVec.setWidth_neg_of_le w.bits_le

theorem low_sub (w : Width) (x y : BitVec 32) : w.low (x - y) = w.low x - w.low y := by
  rw [BitVec.sub_eq_add_neg, low_add, low_neg, ← BitVec.sub_eq_add_neg]

theorem low_and (w : Width) (x y : BitVec 32) : w.low (x &&& y) = w.low x &&& w.low y :=
  BitVec.setWidth_and

theorem low_or (w : Width) (x y : BitVec 32) : w.low (x ||| y) = w.low x ||| w.low y :=
  BitVec.setWidth_or

theorem low_xor (w : Width) (x y : BitVec 32) : w.low (x ^^^ y) = w.low x ^^^ w.low y :=
  BitVec.setWidth_xor

theorem low_not (w : Width) (x : BitVec 32) : w.low (~~~x) = ~~~w.low x :=
  BitVec.setWidth_not w.bits_le

theorem low_shl (w : Width) (x : BitVec 32) (k : Nat) : w.low (x <<< k) = w.low x <<< k :=
  BitVec.setWidth_shiftLeft_of_le w.bits_le

/-- A sign extension keeps the low bits. -/
theorem low_signExtend {v w : Width} (narrower : v.bits ≤ w.bits) (x : BitVec 32) :
    v.low (w.signExtend x) = v.low x := by
  unfold low signExtend low
  ext i bound
  have := w.bits_le
  simp only [BitVec.getElem_setWidth, BitVec.getLsbD_signExtend, BitVec.getLsbD_setWidth]
  simp only [show i < 32 by omega, show i < w.bits by omega, decide_true, Bool.true_and, if_true]

/-- A signed shift to the right brings the same bits into a width as an unsigned one. -/
theorem low_sshiftRight {w : Width} {k : Nat} (inside : w.bits + k ≤ 32) (x : BitVec 32) :
    w.low (x.sshiftRight k) = w.low (x >>> k) := by
  unfold low
  ext i bound
  simp only [BitVec.getElem_setWidth, BitVec.getLsbD_sshiftRight, BitVec.getLsbD_ushiftRight]
  simp [show ¬ 32 ≤ i by omega, show k + i < 32 by omega]

theorem signExtend_congr {w : Width} {x y : BitVec 32} (same : w.low x = w.low y) :
    w.signExtend x = w.signExtend y := by
  unfold signExtend
  rw [same]

theorem signExtend_toInt (w : Width) (x : BitVec 32) : (w.signExtend x).toInt = w.signed x := by
  unfold signExtend signed
  rw [BitVec.toInt_signExtend_of_le w.bits_le]

end Width

/-- A promoted C integer: a 32-bit signed or unsigned word. -/
structure CInt where
  unsigned : Bool
  bits : BitVec 32
deriving DecidableEq, Repr

namespace CInt

/-- The reading of a word as a signed or unsigned number. -/
def read (unsigned : Bool) (x : BitVec 32) : Int := if unsigned then x.toNat else x.toInt

def val (a : CInt) : Int := read a.unsigned a.bits

/-- The common type of two operands is unsigned when one of them is. -/
def common (a b : CInt) : Bool := a.unsigned || b.unsigned

/-- A signed result must fit; an unsigned one wraps. -/
def Fits (unsigned : Bool) (v : Int) : Prop := unsigned = true ∨ -2 ^ 31 ≤ v ∧ v < 2 ^ 31

instance (unsigned : Bool) (v : Int) : Decidable (Fits unsigned v) :=
  inferInstanceAs (Decidable (_ ∨ _))

/-- The value of an exact-width integer: bytes and words become signed, double words do not. -/
def promote (w : Width) (x : BitVec 32) : CInt := ⟨w = .dword, w.wrap x⟩

/-- A cast to a signed width. -/
def castSigned (w : Width) (a : CInt) : CInt := ⟨false, w.signExtend a.bits⟩

def ofBool (b : Bool) : CInt := ⟨false, if b then 1 else 0⟩

def add (a b : CInt) : CInt := ⟨common a b, a.bits + b.bits⟩
def sub (a b : CInt) : CInt := ⟨common a b, a.bits - b.bits⟩
def mul (a b : CInt) : CInt := ⟨common a b, a.bits * b.bits⟩
def and (a b : CInt) : CInt := ⟨common a b, a.bits &&& b.bits⟩
def or (a b : CInt) : CInt := ⟨common a b, a.bits ||| b.bits⟩
def xor (a b : CInt) : CInt := ⟨common a b, a.bits ^^^ b.bits⟩
def neg (a : CInt) : CInt := ⟨a.unsigned, -a.bits⟩
def not (a : CInt) : CInt := ⟨a.unsigned, ~~~a.bits⟩

/-- Division rounds towards zero. -/
def div (a b : CInt) : CInt :=
  ⟨common a b, .ofInt 32 ((read (common a b) a.bits).tdiv (read (common a b) b.bits))⟩

def mod (a b : CInt) : CInt :=
  ⟨common a b, .ofInt 32 ((read (common a b) a.bits).tmod (read (common a b) b.bits))⟩

/-- A shift has the type of its left operand; a signed one keeps the sign to the right. -/
def shl (a b : CInt) : CInt := ⟨a.unsigned, a.bits <<< b.val.toNat⟩

def shr (a b : CInt) : CInt :=
  ⟨a.unsigned, if a.unsigned then a.bits >>> b.val.toNat else a.bits.sshiftRight b.val.toNat⟩

/-- Operands are compared in their common type. -/
def less (a b : CInt) : Bool := read (common a b) a.bits < read (common a b) b.bits

def same (a b : CInt) : Bool := a.bits = b.bits

/-- A signed operation is defined only when its exact result fits. -/
def FitsExact (f : Int → Int → Int) (a b : CInt) : Prop := Fits (common a b) (f a.val b.val)

instance (f : Int → Int → Int) (a b : CInt) : Decidable (FitsExact f a b) :=
  inferInstanceAs (Decidable (Fits _ _))

/-- A shift count must be smaller than the width. -/
def CountFits (b : CInt) : Prop := 0 ≤ b.val ∧ b.val < 32

instance (b : CInt) : Decidable (CountFits b) := inferInstanceAs (Decidable (_ ∧ _))

/-- A signed shift to the left must not lose a bit. -/
def ShlFits (a b : CInt) : Prop :=
  CountFits b ∧ (a.unsigned = true ∨ 0 ≤ a.val ∧ a.val * 2 ^ b.val.toNat < 2 ^ 31)

instance (a b : CInt) : Decidable (ShlFits a b) := inferInstanceAs (Decidable (_ ∧ _))

/-- A divisor must not be zero, and a signed quotient must fit. -/
def DivFits (a b : CInt) : Prop :=
  b.bits ≠ 0 ∧ Fits (common a b) ((read (common a b) a.bits).tdiv (read (common a b) b.bits))

instance (a b : CInt) : Decidable (DivFits a b) := inferInstanceAs (Decidable (_ ∧ _))

@[simp] theorem castSigned_val (w : Width) (a : CInt) :
    (a.castSigned w).val = w.signed a.bits := by
  simp [castSigned, val, read, Width.signExtend_toInt]

/-- A value that reads as a natural number is that number. -/
theorem bits_of_val {a : CInt} {x : BitVec 32} (same : a.val = x.toNat) : a.bits = x := by
  unfold val read at same
  split at same
  · exact BitVec.eq_of_toNat_eq (by exact_mod_cast same)
  · apply BitVec.eq_of_toInt_eq
    have small := BitVec.toInt_lt (x := a.bits)
    rw [same, BitVec.toInt_eq_toNat_of_lt]
    omega

/-- A signed value that reads as a natural number has a clear sign bit. -/
theorem toInt_of_val {a : CInt} {x : BitVec 32} (same : a.val = x.toNat)
    (signed : a.unsigned = false) : x.toInt = x.toNat := by
  rw [← bits_of_val same, ← show a.val = a.bits.toInt by simp [val, read, signed], same,
    bits_of_val same]

/-- A shift of a natural number to the right is unsigned. -/
theorem shr_exact {a b : CInt} {x y : BitVec 32} (left : a.val = x.toNat)
    (right : b.val = y.toNat) : (a.shr b).bits = x >>> y.toNat := by
  have count : b.val.toNat = y.toNat := by rw [right, Int.toNat_natCast]
  simp only [shr, count, bits_of_val left]
  cases signed : a.unsigned with
  | true => rfl
  | false =>
      have clear := toInt_of_val left signed
      have msb : x.msb = false := by
        rw [BitVec.msb_eq_toInt, clear]
        simp
      simp [BitVec.sshiftRight_eq_of_msb_false msb]

theorem less_eq (a b : CInt) :
    a.less b = decide (read (common a b) a.bits < read (common a b) b.bits) := rfl

theorem common_comm (a b : CInt) : common a b = common b a := Bool.or_comm _ _

theorem less_common_swap (a b : CInt) :
    b.less a = decide (read (common a b) b.bits < read (common a b) a.bits) := by
  rw [common_comm]
  rfl

theorem less_signed (w : Width) (a b : CInt) :
    (a.castSigned w).less (b.castSigned w) = decide (w.signed a.bits < w.signed b.bits) := by
  simp [less, common, castSigned, read, Width.signExtend_toInt]

theorem ofBool_bits (b : Bool) : (ofBool b).bits = if b then 1 else 0 := rfl

/-- The bits from position fifteen on are clear exactly when the value is a small natural number. -/
theorem shr_same_zero (a : CInt) :
    (a.shr ⟨false, 15⟩).same ⟨false, 0⟩ = decide (¬ (a.val < 0 ∨ 2 ^ 15 ≤ a.val)) := by
  have count : (CInt.mk false 15).val.toNat = 15 := by decide
  have shift : (a.shr ⟨false, 15⟩).bits =
      if a.unsigned then a.bits >>> 15 else a.bits.sshiftRight 15 := by
    simp only [shr, count]
  unfold same
  rw [shift, decide_eq_decide, not_or, not_lt, not_le]
  cases signed : a.unsigned with
  | true =>
      simp only [if_true, val, read, signed]
      rw [← BitVec.toNat_inj, BitVec.toNat_ushiftRight, Nat.shiftRight_eq_div_pow]
      show a.bits.toNat / 2 ^ 15 = 0 ↔ _
      omega
  | false =>
      simp only [Bool.false_eq_true, if_false, val, read, signed]
      rw [← BitVec.toInt_inj, BitVec.toInt_sshiftRight, Int.shiftRight_eq_div_pow]
      show a.bits.toInt / 2 ^ 15 = 0 ↔ _
      omega

end CInt

end Dis86.Lib
