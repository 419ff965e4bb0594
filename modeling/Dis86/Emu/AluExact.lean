import Dis86.Emu.Alu
import Dis86.Lib.CarryChain
import Mathlib.Data.Nat.ModEq

namespace Dis86.Emu
open Lib (sumWith differenceWith carryOut borrowOut sumOverflows differenceOverflows)

/-- The flags that are reported get the values of the report. -/
def Flags.update (f : Flags) (report : Flag → Option Bool) : Flags :=
  Flag.all.foldl (fun f flag => (report flag).elim f (f.set flag)) f

@[simp] theorem Flags.get_update (f : Flags) (report : Flag → Option Bool) (flag : Flag) :
    (f.update report).get flag = (report flag).getD (f.get flag) := by
  have keeps : ∀ (l : List Flag) (g : Flags),
      (l.foldl (fun f flag => (report flag).elim f (f.set flag)) g).get flag =
        if flag ∈ l then (report flag).getD (g.get flag) else g.get flag := by
    intro l
    induction l with
    | nil => intro g; rfl
    | cons head rest hypothesis =>
        intro g
        rw [List.foldl_cons, hypothesis]
        by_cases same : flag = head
        · subst same
          cases reported : report flag <;> simp
        · cases report head <;> simp [same]
  rw [update, keeps, if_pos (by cases flag <;> decide)]

@[simp] theorem Flags.rest_update (f : Flags) (report : Flag → Option Bool) : (f.update report).rest = f.rest := by
  have keeps : ∀ (l : List Flag) (g : Flags),
      (l.foldl (fun f flag => (report flag).elim f (f.set flag)) g).rest = g.rest := by
    intro l
    induction l with
    | nil => intro g; rfl
    | cons head rest hypothesis =>
        intro g
        rw [List.foldl_cons, hypothesis]
        cases report head <;> simp
  exact keeps _ f

namespace Width

/-- A value of the width. -/
def value (w : Width) (x : BitVec w.bits) : Value :=
  match w with
  | byte => .u8 x
  | word => .u16 x

theorem bits_bounds (w : Width) : 8 ≤ w.bits ∧ w.bits ≤ 16 := by cases w <;> decide

theorem signMask_eq (w : Width) : w.signMask = BitVec.twoPow 16 (w.bits - 1) := by cases w <;> rfl

theorem wideSignMask_eq (w : Width) : w.signMask.setWidth 32 = BitVec.twoPow 32 (w.bits - 1) := by cases w <;> rfl

theorem pack_eq (w : Width) (r : BitVec 16) : w.pack r = w.value (r.setWidth w.bits) := by
  cases w with
  | byte => rfl
  | word => exact congrArg Value.u16 (BitVec.setWidth_eq r).symm

end Width

theorem unpack_value (w : Width) (x : BitVec w.bits) : unpack (w.value x) = .ok (w, x.setWidth 16) := by
  cases w with
  | byte => rfl
  | word => exact congrArg (fun x => Lib.Outcome.ok (Width.word, x)) (BitVec.setWidth_eq x).symm

theorem unpackPair_value (w : Width) (x y : BitVec w.bits) :
    unpackPair (w.value x) (w.value y) = .ok (w, x.setWidth 16, y.setWidth 16) := by
  cases w with
  | byte => rfl
  | word =>
      exact congrArg₂ (fun x y => Lib.Outcome.ok (Width.word, x, y)) (BitVec.setWidth_eq x).symm
        (BitVec.setWidth_eq y).symm

section Generic

variable (w : Width) (r : BitVec 16)

theorem flagGenericSf_eq : flagGenericSf r w.signMask = (r.setWidth w.bits).msb := by
  have bounds := w.bits_bounds
  rw [flagGenericSf, w.signMask_eq, masked_bit (by omega), BitVec.msb_eq_getLsbD_last, BitVec.getLsbD_setWidth,
    decide_eq_true (by omega), Bool.true_and]

theorem flagGenericZf_eq : flagGenericZf r w.valueMask = (r.setWidth w.bits == 0) := by
  rw [flagGenericZf, Bool.eq_iff_iff, beq_iff_eq, beq_iff_eq, ← BitVec.toNat_inj, ← BitVec.toNat_inj]
  cases w with
  | byte =>
      rw [BitVec.toNat_and, BitVec.toNat_setWidth]
      exact Iff.of_eq (congrArg (· = 0) (Nat.and_two_pow_sub_one_eq_mod r.toNat 8))
  | word =>
      rw [BitVec.toNat_and, BitVec.toNat_setWidth]
      exact Iff.of_eq (congrArg (· = 0) (Nat.and_two_pow_sub_one_eq_mod r.toNat 16))

theorem flagGenericPf_eq : flagGenericPf r = evenOnes ((r.setWidth w.bits).setWidth 8) := by
  cases w with
  | byte => exact congrArg evenOnes (BitVec.setWidth_eq (r.setWidth 8)).symm
  | word =>
      rw [flagGenericPf]
      exact congrArg evenOnes (congrArg (BitVec.setWidth 8) (BitVec.setWidth_eq r).symm)

end Generic

section Sums

variable (w : Width) (x y : BitVec w.bits) (c : Bool)

/-- The sum in the wide register has no loss. -/
def wideSum : BitVec 32 := (x.setWidth 16).setWidth 32 + (y.setWidth 16).setWidth 32 + (BitVec.ofBool c).setWidth 32

theorem wideSum_toNat : (wideSum w x y c).toNat = x.toNat + y.toNat + c.toNat := by
  have bits := w.bits_bounds
  have boundX := Nat.lt_of_lt_of_le x.isLt (Nat.pow_le_pow_right Nat.two_pos bits.2)
  have boundY := Nat.lt_of_lt_of_le y.isLt (Nat.pow_le_pow_right Nat.two_pos bits.2)
  have small := c.toNat_lt
  simp only [wideSum, BitVec.toNat_add, BitVec.toNat_setWidth, BitVec.toNat_ofBool]
  omega

theorem wideSum_setWidth : ((wideSum w x y c).setWidth 16).setWidth w.bits = sumWith x y c := by
  have bits := w.bits_bounds
  rw [← BitVec.toNat_inj, BitVec.toNat_setWidth, BitVec.toNat_setWidth, wideSum_toNat,
    Nat.mod_mod_of_dvd _ (Nat.pow_dvd_pow 2 bits.2), sumWith, BitVec.toNat_add, BitVec.toNat_add,
    Lib.bit_toNat (by omega), Nat.mod_add_mod]

theorem wideSum_carry :
    ((wideSum w x y c >>> 1) &&& w.signMask.setWidth 32 != 0) = carryOut x y c := by
  have bits := w.bits_bounds
  have boundX := x.isLt
  have boundY := y.isLt
  have small := c.toNat_lt
  rw [w.wideSignMask_eq, masked_bit (by omega), BitVec.getLsbD_ushiftRight, Nat.add_sub_cancel' (by omega : 1 ≤ w.bits),
    BitVec.getLsbD, wideSum_toNat, carryOut, Nat.testBit_eq_decide_div_mod_eq, decide_eq_decide]
  generalize 2 ^ w.bits = range at *
  constructor
  · intro odd
    by_contra below
    rw [Nat.div_eq_of_lt (by omega)] at odd
    cases odd
  · intro carries
    rw [Nat.div_eq_of_lt_le (k := 1) (by omega) (by omega)]

theorem setWidth_sub {m n : Nat} (narrower : m ≤ n) (x y : BitVec n) :
    (x - y).setWidth m = x.setWidth m - y.setWidth m := by
  rw [BitVec.sub_eq_add_neg, BitVec.setWidth_add _ _ narrower, BitVec.setWidth_neg_of_le narrower,
    ← BitVec.sub_eq_add_neg]

theorem difference_setWidth :
    (x.setWidth 16 - y.setWidth 16 - (BitVec.ofBool c).setWidth 16).setWidth w.bits = differenceWith x y c := by
  have bits := w.bits_bounds
  have back (z : BitVec w.bits) : (z.setWidth 16).setWidth w.bits = z := by
    rw [BitVec.setWidth_setWidth_of_le _ bits.2, BitVec.setWidth_eq]
  rw [setWidth_sub bits.2, setWidth_sub bits.2, back, back, BitVec.setWidth_setWidth_of_le _ bits.2,
    differenceWith]

theorem difference_borrow :
    decide ((x.setWidth 16).setWidth 32 < (y.setWidth 16).setWidth 32 + (BitVec.ofBool c).setWidth 32) =
      borrowOut x y c := by
  have bits := w.bits_bounds
  have boundX := Nat.lt_of_lt_of_le x.isLt (Nat.pow_le_pow_right Nat.two_pos bits.2)
  have boundY := Nat.lt_of_lt_of_le y.isLt (Nat.pow_le_pow_right Nat.two_pos bits.2)
  have small := c.toNat_lt
  rw [borrowOut, decide_eq_decide]
  simp only [BitVec.lt_def, BitVec.toNat_add, BitVec.toNat_setWidth, BitVec.toNat_ofBool]
  omega

theorem nibble (v : BitVec 16) : (v &&& 0x0F).toNat = v.toNat % 2 ^ 4 := by
  rw [BitVec.toNat_and]
  exact Nat.and_two_pow_sub_one_eq_mod v.toNat 4

theorem wideNibble (v : BitVec 32) : (v &&& 0x0F).toNat = v.toNat % 2 ^ 4 := by
  rw [BitVec.toNat_and]
  exact Nat.and_two_pow_sub_one_eq_mod v.toNat 4

/-- The auxiliary carry is the carry of the low four bits. -/
theorem halfCarry :
    decide (0x0F < (x.setWidth 16 &&& 0x0F) + (y.setWidth 16 &&& 0x0F) + (BitVec.ofBool c).setWidth 16) =
      carryOut (x.setWidth 4) (y.setWidth 4) c := by
  have bits := w.bits_bounds
  have boundX := Nat.lt_of_lt_of_le x.isLt (Nat.pow_le_pow_right Nat.two_pos bits.2)
  have boundY := Nat.lt_of_lt_of_le y.isLt (Nat.pow_le_pow_right Nat.two_pos bits.2)
  have small := c.toNat_lt
  rw [carryOut, decide_eq_decide]
  simp only [BitVec.lt_def, BitVec.toNat_add, nibble, BitVec.toNat_setWidth, BitVec.toNat_ofBool]
  simp
  omega

theorem halfBorrow :
    decide ((x.setWidth 16).setWidth 32 &&& 0x0F <
        ((y.setWidth 16).setWidth 32 &&& 0x0F) + (BitVec.ofBool c).setWidth 32) =
      borrowOut (x.setWidth 4) (y.setWidth 4) c := by
  have bits := w.bits_bounds
  have boundX := Nat.lt_of_lt_of_le x.isLt (Nat.pow_le_pow_right Nat.two_pos bits.2)
  have boundY := Nat.lt_of_lt_of_le y.isLt (Nat.pow_le_pow_right Nat.two_pos bits.2)
  have small := c.toNat_lt
  rw [borrowOut, decide_eq_decide]
  simp only [BitVec.lt_def, BitVec.toNat_add, wideNibble, BitVec.toNat_setWidth, BitVec.toNat_ofBool]
  omega

/-- The sign bits of the operands and of the result. -/
theorem signs_sum (r : BitVec 16) :
    ((x.setWidth 16 ^^^ r) &&& (y.setWidth 16 ^^^ r) &&& w.signMask != 0) =
      ((x.msb ^^ (r.setWidth w.bits).msb) && (y.msb ^^ (r.setWidth w.bits).msb)) := by
  have bits := w.bits_bounds
  have inside : w.bits - 1 < 16 := by omega
  have inside' : w.bits - 1 < w.bits := by omega
  rw [w.signMask_eq, masked_bit inside]
  simp only [BitVec.msb_eq_getLsbD_last, BitVec.getLsbD_and, BitVec.getLsbD_xor, BitVec.getLsbD_setWidth,
    inside, inside', decide_true, Bool.true_and]

theorem signs_difference (r : BitVec 16) :
    ((x.setWidth 16 ^^^ y.setWidth 16) &&& (x.setWidth 16 ^^^ r) &&& w.signMask != 0) =
      ((x.msb ^^ y.msb) && (x.msb ^^ (r.setWidth w.bits).msb)) := by
  have bits := w.bits_bounds
  have inside : w.bits - 1 < 16 := by omega
  have inside' : w.bits - 1 < w.bits := by omega
  rw [w.signMask_eq, masked_bit inside]
  simp only [BitVec.msb_eq_getLsbD_last, BitVec.getLsbD_and, BitVec.getLsbD_xor, BitVec.getLsbD_setWidth,
    inside, inside', decide_true, Bool.true_and]

end Sums

section Reports

variable {n : Nat}

/-- The flags that only depend on the result. -/
def resultReport (r : BitVec n) : Flag → Option Bool
  | .ZF => some (r == 0)
  | .SF => some r.msb
  | .PF => some (evenOnes (r.setWidth 8))
  | _ => none

def sumReport (x y : BitVec n) (c : Bool) : Flag → Option Bool
  | .CF => some (carryOut x y c)
  | .AF => some (carryOut (x.setWidth 4) (y.setWidth 4) c)
  | .OF => some (sumOverflows x y c)
  | flag => resultReport (sumWith x y c) flag

def differenceReport (x y : BitVec n) (c : Bool) : Flag → Option Bool
  | .CF => some (borrowOut x y c)
  | .AF => some (borrowOut (x.setWidth 4) (y.setWidth 4) c)
  | .OF => some (differenceOverflows x y c)
  | flag => resultReport (differenceWith x y c) flag

/-- A logical operation clears the carry and the overflow and keeps the auxiliary carry. -/
def bitwiseReport (r : BitVec n) : Flag → Option Bool
  | .CF | .OF => some false
  | flag => resultReport r flag

def keepingCarry (report : Flag → Option Bool) : Flag → Option Bool
  | .CF => none
  | flag => report flag

def BinaryOp.carryIn (op : BinaryOp) (cf : Bool) : Bool :=
  match op with
  | .Adc | .Sbb => cf
  | _ => false

def BinaryOp.result (op : BinaryOp) (cf : Bool) (x y : BitVec n) : BitVec n :=
  match op with
  | .Add | .Adc => sumWith x y (op.carryIn cf)
  | .Sub | .Sbb => differenceWith x y (op.carryIn cf)
  | .And => x &&& y
  | .Or => x ||| y
  | .Xor => x ^^^ y

def BinaryOp.report (op : BinaryOp) (cf : Bool) (x y : BitVec n) : Flag → Option Bool :=
  match op with
  | .Add | .Adc => sumReport x y (op.carryIn cf)
  | .Sub | .Sbb => differenceReport x y (op.carryIn cf)
  | .And | .Or | .Xor => bitwiseReport (op.result cf x y)

def UnaryOp.result (op : UnaryOp) (x : BitVec n) : BitVec n :=
  match op with
  | .Neg => differenceWith 0 x false
  | .Inc => sumWith x 1 false
  | .Dec => differenceWith x 1 false
  | .Not => ~~~x

def UnaryOp.report (op : UnaryOp) (x : BitVec n) : Flag → Option Bool :=
  match op with
  | .Neg => differenceReport 0 x false
  | .Inc => keepingCarry (sumReport x 1 false)
  | .Dec => keepingCarry (differenceReport x 1 false)
  | .Not => fun _ => none

end Reports

section Updates

variable (f : Flags) (w : Width) (x y : BitVec w.bits) (c : Bool)

theorem updateFlagsAdd_eq (updateCf : Bool) :
    updateFlagsAdd f (x.setWidth 16) (y.setWidth 16) c (wideSum w x y c) w updateCf =
      f.update (if updateCf then sumReport x y c else keepingCarry (sumReport x y c)) := by
  have bits := w.bits_bounds
  have overflow := signs_sum w x y ((wideSum w x y c).setWidth 16)
  rw [wideSum_setWidth, ← Lib.sumOverflows_eq (by omega)] at overflow
  simp -bitVecOfNat only [updateFlagsAdd, flagGenericSf_eq, flagGenericZf_eq, flagGenericPf_eq w, wideSum_setWidth,
    wideSum_carry, halfCarry, overflow]
  apply Flags.ext_flags
  · intro flag
    cases updateCf <;> cases flag <;> simp [sumReport, keepingCarry, resultReport]
  · cases updateCf <;> simp

theorem updateFlagsSub_eq (updateCf : Bool) :
    updateFlagsSub f (x.setWidth 16) (y.setWidth 16) c
        (x.setWidth 16 - y.setWidth 16 - (BitVec.ofBool c).setWidth 16) w updateCf =
      f.update (if updateCf then differenceReport x y c else keepingCarry (differenceReport x y c)) := by
  have bits := w.bits_bounds
  have overflow := signs_difference w x y (x.setWidth 16 - y.setWidth 16 - (BitVec.ofBool c).setWidth 16)
  rw [difference_setWidth, ← Lib.differenceOverflows_eq (by omega)] at overflow
  simp -bitVecOfNat only [updateFlagsSub, flagGenericSf_eq, flagGenericZf_eq, flagGenericPf_eq w,
    difference_setWidth, difference_borrow, halfBorrow, overflow]
  apply Flags.ext_flags
  · intro flag
    cases updateCf <;> cases flag <;> simp [differenceReport, keepingCarry, resultReport]
  · cases updateCf <;> simp

theorem updateFlagsBitwise_eq (r : BitVec 16) :
    updateFlagsBitwise f r w = f.update (bitwiseReport (r.setWidth w.bits)) := by
  simp -bitVecOfNat only [updateFlagsBitwise, flagGenericSf_eq, flagGenericZf_eq, flagGenericPf_eq w]
  apply Flags.ext_flags
  · intro flag
    cases flag <;> simp [bitwiseReport, resultReport]
  · simp

/-- A binary operation gives the sum, the difference or the logical combination in the width of its operands,
and every flag with what it says about the whole numbers. -/
theorem binary_exact (op : BinaryOp) :
    Alu.binary op (w.value x) (w.value y) f =
      .ok (w.value (op.result (f.get .CF) x y), f.update (op.report (f.get .CF) x y)) := by
  have bits := w.bits_bounds
  have noCarry (z : BitVec 16) : z - (BitVec.ofBool false).setWidth 16 = z := by simp
  have plain : (x.setWidth 16).setWidth 32 + (y.setWidth 16).setWidth 32 = wideSum w x y false := by simp [wideSum]
  rw [Alu.binary, unpackPair_value, Lib.Outcome.ok_bind]
  cases op with
  | Add =>
      simp only [plain, updateFlagsAdd_eq, w.pack_eq, wideSum_setWidth]
      rfl
  | Adc =>
      have sum := updateFlagsAdd_eq f w x y (f.get .CF) true
      have value := wideSum_setWidth w x y (f.get .CF)
      rw [wideSum] at sum value
      simp only [sum, w.pack_eq, value]
      rfl
  | Sub =>
      have sum := updateFlagsSub_eq f w x y false true
      have value := difference_setWidth w x y false
      rw [noCarry] at sum value
      simp only [sum, w.pack_eq, value]
      rfl
  | Sbb =>
      simp only [updateFlagsSub_eq, w.pack_eq, difference_setWidth]
      rfl
  | And =>
      simp only [updateFlagsBitwise_eq, w.pack_eq, BitVec.setWidth_and, BitVec.setWidth_setWidth_of_le _ bits.2,
        BitVec.setWidth_eq]
      rfl
  | Or =>
      simp only [updateFlagsBitwise_eq, w.pack_eq, BitVec.setWidth_or, BitVec.setWidth_setWidth_of_le _ bits.2,
        BitVec.setWidth_eq]
      rfl
  | Xor =>
      simp only [updateFlagsBitwise_eq, w.pack_eq, BitVec.setWidth_xor, BitVec.setWidth_setWidth_of_le _ bits.2,
        BitVec.setWidth_eq]
      rfl

theorem one_setWidth : (1 : BitVec w.bits).setWidth 16 = 1 := by cases w <;> rfl

theorem unary_exact (op : UnaryOp) :
    Alu.unary op (w.value x) f = .ok (w.value (op.result x), f.update (op.report x)) := by
  have bits := w.bits_bounds
  rw [Alu.unary, unpack_value, Lib.Outcome.ok_bind]
  cases op with
  | Neg =>
      have negated : -(x.setWidth 16) =
          (0 : BitVec w.bits).setWidth 16 - x.setWidth 16 - (BitVec.ofBool false).setWidth 16 := by simp
      have zero : (0 : BitVec 16) = (0 : BitVec w.bits).setWidth 16 := by simp
      simp only [negated, zero, updateFlagsSub_eq, w.pack_eq, difference_setWidth]
      rfl
  | Inc =>
      have wide : (x.setWidth 16).setWidth 32 + 1 = wideSum w x 1 false := by
        rw [wideSum, one_setWidth]
        simp
      have flags := updateFlagsAdd_eq f w x 1 false false
      rw [one_setWidth, ← wide] at flags
      simp only [flags, w.pack_eq]
      rw [wide, wideSum_setWidth]
      rfl
  | Dec =>
      have less : x.setWidth 16 - 1 =
          x.setWidth 16 - (1 : BitVec w.bits).setWidth 16 - (BitVec.ofBool false).setWidth 16 := by
        rw [one_setWidth]
        simp
      have flags := updateFlagsSub_eq f w x 1 false false
      rw [← less, one_setWidth] at flags
      simp only [flags, w.pack_eq]
      rw [less, difference_setWidth]
      rfl
  | Not =>
      have kept : f.update (UnaryOp.Not.report x) = f := by
        apply Flags.ext_flags
        · intro flag
          rw [Flags.get_update]
          rfl
        · exact f.rest_update _
      have value : w.pack (~~~(x.setWidth 16)) = w.value (~~~x) := by
        rw [w.pack_eq, BitVec.setWidth_not bits.2, BitVec.setWidth_setWidth_of_le _ bits.2, BitVec.setWidth_eq]
      rw [kept]
      exact congrArg (fun value => Lib.Outcome.ok (value, f)) value

end Updates

namespace ShiftOp

variable {n : Nat}

/-- A shift by one bit. -/
def single (op : ShiftOp) (x : BitVec n) : BitVec n :=
  match op with
  | .Shl => x <<< 1
  | .Shr => x >>> 1
  | .Sar => x.sshiftRight 1
  | .Rol => x.rotateLeft 1

/-- The bit that a shift by one bit moves out. -/
def leaving (op : ShiftOp) (x : BitVec n) : Bool :=
  match op with
  | .Shl | .Rol => x.msb
  | .Shr | .Sar => x.getLsbD 0

/-- A shift reports the last bit that left. A shift by a single bit also reports a change of the sign. -/
def report (op : ShiftOp) (k : Nat) (x : BitVec n) : Flag → Option Bool
  | .CF => if k = 0 then none else some (op.leaving (op.single^[k - 1] x))
  | .OF => if k = 1 then some (x.msb ^^ (op.single x).msb) else none
  | flag => if k = 0 ∨ op = .Rol then none else resultReport (op.single^[k] x) flag

theorem shl_iterate (k : Nat) (x : BitVec n) : (single .Shl)^[k] x = x <<< k := by
  induction k with
  | zero => simp
  | succ k hypothesis => rw [Function.iterate_succ_apply', hypothesis, single, BitVec.shiftLeft_add]

theorem shr_iterate (k : Nat) (x : BitVec n) : (single .Shr)^[k] x = x >>> k := by
  induction k with
  | zero => simp
  | succ k hypothesis => rw [Function.iterate_succ_apply', hypothesis, single, BitVec.shiftRight_add]

theorem sar_iterate (k : Nat) (x : BitVec n) : (single .Sar)^[k] x = x.sshiftRight k := by
  induction k with
  | zero => simp
  | succ k hypothesis => rw [Function.iterate_succ_apply', hypothesis, single, BitVec.sshiftRight_add]

theorem rotated_bit {i : Nat} (k : Nat) (x : BitVec n) (inside : i < n) :
    (x.rotateLeft k).getLsbD i = x.getLsbD ((i + (n - k % n)) % n) := by
  have small := Nat.mod_lt k (Nat.zero_lt_of_lt inside)
  rw [BitVec.getLsbD_rotateLeft]
  generalize k % n = m at small
  by_cases wraps : i < m
  · rw [decide_eq_true wraps, cond_true, Nat.mod_eq_of_lt (by omega), Nat.add_comm]
  · have back : i + (n - m) = n + (i - m) := by omega
    rw [decide_eq_false wraps, cond_false, decide_eq_true inside, Bool.true_and, back, Nat.add_mod_left,
      Nat.mod_eq_of_lt (by omega)]

/-- The place that a bit comes from. -/
theorem rotated_place {i : Nat} (k : Nat) (inside : i < n) : ((i + (n - k % n)) % n + k) % n = i := by
  have small := Nat.mod_lt k (Nat.zero_lt_of_lt inside)
  have whole : i + (n - k % n) + k = i + n * (k / n + 1) := by
    have split := Nat.div_add_mod k n
    rw [Nat.mul_succ]
    omega
  rw [Nat.mod_add_mod, whole, Nat.add_mul_mod_self_left, Nat.mod_eq_of_lt inside]

theorem rotated_unique {i j : Nat} {k : Nat} (inside : i < n) (place : j < n) (same : (j + k) % n = i) :
    (i + (n - k % n)) % n = j := by
  have other := rotated_place k inside
  have congruent : (i + (n - k % n)) % n + k ≡ j + k [MOD n] := other.trans same.symm
  have bounded : (i + (n - k % n)) % n < n := Nat.mod_lt _ (Nat.zero_lt_of_lt inside)
  exact Nat.ModEq.eq_of_lt_of_lt (Nat.ModEq.add_right_cancel' k congruent) bounded place

theorem rol_iterate (k : Nat) (x : BitVec n) : (single .Rol)^[k] x = x.rotateLeft k := by
  induction k with
  | zero =>
      apply BitVec.eq_of_getLsbD_eq
      intro i inside
      simp [inside]
  | succ k hypothesis =>
      rw [Function.iterate_succ_apply', hypothesis, single]
      apply BitVec.eq_of_getLsbD_eq
      intro i inside
      have before := Nat.mod_lt (i + (n - 1 % n)) (Nat.zero_lt_of_lt inside)
      rw [rotated_bit 1 _ inside, rotated_bit k _ before, rotated_bit (k + 1) _ inside]
      congr 1
      symm
      apply rotated_unique inside (Nat.mod_lt _ (Nat.zero_lt_of_lt inside))
      rw [← Nat.add_assoc, Nat.add_mod, rotated_place k before, Nat.mod_add_mod, Nat.add_mod_mod,
        ← Nat.mod_add_mod (i + _), rotated_place 1 inside]

end ShiftOp

section Exact

variable (f : Flags) (w : Width) (x : BitVec w.bits) (k : Nat)

theorem shl_setWidth :
    (((x.setWidth 16).setWidth 32 <<< k).setWidth 16).setWidth w.bits = x <<< k := by
  have bits := w.bits_bounds
  apply BitVec.eq_of_getLsbD_eq
  intro i inside
  simp [inside]
  grind

theorem shr_setWidth :
    (((x.setWidth 16).setWidth 32 >>> k).setWidth 16).setWidth w.bits = x >>> k := by
  have bits := w.bits_bounds
  apply BitVec.eq_of_getLsbD_eq
  intro i inside
  simp [inside]
  grind

theorem signed_eq : Alu.signed w (x.setWidth 16) = x.signExtend 32 := by
  cases w with
  | byte =>
      rw [Alu.signed, BitVec.setWidth_setWidth_of_le _ (by decide), BitVec.setWidth_eq]
  | word => rw [Alu.signed, BitVec.setWidth_eq]

theorem sar_setWidth :
    (((x.signExtend 32).sshiftRight k).setWidth 16).setWidth w.bits = x.sshiftRight k := by
  have bits := w.bits_bounds
  apply BitVec.eq_of_getLsbD_eq
  intro i inside
  simp [inside, BitVec.getLsbD_sshiftRight, BitVec.getLsbD_signExtend]
  grind

theorem rol_setWidth : (Alu.rotateLeft w (x.setWidth 16) k).setWidth w.bits = x.rotateLeft k := by
  cases w with
  | byte =>
      rw [Alu.rotateLeft, BitVec.setWidth_setWidth_of_le _ (by decide), BitVec.setWidth_eq,
        BitVec.setWidth_setWidth_of_le _ (by decide), BitVec.setWidth_eq]
  | word => rw [Alu.rotateLeft, BitVec.setWidth_eq, BitVec.setWidth_eq]

theorem low_bit {n : Nat} (positive : 0 < n) (r : BitVec n) : (r &&& 1 != 0) = r.getLsbD 0 := by
  have one : (1 : BitVec n) = BitVec.twoPow n 0 := (BitVec.twoPow_zero).symm
  rw [one, masked_bit positive]

theorem shl_carry (counts : k ≠ 0) :
    (((x.setWidth 16).setWidth 32 <<< k) >>> 1 &&& w.signMask.setWidth 32 != 0) = (x <<< (k - 1)).msb := by
  have bits := w.bits_bounds
  rw [w.wideSignMask_eq, masked_bit (by omega), BitVec.msb_eq_getLsbD_last]
  simp
  grind

theorem shr_carry (r : BitVec 16) (same : r = x.setWidth 16) :
    ((r.setWidth 32 >>> (k - 1)) &&& 1 != 0) = (x >>> (k - 1)).getLsbD 0 := by
  have bits := w.bits_bounds
  rw [low_bit (by decide), same]
  simp
  grind

theorem sar_carry :
    (((x.signExtend 32).sshiftRight (k - 1)) &&& 1 != 0) = (x.sshiftRight (k - 1)).getLsbD 0 := by
  have bits := w.bits_bounds
  rw [low_bit (by decide)]
  simp [BitVec.getLsbD_sshiftRight]
  grind

theorem rol_carry (counts : k ≠ 0) :
    ((x.setWidth 16 >>> ((w.bits - k % w.bits) % w.bits)) &&& 1 != 0) = (x.rotateLeft (k - 1)).msb := by
  have bits := w.bits_bounds
  have inside : (w.bits - k % w.bits) % w.bits < w.bits := Nat.mod_lt _ (by omega)
  have last := ShiftOp.rotated_bit (k - 1) x (by omega : w.bits - 1 < w.bits)
  have place : (w.bits - 1 + (w.bits - (k - 1) % w.bits)) % w.bits = (w.bits - k % w.bits) % w.bits := by
    apply ShiftOp.rotated_unique (by omega) inside
    have zero := ShiftOp.rotated_place k (by omega : 0 < w.bits)
    rw [Nat.zero_add] at zero
    generalize (w.bits - k % w.bits) % w.bits = p at zero
    have small := Nat.mod_lt (p + (k - 1)) (by omega : w.bits > 0)
    by_contra other
    have next : (p + k) % w.bits = (p + (k - 1)) % w.bits + 1 := by
      rw [show p + k = p + (k - 1) + 1 by omega, Nat.add_mod, Nat.mod_eq_of_lt (by omega : 1 < w.bits),
        Nat.mod_eq_of_lt (by omega)]
    omega
  rw [low_bit (by decide), BitVec.msb_eq_getLsbD_last, last, place, BitVec.getLsbD_ushiftRight, Nat.add_zero,
    BitVec.getLsbD_setWidth, decide_eq_true (by omega), Bool.true_and]

theorem updateFlagsShl_eq (counts : k ≠ 0) :
    updateFlagsShl f k ((x.setWidth 16).setWidth 32 <<< k) w = f.update (ShiftOp.Shl.report k x) := by
  simp -bitVecOfNat only [updateFlagsShl, updateFlagsShiftResult, if_neg counts, flagGenericSf_eq, flagGenericZf_eq,
    flagGenericPf_eq w, shl_setWidth, shl_carry w x k counts]
  apply Flags.ext_flags
  · intro flag
    by_cases one : k = 1
    · subst one
      cases flag <;> simp [ShiftOp.report, resultReport, ShiftOp.single, ShiftOp.leaving]
    · cases flag <;> simp [ShiftOp.report, resultReport, counts, one, ShiftOp.leaving, ShiftOp.shl_iterate]
  · by_cases one : k = 1 <;> simp [one]

theorem updateFlagsShr_eq (counts : k ≠ 0) :
    updateFlagsShr f (x.setWidth 16) k (((x.setWidth 16).setWidth 32 >>> k).setWidth 16) w =
      f.update (ShiftOp.Shr.report k x) := by
  have sign := flagGenericSf_eq w (x.setWidth 16)
  rw [flagGenericSf, BitVec.setWidth_setWidth_of_le _ w.bits_bounds.2, BitVec.setWidth_eq] at sign
  simp -bitVecOfNat only [updateFlagsShr, updateFlagsShiftResult, if_neg counts, flagGenericSf_eq, flagGenericZf_eq,
    flagGenericPf_eq w, shr_setWidth, shr_carry w x k _ rfl, sign]
  apply Flags.ext_flags
  · intro flag
    by_cases one : k = 1
    · subst one
      cases flag <;> simp [ShiftOp.report, resultReport, ShiftOp.single, ShiftOp.leaving]
    · cases flag <;> simp [ShiftOp.report, resultReport, counts, one, ShiftOp.leaving, ShiftOp.shr_iterate]
  · by_cases one : k = 1 <;> simp [one]

theorem updateFlagsSar_eq (counts : k ≠ 0) :
    updateFlagsSar f (x.signExtend 32) k (((x.signExtend 32).sshiftRight k).setWidth 16) w =
      f.update (ShiftOp.Sar.report k x) := by
  simp -bitVecOfNat only [updateFlagsSar, updateFlagsShiftResult, if_neg counts, flagGenericSf_eq, flagGenericZf_eq,
    flagGenericPf_eq w, sar_setWidth, sar_carry]
  apply Flags.ext_flags
  · intro flag
    by_cases one : k = 1
    · subst one
      cases flag <;> simp [ShiftOp.report, resultReport, ShiftOp.single, ShiftOp.leaving, BitVec.msb_sshiftRight]
    · cases flag <;> simp [ShiftOp.report, resultReport, counts, one, ShiftOp.leaving, ShiftOp.sar_iterate]
  · by_cases one : k = 1 <;> simp [one]

theorem rol_sign : ((Alu.rotateLeft w (x.setWidth 16) k >>> (w.bits - 1)) &&& 1 != 0) = (x.rotateLeft k).msb := by
  have bits := w.bits_bounds
  rw [low_bit (by decide), BitVec.getLsbD_ushiftRight, Nat.add_zero, BitVec.msb_eq_getLsbD_last, ← rol_setWidth w x k,
    BitVec.getLsbD_setWidth, decide_eq_true (by omega), Bool.true_and]

theorem rol_flags (counts : k ≠ 0) :
    (if k = 1 then (f.set .CF (x.rotateLeft (k - 1)).msb).set .OF ((x.rotateLeft (k - 1)).msb ^^ (x.rotateLeft k).msb)
      else f.set .CF (x.rotateLeft (k - 1)).msb) = f.update (ShiftOp.Rol.report k x) := by
  have first : x.rotateLeft 0 = x := (ShiftOp.rol_iterate 0 x).symm
  apply Flags.ext_flags
  · intro flag
    by_cases one : k = 1
    · subst one
      cases flag <;> simp [ShiftOp.report, ShiftOp.single, ShiftOp.leaving, first]
    · cases flag <;> simp [ShiftOp.report, counts, one, ShiftOp.leaving, ShiftOp.rol_iterate]
  · by_cases one : k = 1 <;> simp [one]

theorem pack_back : w.pack (x.setWidth 16) = w.value x := by
  rw [w.pack_eq, BitVec.setWidth_setWidth_of_le _ w.bits_bounds.2, BitVec.setWidth_eq]

/-- A shift by a count is as many shifts by one bit, the count taken modulo 32. -/
theorem shift_exact (op : ShiftOp) (n : BitVec 8) :
    Alu.shift op (w.value x) n f =
      .ok (w.value (op.single^[(n &&& 0x1f).toNat] x), f.update (op.report (n &&& 0x1f).toNat x)) := by
  have bits := w.bits_bounds
  rw [Alu.shift, unpack_value, Lib.Outcome.ok_bind]
  generalize (n &&& 0x1f).toNat = k
  have kept (op : ShiftOp) : f.update (op.report 0 x) = f := by
    apply Flags.ext_flags
    · intro flag
      cases flag <;> simp [ShiftOp.report]
    · simp
  have none (op : ShiftOp) : Lib.Outcome.ok (w.pack (x.setWidth 16), f) =
      (.ok (w.value (op.single^[0] x), f.update (op.report 0 x)) : Result (Value × Flags)) := by
    rw [kept, pack_back]
    rfl
  cases op with
  | Shl =>
      by_cases counts : k = 0
      · subst counts
        exact none .Shl
      · simp only [if_neg counts, updateFlagsShl_eq f w x k counts, w.pack_eq, shl_setWidth, ShiftOp.shl_iterate]
        rfl
  | Shr =>
      by_cases counts : k = 0
      · subst counts
        exact none .Shr
      · simp only [if_neg counts, updateFlagsShr_eq f w x k counts, w.pack_eq, shr_setWidth, ShiftOp.shr_iterate]
        rfl
  | Sar =>
      by_cases counts : k = 0
      · subst counts
        exact none .Sar
      · simp only [if_neg counts, signed_eq, updateFlagsSar_eq f w x k counts, w.pack_eq, sar_setWidth,
          ShiftOp.sar_iterate]
        rfl
  | Rol =>
      have value : w.pack (Alu.rotateLeft w (x.setWidth 16) k) = w.value (ShiftOp.Rol.single^[k] x) := by
        rw [w.pack_eq, rol_setWidth, ShiftOp.rol_iterate]
      by_cases counts : k = 0
      · subst counts
        rw [kept, ← value]
        rfl
      · rw [← rol_flags f w x k counts, ← value, ← rol_carry w x k counts, ← rol_sign]
        simp only [if_neg counts]
        by_cases one : k = 1
        · simp only [if_pos one]
          rfl
        · simp only [if_neg one]
          rfl

end Exact

end Dis86.Emu
