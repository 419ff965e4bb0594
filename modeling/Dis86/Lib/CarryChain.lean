import Mathlib.Data.BitVec
import Mathlib.Tactic.Common
import Mathlib.Tactic.LinearCombination
import Mathlib.Tactic.Positivity
import Mathlib.Tactic.Ring

namespace Dis86.Lib

variable {w : Nat}

/-- The sum of two words and a carry. -/
def sumWith (x y : BitVec w) (c : Bool) : BitVec w := x + y + (BitVec.ofBool c).setWidth w

/-- The difference of two words and a borrow. -/
def differenceWith (x y : BitVec w) (c : Bool) : BitVec w := x - y - (BitVec.ofBool c).setWidth w

def carryOut (x y : BitVec w) (c : Bool) : Bool := 2 ^ w ≤ x.toNat + y.toNat + c.toNat

def borrowOut (x y : BitVec w) (c : Bool) : Bool := x.toNat < y.toNat + c.toNat

/-- The sum as a signed number does not fit. -/
def sumOverflows (x y : BitVec w) (c : Bool) : Bool := x.toInt + y.toInt + c.toNat != (sumWith x y c).toInt

def differenceOverflows (x y : BitVec w) (c : Bool) : Bool :=
  x.toInt - y.toInt - c.toNat != (differenceWith x y c).toInt

/-- The number of a list of words, the lowest word first. -/
def wordsNat : List (BitVec w) → Nat
  | [] => 0
  | x :: rest => x.toNat + 2 ^ w * wordsNat rest

theorem wordsNat_lt (words : List (BitVec w)) : wordsNat words < 2 ^ (w * words.length) := by
  induction words with
  | nil => exact Nat.one_pos
  | cons x rest hypothesis =>
      have low := x.isLt
      have bound : 2 ^ w * wordsNat rest + 2 ^ w ≤ 2 ^ w * 2 ^ (w * rest.length) := by
        rw [← Nat.mul_succ]
        exact Nat.mul_le_mul_left _ hypothesis
      rw [wordsNat, List.length_cons, Nat.mul_succ, Nat.add_comm (w * _), Nat.pow_add]
      omega

theorem wordsNat_append (low high : List (BitVec w)) :
    wordsNat (low ++ high) = wordsNat low + 2 ^ (w * low.length) * wordsNat high := by
  induction low with
  | nil => simp [wordsNat]
  | cons x rest hypothesis =>
      rw [List.cons_append, wordsNat, wordsNat, hypothesis, List.length_cons, Nat.mul_succ, Nat.add_comm (w * _),
        Nat.pow_add]
      ring

/-- The same words as a number in two's complement. The last word has the sign. -/
def wordsInt (low : List (BitVec w)) (high : BitVec w) : Int := wordsNat low + 2 ^ (w * low.length) * high.toInt

theorem bit_toNat (pos : 0 < w) (c : Bool) : ((BitVec.ofBool c).setWidth w).toNat = c.toNat := by
  rw [BitVec.toNat_setWidth, BitVec.toNat_ofBool, Nat.mod_eq_of_lt]
  exact Nat.lt_of_lt_of_le c.toNat_lt (Nat.pow_le_pow_right Nat.two_pos pos)

/-- The sum and its carry make the whole sum. -/
theorem sumWith_toNat (pos : 0 < w) (x y : BitVec w) (c : Bool) :
    (sumWith x y c).toNat + 2 ^ w * (carryOut x y c).toNat = x.toNat + y.toNat + c.toNat := by
  have bounds := (⟨x.isLt, y.isLt, c.toNat_lt⟩ : _ ∧ _ ∧ _)
  rw [sumWith, BitVec.toNat_add, BitVec.toNat_add, bit_toNat pos, Nat.mod_add_mod, carryOut]
  by_cases carries : 2 ^ w ≤ x.toNat + y.toNat + c.toNat
  · rw [decide_eq_true carries, Nat.mod_eq_sub_mod carries, Nat.mod_eq_of_lt (by omega)]
    simp only [Bool.toNat_true]
    omega
  · rw [decide_eq_false carries, Nat.mod_eq_of_lt (by omega)]
    simp

theorem differenceWith_toNat (pos : 0 < w) (x y : BitVec w) (c : Bool) :
    (differenceWith x y c).toNat + y.toNat + c.toNat = x.toNat + 2 ^ w * (borrowOut x y c).toNat := by
  have back : sumWith (differenceWith x y c) y c = x := by
    rw [sumWith, differenceWith, sub_right_comm, sub_add_cancel, sub_add_cancel]
  have whole := sumWith_toNat pos (differenceWith x y c) y c
  have bounds := (⟨x.isLt, y.isLt, (differenceWith x y c).isLt, c.toNat_lt⟩ : _ ∧ _ ∧ _ ∧ _)
  have borrows : borrowOut x y c = carryOut (differenceWith x y c) y c := by
    cases carries : carryOut (differenceWith x y c) y c with
    | true =>
        rw [back, carries, Bool.toNat_true] at whole
        exact decide_eq_true (by omega)
    | false =>
        rw [back, carries, Bool.toNat_false] at whole
        exact decide_eq_false (by omega)
  rw [back] at whole
  rw [borrows, whole]

section Signed

theorem two_pow_half (pos : 0 < w) : 2 ^ w = 2 ^ (w - 1) + 2 ^ (w - 1) := by
  rw [← Nat.two_mul, ← Nat.pow_succ', Nat.succ_eq_add_one, Nat.sub_add_cancel pos]

/-- The number of a word and its signed number, by halves of the range. -/
theorem toInt_halves (pos : 0 < w) (x : BitVec w) :
    (x.msb = false ∧ x.toNat < 2 ^ (w - 1) ∧ x.toInt = x.toNat) ∨
      x.msb = true ∧ 2 ^ (w - 1) ≤ x.toNat ∧ x.toInt = x.toNat - (2 ^ (w - 1) + 2 ^ (w - 1) : Nat) := by
  have bound := x.isLt
  rw [BitVec.toInt_eq_msb_cond, BitVec.msb_eq_decide]
  by_cases high : 2 ^ (w - 1) ≤ x.toNat
  · exact .inr ⟨decide_eq_true high, high, by rw [if_pos (decide_eq_true high), two_pow_half pos]⟩
  · exact .inl ⟨decide_eq_false high, by omega, if_neg (by simpa using high)⟩

/-- A sum overflows if and only if its sign differs from the signs of both operands. -/
theorem sumOverflows_eq (pos : 0 < w) (x y : BitVec w) (c : Bool) :
    sumOverflows x y c = ((x.msb ^^ (sumWith x y c).msb) && (y.msb ^^ (sumWith x y c).msb)) := by
  have whole := sumWith_toNat pos x y c
  have bounds := (⟨x.isLt, y.isLt, (sumWith x y c).isLt, c.toNat_lt⟩ : _ ∧ _ ∧ _ ∧ _)
  rw [two_pow_half pos] at whole bounds
  rw [sumOverflows, Bool.eq_iff_iff, bne_iff_ne]
  obtain ⟨signX, halfX, intX⟩ | ⟨signX, halfX, intX⟩ := toInt_halves pos x <;>
  obtain ⟨signY, halfY, intY⟩ | ⟨signY, halfY, intY⟩ := toInt_halves pos y <;>
  obtain ⟨signR, halfR, intR⟩ | ⟨signR, halfR, intR⟩ := toInt_halves pos (sumWith x y c) <;>
  rw [signX, signY, signR, intX, intY, intR] <;>
  generalize 2 ^ (w - 1) = half at * <;>
  cases carries : carryOut x y c <;>
  rw [carries] at whole <;>
  simp only [Bool.toNat_true, Bool.toNat_false, Nat.mul_one, Nat.mul_zero, Nat.add_zero] at whole <;>
  simp <;> omega

/-- A difference overflows if and only if its sign and the sign of the second operand differ from that of the first. -/
theorem differenceOverflows_eq (pos : 0 < w) (x y : BitVec w) (c : Bool) :
    differenceOverflows x y c = ((x.msb ^^ y.msb) && (x.msb ^^ (differenceWith x y c).msb)) := by
  have whole := differenceWith_toNat pos x y c
  have bounds := (⟨x.isLt, y.isLt, (differenceWith x y c).isLt, c.toNat_lt⟩ : _ ∧ _ ∧ _ ∧ _)
  rw [two_pow_half pos] at whole bounds
  rw [differenceOverflows, Bool.eq_iff_iff, bne_iff_ne]
  obtain ⟨signX, halfX, intX⟩ | ⟨signX, halfX, intX⟩ := toInt_halves pos x <;>
  obtain ⟨signY, halfY, intY⟩ | ⟨signY, halfY, intY⟩ := toInt_halves pos y <;>
  obtain ⟨signR, halfR, intR⟩ | ⟨signR, halfR, intR⟩ := toInt_halves pos (differenceWith x y c) <;>
  rw [signX, signY, signR, intX, intY, intR] <;>
  generalize 2 ^ (w - 1) = half at * <;>
  cases borrows : borrowOut x y c <;>
  rw [borrows] at whole <;>
  simp only [Bool.toNat_true, Bool.toNat_false, Nat.mul_one, Nat.mul_zero, Nat.add_zero] at whole <;>
  simp <;> omega

/-- The sign of a difference is wrong exactly when it overflows. -/
theorem differenceWith_sign (pos : 0 < w) (x y : BitVec w) (c : Bool) :
    ((differenceWith x y c).msb != differenceOverflows x y c) = true ↔ x.toInt - y.toInt - c.toNat < 0 := by
  have whole := differenceWith_toNat pos x y c
  have bounds := (⟨x.isLt, y.isLt, (differenceWith x y c).isLt, c.toNat_lt⟩ : _ ∧ _ ∧ _ ∧ _)
  rw [two_pow_half pos] at whole bounds
  rw [differenceOverflows_eq pos]
  obtain ⟨signX, halfX, intX⟩ | ⟨signX, halfX, intX⟩ := toInt_halves pos x <;>
  obtain ⟨signY, halfY, intY⟩ | ⟨signY, halfY, intY⟩ := toInt_halves pos y <;>
  obtain ⟨signR, halfR, intR⟩ | ⟨signR, halfR, intR⟩ := toInt_halves pos (differenceWith x y c) <;>
  rw [signX, signY, signR, intX, intY] <;>
  generalize 2 ^ (w - 1) = half at * <;>
  cases borrows : borrowOut x y c <;>
  rw [borrows] at whole <;>
  simp only [Bool.toNat_true, Bool.toNat_false, Nat.mul_one, Nat.mul_zero, Nat.add_zero] at whole <;>
  simp <;> omega

end Signed

section Words

/-- Word by word, the carry of each goes into the next. -/
def sumWords : List (BitVec w × BitVec w) → Bool → List (BitVec w) × Bool
  | [], c => ([], c)
  | (x, y) :: rest, c =>
      let higher := sumWords rest (carryOut x y c)
      (sumWith x y c :: higher.1, higher.2)

def differenceWords : List (BitVec w × BitVec w) → Bool → List (BitVec w) × Bool
  | [], c => ([], c)
  | (x, y) :: rest, c =>
      let higher := differenceWords rest (borrowOut x y c)
      (differenceWith x y c :: higher.1, higher.2)

def firsts (l : List (BitVec w × BitVec w)) : List (BitVec w) := l.map Prod.fst

def seconds (l : List (BitVec w × BitVec w)) : List (BitVec w) := l.map Prod.snd

theorem sumWords_length (l : List (BitVec w × BitVec w)) (c : Bool) : (sumWords l c).1.length = l.length := by
  induction l generalizing c with
  | nil => rfl
  | cons pair rest hypothesis => exact congrArg (· + 1) (hypothesis _)

theorem differenceWords_length (l : List (BitVec w × BitVec w)) (c : Bool) :
    (differenceWords l c).1.length = l.length := by
  induction l generalizing c with
  | nil => rfl
  | cons pair rest hypothesis => exact congrArg (· + 1) (hypothesis _)

/-- The borrow of a last word. -/
theorem differenceWords_snoc (l : List (BitVec w × BitVec w)) (x y : BitVec w) (c : Bool) :
    (differenceWords (l ++ [(x, y)]) c).2 = borrowOut x y (differenceWords l c).2 := by
  induction l generalizing c with
  | nil => rfl
  | cons pair rest hypothesis => exact hypothesis _

/-- The words and the last carry make the whole sum. -/
theorem sumWords_nat (pos : 0 < w) (l : List (BitVec w × BitVec w)) (c : Bool) :
    wordsNat (sumWords l c).1 + 2 ^ (w * l.length) * (sumWords l c).2.toNat =
      wordsNat (firsts l) + wordsNat (seconds l) + c.toNat := by
  induction l generalizing c with
  | nil => simp [sumWords, wordsNat, firsts, seconds]
  | cons pair rest hypothesis =>
      obtain ⟨x, y⟩ := pair
      have low := sumWith_toNat pos x y c
      have high := hypothesis (carryOut x y c)
      simp only [sumWords, firsts, seconds, List.map_cons, wordsNat, List.length_cons, Nat.mul_succ,
        Nat.add_comm (w * rest.length), Nat.pow_add] at high ⊢
      calc (sumWith x y c).toNat + 2 ^ w * wordsNat (sumWords rest (carryOut x y c)).1 +
            2 ^ w * 2 ^ (w * rest.length) * (sumWords rest (carryOut x y c)).2.toNat
        _ = (sumWith x y c).toNat + 2 ^ w * (wordsNat (sumWords rest (carryOut x y c)).1 +
              2 ^ (w * rest.length) * (sumWords rest (carryOut x y c)).2.toNat) := by ring
        _ = (sumWith x y c).toNat + 2 ^ w * (carryOut x y c).toNat +
              2 ^ w * (wordsNat (rest.map Prod.fst) + wordsNat (rest.map Prod.snd)) := by rw [high]; ring
        _ = _ := by rw [low]; ring

/-- The words of a difference make the first number, less the second one and the borrow. -/
theorem differenceWords_nat (pos : 0 < w) (l : List (BitVec w × BitVec w)) (c : Bool) :
    wordsNat (differenceWords l c).1 + wordsNat (seconds l) + c.toNat =
      wordsNat (firsts l) + 2 ^ (w * l.length) * (differenceWords l c).2.toNat := by
  induction l generalizing c with
  | nil => simp [differenceWords, wordsNat, firsts, seconds]
  | cons pair rest hypothesis =>
      obtain ⟨x, y⟩ := pair
      have low := differenceWith_toNat pos x y c
      have high := hypothesis (borrowOut x y c)
      simp only [differenceWords, firsts, seconds, List.map_cons, wordsNat, List.length_cons, Nat.mul_succ,
        Nat.add_comm (w * rest.length), Nat.pow_add] at high ⊢
      calc (differenceWith x y c).toNat + 2 ^ w * wordsNat (differenceWords rest (borrowOut x y c)).1 +
            (y.toNat + 2 ^ w * wordsNat (rest.map Prod.snd)) + c.toNat
        _ = ((differenceWith x y c).toNat + y.toNat + c.toNat) +
              2 ^ w * (wordsNat (differenceWords rest (borrowOut x y c)).1 + wordsNat (rest.map Prod.snd)) := by ring
        _ = x.toNat + 2 ^ w * (wordsNat (differenceWords rest (borrowOut x y c)).1 +
              wordsNat (rest.map Prod.snd) + (borrowOut x y c).toNat) := by rw [low]; ring
        _ = _ := by rw [high]; ring

/-- The last borrow says that the first number is below the second one. -/
theorem differenceWords_borrows (pos : 0 < w) (l : List (BitVec w × BitVec w)) (c : Bool) :
    (differenceWords l c).2 = true ↔ wordsNat (firsts l) < wordsNat (seconds l) + c.toNat := by
  have whole := differenceWords_nat pos l c
  have bound := wordsNat_lt (differenceWords l c).1
  rw [differenceWords_length] at bound
  cases borrows : (differenceWords l c).2 with
  | true =>
      rw [borrows, Bool.toNat_true] at whole
      exact iff_of_true rfl (by omega)
  | false =>
      rw [borrows, Bool.toNat_false] at whole
      exact iff_of_false Bool.false_ne_true (by omega)

variable (pos : 0 < w) (l : List (BitVec w × BitVec w)) (x y : BitVec w) (c : Bool)
include pos

/-- The numbers of the lower words differ from the borrow by less than the weight of the last word. -/
theorem signed_difference :
    wordsInt (firsts l) x - (wordsInt (seconds l) y + c.toNat) =
      wordsNat (differenceWords l c).1 +
        2 ^ (w * l.length) * (x.toInt - y.toInt - (differenceWords l c).2.toNat) := by
  have whole := congrArg (Nat.cast (R := Int)) (differenceWords_nat pos l c)
  push_cast at whole
  rw [wordsInt, wordsInt, firsts, seconds, List.length_map, List.length_map]
  rw [firsts, seconds] at whole
  linear_combination -whole

/-- In the last word the sign and the overflow decide the signed order of the numbers. -/
theorem differenceWords_signed :
    ((differenceWith x y (differenceWords l c).2).msb != differenceOverflows x y (differenceWords l c).2) = true ↔
      wordsInt (firsts l) x < wordsInt (seconds l) y + c.toNat := by
  have split := signed_difference pos l x y c
  have bound := wordsNat_lt (differenceWords l c).1
  rw [differenceWords_length] at bound
  have weight : (0 : Int) < 2 ^ (w * l.length) := by positivity
  have low : (wordsNat (differenceWords l c).1 : Int) < 2 ^ (w * l.length) := by exact_mod_cast bound
  rw [differenceWith_sign pos, ← sub_neg (a := wordsInt (firsts l) x), split]
  generalize x.toInt - y.toInt - ((differenceWords l c).2.toNat : Int) = top at *
  constructor
  · intro negative
    have least := mul_le_mul_of_nonneg_left (Int.le_sub_one_of_lt negative) weight.le
    rw [zero_sub, mul_neg_one] at least
    omega
  · intro negative
    by_contra positive
    have product := mul_nonneg weight.le (not_lt.mp positive)
    have words := Int.natCast_nonneg (wordsNat (differenceWords l c).1)
    omega

/-- In the last word the sum overflows if and only if the whole sum does. -/
theorem sumWords_overflows :
    sumOverflows x y (sumWords l c).2 = true ↔
      wordsInt (sumWords l c).1 (sumWith x y (sumWords l c).2) ≠
        wordsInt (firsts l) x + wordsInt (seconds l) y + c.toNat := by
  have whole := congrArg (Nat.cast (R := Int)) (sumWords_nat pos l c)
  push_cast at whole
  have weight : (2 : Int) ^ (w * l.length) ≠ 0 := by positivity
  rw [wordsInt, wordsInt, wordsInt, sumWords_length, firsts, seconds, List.length_map, List.length_map]
  rw [firsts, seconds] at whole
  rw [sumOverflows, bne_iff_ne, not_iff_not]
  constructor
  · intro same
    rw [← same]
    linear_combination whole
  · intro same
    apply mul_left_cancel₀ weight
    linear_combination whole - same

end Words

end Dis86.Lib
