import Dis86.Hydra.Machine
import Dis86.Lib.Numerals
import Dis86.Lib.WordArith

namespace Dis86.Hydra.Decimal
open Dis86.Lib

/-- A signed character of C. A string is read from its memory up to the first zero. -/
abbrev Char := BitVec 8

def minus : Char := 0x2d

def isDigit (c : Char) : Bool := BitVec.sle 0x30 c && BitVec.sle c 0x39

/-- The loop of `parse_u64`. -/
def scanU64 : BitVec 64 → List Char → Option (BitVec 64)
  | num, [] => some num
  | num, c :: s =>
      if c = 0 then some num
      else if isDigit c then
        let next := 10 * num + (c - 0x30).setWidth 64
        if next < num then none else scanU64 next s
      else none

/-- A parser returns whether it has succeeded, and what its output then holds. -/
def parseU64 (s : List Char) (out : BitVec 64) : Bool × BitVec 64 :=
  match scanU64 0 s with
  | some num => (true, num)
  | none => (false, out)

/-- The number of the widest parser is cast down, and must be the same when it is cast back. -/
def narrow {w : Nat} (signed : Bool) (wide : Bool × BitVec 64) (out : BitVec w) : Bool × BitVec w :=
  let (parsed, num) := wide
  if !parsed then (false, out)
  else if num ≠ extendTo 64 signed (num.setWidth w) then (false, out)
  else (true, num.setWidth w)

def parseU32 (s : List Char) (out : BitVec 32) : Bool × BitVec 32 := narrow false (parseU64 s 0) out
def parseU16 (s : List Char) (out : BitVec 16) : Bool × BitVec 16 := narrow false (parseU64 s 0) out
def parseU8 (s : List Char) (out : BitVec 8) : Bool × BitVec 8 := narrow false (parseU64 s 0) out

/-- The cast of 2^63 to a signed number and its negation wrap around, as on the compilers that the runtime is built
with. -/
def parseI64 (s : List Char) (out : BitVec 64) : Bool × BitVec 64 :=
  let neg := s.head? = some minus
  let (parsed, unum) := parseU64 (if neg then s.tail else s) 0
  if !parsed then (false, out)
  else if neg then
    if unum > (1 : BitVec 64) <<< 63 then (false, out) else (true, -unum)
  else if unum ≥ (1 : BitVec 64) <<< 63 then (false, out) else (true, unum)

def parseI32 (s : List Char) (out : BitVec 32) : Bool × BitVec 32 := narrow true (parseI64 s 0) out
def parseI16 (s : List Char) (out : BitVec 16) : Bool × BitVec 16 := narrow true (parseI64 s 0) out
def parseI8 (s : List Char) (out : BitVec 8) : Bool × BitVec 8 := narrow true (parseI64 s 0) out

section Numbers

/-- The characters before the zero. -/
def text (s : List Char) : List Char := s.takeWhile (· ≠ 0)

def digits (t : List Char) : List Nat := t.map fun c => c.toNat - 48

def number (t : List Char) : Nat := numeral 10 (digits t)

def IsNumeral (t : List Char) : Prop := t ≠ [] ∧ ∀ c ∈ t, 48 ≤ c.toNat ∧ c.toNat ≤ 57

/-- The number that a text denotes. A signed one may begin with a minus. -/
def Denotes (signed : Bool) (t : List Char) (z : Int) : Prop :=
  if signed ∧ t.head? = some minus then IsNumeral t.tail ∧ z = -(number t.tail : Int)
  else IsNumeral t ∧ z = number t

/-- The number has a word of its own. -/
def Fits (signed : Bool) (w : Nat) (z : Int) : Prop :=
  if signed then -2 ^ (w - 1) ≤ z ∧ z < 2 ^ (w - 1) else 0 ≤ z ∧ z < 2 ^ w

/-- A parser accepts just the numbers that fit, stores them, and otherwise leaves its output alone. -/
structure Exact {w : Nat} (signed : Bool) (parse : List Char → BitVec w → Bool × BitVec w)
    (s : List Char) : Prop where
  accepts : ∀ out, (parse s out).1 = true ↔ ∃ z, Denotes signed (text s) z ∧ Fits signed w z
  stores : ∀ out z, (parse s out).1 = true → Denotes signed (text s) z → reading signed (parse s out).2 = z
  keeps : ∀ out, (parse s out).1 = false → (parse s out).2 = out

structure ParsersExact (s : List Char) : Prop where
  u64 : Exact false parseU64 s
  u32 : Exact false parseU32 s
  u16 : Exact false parseU16 s
  u8 : Exact false parseU8 s
  i64 : Exact true parseI64 s
  i32 : Exact true parseI32 s
  i16 : Exact true parseI16 s
  i8 : Exact true parseI8 s

/-- A number of more than sixty-four bits whose value modulo 2^64 no digit makes smaller. -/
def Overlooked (t : List Char) : Prop := IsNumeral t ∧ 2 ^ 64 ≤ number t ∧ ¬ Drops 10 (2 ^ 64) (digits t)

end Numbers

section Scan

theorem isDigit_iff (c : Char) : isDigit c = true ↔ 48 ≤ c.toNat ∧ c.toNat ≤ 57 := by
  have small := c.isLt
  have low : (0x30 : Char).toInt = 48 := rfl
  have high : (0x39 : Char).toInt = 57 := rfl
  rw [isDigit, Bool.and_eq_true, BitVec.sle_iff_toInt_le, BitVec.sle_iff_toInt_le, low, high,
    BitVec.toInt_eq_toNat_cond]
  split <;> omega

theorem text_cons (c : Char) (s : List Char) : text (c :: s) = if c = 0 then [] else c :: text s := by
  rw [text, List.takeWhile_cons]
  by_cases zero : c = 0 <;> simp [zero, text]

theorem digit_of_mem {t : List Char} (digit : ∀ c ∈ t, 48 ≤ c.toNat ∧ c.toNat ≤ 57) :
    ∀ d ∈ digits t, d < 10 := by
  intro d inside
  obtain ⟨c, among, rfl⟩ := List.mem_map.mp inside
  have bounds := digit c among
  omega

theorem scanU64_eq_some {num n : BitVec 64} {s : List Char} : scanU64 num s = some n ↔
    (∀ c ∈ text s, 48 ≤ c.toNat ∧ c.toNat ≤ 57) ∧
      accumulate 10 (2 ^ 64) num.toNat (digits (text s)) = some n.toNat := by
  induction s generalizing num with
  | nil => simp [scanU64, text, digits, accumulate, BitVec.toNat_inj]
  | cons c s hypothesis =>
      rw [scanU64, text_cons]
      by_cases zero : c = 0
      · simp [zero, digits, accumulate, BitVec.toNat_inj]
      · rw [if_neg zero, if_neg zero]
        by_cases digit : isDigit c = true
        · have bounds := (isDigit_iff c).mp digit
          have value : ((c - 0x30).setWidth 64).toNat = c.toNat - 48 := by
            rw [BitVec.toNat_setWidth, BitVec.toNat_sub_of_le (by rw [BitVec.le_def]; exact bounds.1)]
            exact Nat.mod_eq_of_lt (by omega)
          have next : (10 * num + (c - 0x30).setWidth 64).toNat =
              (10 * num.toNat + (c.toNat - 48)) % 2 ^ 64 := by
            rw [BitVec.toNat_add, BitVec.toNat_mul, value, Nat.mod_add_mod]
            rfl
          rw [if_pos digit, digits, List.map_cons, accumulate]
          dsimp only
          have smaller : 10 * num + (c - 0x30).setWidth 64 < num ↔
              (10 * num.toNat + (c.toNat - 48)) % 2 ^ 64 < num.toNat := by rw [BitVec.lt_def, next]
          by_cases down : 10 * num + (c - 0x30).setWidth 64 < num
          · rw [if_pos down, if_pos (smaller.mp down)]
            simp
          · rw [if_neg down, if_neg (mt smaller.mpr down), hypothesis, next]
            simp [bounds, digits]
        · have wrong : ¬ (48 ≤ c.toNat ∧ c.toNat ≤ 57) := mt (isDigit_iff c).mpr digit
          rw [if_neg digit]
          simp [wrong]

/-- What the loop accepts. -/
def Scanned (t : List Char) : Prop := (∀ c ∈ t, 48 ≤ c.toNat ∧ c.toNat ≤ 57) ∧ ¬ Drops 10 (2 ^ 64) (digits t)

theorem scanU64_zero_eq_some {n : BitVec 64} {s : List Char} : scanU64 0 s = some n ↔
    Scanned (text s) ∧ n.toNat = number (text s) % 2 ^ 64 := by
  have start : (0 : BitVec 64).toNat = 0 := rfl
  rw [scanU64_eq_some, start, accumulate_eq_some, Scanned, and_assoc]
  rfl

end Scan

end Dis86.Hydra.Decimal
