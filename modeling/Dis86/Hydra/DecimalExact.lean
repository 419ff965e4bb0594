import Dis86.Hydra.Decimal
import Mathlib.Algebra.Order.Ring.Int

namespace Dis86.Hydra.Decimal
open Dis86.Lib

section Exactness

variable {w : Nat} {signed : Bool} {s t : List Char} {z : Int}

/-- The output of a parser whose result is known. -/
def store (result : Option (BitVec w)) (out : BitVec w) : Bool × BitVec w :=
  match result with
  | some num => (true, num)
  | none => (false, out)

theorem Denotes.unique {z' : Int} (first : Denotes signed t z) (second : Denotes signed t z') : z = z' := by
  unfold Denotes at first second
  split at first
  · rw [if_pos ‹_›] at second
    exact first.2.trans second.2.symm
  · rw [if_neg ‹_›] at second
    exact first.2.trans second.2.symm

theorem fits_reading (signed : Bool) (x : BitVec w) : Fits signed w (reading signed x) := by
  cases signed with
  | true => exact ⟨BitVec.le_toInt x, BitVec.toInt_lt⟩
  | false =>
      refine ⟨Int.natCast_nonneg _, ?_⟩
      show (x.toNat : Int) < 2 ^ w
      exact_mod_cast x.isLt

/-- A parser is exact when its result is denoted, and nothing is denoted where it has none. -/
theorem exact_iff {parse : List Char → BitVec w → Bool × BitVec w} {result : Option (BitVec w)}
    (gives : ∀ out, parse s out = store result out) : Exact signed parse s ↔
      (∀ x, result = some x → Denotes signed (text s) (reading signed x)) ∧
        (result = none → ∀ z, Denotes signed (text s) z → ¬ Fits signed w z) := by
  cases result with
  | none =>
      have failed : ∀ out, parse s out = (false, out) := gives
      constructor
      · intro exact
        refine ⟨fun x read => (by cases read), fun _ z denoted fits => ?_⟩
        have accepted := (exact.accepts 0).mpr ⟨z, denoted, fits⟩
        rw [failed] at accepted
        cases accepted
      · rintro ⟨-, none⟩
        refine ⟨fun out => ?_, fun out z accepted => ?_, fun out _ => by rw [failed]⟩
        · rw [failed]
          exact ⟨fun absurd => (by cases absurd), fun ⟨z, denoted, fits⟩ => absurd fits (none rfl z denoted)⟩
        · rw [failed] at accepted
          cases accepted
  | some num =>
      have read : ∀ out, parse s out = (true, num) := gives
      constructor
      · intro exact
        refine ⟨fun x same => ?_, fun absurd => (by cases absurd)⟩
        obtain rfl := Option.some.inj same
        obtain ⟨z, denoted, _⟩ := (exact.accepts 0).mp (by rw [read])
        have stored := exact.stores 0 z (by rw [read]) denoted
        rw [read] at stored
        exact stored ▸ denoted
      · rintro ⟨some, -⟩
        have denoted := some num rfl
        refine ⟨fun out => ?_, fun out z _ other => ?_, fun out rejected => ?_⟩
        · rw [read]
          exact ⟨fun _ => ⟨_, denoted, fits_reading signed num⟩, fun _ => rfl⟩
        · rw [read]
          exact denoted.unique other
        · rw [read] at rejected
          cases rejected

theorem parseU64_eq (out : BitVec 64) : parseU64 s out = store (scanU64 0 s) out := by
  rw [parseU64]
  cases scanU64 0 s <;> rfl

theorem denotes_unsigned : Denotes false t z ↔ IsNumeral t ∧ z = number t := by simp [Denotes]

theorem Scanned.isNumeral (scanned : Scanned t) (some : t ≠ []) : IsNumeral t := ⟨some, scanned.1⟩

theorem scanned_of_lt (numeric : IsNumeral t) (small : number t < 2 ^ 64) : Scanned t :=
  ⟨numeric.2, not_drops_of_lt (by decide) small⟩

theorem scanned_nil : Scanned [] :=
  ⟨fun c absent => (by cases absent), not_drops_of_lt (by decide) (by decide)⟩

/-- A number that is read to its end is either below the bound or overlooked. -/
theorem Scanned.lt_of_not_overlooked (scanned : Scanned t) (some : t ≠ []) (seen : ¬ Overlooked t) :
    number t < 2 ^ 64 := by
  by_contra large
  exact seen ⟨scanned.isNumeral some, Nat.not_lt.mp large, scanned.2⟩

theorem Overlooked.scanned (overlooked : Overlooked t) : Scanned t := ⟨overlooked.1.2, overlooked.2.2⟩

/-- What the loop returns for a text that it reads to its end. -/
theorem scanU64_of_scanned (scanned : Scanned (text s)) : scanU64 0 s = some (.ofNat 64 (number (text s))) := by
  rw [scanU64_zero_eq_some, BitVec.toNat_ofNat]
  exact ⟨scanned, rfl⟩

theorem parseU64_exact_iff : Exact false parseU64 s ↔ text s ≠ [] ∧ ¬ Overlooked (text s) := by
  rw [exact_iff parseU64_eq]
  constructor
  · rintro ⟨denoted, -⟩
    constructor
    · intro empty
      have scanned : Scanned (text s) := empty ▸ scanned_nil
      have numeric := (denotes_unsigned.mp (denoted _ (scanU64_of_scanned scanned))).1
      exact numeric.1 empty
    · intro overlooked
      obtain ⟨_, value⟩ := denotes_unsigned.mp (denoted _ (scanU64_of_scanned overlooked.scanned))
      have small := (BitVec.ofNat 64 (number (text s))).isLt
      have large := overlooked.2.1
      rw [reading, if_neg Bool.false_ne_true] at value
      omega
  · rintro ⟨some, seen⟩
    constructor
    · intro x read
      obtain ⟨scanned, value⟩ := scanU64_zero_eq_some.mp read
      rw [Nat.mod_eq_of_lt (scanned.lt_of_not_overlooked some seen)] at value
      exact denotes_unsigned.mpr ⟨scanned.isNumeral some, congrArg Nat.cast value⟩
    · intro rejected z denoted fits
      obtain ⟨numeric, rfl⟩ := denotes_unsigned.mp denoted
      have small : number (text s) < 2 ^ 64 := by exact_mod_cast fits.2
      rw [scanU64_of_scanned (scanned_of_lt numeric small)] at rejected
      cases rejected

end Exactness

section Signed

variable {s t : List Char} {z : Int}

/-- The digits behind the sign. -/
def magnitude (t : List Char) : List Char := if t.head? = some minus then t.tail else t

/-- The largest number that the sign allows. -/
def limit (neg : Prop) [Decidable neg] : Nat := if neg then 2 ^ 63 else 2 ^ 63 - 1

def withSign (neg : Prop) [Decidable neg] (n : Nat) : Int := if neg then -n else n

/-- The cast of the digits' number to a signed word. -/
def signedWord (neg : Prop) [Decidable neg] (unum : BitVec 64) : Option (BitVec 64) :=
  if neg then if unum > (1 : BitVec 64) <<< 63 then none else some (-unum)
  else if unum ≥ (1 : BitVec 64) <<< 63 then none else some unum

theorem parseI64_eq (out : BitVec 64) : parseI64 s out =
    store ((scanU64 0 (magnitude s)).bind (signedWord (s.head? = some minus))) out := by
  rw [parseI64, parseU64_eq]
  change _ = store ((scanU64 0 (if s.head? = some minus then s.tail else s)).bind _) out
  cases scanU64 0 (if s.head? = some minus then s.tail else s) with
  | none => rfl
  | some unum =>
      change (if s.head? = some minus then
          if unum > (1 : BitVec 64) <<< 63 then (false, out) else (true, -unum)
        else if unum ≥ (1 : BitVec 64) <<< 63 then (false, out) else (true, unum)) = _
      rw [Option.bind_some, signedWord]
      by_cases sign : s.head? = some minus
      · rw [if_pos sign, if_pos sign]
        by_cases beyond : unum > (1 : BitVec 64) <<< 63
        · rw [if_pos beyond, if_pos beyond]
          rfl
        · rw [if_neg beyond, if_neg beyond]
          rfl
      · rw [if_neg sign, if_neg sign]
        by_cases beyond : unum ≥ (1 : BitVec 64) <<< 63
        · rw [if_pos beyond, if_pos beyond]
          rfl
        · rw [if_neg beyond, if_neg beyond]
          rfl

theorem signedWord_eq_some {neg : Prop} [Decidable neg] {unum x : BitVec 64} : signedWord neg unum = some x ↔
    unum.toNat ≤ limit neg ∧ x.toInt = withSign neg unum.toNat := by
  have bound : ((1 : BitVec 64) <<< 63).toNat = 2 ^ 63 := rfl
  have small := unum.isLt
  have injective (y : BitVec 64) : y = x ↔ x.toInt = y.toInt := by rw [← BitVec.toInt_inj, eq_comm]
  unfold signedWord limit withSign
  by_cases sign : neg
  · simp only [if_pos sign, gt_iff_lt, BitVec.lt_def, bound]
    split
    · rename_i beyond
      simp only [reduceCtorEq, false_iff, not_and]
      omega
    · rename_i inside
      have value : (-unum).toInt = -(unum.toNat : Int) := by
        rw [BitVec.toInt_eq_toNat_bmod, BitVec.toNat_neg]
        by_cases zero : unum.toNat = 0
        · rw [zero]
          rfl
        · rw [Nat.mod_eq_of_lt (by omega), Int.bmod_def]
          omega
      rw [Option.some.injEq, injective, value]
      simp only [iff_and_self]
      omega
  · simp only [if_neg sign, ge_iff_le, BitVec.le_def, bound]
    split
    · rename_i beyond
      simp only [reduceCtorEq, false_iff, not_and]
      omega
    · rename_i inside
      have value : unum.toInt = unum.toNat := by
        rw [BitVec.toInt_eq_toNat_cond, if_pos (by omega)]
      rw [Option.some.injEq, injective, value]
      simp only [iff_and_self]
      omega

theorem fits_withSign {neg : Prop} [Decidable neg] {n : Nat} : Fits true 64 (withSign neg n) ↔ n ≤ limit neg := by
  unfold Fits withSign limit
  rw [if_pos rfl]
  split <;> omega

theorem denotes_signed : Denotes true t z ↔
    IsNumeral (magnitude t) ∧ z = withSign (t.head? = some minus) (number (magnitude t)) := by
  unfold Denotes magnitude withSign
  by_cases sign : t.head? = some minus
  · simp only [sign, and_self, if_true]
  · simp only [sign, and_false, if_false]

theorem text_head (s : List Char) : (text s).head? = some minus ↔ s.head? = some minus := by
  cases s with
  | nil => rfl
  | cons c s =>
      rw [text_cons]
      by_cases zero : c = 0
      · rw [if_pos zero, zero]
        exact ⟨fun absurd => (by cases absurd), fun same => (by cases same)⟩
      · rw [if_neg zero]
        rfl

theorem text_magnitude (s : List Char) : text (magnitude s) = magnitude (text s) := by
  unfold magnitude
  by_cases sign : s.head? = some minus
  · rw [if_pos sign, if_pos ((text_head s).mpr sign)]
    cases s with
    | nil => rfl
    | cons c s =>
        obtain rfl := Option.some.inj sign
        rw [text_cons, if_neg (by decide)]
        rfl
  · rw [if_neg sign, if_neg (mt (text_head s).mp sign)]

theorem signed_result {x : BitVec 64} :
    (scanU64 0 (magnitude s)).bind (signedWord (s.head? = some minus)) = some x ↔
      Scanned (magnitude (text s)) ∧
        number (magnitude (text s)) % 2 ^ 64 ≤ limit ((text s).head? = some minus) ∧
        x.toInt = withSign ((text s).head? = some minus) (number (magnitude (text s)) % 2 ^ 64) := by
  simp only [text_head]
  rw [Option.bind_eq_some_iff, ← text_magnitude]
  constructor
  · rintro ⟨unum, read, signed⟩
    obtain ⟨scanned, value⟩ := scanU64_zero_eq_some.mp read
    rw [signedWord_eq_some, value] at signed
    exact ⟨scanned, signed⟩
  · rintro ⟨scanned, signed⟩
    refine ⟨_, scanU64_of_scanned scanned, ?_⟩
    rw [signedWord_eq_some, BitVec.toNat_ofNat]
    exact signed

theorem exists_reading {w : Nat} {signed : Bool} (positive : 0 < w) (fits : Fits signed w z) :
    ∃ x : BitVec w, reading signed x = z := by
  cases signed with
  | true =>
      obtain ⟨low, high⟩ : -2 ^ (w - 1) ≤ z ∧ z < 2 ^ (w - 1) := by simpa [Fits] using fits
      exact exists_toInt positive low high
  | false =>
      obtain ⟨low, high⟩ : 0 ≤ z ∧ z < 2 ^ w := by simpa [Fits] using fits
      obtain ⟨n, rfl⟩ := Int.eq_ofNat_of_zero_le low
      have small : n < 2 ^ w := by exact_mod_cast high
      refine ⟨.ofNat w n, ?_⟩
      show ((BitVec.ofNat w n).toNat : Int) = n
      rw [BitVec.toNat_ofNat, Nat.mod_eq_of_lt small]

/-- The result for digits that are read to their end and whose number the sign allows. -/
theorem exists_signed_result (scanned : Scanned (magnitude (text s)))
    (inside : number (magnitude (text s)) % 2 ^ 64 ≤ limit ((text s).head? = some minus)) :
    ∃ x, (scanU64 0 (magnitude s)).bind (signedWord (s.head? = some minus)) = some x ∧
      x.toInt = withSign ((text s).head? = some minus) (number (magnitude (text s)) % 2 ^ 64) := by
  obtain ⟨x, value⟩ : ∃ x : BitVec 64, reading true x = _ := exists_reading (by decide) (fits_withSign.mpr inside)
  exact ⟨x, signed_result.mpr ⟨scanned, inside, value⟩, value⟩

theorem natAbs_withSign (neg : Prop) [Decidable neg] (n : Nat) : (withSign neg n).natAbs = n := by
  unfold withSign
  split <;> omega

theorem parseI64_exact_iff : Exact true parseI64 s ↔ magnitude (text s) ≠ [] ∧
    ¬ (Overlooked (magnitude (text s)) ∧
      number (magnitude (text s)) % 2 ^ 64 ≤ limit ((text s).head? = some minus)) := by
  rw [exact_iff parseI64_eq]
  constructor
  · rintro ⟨denoted, -⟩
    constructor
    · intro empty
      have scanned : Scanned (magnitude (text s)) := empty ▸ scanned_nil
      have zero : number (magnitude (text s)) = 0 := by
        rw [empty]
        rfl
      obtain ⟨x, result, _⟩ := exists_signed_result scanned (by
        rw [zero]
        exact Nat.zero_le _)
      exact (denotes_signed.mp (denoted x result)).1.1 empty
    · rintro ⟨overlooked, inside⟩
      obtain ⟨x, result, value⟩ := exists_signed_result overlooked.scanned inside
      have number := (denotes_signed.mp (denoted x result)).2
      have same := congrArg Int.natAbs (value.symm.trans number)
      rw [natAbs_withSign, natAbs_withSign] at same
      have large := overlooked.2.1
      omega
  · rintro ⟨some, seen⟩
    constructor
    · intro x result
      obtain ⟨scanned, inside, value⟩ := signed_result.mp result
      have small := scanned.lt_of_not_overlooked some fun overlooked => seen ⟨overlooked, inside⟩
      rw [Nat.mod_eq_of_lt small] at value
      exact denotes_signed.mpr ⟨scanned.isNumeral some, value⟩
    · intro rejected z denoted fits
      obtain ⟨numeric, rfl⟩ := denotes_signed.mp denoted
      have inside := fits_withSign.mp fits
      have small : number (magnitude (text s)) < 2 ^ 64 := by
        unfold limit at inside
        split at inside <;> omega
      obtain ⟨x, result, _⟩ := exists_signed_result (scanned_of_lt numeric small) (by
        rw [Nat.mod_eq_of_lt small]
        exact inside)
      rw [result] at rejected
      cases rejected

end Signed

section Narrow

variable {w : Nat} {signed : Bool} {s : List Char}

/-- The number in fewer bits, when it is the same there. -/
def narrowed (signed : Bool) (w : Nat) (num : BitVec 64) : Option (BitVec w) :=
  if num ≠ extendTo 64 signed (num.setWidth w) then none else some (num.setWidth w)

theorem narrow_store (result : Option (BitVec 64)) (out : BitVec w) :
    narrow signed (store result 0) out = store (result.bind (narrowed signed w)) out := by
  cases result with
  | none => rfl
  | some num =>
      change (if num ≠ extendTo 64 signed (num.setWidth w) then (false, out) else (true, num.setWidth w)) = _
      rw [Option.bind_some, narrowed]
      by_cases other : num ≠ extendTo 64 signed (num.setWidth w)
      · rw [if_pos other, if_pos other]
        rfl
      · rw [if_neg other, if_neg other]
        rfl

/-- A word has a narrow one just when its number fits. -/
theorem narrowed_eq_some (narrower : w ≤ 64) {num : BitVec 64} {x : BitVec w} :
    narrowed signed w num = some x ↔ reading signed x = reading signed num := by
  rw [← narrow_iff narrower]
  unfold narrowed
  split
  · rename_i other
    simp only [reduceCtorEq, false_iff, not_and]
    exact fun same => absurd same other
  · rename_i same
    rw [Option.some.injEq]
    exact (and_iff_right (not_ne_iff.mp same)).symm

theorem Fits.mono {v : Nat} {z : Int} (fits : Fits signed w z) (narrower : w ≤ v) : Fits signed v z := by
  unfold Fits at fits ⊢
  cases signed with
  | true =>
      have more : (2 : Int) ^ (w - 1) ≤ 2 ^ (v - 1) := pow_le_pow_right₀ (by decide) (by omega)
      simp only [if_true] at fits ⊢
      omega
  | false =>
      have more : (2 : Int) ^ w ≤ 2 ^ v := pow_le_pow_right₀ (by decide) narrower
      simp only [Bool.false_eq_true, if_false] at fits ⊢
      omega

/-- Where the widest parser is exact, so are the narrow ones. -/
theorem exact_narrow (positive : 0 < w) (narrower : w ≤ 64) {wide : List Char → BitVec 64 → Bool × BitVec 64}
    {result : Option (BitVec 64)} (gives : ∀ out, wide s out = store result out) (exact : Exact signed wide s) :
    Exact signed (fun s (out : BitVec w) => narrow signed (wide s 0) out) s := by
  have narrowGives (out : BitVec w) : narrow signed (wide s 0) out = store (result.bind (narrowed signed w)) out := by
    rw [gives, narrow_store]
  obtain ⟨denoted, none⟩ := (exact_iff gives).mp exact
  refine (exact_iff narrowGives).mpr ⟨fun x read => ?_, fun rejected z denotes fits => ?_⟩
  · obtain ⟨num, wideRead, kept⟩ := Option.bind_eq_some_iff.mp read
    rw [(narrowed_eq_some narrower).mp kept]
    exact denoted num wideRead
  · cases wideRead : result with
    | none => exact none wideRead z denotes (fits.mono narrower)
    | some num =>
        obtain rfl := (denoted num wideRead).unique denotes
        obtain ⟨x, same⟩ := exists_reading positive fits
        rw [wideRead, Option.bind_some, (narrowed_eq_some narrower).mpr same] at rejected
        cases rejected

/-- Where the widest parser reads a number that is too large, and nothing small is denoted, the narrow ones are
exact. -/
theorem exact_narrow_of_large (positive : 0 < w) (narrower : w ≤ 60)
    {wide : List Char → BitVec 64 → Bool × BitVec 64} {num : BitVec 64}
    (gives : ∀ out, wide s out = store (some num) out) (large : 2 ^ 60 ≤ (reading signed num).natAbs)
    (denoted : ∀ z, Denotes signed (text s) z → 2 ^ 60 ≤ z.natAbs) :
    Exact signed (fun s (out : BitVec w) => narrow signed (wide s 0) out) s := by
  have narrowGives (out : BitVec w) : narrow signed (wide s 0) out = store (narrowed signed w num) out := by
    rw [gives, narrow_store, Option.bind_some]
  have tooLarge {z : Int} (fits : Fits signed w z) : z.natAbs < 2 ^ 60 := by
    have wider := fits.mono narrower
    unfold Fits at wider
    cases signed with
    | true =>
        simp only [if_true] at wider
        omega
    | false =>
        simp only [Bool.false_eq_true, if_false] at wider
        omega
  refine (exact_iff narrowGives).mpr ⟨fun x read => ?_, fun _ z denotes fits => ?_⟩
  · have fits := fits_reading signed x
    rw [(narrowed_eq_some (by omega)).mp read] at fits
    exact absurd (tooLarge fits) (Nat.not_lt.mpr large)
  · exact Nat.not_lt.mpr (denoted z denotes) (tooLarge fits)

/-- A parser that reads zero where nothing is denoted is not exact. -/
theorem not_exact_narrow_of_zero (narrower : w ≤ 64)
    {wide : List Char → BitVec 64 → Bool × BitVec 64} {num : BitVec 64}
    (gives : ∀ out, wide s out = store (some num) out) (zero : reading signed num = 0)
    (none : ∀ z, ¬ Denotes signed (text s) z) :
    ¬ Exact signed (fun s (out : BitVec w) => narrow signed (wide s 0) out) s := by
  have narrowGives (out : BitVec w) : narrow signed (wide s 0) out = store (narrowed signed w num) out := by
    rw [gives, narrow_store, Option.bind_some]
  have read : narrowed signed w num = some 0 := by
    rw [narrowed_eq_some narrower, zero]
    cases signed <;> simp [reading]
  intro exact
  exact none _ (((exact_iff narrowGives).mp exact).1 0 read)

/-- A number that is overlooked stays large. -/
theorem Overlooked.large {t : List Char} (overlooked : Overlooked t) : 2 ^ 60 ≤ number t % 2 ^ 64 := by
  have bound := lt_of_not_drops (digit_of_mem overlooked.1.2) overlooked.2.1 overlooked.2.2 (by decide)
  change 2 ^ 64 < 10 * (number t % 2 ^ 64) + 10 at bound
  omega

/-- The narrow parsers of unsigned numbers only fail on the empty text. -/
theorem narrow_parseU64_exact_iff (positive : 0 < w) (narrower : w ≤ 60) :
    Exact false (fun s (out : BitVec w) => narrow false (parseU64 s 0) out) s ↔ text s ≠ [] := by
  constructor
  · intro exact empty
    have scanned : Scanned (text s) := empty ▸ scanned_nil
    have gives (out : BitVec 64) : parseU64 s out = store (some 0) out := by
      rw [parseU64_eq, scanU64_of_scanned scanned, empty]
      rfl
    refine not_exact_narrow_of_zero (by omega) gives rfl (fun z denoted => ?_) exact
    exact (denotes_unsigned.mp denoted).1.1 empty
  · intro some
    by_cases overlooked : Overlooked (text s)
    · have gives (out : BitVec 64) : parseU64 s out = store (Option.some (.ofNat 64 (number (text s)))) out := by
        rw [parseU64_eq, scanU64_of_scanned overlooked.scanned]
      refine exact_narrow_of_large positive narrower gives ?_ fun z denoted => ?_
      · show 2 ^ 60 ≤ ((BitVec.ofNat 64 (number (text s))).toNat : Int).natAbs
        rw [BitVec.toNat_ofNat, Int.natAbs_natCast]
        exact overlooked.large
      · obtain ⟨_, rfl⟩ := denotes_unsigned.mp denoted
        have large := overlooked.2.1
        omega
    · exact exact_narrow positive (by omega) parseU64_eq (parseU64_exact_iff.mpr ⟨some, overlooked⟩)

/-- The narrow parsers of signed numbers only fail where no digits follow the sign. -/
theorem narrow_parseI64_exact_iff (positive : 0 < w) (narrower : w ≤ 60) :
    Exact true (fun s (out : BitVec w) => narrow true (parseI64 s 0) out) s ↔ magnitude (text s) ≠ [] := by
  constructor
  · intro exact empty
    have zero : number (magnitude (text s)) = 0 := by
      rw [empty]
      rfl
    obtain ⟨num, result, value⟩ := exists_signed_result (empty ▸ scanned_nil) (by
      rw [zero]
      exact Nat.zero_le _)
    have gives (out : BitVec 64) : parseI64 s out = store (some num) out := by rw [parseI64_eq, result]
    refine not_exact_narrow_of_zero (by omega) gives ?_ (fun z denoted => ?_) exact
    · rw [zero] at value
      apply Int.natAbs_eq_zero.mp
      show num.toInt.natAbs = 0
      rw [value, natAbs_withSign, Nat.zero_mod]
    · exact (denotes_signed.mp denoted).1.1 empty
  · intro some
    by_cases missed : Overlooked (magnitude (text s)) ∧
        number (magnitude (text s)) % 2 ^ 64 ≤ limit ((text s).head? = Option.some minus)
    · obtain ⟨overlooked, inside⟩ := missed
      obtain ⟨num, result, value⟩ := exists_signed_result overlooked.scanned inside
      have gives (out : BitVec 64) : parseI64 s out = store (Option.some num) out := by rw [parseI64_eq, result]
      refine exact_narrow_of_large positive narrower gives ?_ fun z denoted => ?_
      · show 2 ^ 60 ≤ num.toInt.natAbs
        rw [value, natAbs_withSign]
        exact overlooked.large
      · obtain ⟨_, rfl⟩ := denotes_signed.mp denoted
        rw [natAbs_withSign]
        have large := overlooked.2.1
        omega
    · exact exact_narrow positive (by omega) parseI64_eq (parseI64_exact_iff.mpr ⟨some, missed⟩)

end Narrow

/-- The parsers are all exact for a text with digits, when no number of more than sixty-four bits is overlooked. Behind
a minus such a number is still rejected when its value modulo 2^64 is more than 2^63. -/
theorem parsers_exact_iff (s : List Char) : ParsersExact s ↔ magnitude (text s) ≠ [] ∧ ¬ Overlooked (text s) ∧
    ¬ (Overlooked (magnitude (text s)) ∧ number (magnitude (text s)) % 2 ^ 64 ≤ 2 ^ 63) := by
  constructor
  · intro exact
    obtain ⟨_, seen⟩ := parseU64_exact_iff.mp exact.u64
    obtain ⟨some, signedSeen⟩ := parseI64_exact_iff.mp exact.i64
    refine ⟨some, seen, fun ⟨overlooked, inside⟩ => ?_⟩
    by_cases sign : (text s).head? = Option.some minus
    · rw [limit, if_pos sign] at signedSeen
      exact signedSeen ⟨overlooked, inside⟩
    · rw [magnitude, if_neg sign] at overlooked
      exact seen overlooked
  · rintro ⟨some, seen, signedSeen⟩
    have notEmpty : text s ≠ [] := by
      intro empty
      rw [empty] at some
      exact some rfl
    have u64 := parseU64_exact_iff.mpr ⟨notEmpty, seen⟩
    have i64 : Exact true parseI64 s := by
      refine parseI64_exact_iff.mpr ⟨some, fun ⟨overlooked, inside⟩ => signedSeen ⟨overlooked, inside.trans ?_⟩⟩
      unfold limit
      split <;> omega
    exact {
      u64
      u32 := exact_narrow (by decide) (by decide) parseU64_eq u64
      u16 := exact_narrow (by decide) (by decide) parseU64_eq u64
      u8 := exact_narrow (by decide) (by decide) parseU64_eq u64
      i64
      i32 := exact_narrow (by decide) (by decide) parseI64_eq i64
      i16 := exact_narrow (by decide) (by decide) parseI64_eq i64
      i8 := exact_narrow (by decide) (by decide) parseI64_eq i64 }

/-- The empty text is read as zero, and so is 3 * 10^19 modulo 2^64. -/
theorem empty_and_large_are_accepted : ¬ ParsersExact [] ∧
    ¬ ParsersExact (0x33 :: List.replicate 19 0x30) := by
  constructor
  · intro exact
    obtain ⟨z, denoted, _⟩ := (exact.u64.accepts 0).mp rfl
    exact (denotes_unsigned.mp denoted).1.1 rfl
  · intro exact
    have value : number (text (0x33 :: List.replicate 19 0x30)) = 30000000000000000000 := by decide
    obtain ⟨z, denoted, fits⟩ := (exact.u64.accepts 0).mp (by decide)
    rw [(denotes_unsigned.mp denoted).2, value] at fits
    exact absurd fits.2 (by decide)

end Dis86.Hydra.Decimal
