import Dis86.Bsl.Parser
import Dis86.Config.Functions

namespace Dis86

/-- The value of a digit. Letters of both cases stand for the digits from ten on. -/
def toDigit (radix : Nat) (c : Char) : Option Nat :=
  let digit := if c.isDigit then c.toNat - 48
    else if 'a' ≤ c ∧ c ≤ 'z' then c.toNat - 87
    else if 'A' ≤ c ∧ c ≤ 'Z' then c.toNat - 55
    else radix
  if digit < radix then some digit else none

/-- The number that some digits denote. -/
def digitsValue (radix : Nat) (digits : List Char) : Option Nat :=
  digits.foldlM (fun n c => (toDigit radix c).map (radix * n + ·)) 0

/-- A number below a bound, with or without a sign. -/
def fromStrRadix (radix bound : Nat) (s : List Char) : Option Nat :=
  let digits := withoutSign s
  if digits = [] then none else (digitsValue radix digits).filter (· < bound)

def parseI16 : List Char → Option Int
  | '-' :: digits =>
      if digits = [] then none else ((digitsValue 10 digits).filter (· ≤ 2 ^ 15)).map fun n : Nat => -(n : Int)
  | s => (fromStrRadix 10 (2 ^ 15) s).map Int.ofNat

def zeroPad (width : Nat) (digits : List Char) : List Char := List.replicate (width - digits.length) '0' ++ digits

/-- A number with zeros up to a width, which counts the sign. -/
def formatInt (radix width : Nat) (n : Int) : String :=
  String.ofList (if n < 0 then '-' :: zeroPad (width - 1) (Nat.toDigits radix n.natAbs)
    else zeroPad width (Nat.toDigits radix n.natAbs))

section Digits

variable {radix : Nat} {digits : List Char}

theorem digitsValue_snoc (c : Char) : digitsValue radix (digits ++ [c]) =
    (digitsValue radix digits).bind fun n => (toDigit radix c).map (radix * n + ·) := by
  rw [digitsValue, List.foldlM_append]
  apply congrArg (Option.bind _)
  funext n
  cases found : toDigit radix c <;> simp [found]

theorem toDigit_digitChar (small : radix ≤ 16) {d : Nat} (digit : d < radix) : toDigit radix d.digitChar = some d := by
  have inside : d < 16 := digit.trans_le small
  have shown : ∀ k < 16, toDigit 16 (Nat.digitChar k) = some k := by decide
  have sixteen := shown d inside
  unfold toDigit at sixteen ⊢
  dsimp only at sixteen ⊢
  split_ifs at sixteen ⊢ <;> simp_all <;> omega

/-- The digits of a number denote it. -/
theorem digitsValue_toDigits (two : 1 < radix) (small : radix ≤ 16) (n : Nat) :
    digitsValue radix (Nat.toDigits radix n) = some n := by
  induction n using Nat.strongRecOn with
  | ind n hypothesis =>
      rw [Nat.toDigits_eq_if two]
      split
      · rename_i single
        simp [digitsValue, toDigit_digitChar small single]
      · rename_i more
        have shorter : n / radix < n := Nat.div_lt_self (by omega) two
        rw [digitsValue_snoc, hypothesis _ shorter,
          toDigit_digitChar small (Nat.mod_lt n (by omega)), Option.bind_some, Option.map_some, Nat.div_add_mod]

/-- The digits of a number denote more in a wider radix, when there are two of them at least. -/
theorem digitsValue_wider {narrow wide : Nat} (two : 1 < narrow) (wider : narrow < wide) (small : wide ≤ 16) (n : Nat) :
    ∃ v, digitsValue wide (Nat.toDigits narrow n) = some v ∧ n ≤ v ∧ (narrow ≤ n → n < v) := by
  induction n using Nat.strongRecOn with
  | ind n hypothesis =>
      rw [Nat.toDigits_eq_if two]
      split
      · rename_i single
        exact ⟨n, by simp [digitsValue, toDigit_digitChar small (single.trans wider)], le_rfl, fun many => by omega⟩
      · rename_i more
        obtain ⟨v, read, least, _⟩ := hypothesis (n / narrow) (Nat.div_lt_self (by omega) two)
        have last := Nat.mod_lt n (show narrow > 0 by omega)
        have begins : 0 < n / narrow := Nat.div_pos (by omega) (by omega)
        have grows : narrow * (n / narrow) < wide * v :=
          (Nat.mul_lt_mul_of_pos_right wider begins).trans_le (Nat.mul_le_mul_left wide least)
        have whole := Nat.div_add_mod n narrow
        refine ⟨wide * v + n % narrow, ?_, by omega, fun _ => by omega⟩
        rw [digitsValue_snoc, read, toDigit_digitChar small (last.trans wider)]
        rfl

theorem digitsValue_zeroPad (positive : 0 < radix) (width : Nat) :
    digitsValue radix (zeroPad width digits) = digitsValue radix digits := by
  have zero : toDigit radix '0' = some 0 := by simp [toDigit, positive]
  rw [zeroPad]
  induction width - digits.length with
  | zero => rfl
  | succ k hypothesis =>
      rw [List.replicate_succ, List.cons_append, ← hypothesis, digitsValue, List.foldlM_cons, zero]
      rfl

theorem toDigit_minus : toDigit radix '-' = none := by simp [toDigit, Char.isDigit]

theorem digitsValue_minus : digitsValue radix ('-' :: digits) = none := by
  rw [digitsValue, List.foldlM_cons, toDigit_minus]
  rfl

/-- The characters of a number are digits below its radix. -/
theorem mem_toDigits (two : 1 < radix) {n : Nat} {c : Char} (inside : c ∈ Nat.toDigits radix n) :
    ∃ d < radix, c = d.digitChar := by
  induction n using Nat.strongRecOn with
  | ind n hypothesis =>
      rw [Nat.toDigits_eq_if two] at inside
      split at inside
      · rename_i single
        exact ⟨n, single, List.mem_singleton.mp inside⟩
      · rcases List.mem_append.mp inside with early | last
        · exact hypothesis _ (Nat.div_lt_self (by omega) two) early
        · exact ⟨n % radix, Nat.mod_lt n (by omega), List.mem_singleton.mp last⟩

theorem mem_zeroPad (two : 1 < radix) {width n : Nat} {c : Char}
    (inside : c ∈ zeroPad width (Nat.toDigits radix n)) : ∃ d < radix, c = d.digitChar := by
  rcases List.mem_append.mp inside with zero | digit
  · exact ⟨0, by omega, List.eq_of_mem_replicate zero⟩
  · exact mem_toDigits two digit

theorem digitChar_plain {d : Nat} (digit : d < 16) : d.digitChar ≠ '+' ∧ d.digitChar ≠ ':' ∧ d.digitChar ≠ 'o' ∧
    d.digitChar ≠ '{' ∧ d.digitChar ≠ '}' ∧ d.digitChar ≠ '"' ∧ Bsl.isVisible d.digitChar = true := by
  have all : ∀ k < 16, Nat.digitChar k ≠ '+' ∧ Nat.digitChar k ≠ ':' ∧ Nat.digitChar k ≠ 'o' ∧ Nat.digitChar k ≠ '{' ∧
      Nat.digitChar k ≠ '}' ∧ Nat.digitChar k ≠ '"' ∧ Bsl.isVisible (Nat.digitChar k) = true := by decide
  exact all d digit

theorem zeroPad_ne_nil {width n : Nat} : zeroPad width (Nat.toDigits radix n) ≠ [] :=
  List.append_ne_nil_of_right_ne_nil _ Nat.toDigits_ne_nil

theorem withoutSign_zeroPad (two : 1 < radix) (small : radix ≤ 16) {width n : Nat} :
    withoutSign (zeroPad width (Nat.toDigits radix n)) = zeroPad width (Nat.toDigits radix n) := by
  unfold withoutSign
  split
  · rename_i rest plus
    have first : '+' ∈ zeroPad width (Nat.toDigits radix n) := plus ▸ List.mem_cons_self
    obtain ⟨d, digit, same⟩ := mem_zeroPad two first
    exact absurd same.symm (digitChar_plain (digit.trans_le small)).1
  · rfl

/-- A formatted number is read back when it is not negative and below the bound. -/
theorem fromStrRadix_formatInt (two : 1 < radix) (small : radix ≤ 16) (bound width : Nat) (n : Int) :
    fromStrRadix radix bound (formatInt radix width n).toList =
      if 0 ≤ n ∧ n < bound then some n.toNat else none := by
  rw [formatInt, String.toList_ofList]
  split
  · rename_i negative
    have signed (rest : List Char) : withoutSign ('-' :: rest) = '-' :: rest := rfl
    rw [fromStrRadix, signed, if_neg (List.cons_ne_nil _ _), digitsValue_minus, if_neg (by omega)]
    rfl
  · rename_i positive
    have same : n.natAbs = n.toNat := by omega
    rw [fromStrRadix, withoutSign_zeroPad two small, if_neg zeroPad_ne_nil, digitsValue_zeroPad (by omega),
      digitsValue_toDigits two small, same]
    by_cases fits : n.toNat < bound
    · rw [if_pos (by omega), Option.filter_some, if_pos (by simpa using fits)]
    · rw [if_neg (by omega), Option.filter_some, if_neg (by simpa using fits)]

theorem parseI16_formatInt (n : Int) : parseI16 (formatInt 10 0 n).toList =
    if -2 ^ 15 ≤ n ∧ n < 2 ^ 15 then some n else none := by
  by_cases negative : n < 0
  · have same : (n.natAbs : Int) = -n := by omega
    rw [formatInt, String.toList_ofList, if_pos negative, parseI16, if_neg zeroPad_ne_nil,
      digitsValue_zeroPad (by omega), digitsValue_toDigits (by omega) (by omega)]
    by_cases fits : n.natAbs ≤ 2 ^ 15
    · rw [if_pos (by omega), Option.filter_some, if_pos (by simpa using fits), Option.map_some, same, neg_neg]
    · rw [if_neg (by omega), Option.filter_some, if_neg (by simpa using fits)]
      rfl
  · have unsigned : parseI16 (formatInt 10 0 n).toList =
        (fromStrRadix 10 (2 ^ 15) (formatInt 10 0 n).toList).map Int.ofNat := by
      rw [formatInt, String.toList_ofList, if_neg negative]
      unfold parseI16
      split
      · rename_i digits minus
        have first : '-' ∈ zeroPad 0 (Nat.toDigits 10 n.natAbs) := minus ▸ List.mem_cons_self
        obtain ⟨d, digit, same⟩ := mem_zeroPad (by omega) first
        have plain : ∀ k < 10, Nat.digitChar k ≠ '-' := by decide
        exact absurd same.symm (plain d digit)
      · rfl
    rw [unsigned, fromStrRadix_formatInt (by omega) (by omega)]
    by_cases fits : n < 2 ^ 15
    · rw [if_pos (by omega), if_pos (by omega)]
      simp only [Option.map_some, Int.ofNat_eq_natCast, Option.some.injEq]
      omega
    · rw [if_neg (by omega), if_neg (by omega)]
      rfl

end Digits

/-- Hexadecimal digits without a sign, four at most. -/
def hexU16 (s : List Char) : Option (BitVec 16) :=
  if s.length > 4 then none else (digitsValue 16 s).map (BitVec.ofNat 16)

/-- A number is decimal, or hexadecimal behind its mark. -/
def parseU16 (s : List Char) : Option (BitVec 16) :=
  if "0x".toList.isPrefixOf s then hexU16 (s.drop 2) else (fromStrRadix 10 (2 ^ 16) s).map (BitVec.ofNat 16)

namespace Asm

def offFromStr (s : List Char) : Option (BitVec 16) := (fromStrRadix 16 (2 ^ 16) s).map (BitVec.ofNat 16)

def Seg.fromStr (s : List Char) : Option Seg :=
  if "overlay_".toList.isPrefixOf s then (offFromStr (s.drop 8)).map .overlay else (offFromStr s).map .normal

/-- The segment stands before the first colon. -/
def SegOff.fromStr (s : List Char) : Option SegOff :=
  if ':' ∈ s then do
    let seg ← Seg.fromStr (s.takeWhile (· ≠ ':'))
    let off ← offFromStr ((s.dropWhile (· ≠ ':')).drop 1)
    return ⟨seg, off⟩
  else none

end Asm

namespace Confgen
open Asm (Seg SegOff offFromStr)

def Addr.str (addr : Addr) : String :=
  (if addr.overlay then "overlay_" else "") ++ formatInt 16 4 addr.seg ++ ":" ++ formatInt 16 4 addr.off

theorem ofNat_toNat {n : Int} (positive : 0 ≤ n) : BitVec.ofNat 16 n.toNat = BitVec.ofInt 16 n := by
  rw [← BitVec.ofInt_natCast, Int.toNat_of_nonneg positive]

theorem off_formatInt (width : Nat) (n : Int) : offFromStr (formatInt 16 width n).toList = readHex n := by
  rw [offFromStr, fromStrRadix_formatInt (by omega) (by omega), readHex]
  by_cases fits : 0 ≤ n ∧ n < 2 ^ 16
  · rw [if_pos fits, if_pos (by omega), Option.map_some, ofNat_toNat fits.1]
  · rw [if_neg fits, if_neg (by omega)]
    rfl

/-- A number in hexadecimal has neither a colon nor the mark of an overlay. -/
theorem formatInt_hex (width : Nat) (n : Int) : ':' ∉ (formatInt 16 width n).toList ∧
    (formatInt 16 width n).toList.head? ≠ some 'o' := by
  rw [formatInt, String.toList_ofList]
  have colon (width k : Nat) : ':' ∉ zeroPad width (Nat.toDigits 16 k) := by
    intro inside
    obtain ⟨d, digit, same⟩ := mem_zeroPad (by omega) inside
    exact (digitChar_plain digit).2.1 same.symm
  split
  · refine ⟨?_, by simp⟩
    intro inside
    cases inside with
    | tail _ later => exact colon _ _ later
  · refine ⟨colon _ _, ?_⟩
    intro first
    obtain ⟨d, digit, same⟩ := mem_zeroPad (by omega) (List.mem_of_mem_head? first)
    exact (digitChar_plain digit).2.2.1 same.symm

theorem seg_decimal {n : Int} :
    Seg.fromStr (formatInt 10 0 n).toList = some (.normal (.ofInt 16 n)) ↔ 0 ≤ n ∧ n < 10 := by
  have spelled : (formatInt 10 0 n).toList =
      if n < 0 then '-' :: zeroPad (0 - 1) (Nat.toDigits 10 n.natAbs) else zeroPad 0 (Nat.toDigits 10 n.natAbs) := by
    rw [formatInt, String.toList_ofList]
  have plain : "overlay_".toList.isPrefixOf (formatInt 10 0 n).toList = false := by
    rw [Bool.eq_false_iff, ne_eq, List.isPrefixOf_iff_prefix]
    rintro ⟨rest, same⟩
    have first : (formatInt 10 0 n).toList.head? = some 'o' := by
      rw [← same]
      rfl
    rw [spelled] at first
    split at first
    · cases first
    · obtain ⟨d, digit, begins⟩ := mem_zeroPad (by omega) (List.mem_of_mem_head? first)
      exact (digitChar_plain (digit.trans (by omega))).2.2.1 begins.symm
  rw [Seg.fromStr, plain, if_neg Bool.false_ne_true, offFromStr, fromStrRadix, spelled]
  split
  · rename_i negative
    have signed (rest : List Char) : withoutSign ('-' :: rest) = '-' :: rest := rfl
    rw [signed, if_neg (List.cons_ne_nil _ _), digitsValue_minus]
    constructor
    · intro wrong
      cases wrong
    · intro digit
      omega
  · rename_i positive
    obtain ⟨v, read, least, more⟩ := digitsValue_wider (show 1 < 10 by omega) (show 10 < 16 by omega) le_rfl n.natAbs
    rw [withoutSign_zeroPad (by omega) (by omega), if_neg zeroPad_ne_nil, digitsValue_zeroPad (by omega), read,
      Option.filter_some]
    have number : BitVec.ofInt 16 n = .ofNat 16 n.natAbs := by
      rw [← BitVec.ofInt_natCast, Int.natAbs_of_nonneg (by omega)]
    rw [number]
    constructor
    · intro same
      split at same
      · rename_i fits
        simp only [Option.map_some, Option.some.injEq, Seg.normal.injEq, decide_eq_true_eq] at same fits
        have equal := congrArg BitVec.toNat same
        rw [BitVec.toNat_ofNat, BitVec.toNat_ofNat, Nat.mod_eq_of_lt fits, Nat.mod_eq_of_lt (by omega)] at equal
        exact ⟨by omega, by omega⟩
      · cases same
    · rintro ⟨_, digit⟩
      have single : n.natAbs < 10 := by omega
      have equal : digitsValue 16 (Nat.toDigits 10 n.natAbs) = some n.natAbs := by
        rw [Nat.toDigits_of_lt_base single]
        simp [digitsValue, toDigit_digitChar le_rfl (single.trans (by omega))]
      obtain rfl := Option.some.inj (read.symm.trans equal)
      rw [if_pos (by simp; omega)]
      rfl

/-- The text of a segment is read as a segment of its kind. -/
theorem seg_str (overlay : Bool) (n : Int) :
    Seg.fromStr ((if overlay then "overlay_" else "") ++ formatInt 16 4 n).toList =
      (readHex n).map fun seg => if overlay then .overlay seg else .normal seg := by
  rw [String.toList_append, Seg.fromStr, ← off_formatInt 4 n]
  cases overlay with
  | true =>
      have mark : "overlay_".toList.isPrefixOf ((if true = true then "overlay_" else "").toList ++
          (formatInt 16 4 n).toList) = true := by
        rw [if_pos rfl, List.isPrefixOf_iff_prefix]
        exact List.prefix_append _ _
      have rest : ((if true = true then "overlay_" else "").toList ++ (formatInt 16 4 n).toList).drop 8 =
          (formatInt 16 4 n).toList := by
        rw [if_pos rfl]
        exact List.drop_left' rfl
      rw [if_pos mark, rest]
      rfl
  | false =>
      have plain : ¬"overlay_".toList.isPrefixOf ((if false = true then "overlay_" else "").toList ++
          (formatInt 16 4 n).toList) = true := by
        intro mark
        rw [if_neg (by simp), List.isPrefixOf_iff_prefix] at mark
        obtain ⟨rest, same⟩ := mark
        have starts := congrArg List.head? same
        exact (formatInt_hex 4 n).2 starts.symm
      rw [if_neg plain, if_neg (by simp)]
      rfl

/-- The text of an address is read back as the address, where its numbers have sixteen bits. -/
theorem segOff_str (addr : Addr) : SegOff.fromStr addr.str.toList = addr.segOff := by
  have before : ∀ c ∈ ((if addr.overlay then "overlay_" else "") ++ formatInt 16 4 addr.seg).toList,
      decide (c ≠ ':') = true := by
    intro c inside
    rw [String.toList_append, List.mem_append] at inside
    rw [decide_eq_true_iff]
    rintro rfl
    rcases inside with mark | digit
    · cases overlay : addr.overlay with
      | true =>
          rw [overlay, if_pos rfl] at mark
          revert mark
          decide
      | false =>
          rw [overlay] at mark
          cases mark
    · exact (formatInt_hex 4 addr.seg).1 digit
  have shape : addr.str.toList = ((if addr.overlay then "overlay_" else "") ++ formatInt 16 4 addr.seg).toList ++
      ':' :: (formatInt 16 4 addr.off).toList := by
    rw [Addr.str, String.toList_append, String.toList_append, List.append_assoc]
    rfl
  have cut := Lib.takeWhile_append (':' :: (formatInt 16 4 addr.off).toList) before
    (by intro c first; cases first; rfl)
  rw [shape, SegOff.fromStr, if_pos (List.mem_append_right _ List.mem_cons_self), cut.1, cut.2, seg_str, List.drop_one,
    List.tail_cons, off_formatInt, Addr.segOff]
  cases readHex addr.seg with
  | none => rfl
  | some seg => cases readHex addr.off <;> rfl

theorem parseU16_formatInt {width : Nat} (narrow : width ≤ 4) (n : Int) :
    parseU16 ("0x" ++ formatInt 16 width n).toList = readHex n := by
  have marked : "0x".toList.isPrefixOf ("0x" ++ formatInt 16 width n).toList = true := by
    rw [String.toList_append, List.isPrefixOf_iff_prefix]
    exact List.prefix_append _ _
  have rest : ("0x" ++ formatInt 16 width n).toList.drop 2 = (formatInt 16 width n).toList := by
    rw [String.toList_append]
    exact List.drop_left' rfl
  rw [parseU16, if_pos marked, rest, formatInt, String.toList_ofList, hexU16, readHex]
  by_cases negative : n < 0
  · rw [if_pos negative, digitsValue_minus, if_neg (by omega : ¬(0 ≤ n ∧ n < 2 ^ 16))]
    split <;> rfl
  · have digits := Nat.length_toDigits_le_iff (b := 16) (n := n.natAbs) (k := 4) (by omega) (by omega)
    have lengths : (zeroPad width (Nat.toDigits 16 n.natAbs)).length =
        max width (Nat.toDigits 16 n.natAbs).length := by
      rw [zeroPad, List.length_append, List.length_replicate]
      omega
    rw [if_neg negative, digitsValue_zeroPad (by omega), digitsValue_toDigits (by omega) (by omega), lengths]
    by_cases fits : n < 2 ^ 16
    · have same : n.natAbs = n.toNat := by omega
      have short : (Nat.toDigits 16 n.natAbs).length ≤ 4 := digits.mpr (by omega)
      rw [if_neg (by omega), if_pos (by omega), same, Option.map_some, ofNat_toNat (by omega)]
    · have long : ¬(Nat.toDigits 16 n.natAbs).length ≤ 4 := by
        rw [digits]
        omega
      rw [if_pos (by omega), if_neg (by omega)]

end Confgen

end Dis86
