import Dis86.Opt.Sweep
import Mathlib.Tactic.Common

namespace Dis86.Opt
open IR

def truth (holds : Bool) : BitVec 16 := if holds then 1 else 0

/-- A signed comparison of bytes reads the low byte of each constant, and one without a width has
no values. -/
def signedValues (width : Option CompareWidth) (lhs rhs : BitVec 16) :
    Option (BitVec 16 × BitVec 16) :=
  match width with
  | some .byte => some ((lhs.setWidth 8).signExtend 16, (rhs.setWidth 8).signExtend 16)
  | some .word => some (lhs, rhs)
  | none => none

def foldWordArith (instr : Instr) (value : BitVec 16) : Option (BitVec 16) :=
  if instr.typ = .u16 ∨ instr.typ = .i16 then some value else none

def foldBool (instr : Instr) (holds : Bool) : Option (BitVec 16) :=
  if instr.typ = .u8 ∨ instr.typ = .u16 then some (truth holds) else none

def foldSigned (instr : Instr) (lhs rhs : BitVec 16) (holds : BitVec 16 → BitVec 16 → Bool) :
    Option (BitVec 16) :=
  (signedValues instr.compareWidth lhs rhs).bind fun (lhs, rhs) => foldBool instr (holds lhs rhs)

/-- The constant that replaces an instruction on two constants. -/
def foldedValue (instr : Instr) (lhs rhs : BitVec 16) : Option (BitVec 16) :=
  match instr.opcode with
  | .add => foldWordArith instr (lhs + rhs)
  | .sub => foldWordArith instr (lhs - rhs)
  | .and => foldWordArith instr (lhs &&& rhs)
  | .or => foldWordArith instr (lhs ||| rhs)
  | .xor => foldWordArith instr (lhs ^^^ rhs)
  | .eq => foldBool instr (lhs = rhs)
  | .neq => foldBool instr (lhs ≠ rhs)
  | .lt => foldSigned instr lhs rhs fun lhs rhs => lhs.slt rhs
  | .leq => foldSigned instr lhs rhs fun lhs rhs => lhs.sle rhs
  | .gt => foldSigned instr lhs rhs fun lhs rhs => rhs.slt lhs
  | .geq => foldSigned instr lhs rhs fun lhs rhs => rhs.sle lhs
  | .ult => foldBool instr (lhs.ult rhs)
  | .uleq => foldBool instr (lhs.ule rhs)
  | .ugt => foldBool instr (rhs.ult lhs)
  | .ugeq => foldBool instr (rhs.ule lhs)
  | _ => none

/-- The constants of an instruction with two constant operands. -/
def constOperands (ir : IR) (instr : Instr) : Option (BitVec 16 × BitVec 16) :=
  match instr.operands with
  | [x, y] => do return (← ir.constLookup x, ← ir.constLookup y)
  | _ => none

def foldTo (k : Ref) (instr : Instr) : Instr := { instr with opcode := .ref, operands := [k] }

def foldInstr (ir : IR) (r : Ref) : Option IR := do
  let instr ← ir.instr? r
  match (constOperands ir instr).bind fun (lhs, rhs) => foldedValue instr lhs rhs with
  | some result =>
      let (k, ir) := ir.constNew result
      return ir.modifyInstr r (foldTo k)
  | none => return ir

def constantFolding (ir : IR) : Option IR := forEachInstr foldInstr ir

/-- The comparisons, at any width. -/
def comparison {w : Nat} (op : Opcode) (a b : BitVec w) : Option Bool :=
  match op with
  | .eq => some (a = b)
  | .neq => some (a ≠ b)
  | .lt => some (a.slt b)
  | .leq => some (a.sle b)
  | .gt => some (b.slt a)
  | .geq => some (b.sle a)
  | .ult => some (a.ult b)
  | .uleq => some (a.ule b)
  | .ugt => some (b.ult a)
  | .ugeq => some (b.ule a)
  | _ => none

/-- The arithmetic and bitwise operations on words. -/
def wordOperation (op : Opcode) (a b : BitVec 16) : Option (BitVec 16) :=
  match op with
  | .add => some (a + b)
  | .sub => some (a - b)
  | .and => some (a &&& b)
  | .or => some (a ||| b)
  | .xor => some (a ^^^ b)
  | _ => none

/-- A comparison has its compare width, and an operation on words has words. -/
def operandWidth (instr : Instr) : CompareWidth :=
  match instr.opcode with
  | .add | .sub | .and | .or | .xor => .word
  | _ => instr.compareWidth.getD .word

/-- The value of an operation on its operands, truncated to their width. -/
def truncatedValue (instr : Instr) (lhs rhs : BitVec 16) : Option (BitVec 16) :=
  match operandWidth instr with
  | .byte => (comparison instr.opcode (lhs.setWidth 8) (rhs.setWidth 8)).map truth
  | .word => (wordOperation instr.opcode lhs rhs).or ((comparison instr.opcode lhs rhs).map truth)

/-- The constants that stand for one operand: a byte may be zero- or sign-extended. -/
def StoredAs (width : CompareWidth) (k stored : BitVec 16) : Prop :=
  match width with
  | .byte => stored = (k.setWidth 8).setWidth 16 ∨ stored = (k.setWidth 8).signExtend 16
  | .word => stored = k

/-- A folded constant is exact when it is the value at the width of the operands, however they
are stored. -/
structure FoldsExactly (instr : Instr) (lhs rhs value : BitVec 16) : Prop where
  agrees : truncatedValue instr lhs rhs = some value
  independent : ∀ lhs', StoredAs (operandWidth instr) lhs lhs' →
    ∀ rhs', StoredAs (operandWidth instr) rhs rhs' → foldedValue instr lhs' rhs' = some value

def lowByte (k : BitVec 16) : Nat := k.toNat % 256

def highByte (k : BitVec 16) : Nat := k.toNat / 256

/-- Not both bytes have two extensions, and the high bytes are equal or in the same relation as
the low bytes. -/
def ExtensionsAgree (related : Nat → Nat → Prop) (lhs rhs : BitVec 16) : Prop :=
  ¬ (128 ≤ lowByte lhs ∧ 128 ≤ lowByte rhs) ∧
    (highByte lhs = highByte rhs ∨
      (related (highByte lhs) (highByte rhs) ↔ related (lowByte lhs) (lowByte rhs)))

/-- What an equality or an unsigned comparison of bytes needs from its constants. -/
def ByteReady (op : Opcode) (lhs rhs : BitVec 16) : Prop :=
  match op with
  | .eq | .neq => lowByte lhs ≠ lowByte rhs ∨ highByte lhs = highByte rhs ∧ lowByte lhs < 128
  | .ult => ExtensionsAgree (· < ·) lhs rhs
  | .uleq => ExtensionsAgree (· ≤ ·) lhs rhs
  | .ugt => ExtensionsAgree (· > ·) lhs rhs
  | .ugeq => ExtensionsAgree (· ≥ ·) lhs rhs
  | _ => True

theorem words (k : BitVec 16) :
    k.toNat = 256 * highByte k + lowByte k ∧ lowByte k < 256 ∧ highByte k < 256 := by
  have bound := k.isLt
  unfold highByte lowByte
  omega

theorem setWidth_toNat (k : BitVec 16) : (k.setWidth 8).toNat = lowByte k := by
  simp [lowByte]

theorem zeroExtended_toNat (k : BitVec 16) : ((k.setWidth 8).setWidth 16).toNat = lowByte k := by
  have bound := (words k).2.1
  rw [BitVec.toNat_setWidth_of_le (by omega), setWidth_toNat]

theorem signExtended_toNat (k : BitVec 16) :
    ((k.setWidth 8).signExtend 16).toNat =
      if lowByte k < 128 then lowByte k else lowByte k + 65280 := by
  have all : ∀ byte : BitVec 8, (byte.signExtend 16).toNat =
      if byte.toNat < 128 then byte.toNat else byte.toNat + 65280 := by decide
  rw [all, setWidth_toNat]

theorem forall_storedAs (k : BitVec 16) {P : BitVec 16 → Prop} :
    (∀ stored, StoredAs .byte k stored → P stored) ↔
      P ((k.setWidth 8).setWidth 16) ∧ P ((k.setWidth 8).signExtend 16) := by
  simp only [StoredAs, forall_eq_or_imp, forall_eq]

/-- A comparison of words decides a comparison of bytes when it has the same result, however the
bytes are stored. -/
def WordsDecide (op : Opcode) (lhs rhs : BitVec 16) : Prop :=
  comparison op lhs rhs = comparison op (lhs.setWidth 8) (rhs.setWidth 8) ∧
    ∀ lhs', StoredAs .byte lhs lhs' → ∀ rhs', StoredAs .byte rhs rhs' →
      comparison op lhs' rhs' = comparison op (lhs.setWidth 8) (rhs.setWidth 8)

/-- Comparisons by a relation of unsigned numbers. -/
def Relates (op : Opcode) (related : Nat → Nat → Prop) : Prop :=
  ∀ {w : Nat} (a b : BitVec w), ∃ holds, comparison op a b = some holds ∧
    (holds = true ↔ related a.toNat b.toNat)

theorem comparison_eq_iff {op : Opcode} {related : Nat → Nat → Prop} (relates : Relates op related)
    {v w : Nat} (a b : BitVec v) (c d : BitVec w) : comparison op a b = comparison op c d ↔
      (related a.toNat b.toNat ↔ related c.toNat d.toNat) := by
  obtain ⟨first, isFirst, meansFirst⟩ := relates a b
  obtain ⟨second, isSecond, meansSecond⟩ := relates c d
  rw [isFirst, isSecond, Option.some.injEq, Bool.eq_iff_iff, meansFirst, meansSecond]

/-- The question about words becomes one about their high and low bytes. -/
theorem wordsDecide_iff {op : Opcode} {related : Nat → Nat → Prop} (relates : Relates op related)
    (lhs rhs : BitVec 16) : WordsDecide op lhs rhs ↔
      let low := lowByte
      let high := highByte
      let signed (k : BitVec 16) := if low k < 128 then low k else low k + 65280
      let bytes := related (low lhs) (low rhs)
      (related (256 * high lhs + low lhs) (256 * high rhs + low rhs) ↔ bytes) ∧
        ((related (low lhs) (signed rhs) ↔ bytes) ∧ (related (signed lhs) (low rhs) ↔ bytes) ∧
          (related (signed lhs) (signed rhs) ↔ bytes)) := by
  simp only [WordsDecide, forall_storedAs, comparison_eq_iff relates, setWidth_toNat,
    zeroExtended_toNat, signExtended_toNat, ← (words lhs).1, ← (words rhs).1]
  tauto

theorem relates_eq : Relates .eq (· = ·) := fun a b => ⟨_, rfl, by simp [BitVec.toNat_inj]⟩

theorem relates_neq : Relates .neq (· ≠ ·) := fun a b => ⟨_, rfl, by simp [BitVec.toNat_inj]⟩

theorem relates_ult : Relates .ult (· < ·) := fun a b => ⟨_, rfl, by simp [BitVec.ult]⟩

theorem relates_uleq : Relates .uleq (· ≤ ·) := fun a b => ⟨_, rfl, by simp [BitVec.ule]⟩

theorem relates_ugt : Relates .ugt (· > ·) := fun a b => ⟨_, rfl, by simp [BitVec.ult]⟩

theorem relates_ugeq : Relates .ugeq (· ≥ ·) := fun a b => ⟨_, rfl, by simp [BitVec.ule]⟩

/-- The operations that compare raw words, whatever the width. -/
def ComparesWords (op : Opcode) : Prop := op ∈ [.eq, .neq, .ult, .uleq, .ugt, .ugeq]

theorem wordsDecide_iff_byteReady {op : Opcode} (raw : ComparesWords op) (lhs rhs : BitVec 16) :
    WordsDecide op lhs rhs ↔ ByteReady op lhs rhs := by
  have lhsBounds := (words lhs).2
  have rhsBounds := (words rhs).2
  simp only [ComparesWords, List.mem_cons, List.not_mem_nil, or_false] at raw
  rcases raw with rfl | rfl | rfl | rfl | rfl | rfl
  · rw [wordsDecide_iff relates_eq]
    simp only [ByteReady]
    split <;> split <;> omega
  · rw [wordsDecide_iff relates_neq]
    simp only [ByteReady]
    split <;> split <;> omega
  · rw [wordsDecide_iff relates_ult]
    simp only [ByteReady, ExtensionsAgree]
    split <;> split <;> omega
  · rw [wordsDecide_iff relates_uleq]
    simp only [ByteReady, ExtensionsAgree]
    split <;> split <;> omega
  · rw [wordsDecide_iff relates_ugt]
    simp only [ByteReady, ExtensionsAgree]
    split <;> split <;> omega
  · rw [wordsDecide_iff relates_ugeq]
    simp only [ByteReady, ExtensionsAgree]
    split <;> split <;> omega

theorem foldBool_eq_some {instr : Instr} {holds : Bool} {value : BitVec 16} :
    foldBool instr holds = some value ↔
      (instr.typ = .u8 ∨ instr.typ = .u16) ∧ truth holds = value := by
  unfold foldBool
  split <;> simp [*]

theorem truth_inj {first second : Bool} : truth first = truth second ↔ first = second := by
  cases first <;> cases second <;> decide

theorem foldedValue_raw {instr : Instr} (raw : ComparesWords instr.opcode) (lhs rhs : BitVec 16) :
    foldedValue instr lhs rhs = (comparison instr.opcode lhs rhs).bind (foldBool instr) := by
  simp only [ComparesWords, List.mem_cons, List.not_mem_nil, or_false] at raw
  rcases raw with isOp | isOp | isOp | isOp | isOp | isOp <;>
    simp only [foldedValue, comparison, isOp, Option.bind_some]

theorem signExtended_slt (a b : BitVec 8) : (a.signExtend 16).slt (b.signExtend 16) = a.slt b := by
  rw [BitVec.slt_eq_decide, BitVec.slt_eq_decide, BitVec.toInt_signExtend_of_le (by decide),
    BitVec.toInt_signExtend_of_le (by decide)]

theorem signExtended_sle (a b : BitVec 8) : (a.signExtend 16).sle (b.signExtend 16) = a.sle b := by
  rw [BitVec.sle_eq_decide, BitVec.sle_eq_decide, BitVec.toInt_signExtend_of_le (by decide),
    BitVec.toInt_signExtend_of_le (by decide)]

/-- The comparisons that read the compare width. -/
def ComparesSigned (op : Opcode) : Prop := op ∈ [.lt, .leq, .gt, .geq]

theorem foldedValue_signed {instr : Instr} (signed : ComparesSigned instr.opcode)
    (bytes : instr.compareWidth = some .byte) (lhs rhs : BitVec 16) :
    foldedValue instr lhs rhs =
      (comparison instr.opcode (lhs.setWidth 8) (rhs.setWidth 8)).bind (foldBool instr) := by
  simp only [ComparesSigned, List.mem_cons, List.not_mem_nil, or_false] at signed
  rcases signed with isOp | isOp | isOp | isOp <;>
    simp only [foldedValue, foldSigned, signedValues, bytes, comparison, isOp, Option.bind_some,
      signExtended_slt, signExtended_sle]

/-- Either way to store a byte has the byte as its low byte. -/
theorem setWidth_of_storedAs {k stored : BitVec 16} (isStored : StoredAs .byte k stored) :
    stored.setWidth 8 = k.setWidth 8 := by
  have signed : ∀ byte : BitVec 8, (byte.signExtend 16).setWidth 8 = byte := by decide
  rcases isStored with rfl | rfl
  · simp
  · rw [signed]

/-- Only comparisons have bytes as operands. -/
theorem compares_of_byte {instr : Instr} {lhs rhs value : BitVec 16}
    (bytes : operandWidth instr = .byte) (folded : foldedValue instr lhs rhs = some value) :
    instr.compareWidth = some .byte ∧
      (ComparesWords instr.opcode ∨ ComparesSigned instr.opcode) := by
  have width : instr.compareWidth = some .byte := by
    unfold operandWidth at bytes
    split at bytes
    all_goals try cases bytes
    cases isWidth : instr.compareWidth with
    | none => simp [isWidth] at bytes
    | some width => rw [isWidth, Option.getD_some] at bytes; rw [bytes]
  refine ⟨width, ?_⟩
  simp only [ComparesWords, ComparesSigned, List.mem_cons, List.not_mem_nil, or_false]
  unfold foldedValue at folded
  split at folded
  all_goals simp_all [operandWidth]

theorem foldWordArith_eq_some {instr : Instr} {result value : BitVec 16}
    (folded : foldWordArith instr result = some value) : result = value := by
  unfold foldWordArith at folded
  split at folded
  · exact Option.some.inj folded
  · cases folded

/-- On words, the folded constant is the value of the operation. -/
theorem truncatedValue_of_folded {instr : Instr} {lhs rhs value : BitVec 16}
    (isWord : operandWidth instr = .word) (folded : foldedValue instr lhs rhs = some value) :
    truncatedValue instr lhs rhs = some value := by
  have signed : ∀ holds : BitVec 16 → BitVec 16 → Bool, foldSigned instr lhs rhs holds = some value →
      instr.compareWidth.getD .word = .word → truth (holds lhs rhs) = value := by
    intro holds folded width
    cases isWidth : instr.compareWidth with
    | none => simp [foldSigned, signedValues, isWidth] at folded
    | some width' =>
        rw [isWidth, Option.getD_some] at width
        subst width
        simp only [foldSigned, signedValues, isWidth, Option.bind_some] at folded
        exact (foldBool_eq_some.mp folded).2
  simp only [truncatedValue, isWord]
  cases isOp : instr.opcode
  all_goals
    simp only [foldedValue, isOp] at folded
    simp only [operandWidth, isOp] at isWord
    simp only [wordOperation, comparison, Option.none_or, Option.some_or, Option.map_some]
  case add | sub | and | or | xor => rw [foldWordArith_eq_some folded]
  case eq | neq | ult | uleq | ugt | ugeq => rw [(foldBool_eq_some.mp folded).2]
  case lt | leq | gt | geq => rw [← signed _ folded isWord]
  all_goals cases folded

/-- The result of a comparison is recovered from the constant. -/
theorem bind_foldBool_iff {instr : Instr} {compared : Option Bool} {holds : Bool}
    {value : BitVec 16} (folded : foldBool instr holds = some value) :
    compared.bind (foldBool instr) = some value ↔ compared = some holds := by
  obtain ⟨typ, isTruth⟩ := foldBool_eq_some.mp folded
  cases compared with
  | none => simp
  | some other =>
      rw [Option.bind_some, foldBool_eq_some, ← isTruth, truth_inj, Option.some.injEq]
      exact and_iff_right typ

theorem map_truth_iff {instr : Instr} {compared : Option Bool} {holds : Bool} {value : BitVec 16}
    (folded : foldBool instr holds = some value) :
    compared.map truth = some value ↔ compared = some holds := by
  rw [← (foldBool_eq_some.mp folded).2]
  cases compared <;> simp [truth_inj]

/-- Which constants a comparison of bytes folds exactly. -/
theorem foldsExactly_iff {instr : Instr} {lhs rhs value : BitVec 16}
    (folded : foldedValue instr lhs rhs = some value) : FoldsExactly instr lhs rhs value ↔
      (operandWidth instr = .byte → ByteReady instr.opcode lhs rhs) := by
  cases isWidth : operandWidth instr with
  | word =>
      have exactly : FoldsExactly instr lhs rhs value := by
        refine ⟨truncatedValue_of_folded isWidth folded, fun lhs' isLhs rhs' isRhs => ?_⟩
        rw [isWidth] at isLhs isRhs
        rw [isLhs, isRhs, folded]
      exact ⟨fun _ isByte => (by cases isByte), fun _ => exactly⟩
  | byte =>
      obtain ⟨bytes, raw | signed⟩ := compares_of_byte isWidth folded
      · rw [foldedValue_raw raw] at folded
        obtain ⟨holds, compared, isValue⟩ := Option.bind_eq_some_iff.mp folded
        have exactly : FoldsExactly instr lhs rhs value ↔ WordsDecide instr.opcode lhs rhs := by
          constructor
          · intro exactly
            have agrees := exactly.agrees
            simp only [truncatedValue, isWidth, map_truth_iff isValue] at agrees
            refine ⟨by rw [compared, agrees], fun lhs' isLhs rhs' isRhs => ?_⟩
            have same := exactly.independent lhs' (isWidth ▸ isLhs) rhs' (isWidth ▸ isRhs)
            rw [foldedValue_raw raw, bind_foldBool_iff isValue] at same
            rw [same, agrees]
          · intro decides
            have agrees := decides.1
            rw [compared] at agrees
            constructor
            · simp only [truncatedValue, isWidth, map_truth_iff isValue, ← agrees]
            · intro lhs' isLhs rhs' isRhs
              rw [isWidth] at isLhs isRhs
              rw [foldedValue_raw raw, bind_foldBool_iff isValue, agrees]
              exact decides.2 lhs' isLhs rhs' isRhs
        rw [exactly, wordsDecide_iff_byteReady raw]
        exact ⟨fun ready _ => ready, fun ready => ready rfl⟩
      · have ready : ByteReady instr.opcode lhs rhs := by
          simp only [ComparesSigned, List.mem_cons, List.not_mem_nil, or_false] at signed
          rcases signed with isOp | isOp | isOp | isOp <;> simp only [ByteReady, isOp]
        have values := foldedValue_signed signed bytes
        have exactly : FoldsExactly instr lhs rhs value := by
          rw [values] at folded
          obtain ⟨holds, compared, isValue⟩ := Option.bind_eq_some_iff.mp folded
          constructor
          · simp only [truncatedValue, isWidth, map_truth_iff isValue, compared]
          · intro lhs' isLhs rhs' isRhs
            rw [isWidth] at isLhs isRhs
            rw [values, setWidth_of_storedAs isLhs, setWidth_of_storedAs isRhs, folded]
        exact ⟨fun _ _ => ready, fun _ => exactly⟩

end Dis86.Opt
