import Dis86.Opt.ConstantFolding

namespace Dis86.Opt
open IR

/-- The instruction has two constants as its operands. -/
structure OnConstants (ir : IR) (r : Ref) (instr : Instr) (lhs rhs : BitVec 16) : Prop where
  present : ir.instr? r = some instr
  constants : constOperands ir instr = some (lhs, rhs)

/-- Folding has replaced an instruction by a constant. -/
def FoldedTo (next : IR) (r : Ref) (instr : Instr) (value : BitVec 16) : Prop :=
  ∃ k, next.instr? r = some (foldTo k instr) ∧ next.constLookup k = some value

theorem foldedValue_ref {instr : Instr} {lhs rhs value : BitVec 16}
    (folded : foldedValue instr lhs rhs = some value) : instr.opcode ≠ .ref := by
  intro isRef
  simp [foldedValue, isRef] at folded

theorem constOperands_mono {ir next : IR} (more : MoreConsts ir next) {instr : Instr}
    {values : BitVec 16 × BitVec 16} (known : constOperands ir instr = some values) :
    constOperands next instr = some values := by
  unfold constOperands at known ⊢
  split at known
  · simp only [Option.bind_eq_bind, Option.bind_eq_some_iff] at known ⊢
    obtain ⟨lhs, isLhs, rhs, isRhs, both⟩ := known
    exact ⟨lhs, more _ _ isLhs, rhs, more _ _ isRhs, both⟩
  · cases known

/-- A visit folds its instruction or does nothing. -/
theorem foldInstr_cases {ir next : IR} {r : Ref} (visited : foldInstr ir r = some next) :
    ∃ instr, ir.instr? r = some instr ∧
      ((constOperands ir instr).bind (fun values => foldedValue instr values.1 values.2) = none ∧
          next = ir ∨
        ∃ lhs rhs value, constOperands ir instr = some (lhs, rhs) ∧
          foldedValue instr lhs rhs = some value ∧
          next = (ir.constNew value).2.modifyInstr r (foldTo (ir.constNew value).1)) := by
  unfold foldInstr at visited
  obtain ⟨instr, present, rest⟩ := Option.bind_eq_some_iff.mp visited
  refine ⟨instr, present, ?_⟩
  split at rest
  · rename_i value folds
    obtain ⟨values, known, folded⟩ := Option.bind_eq_some_iff.mp folds
    exact .inr ⟨values.1, values.2, value, known, folded, (Option.some.inj rest).symm⟩
  · rename_i keeps
    exact .inl ⟨keeps, (Option.some.inj rest).symm⟩

theorem keepsOrder_foldInstr : KeepsOrder foldInstr := by
  intro ir r next visited
  obtain ⟨instr, _, ⟨_, rfl⟩ | ⟨_, _, value, _, _, rfl⟩⟩ := foldInstr_cases visited
  · exact .refl _
  · exact (SameOrder.constNew ir value).trans (.modifyInstr _ r _)

theorem foldInstr_isSome {ir : IR} {r : Ref} {instr : Instr} (present : ir.instr? r = some instr) :
    ∃ next, foldInstr ir r = some next := by
  unfold foldInstr
  rw [present, Option.bind_eq_bind, Option.bind_some]
  split
  · exact ⟨_, rfl⟩
  · exact ⟨ir, rfl⟩

/-- What a visit does to the constants and to each instruction. -/
theorem foldInstr_frame {ir next : IR} {r : Ref} (visited : foldInstr ir r = some next) :
    MoreConsts ir next ∧ ∀ s, s ≠ r → next.instr? s = ir.instr? s := by
  obtain ⟨instr, _, ⟨_, rfl⟩ | ⟨_, _, value, _, _, rfl⟩⟩ := foldInstr_cases visited
  · exact ⟨.refl _, fun _ _ => rfl⟩
  · constructor
    · intro s k known
      rw [constLookup_modifyInstr]
      exact moreConsts_constNew ir value s k known
    · intro s away
      rw [instr?_modifyInstr, if_neg away, instr?_constNew]

theorem foldInstr_folds {ir next : IR} {r : Ref} {instr : Instr} {lhs rhs value : BitVec 16}
    (visited : foldInstr ir r = some next) (on : OnConstants ir r instr lhs rhs)
    (folded : foldedValue instr lhs rhs = some value) : FoldedTo next r instr value := by
  obtain ⟨other, present, ⟨keeps, _⟩ | ⟨_, _, other', known, isValue, rfl⟩⟩ := foldInstr_cases visited
  · obtain rfl := Option.some.inj (on.present.symm.trans present)
    rw [on.constants, Option.bind_some, folded] at keeps
    cases keeps
  · obtain rfl := Option.some.inj (on.present.symm.trans present)
    rw [on.constants] at known
    cases known
    rw [folded] at isValue
    cases isValue
    refine ⟨(ir.constNew value).1, ?_, ?_⟩
    · rw [instr?_modifyInstr, if_pos rfl, instr?_constNew, present, Option.map_some]
    · rw [constLookup_modifyInstr, constLookup_constNew]

theorem foldInstr_keeps {ir next : IR} {r : Ref} {instr : Instr} {lhs rhs : BitVec 16}
    (visited : foldInstr ir r = some next) (on : OnConstants ir r instr lhs rhs)
    (unfolded : foldedValue instr lhs rhs = none) : next.instr? r = some instr := by
  obtain ⟨other, present, ⟨_, rfl⟩ | ⟨_, _, value, known, isValue, _⟩⟩ := foldInstr_cases visited
  · exact on.present
  · obtain rfl := Option.some.inj (on.present.symm.trans present)
    rw [on.constants] at known
    cases known
    rw [unfolded] at isValue
    cases isValue

/-- A folded instruction is a reference, and a later visit leaves it. -/
theorem foldedTo_keeps {ir next : IR} {r s : Ref} {instr : Instr} {value : BitVec 16}
    (visited : foldInstr ir r = some next) (folded : FoldedTo ir s instr value) :
    FoldedTo next s instr value := by
  obtain ⟨k, isFolded, known⟩ := folded
  obtain ⟨more, frame⟩ := foldInstr_frame visited
  refine ⟨k, ?_, more k value known⟩
  by_cases same : s = r
  · subst same
    obtain ⟨other, present, ⟨_, rfl⟩ | ⟨_, _, _, constants, _, _⟩⟩ := foldInstr_cases visited
    · exact isFolded
    · obtain rfl := Option.some.inj (isFolded.symm.trans present)
      cases constants
  · rw [frame s same, isFolded]

/-- Up to its visit, an instruction on constants is as it was or folded. -/
structure Folding (start cur : IR) : Prop where
  more : MoreConsts start cur
  cases : ∀ r instr lhs rhs, OnConstants start r instr lhs rhs →
    cur.instr? r = some instr ∨
      ∃ value, foldedValue instr lhs rhs = some value ∧ FoldedTo cur r instr value

theorem Folding.start (ir : IR) : Folding ir ir where
  more := .refl ir
  cases _ _ _ _ on := .inl on.present

theorem Folding.step {start cur next : IR} {r : Ref} (folding : Folding start cur)
    (visited : foldInstr cur r = some next) : Folding start next where
  more := folding.more.trans (foldInstr_frame visited).1
  cases := by
    intro s instr lhs rhs on
    rcases folding.cases s instr lhs rhs on with same | ⟨value, isValue, folded⟩
    · by_cases here : s = r
      · subst here
        have now : OnConstants cur s instr lhs rhs :=
          ⟨same, constOperands_mono folding.more on.constants⟩
        cases isValue : foldedValue instr lhs rhs with
        | none => exact .inl (foldInstr_keeps visited now isValue)
        | some value => exact .inr ⟨value, rfl, foldInstr_folds visited now isValue⟩
      · exact .inl (by rw [(foldInstr_frame visited).2 s here, same])
    · exact .inr ⟨value, isValue, foldedTo_keeps visited folded⟩

theorem constantFolding_isSome (ir : IR) : ∃ next, constantFolding ir = some next := by
  apply forEachInstr_isSome (SameOrder ir) keepsOrder_foldInstr ?_ (.refl ir)
  intro cur r inside same
  rw [← same.refs] at inside
  obtain ⟨instr, present⟩ := mem_refs_instr? inside
  obtain ⟨next, visited⟩ := foldInstr_isSome present
  exact ⟨next, visited, same.trans (keepsOrder_foldInstr cur r next visited)⟩

/-- The pass folds exactly the instructions on constants that have a folded value. -/
theorem constantFolding_folds {ir next : IR} {r : Ref} {instr : Instr} {lhs rhs : BitVec 16}
    (ran : constantFolding ir = some next) (inside : r ∈ ir.refs)
    (on : OnConstants ir r instr lhs rhs) :
    match foldedValue instr lhs rhs with
    | some value => FoldedTo next r instr value
    | none => next.instr? r = some instr := by
  have folding : Folding ir next := forEachInstr_keeps (Folding ir) keepsOrder_foldInstr
    (fun _ _ _ _ folding visited => folding.step visited) (.start ir) ran
  have settled : ∀ value, foldedValue instr lhs rhs = some value → FoldedTo next r instr value := by
    intro value isValue
    refine forEachInstr_settles (Folding ir)
      (fun cur s => OnConstants ir s instr lhs rhs → FoldedTo cur s instr value)
      keepsOrder_foldInstr (fun _ _ _ _ folding visited => folding.step visited) ?_ ?_
      (.start ir) ran r inside on
    · intro cur s next _ folding visited on
      rcases folding.cases s instr lhs rhs on with same | ⟨other, isOther, folded⟩
      · exact foldInstr_folds visited ⟨same, constOperands_mono folding.more on.constants⟩ isValue
      · obtain rfl := Option.some.inj (isValue.symm.trans isOther)
        exact foldedTo_keeps visited folded
    · intro cur s t next _ _ visited folded on
      exact foldedTo_keeps visited (folded on)
  cases isValue : foldedValue instr lhs rhs with
  | some value => exact settled value isValue
  | none =>
      rcases folding.cases r instr lhs rhs on with same | ⟨other, isOther, _⟩
      · exact same
      · rw [isValue] at isOther
        cases isOther

/-- Every instruction that the pass rewrites becomes the value of its operation. -/
def AgreesWithTruncation (ir : IR) : Prop :=
  ∃ next, constantFolding ir = some next ∧
    ∀ r ∈ ir.refs, ∀ instr lhs rhs, OnConstants ir r instr lhs rhs → next.instr? r ≠ some instr →
      ∃ value, FoldedTo next r instr value ∧ FoldsExactly instr lhs rhs value

theorem foldedTo_ne {next : IR} {r : Ref} {instr : Instr} {lhs rhs value : BitVec 16}
    (isValue : foldedValue instr lhs rhs = some value) (folded : FoldedTo next r instr value) :
    next.instr? r ≠ some instr := by
  obtain ⟨k, isFolded, _⟩ := folded
  intro same
  rw [isFolded] at same
  apply foldedValue_ref isValue
  rw [← Option.some.inj same]
  rfl

theorem byteReady_of_other {op : Opcode} (other : ¬ ComparesWords op) (lhs rhs : BitVec 16) :
    ByteReady op lhs rhs := by
  simp only [ComparesWords, List.mem_cons, List.not_mem_nil, or_false, not_or] at other
  unfold ByteReady
  split <;> simp_all

theorem operandWidth_raw {instr : Instr} (raw : ComparesWords instr.opcode) :
    operandWidth instr = instr.compareWidth.getD .word := by
  simp only [ComparesWords, List.mem_cons, List.not_mem_nil, or_false] at raw
  rcases raw with isOp | isOp | isOp | isOp | isOp | isOp <;> simp only [operandWidth, isOp]

/-- An equality or an unsigned comparison folds for either boolean type. -/
theorem foldedValue_raw_isSome {instr : Instr} (raw : ComparesWords instr.opcode)
    (typ : instr.typ = .u8 ∨ instr.typ = .u16) (lhs rhs : BitVec 16) :
    ∃ value, foldedValue instr lhs rhs = some value := by
  obtain ⟨holds, compared⟩ : ∃ holds, comparison instr.opcode lhs rhs = some holds := by
    simp only [ComparesWords, List.mem_cons, List.not_mem_nil, or_false] at raw
    rcases raw with isOp | isOp | isOp | isOp | isOp | isOp <;>
      exact ⟨_, by simp only [comparison, isOp]; rfl⟩
  refine ⟨truth holds, ?_⟩
  rw [foldedValue_raw raw, compared, Option.bind_some]
  exact foldBool_eq_some.mpr ⟨typ, rfl⟩

theorem foldedTo_unique {next : IR} {r : Ref} {instr : Instr} {first second : BitVec 16}
    (here : FoldedTo next r instr first) (there : FoldedTo next r instr second) :
    first = second := by
  obtain ⟨k, isFirst, firstValue⟩ := here
  obtain ⟨l, isSecond, secondValue⟩ := there
  have same := isFirst.symm.trans isSecond
  simp only [foldTo, Option.some.injEq, Instr.mk.injEq, List.cons.injEq, and_true, true_and] at same
  subst same
  exact Option.some.inj (firstValue.symm.trans secondValue)

/-- Folding is exact if and only if no equality and no unsigned comparison of bytes depends on
how its constants were extended. -/
theorem constantFolding_agrees_iff (ir : IR) : AgreesWithTruncation ir ↔
    ∀ r ∈ ir.refs, ∀ instr lhs rhs, OnConstants ir r instr lhs rhs →
      instr.compareWidth = some .byte → instr.typ = .u8 ∨ instr.typ = .u16 →
      ByteReady instr.opcode lhs rhs := by
  constructor
  · rintro ⟨next, ran, exactly⟩ r inside instr lhs rhs on bytes typ
    by_cases raw : ComparesWords instr.opcode
    · obtain ⟨value, isValue⟩ := foldedValue_raw_isSome raw typ lhs rhs
      have folded := constantFolding_folds ran inside on
      rw [isValue] at folded
      obtain ⟨other, foldedOther, isExact⟩ :=
        exactly r inside instr lhs rhs on (foldedTo_ne isValue folded)
      obtain rfl := foldedTo_unique folded foldedOther
      apply (foldsExactly_iff isValue).mp isExact
      rw [operandWidth_raw raw, bytes, Option.getD_some]
    · exact byteReady_of_other raw lhs rhs
  · intro ready
    obtain ⟨next, ran⟩ := constantFolding_isSome ir
    refine ⟨next, ran, fun r inside instr lhs rhs on rewritten => ?_⟩
    have folded := constantFolding_folds ran inside on
    cases isValue : foldedValue instr lhs rhs with
    | none =>
        rw [isValue] at folded
        exact absurd folded rewritten
    | some value =>
        rw [isValue] at folded
        refine ⟨value, folded, (foldsExactly_iff isValue).mpr fun isByte => ?_⟩
        by_cases raw : ComparesWords instr.opcode
        · have bytes := (compares_of_byte isByte isValue).1
          rw [foldedValue_raw raw] at isValue
          obtain ⟨_, _, isBool⟩ := Option.bind_eq_some_iff.mp isValue
          exact ready r inside instr lhs rhs on bytes (foldBool_eq_some.mp isBool).1
        · exact byteReady_of_other raw lhs rhs

def byteEquality : Instr := ⟨.u8, some .byte, Attribute.NONE, .eq, [.const 0, .const 1]⟩

/-- The byte 0xFF is compared with itself, once zero- and once sign-extended. -/
def extendedBytes : IR :=
  { IR.new with
    consts := [0x00FF, 0xFFFF]
    blocks := [some ⟨"entry", fun _ => none, [], ⟨[byteEquality], [0], by decide, distinct_one⟩, true, []⟩] }

theorem constantFolding_equal_bytes_differ : ¬ AgreesWithTruncation extendedBytes := by
  rintro ⟨next, ran, exactly⟩
  have on : OnConstants extendedBytes (.instr 0 0) byteEquality 0x00FF 0xFFFF := ⟨rfl, rfl⟩
  have inside : Ref.instr 0 0 ∈ extendedBytes.refs := by decide
  have isValue : foldedValue byteEquality 0x00FF 0xFFFF = some 0 := by decide
  have folded : FoldedTo next (.instr 0 0) byteEquality 0 := constantFolding_folds ran inside on
  obtain ⟨value, foldedValue', isExact⟩ :=
    exactly _ inside _ _ _ on (foldedTo_ne isValue folded)
  obtain rfl := foldedTo_unique folded foldedValue'
  have agrees := isExact.agrees
  revert agrees
  decide

end Dis86.Opt
