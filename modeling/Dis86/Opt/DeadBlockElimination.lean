import Dis86.Opt.DeadBlockRun

namespace Dis86.Opt
open Lib

/-- Memory or the outside can tell that the instruction ran. -/
def hasObservableEffect (opcode : Opcode) : Bool :=
  opcode.hasSideEffects || opcode.isStore || opcode matches .writeArr8 | .writeArr16

/-- A pure data producer has no control-flow role and no pin. -/
def isPureProducer (instr : Instr) : Bool :=
  !hasObservableEffect instr.opcode && instr.attrs &&& Attribute.PIN == 0 &&
    !(instr.opcode matches .nop | .phi | .jmp | .jne | .jmpTbl | .retFar | .retNear)

/-- The test for consumers misses one of the three stores. -/
theorem isNopableConsumer_iff (instr : Instr) : isNopableConsumer instr = true ↔
    isPureProducer instr = true ∨
      instr.opcode = .store32 ∧ instr.attrs &&& Attribute.PIN = 0 := by
  unfold isNopableConsumer isPureProducer
  cases instr.opcode <;> simp [hasObservableEffect, Opcode.hasSideEffects, Opcode.isStore]

/-- A visit changes nothing, or it removes a block that nothing leads to and whose dependents are
pure. -/
def AllOrNothing (turn : Turn IR BlockRef) : Prop :=
  turn.after = turn.before ∨
    Removal turn.before turn.input turn.after ∧ turn.before.preds turn.input = [] ∧
      ∀ r, Depends turn.before turn.input r →
        ∃ instr, turn.before.instr? r = some instr ∧ isPureProducer instr = true

/-- The visit meets a block that it removes together with a wide store. -/
def LosesStore (turn : Turn IR BlockRef) : Prop :=
  Dies turn.before turn.input ∧ ∃ r instr, Depends turn.before turn.input r ∧
    turn.before.instr? r = some instr ∧ instr.opcode = .store32

/-- What the pass owes to its callers. -/
structure Eliminated (ir : IR) (turns : List (Turn IR BlockRef)) (after : IR) : Prop where
  consistent : after.Consistent
  nops : NopsBare ir → NopsBare after
  removed : ∀ b, (ir.block? b).isSome → after.block? b = none → Unreferenced after b
  turns : ∀ turn ∈ turns, AllOrNothing turn

theorem allOrNothing_iff {turn : Turn IR BlockRef} (consistent : turn.before.Consistent)
    (present : (turn.before.block? turn.input).isSome)
    (step : deadblockVisit turn.before turn.input = some turn.after) :
    AllOrNothing turn ↔ ¬ LosesStore turn := by
  obtain ⟨block, found⟩ := Option.isSome_iff_exists.mp present
  rcases deadblockVisit_spec consistent found with ⟨dies, after, ran, removal⟩ | ⟨stays, ran⟩
  · obtain rfl := Option.some.inj (ran.symm.trans step)
    constructor
    · rintro (same | ⟨_, _, pure⟩) ⟨_, r, instr, depends, found', store⟩
      · rw [← same, removal.gone] at found
        cases found
      · obtain ⟨instr', found'', isPure⟩ := pure r depends
        obtain rfl := Option.some.inj (found'.symm.trans found'')
        simp [isPureProducer, hasObservableEffect, Opcode.isStore, store] at isPure
    · intro kept
      refine .inr ⟨removal, dies.unreached, fun r depends => ?_⟩
      obtain ⟨instr, found', erasable⟩ := dies.dependents r depends
      refine ⟨instr, found', ?_⟩
      rcases (isNopableConsumer_iff instr).mp erasable with pure | ⟨store, _⟩
      · exact pure
      · exact absurd ⟨dies, r, instr, depends, found', store⟩ kept
  · have same : turn.before = turn.after := Option.some.inj (ran.symm.trans step)
    constructor
    · rintro _ ⟨dies, _⟩
      exact stays dies
    · intro _
      exact .inl same.symm

/-- What holds between two visits. -/
structure Between (ir : IR) (rest : List BlockRef) (current : IR) : Prop where
  consistent : current.Consistent
  distinct : rest.Nodup
  present : ∀ b ∈ rest, (current.block? b).isSome
  removed : ∀ b, (ir.block? b).isSome → current.block? b = none → Unreferenced current b
  nops : NopsBare ir → NopsBare current

theorem Between.init {ir : IR} (consistent : ir.Consistent) : Between ir ir.iterBlocks ir where
  consistent := consistent
  distinct := List.nodup_range.filter _
  present b inside := IR.mem_iterBlocks.mp inside
  removed b present missing := by simp [missing] at present
  nops := id

theorem Between.step {ir current : IR} {b : BlockRef} {rest : List BlockRef}
    (between : Between ir (b :: rest) current) :
    ∃ next, deadblockVisit current b = some next ∧ Between ir rest next := by
  obtain ⟨fresh, distinct⟩ := List.nodup_cons.mp between.distinct
  have later : ∀ c ∈ rest, (current.block? c).isSome := fun c inside =>
    between.present c (List.mem_cons_of_mem b inside)
  obtain ⟨block, found⟩ := Option.isSome_iff_exists.mp (between.present b List.mem_cons_self)
  rcases deadblockVisit_spec between.consistent found with ⟨dies, next, ran, removal⟩ | ⟨_, ran⟩
  · refine ⟨next, ran, consistent_removal between.consistent dies removal, distinct, ?_, ?_, ?_⟩
    · intro c inside
      have other : c ≠ b := fun same => fresh (same ▸ inside)
      obtain ⟨old, there⟩ := Option.isSome_iff_exists.mp (later c inside)
      obtain ⟨data, here, _⟩ := removal.block c old other there
      rw [here]
      rfl
    · intro c present missing
      by_cases same : c = b
      · rw [same]
        exact unreferenced_gone removal
      · refine unreferenced_removal (between.removed c present ?_) removal
        cases there : current.block? c with
        | none => rfl
        | some old =>
            obtain ⟨data, here, _⟩ := removal.block c old same there
            rw [here] at missing
            cases missing
    · exact fun bare => nopsBare_removal (between.nops bare) removal
  · exact ⟨current, ran, between.consistent, distinct, later, between.removed, between.nops⟩

/-- The pass ends, and it keeps its contract exactly when no visit loses a wide store. -/
theorem deadblockElimination_contract_iff (ir : IR) (consistent : ir.Consistent) :
    ∃ turns after, deadblockElimination ir = some after ∧
      Trace deadblockVisit ir ir.iterBlocks turns after ∧
      (Eliminated ir turns after ↔ ∀ turn ∈ turns, ¬ LosesStore turn) := by
  obtain ⟨turns, after, trace, final, before⟩ :=
    Trace.run (fun b rest current => @Between.step ir current b rest) (Between.init consistent)
  have each : ∀ turn ∈ turns, AllOrNothing turn ↔ ¬ LosesStore turn := by
    intro turn inside
    obtain ⟨rest, between⟩ := before turn inside
    exact allOrNothing_iff between.consistent (between.present _ List.mem_cons_self)
      (trace.step_eq turn inside)
  refine ⟨turns, after, trace.foldlM_eq, trace, ?_, ?_⟩
  · intro eliminated turn inside
    exact (each turn inside).mp (eliminated.turns turn inside)
  · intro keeps
    exact ⟨final.consistent, final.nops, final.removed, fun turn inside =>
      (each turn inside).mpr (keeps turn inside)⟩

section WideStore

/-- Code whose operands are known, in a block that nothing leads to. -/
def plainBlock (name : String) (instrs : List Instr) : Block where
  name := name
  defs := fun _ => none
  preds := []
  data := ⟨instrs, List.range instrs.length, bounded_range instrs, distinct_range instrs⟩
  sealed := true
  incompletePhis := []

def plainInstr (opcode : Opcode) (operands : List Ref) : Instr := ⟨.u16, none, 0, opcode, operands⟩

/-- The entry stores a value of a block that is dead. -/
def wideStore : IR := { IR.new with
  consts := [7, 16]
  blocks := [
    some (plainBlock "entry" [plainInstr .store32 [.init .SS, .const 1, .instr 1 0],
      plainInstr .retNear []]),
    some (plainBlock "dead" [plainInstr .add [.const 0, .const 0], plainInstr .retNear []])] }

theorem wideStore_block? (b : BlockRef) : wideStore.block? (b + 2) = none := rfl

theorem wideStore_code (b : BlockRef) : ∀ instr ∈ wideStore.code b,
    IR.branchExits instr = some [] ∧ instr.opcode ≠ .phi := by
  match b with
  | 0 => decide
  | 1 => decide
  | b + 2 => simp [IR.code, IR.iterInstrs, wideStore_block?]

theorem wideStore_preds (b : BlockRef) : wideStore.preds b = [] := by
  match b with
  | 0 => rfl
  | 1 => rfl
  | b + 2 => rfl

theorem wideStore_consistent : wideStore.Consistent where
  formed b instr inside := by
    rw [(wideStore_code b instr inside).1]
    rfl
  edges b c := by
    have none : wideStore.targets b = [] :=
      List.flatMap_eq_nil_iff.mpr fun instr inside => by rw [(wideStore_code b instr inside).1]; rfl
    rw [none, wideStore_preds]
    rfl
  arity b instr inside isPhi := absurd isPhi (wideStore_code b instr inside).2

/-- The value of the dead block feeds the store of the entry. -/
theorem wideStore_depends : Depends wideStore 1 (.instr 0 0) :=
  .direct ⟨0, plainInstr .store32 [.init .SS, .const 1, .instr 1 0], 2, by decide, by decide, rfl,
    by decide, rfl, by decide⟩ rfl

theorem deadblockElimination_contract_wideStore : ∃ turns after,
    deadblockElimination wideStore = some after ∧
      Trace deadblockVisit wideStore wideStore.iterBlocks turns after ∧
      (Eliminated wideStore turns after ↔ ∀ turn ∈ turns, ¬ LosesStore turn) :=
  deadblockElimination_contract_iff wideStore wideStore_consistent

/-- The dead block goes, and the store goes with it. -/
theorem deadblockElimination_drops_store : wideStore.Consistent ∧ ∃ turns after,
    deadblockElimination wideStore = some after ∧
      Trace deadblockVisit wideStore wideStore.iterBlocks turns after ∧
      (after.instr? (.instr 0 0)).map Instr.opcode = some .nop ∧
      ¬ Eliminated wideStore turns after := by
  refine ⟨wideStore_consistent, _, _, rfl, .cons rfl (.cons rfl (.nil _)), by decide, ?_⟩
  intro eliminated
  have second := eliminated.turns _ (List.mem_cons_of_mem _ List.mem_cons_self)
  rcases second with same | ⟨_, _, pure⟩
  · have gone := congrArg (fun ir : IR => (ir.block? 1).isSome) same
    revert gone
    decide
  · obtain ⟨instr, found, isPure⟩ := pure (.instr 0 0) wideStore_depends
    obtain rfl := Option.some.inj (found.symm.trans rfl)
    revert isPure
    decide

end WideStore

end Dis86.Opt
