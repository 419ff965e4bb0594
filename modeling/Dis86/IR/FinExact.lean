import Dis86.IR.FinExits
import Dis86.IR.Flow

namespace Dis86.Fin
open IR

/-- A function with all edges split that need it. -/
structure Split (ir next : IR) (via : BlockRef → BlockRef → Option BlockRef) (done : BlockRef → Nat) :
    Prop extends Splits ir next via done where
  settled : ∀ b, (ir.block? b).isSome → Settled ir via done b

section Results

variable {ir next : IR} {via : BlockRef → BlockRef → Option BlockRef} {done : BlockRef → Nat}
  {b c n p : BlockRef} {r phi : Ref} {instr : Instr}

/-- Only a branch with several exits changes. -/
theorem Split.code_cases (terminated : Terminated ir) (split : Split ir next via done)
    (inside : b < ir.blocks.length) (here : home r = some b) (present : ir.instr? r = some instr) :
    next.instr? r = some instr ∨ (instr.opcode = .jne ∨ instr.opcode = .jmpTbl) ∧
      next.instr? r = some (redirect (via b) (done b) instr) := by
  rw [split.code b inside r here, present, Option.map_some]
  by_cases last : ir.blockLast b = some r
  · rw [if_pos last]
    by_cases direct : ∀ c, via b c = none
    · rw [redirect_none direct]
      exact .inl rfl
    · obtain ⟨c, some⟩ := not_forall.mp direct
      obtain ⟨n, found⟩ := Option.ne_none_iff_exists'.mp some
      obtain ⟨exits, isExits, several, _⟩ := (split.made b c n found).edge
      obtain ⟨r', instr', last', term, formed⟩ := terminated.last b exits isExits several
      obtain rfl := Option.some.inj (last.symm.trans last')
      obtain rfl := Option.some.inj (present.symm.trans term)
      obtain ⟨_, _, branches⟩ := branches_of_exits formed several
      right
      refine ⟨?_, rfl⟩
      rcases branches.kind with ⟨isJne, _⟩ | ⟨isTable, _⟩
      · exact .inl isJne
      · exact .inr isTable
  · rw [if_neg last]
    exact .inl rfl

/-- The exits of a block, each by way of its new block. -/
theorem Split.exits (terminated : Terminated ir) (split : Split ir next via done)
    (live : (ir.block? b).isSome) {exits : List BlockRef} (isExits : ir.blockExits b = some exits) :
    next.blockExits b = some (exits.map fun c => (via b c).getD c) := by
  have inside := lt_of_live live
  by_cases several : 2 ≤ exits.length
  · obtain ⟨r, instr, last, term, formed⟩ := terminated.last b exits isExits several
    obtain ⟨first, more, branches⟩ := branches_of_exits formed several
    have redirected : next.instr? r = some (redirect (via b) exits.length instr) := by
      rw [split.code b inside r (home_of_last last), term, Option.map_some, if_pos last,
        (split.settled b live exits isExits several).1]
    have nextLast : next.blockLast b = some r := by
      rw [blockLast_eq_getLast, split.order b inside, ← blockLast_eq_getLast, last]
    rw [blockExits_of_last nextLast redirected, branches.redirect.exits]
    rcases branches.kind with ⟨isJne, _⟩ | ⟨isTable, _⟩
    · rw [redirect_opcode, isJne]
      decide
    · rw [redirect_opcode, isTable]
      decide
  · have direct : ∀ c, via b c = none := by
      intro c
      cases found : via b c with
      | none => rfl
      | some n =>
          obtain ⟨exits', isExits', more, _⟩ := (split.made b c n found).edge
          obtain rfl := Option.some.inj (isExits.symm.trans isExits')
          exact absurd more several
    simp only [direct, Option.getD_none, List.map_id']
    rw [← isExits]
    apply blockExits_congr (split.live b inside) (split.order b inside)
    intro r listed
    rw [split.code b inside r (mem_iterInstrs listed)]
    simp only [redirect_none direct, ite_self, Option.map_id']

/-- A new block goes on to the block that it was made for. -/
theorem Split.exits_new (split : Split ir next via done) (new : via p c = some n) :
    next.blockExits n = some [c] := by
  have made := split.made p c n new
  have last : next.blockLast n = some (.instr n 0) := by
    rw [blockLast_eq_getLast, made.order]
    rfl
  rw [blockExits_of_last last made.jump (by exact (nofun : Opcode.jmp ≠ .nop))]
  rfl

theorem Split.phisOf_new (split : Split ir next via done) (new : via p c = some n) :
    next.phisOf n = [] := by
  have made := split.made p c n new
  unfold phisOf
  rw [made.order, List.filter_cons, made.jump]
  rfl

theorem phisOf_eq_nil : ir.phisOf b = [] ↔ targetHasPhis ir b = false := by
  unfold phisOf targetHasPhis
  rw [List.filter_eq_nil_iff, List.any_eq_false]

/-- A phi keeps its operands. -/
theorem Split.instr?_phi (terminated : Terminated ir) (split : Split ir next via done)
    (inside : b < ir.blocks.length) (isPhi : phi ∈ ir.phisOf b) : next.instr? phi = ir.instr? phi := by
  obtain ⟨listed, kind⟩ := List.mem_filter.mp isPhi
  obtain ⟨instr, present, opcode⟩ := (Option.any_eq_true _ _).mp kind
  rcases split.code_cases terminated inside (mem_iterInstrs listed) present with same | ⟨branch, _⟩
  · rw [same, present]
  · rw [of_decide_eq_true opcode] at branch
    rcases branch with wrong | wrong <;> cases wrong

/-- The source of an edge and its new block are at one position among the predecessors. -/
theorem Split.edgeIndex (terminated : Terminated ir) (split : Split ir next via done)
    (live : (ir.block? c).isSome) (source : p < ir.blocks.length) :
    next.edgeIndex ((via p c).getD p) c = ir.edgeIndex p c := by
  have inside := lt_of_live live
  obtain ⟨block, found⟩ := Option.isSome_iff_exists.mp live
  obtain ⟨block', found'⟩ := Option.isSome_iff_exists.mp ((split.live c inside).trans live)
  have preds : block'.preds = block.preds.map fun p => (via p c).getD p := by
    have same := split.preds c inside
    unfold IR.preds at same
    simpa only [found, found', Option.map_some, Option.getD_some] using same
  have known : ∀ q ∈ block.preds, q < ir.blocks.length := by
    intro q listed
    apply terminated.preds c
    unfold IR.preds
    rw [found]
    exact listed
  have injective : ∀ q < ir.blocks.length, (via q c).getD q = (via p c).getD p ↔ q = p := by
    intro q old
    constructor
    · intro same
      cases atQ : via q c with
      | none =>
          rw [atQ, Option.getD_none] at same
          cases atP : via p c with
          | none => rw [atP] at same; exact same
          | some n =>
              rw [atP, Option.getD_some] at same
              exact absurd (split.made p c n atP).old (Nat.not_le.mpr (same ▸ old))
      | some m =>
          rw [atQ, Option.getD_some] at same
          cases atP : via p c with
          | none =>
              rw [atP, Option.getD_none] at same
              exact absurd (split.made q c m atQ).old (Nat.not_le.mpr (same ▸ source))
          | some n =>
              rw [atP, Option.getD_some] at same
              subst same
              have first := (split.made q c m atQ).preds
              have second := (split.made p c m atP).preds
              exact (List.cons.inj (first.symm.trans second)).1
    · rintro rfl
      rfl
  unfold IR.edgeIndex
  rw [found, found', Option.bind_some, Option.bind_some, preds, List.findIdx?_map]
  have same : ∀ (l : List BlockRef), (∀ q ∈ l, q < ir.blocks.length) →
      l.findIdx? ((fun q => decide (q = (via p c).getD p)) ∘ fun q => (via q c).getD q) =
        l.findIdx? fun q => decide (q = p) := by
    intro l bounded
    induction l with
    | nil => rfl
    | cons q l hypothesis =>
        rw [List.findIdx?_cons, List.findIdx?_cons,
          hypothesis fun q inside => bounded q (List.mem_cons_of_mem _ inside)]
        simp only [Function.comp, injective q (bounded q List.mem_cons_self)]
  exact same block.preds known

/-- A phi selects the same operand by way of the new block. -/
theorem Split.selected (terminated : Terminated ir) (split : Split ir next via done)
    (live : (ir.block? c).isSome) (source : p < ir.blocks.length) (isPhi : phi ∈ ir.phisOf c) :
    next.selected (some ((via p c).getD p)) c phi = ir.selected (some p) c phi := by
  unfold IR.selected IR.edgeOperand
  rw [Option.bind_some, Option.bind_some, split.instr?_phi terminated (lt_of_live live) isPhi,
    split.edgeIndex terminated live source]

theorem Split.visitOf (terminated : Terminated ir) (split : Split ir next via done)
    (live : (ir.block? c).isSome) (source : p < ir.blocks.length) :
    next.visitOf (some ((via p c).getD p)) c = ir.visitOf (some p) c := by
  unfold IR.visitOf
  rw [split.phisOf_eq (lt_of_live live)]
  have same : (ir.phisOf c).map (fun phi => (phi, next.selected (some ((via p c).getD p)) c phi)) =
      (ir.phisOf c).map fun phi => (phi, ir.selected (some p) c phi) := by
    apply List.map_congr_left
    intro phi isPhi
    rw [split.selected terminated live source isPhi]
  rw [same]

theorem Split.visitOf_entry (split : Split ir next via done) (live : (ir.block? c).isSome) :
    next.visitOf none c = ir.visitOf none c := by
  unfold IR.visitOf
  rw [split.phisOf_eq (lt_of_live live)]
  rfl

section Running

variable {V M : Type} (semantics : Semantics V M) {state init : State V M}

/-- An instruction does what it did. -/
theorem Split.step (terminated : Terminated ir) (split : Split ir next via done)
    (inside : b < ir.blocks.length) (here : home r = some b) :
    semantics.step next state r = semantics.step ir state r := by
  unfold Semantics.step
  cases present : ir.instr? r with
  | none =>
      rw [split.code b inside r here, present]
      rfl
  | some instr =>
      rcases split.code_cases terminated inside here present with same | ⟨_, redirected⟩
      · rw [same]
      · rw [redirected]
        simp only [redirect_opcode, withoutTargets_redirect]

theorem Split.visit (terminated : Terminated ir) (split : Split ir next via done)
    (inside : b < ir.blocks.length) (src src' : Option BlockRef)
    (same : ∀ phi ∈ ir.phisOf b, next.selected src' b phi = ir.selected src b phi) :
    semantics.visit next src' b state = semantics.visit ir src b state := by
  have entered : next.enter src' b state = ir.enter src b state := by
    unfold enter
    rw [split.phisOf_eq inside]
    have env : (fun r => if r ∈ ir.phisOf b then (next.selected src' b r).bind state.env else state.env r) =
        fun r => if r ∈ ir.phisOf b then (ir.selected src b r).bind state.env else state.env r := by
      funext r
      split
      · rename_i isPhi
        rw [same r isPhi]
      · rfl
    rw [env]
  unfold Semantics.visit
  rw [entered, split.order b inside]
  apply List.foldl_ext
  intro state r listed
  exact split.step semantics terminated inside (mem_iterInstrs listed)

/-- A new block does nothing. -/
theorem Split.visit_new (split : Split ir next via done) (new : via p c = some n) (src : Option BlockRef) :
    semantics.visit next src n state = state := by
  have made := split.made p c n new
  unfold Semantics.visit enter
  rw [made.order, split.phisOf_new new, List.foldl_cons, List.foldl_nil]
  unfold Semantics.step
  rw [made.jump]
  simp only [List.not_mem_nil, if_false]
  rfl

theorem Semantics.take_map (exits : List BlockRef) (f : BlockRef → BlockRef) :
    semantics.take (exits.map f) state = (semantics.take exits state).map f := by
  match exits with
  | [] => rfl
  | [only] => rfl
  | first :: second :: rest =>
      simp only [Semantics.take, List.map_cons]
      rw [← List.map_cons, ← List.map_cons, List.getElem?_map]

end Running

section Executions

variable {V M : Type} {semantics : Semantics V M} {entry : BlockRef} {init state : State V M}
  {visits : List Visit}

/-- The visits of blocks that were there before. -/
def originals (ir : IR) (visits : List Visit) : List Visit :=
  visits.filter fun visit => visit.block < ir.blocks.length

theorem originals_old (visits : List Visit) {visit : Visit} (old : visit.block < ir.blocks.length) :
    originals ir (visits ++ [visit]) = originals ir visits ++ [visit] := by
  rw [originals, List.filter_append, List.filter_cons, if_pos (decide_eq_true old)]
  rfl

theorem originals_new (visits : List Visit) {visit : Visit} (new : ir.blocks.length ≤ visit.block) :
    originals ir (visits ++ [visit]) = originals ir visits := by
  have outside : decide (visit.block < ir.blocks.length) = false := decide_eq_false (Nat.not_lt.mpr new)
  rw [originals, List.filter_append, List.filter_cons, outside]
  exact List.append_nil _

theorem execution_live (terminated : Terminated ir) (live : (ir.block? entry).isSome)
    (execution : Execution ir semantics entry init visits b state) : (ir.block? b).isSome := by
  cases execution with
  | start => exact live
  | @step _ b' _ exits c before leaves taken =>
      have source : (ir.block? b').isSome := by
        unfold blockExits at leaves
        obtain ⟨block, found, _⟩ := Option.bind_eq_some_iff.mp leaves
        exact Option.isSome_of_mem found
      obtain ⟨exits', isExits, exitsLive⟩ := terminated.exits b' source
      obtain rfl := Option.some.inj (leaves.symm.trans isExits)
      apply exitsLive
      unfold Semantics.take at taken
      split at taken
      · rw [← Option.some.inj taken]
        exact List.mem_singleton_self _
      · exact List.mem_of_getElem? taken

/-- An execution goes on in the split function, by way of the new blocks. -/
theorem Split.forward (terminated : Terminated ir) (split : Split ir next via done)
    (live : (ir.block? entry).isSome) (execution : Execution ir semantics entry init visits b state) :
    ∃ visits', Execution next semantics entry init visits' b state ∧ originals ir visits' = visits := by
  induction execution with
  | start =>
      have first : Execution next semantics entry init [next.visitOf none entry] entry
          (semantics.visit next none entry init) := .start
      rw [split.visitOf_entry live, split.visit semantics terminated (lt_of_live live) none none
        fun _ _ => rfl] at first
      exact ⟨_, first, originals_old [] (lt_of_live live)⟩
  | @step visits b state exits c before leaves taken hypothesis =>
      obtain ⟨visits', execution, same⟩ := hypothesis
      have source := execution_live terminated live before
      have target := execution_live terminated live (.step before leaves taken)
      have inside := lt_of_live target
      have selects : ∀ phi ∈ ir.phisOf c,
          next.selected (some ((via b c).getD b)) c phi = ir.selected (some b) c phi :=
        fun phi isPhi => split.selected terminated target (lt_of_live source) isPhi
      have visitSame := split.visitOf terminated target (lt_of_live source)
      have last : originals ir (visits' ++ [ir.visitOf (some b) c]) = visits ++ [ir.visitOf (some b) c] := by
        rw [originals_old visits' inside, same]
      have goes : semantics.take (exits.map fun c => (via b c).getD c) state =
          some ((via b c).getD c) := by
        rw [Semantics.take_map, taken, Option.map_some]
      cases found : via b c with
      | none =>
          rw [found] at goes selects visitSame
          rw [Option.getD_none] at goes selects visitSame
          have step := execution.step (split.exits terminated source leaves) goes
          rw [visitSame, split.visit semantics terminated inside _ _ selects] at step
          exact ⟨_, step, last⟩
      | some n =>
          rw [found] at goes selects visitSame
          rw [Option.getD_some] at goes selects visitSame
          have middle := execution.step (split.exits terminated source leaves) goes
          rw [split.visit_new semantics found] at middle
          have step := middle.step (split.exits_new found) (c := c) rfl
          rw [visitSame, split.visit semantics terminated inside _ _ selects] at step
          refine ⟨_, step, ?_⟩
          rw [originals_old _ inside, originals_new _ (split.made b c n found).old, same]

/-- An execution of the split function shows one of the original function. -/
theorem Split.backward (terminated : Terminated ir) (split : Split ir next via done)
    (live : (ir.block? entry).isSome) (execution : Execution next semantics entry init visits b state) :
    ((ir.block? b).isSome ∧ Execution ir semantics entry init (originals ir visits) b state) ∨
      ∃ p c exits, via p c = some b ∧ (ir.block? c).isSome ∧
        Execution ir semantics entry init (originals ir visits) p state ∧
        ir.blockExits p = some exits ∧ semantics.take exits state = some c := by
  induction execution with
  | start =>
      left
      have shown : originals ir [ir.visitOf none entry] = [ir.visitOf none entry] :=
        originals_old [] (lt_of_live live)
      rw [split.visitOf_entry live, shown,
        split.visit semantics terminated (lt_of_live live) none none fun _ _ => rfl]
      exact ⟨live, .start⟩
  | @step visits b state exits c before leaves taken hypothesis =>
      rcases hypothesis with ⟨source, execution⟩ | ⟨p, d, exits', new, target, execution, leaves', taken'⟩
      · obtain ⟨exits', isExits, exitsLive⟩ := terminated.exits b source
        obtain rfl := Option.some.inj (leaves.symm.trans (split.exits terminated source isExits))
        rw [Semantics.take_map] at taken
        obtain ⟨d, took, goes⟩ := Option.map_eq_some_iff.mp taken
        have target := execution_live terminated live (.step execution isExits took)
        cases found : via b d with
        | none =>
            rw [found, Option.getD_none] at goes
            subst goes
            have selects : ∀ phi ∈ ir.phisOf d,
                next.selected (some b) d phi = ir.selected (some b) d phi := by
              intro phi isPhi
              have same := split.selected terminated target (lt_of_live source) isPhi
              rwa [found, Option.getD_none] at same
            have visitSame := split.visitOf terminated target (lt_of_live source)
            rw [found, Option.getD_none] at visitSame
            left
            rw [visitSame, originals_old _ (lt_of_live target),
              split.visit semantics terminated (lt_of_live target) _ _ selects]
            exact ⟨target, execution.step isExits took⟩
        | some n =>
            rw [found, Option.getD_some] at goes
            subst goes
            right
            rw [originals_new _ (split.made b d n found).old, split.visit_new semantics found]
            exact ⟨b, d, exits', found, target, execution, isExits, took⟩
      · obtain rfl := Option.some.inj (leaves.symm.trans (split.exits_new new))
        obtain rfl := Option.some.inj taken
        have source := execution_live terminated live execution
        have selects : ∀ phi ∈ ir.phisOf d, next.selected (some b) d phi = ir.selected (some p) d phi := by
          intro phi isPhi
          have same := split.selected terminated target (lt_of_live source) isPhi
          rwa [new, Option.getD_some] at same
        have visitSame := split.visitOf terminated target (lt_of_live source)
        rw [new, Option.getD_some] at visitSame
        left
        rw [visitSame, originals_old _ (lt_of_live target),
          split.visit semantics terminated (lt_of_live target) _ _ selects]
        exact ⟨target, execution.step leaves' taken'⟩

end Executions

/-- What finalization gives: no edge from a block with several exits to one with phis, a phi operand
for each predecessor, and executions that visit the old blocks and select the operands as before. -/
structure Finalized (ir next : IR) : Prop where
  apart : ∀ b exits, next.blockExits b = some exits → 2 ≤ exits.length →
    ∀ c ∈ exits, next.phisOf c = []
  arity : ∀ b, ∀ phi ∈ next.phisOf b, ∀ instr, next.instr? phi = some instr →
    instr.operands.length = (next.preds b).length
  executions : ∀ {V M : Type} (semantics : Semantics V M) (entry : BlockRef) (init : State V M),
    (ir.block? entry).isSome → ∀ visits,
      (∃ b state, Execution ir semantics entry init visits b state) ↔
        ∃ visits' b state, Execution next semantics entry init visits' b state ∧
          originals ir visits' = visits

theorem Split.apart (terminated : Terminated ir) (split : Split ir next via done)
    {exits : List BlockRef} (isExits : next.blockExits b = some exits) (several : 2 ≤ exits.length) :
    ∀ d ∈ exits, next.phisOf d = [] := by
  have nextLive : (next.block? b).isSome := by
    unfold blockExits at isExits
    obtain ⟨block, found, _⟩ := Option.bind_eq_some_iff.mp isExits
    exact Option.isSome_of_mem found
  by_cases inside : b < ir.blocks.length
  · have live : (ir.block? b).isSome := (split.live b inside).symm.trans nextLive
    obtain ⟨exits', isExits', exitsLive⟩ := terminated.exits b live
    obtain rfl := Option.some.inj (isExits.symm.trans (split.exits terminated live isExits'))
    rw [List.length_map] at several
    intro d isExit
    obtain ⟨c, isC, rfl⟩ := List.mem_map.mp isExit
    cases found : via b c with
    | some n => exact split.phisOf_new found
    | none =>
        rw [Option.getD_none, split.phisOf_eq (lt_of_live (exitsLive c isC)), phisOf_eq_nil,
          Bool.eq_false_iff]
        intro merges
        have known := (split.settled b live exits' isExits' several).2 c isC merges
        rw [found] at known
        cases known
  · obtain ⟨p, c, new⟩ := split.fresh b (Nat.not_lt.mp inside) (block?_lt nextLive)
    obtain rfl := Option.some.inj (isExits.symm.trans (split.exits_new new))
    exact absurd several (Nat.not_succ_le_self 1)

theorem Split.arity (terminated : Terminated ir) (split : Split ir next via done)
    (isPhi : phi ∈ next.phisOf b) (present : next.instr? phi = some instr) :
    instr.operands.length = (next.preds b).length := by
  by_cases inside : b < ir.blocks.length
  · rw [split.phisOf_eq inside] at isPhi
    rw [split.instr?_phi terminated inside isPhi] at present
    rw [split.preds b inside, List.length_map]
    exact terminated.arity b phi isPhi instr present
  · have listed : phi ∈ next.iterInstrs b := (List.mem_filter.mp isPhi).1
    have live : (next.block? b).isSome := by
      unfold iterInstrs at listed
      cases found : next.block? b with
      | some block => rfl
      | none => simp [found] at listed
    obtain ⟨p, c, new⟩ := split.fresh b (Nat.not_lt.mp inside) (block?_lt live)
    rw [split.phisOf_new new] at isPhi
    cases isPhi

/-- Finalization only splits edges. -/
theorem finalize_finalized (terminated : Terminated ir) :
    ∃ next, finalize ir = some next ∧ Finalized ir next := by
  obtain ⟨next, via, done, ran, splits, settled⟩ := finalize_settles terminated
  have split : Split ir next via done := { splits with settled }
  refine ⟨next, ran, ?_, ?_, ?_⟩
  · exact fun b exits isExits several => split.apart terminated isExits several
  · exact fun b phi isPhi instr present => split.arity terminated isPhi present
  · intro V M semantics entry init live visits
    constructor
    · rintro ⟨b, state, execution⟩
      obtain ⟨visits', execution', same⟩ := split.forward terminated live execution
      exact ⟨visits', b, state, execution', same⟩
    · rintro ⟨visits', b, state, execution, rfl⟩
      rcases split.backward terminated live execution with ⟨_, execution⟩ | ⟨p, _, _, _, _, execution, _⟩
      · exact ⟨b, state, execution⟩
      · exact ⟨p, state, execution⟩

/-- Both exits of the first block lead to the second one, and that one merges a value. -/
def bothExits : IR :=
  { IR.new with
    consts := [0, 1]
    blocks := [
      some ⟨"entry", fun _ => none, [], ⟨[⟨.void, none, Attribute.NONE, .jne, [.const 0, .block 1, .block 1]⟩],
        [0], by decide, distinct_one⟩, true, []⟩,
      some ⟨"exit", fun _ => none, [0, 0], ⟨[⟨.u16, none, Attribute.NONE, .phi, [.const 0, .const 1]⟩,
        ⟨.void, none, Attribute.NONE, .retNear, []⟩], [0, 1], by decide, distinct_two⟩, true, []⟩] }

theorem bothExits_finalized : ∃ next, finalize bothExits = some next ∧ Finalized bothExits next := by
  have two : ∀ b, (bothExits.block? b).isSome → b = 0 ∨ b = 1 := by
    intro b live
    have bound : b < 2 := block?_lt live
    match b with
    | 0 => exact .inl rfl
    | 1 => exact .inr rfl
  apply finalize_finalized
  constructor
  · intro b live
    rcases two b live with rfl | rfl
    · exact ⟨[1, 1], rfl, by decide⟩
    · exact ⟨[], rfl, by decide⟩
  · intro b exits isExits several
    have live : (bothExits.block? b).isSome := by
      unfold blockExits at isExits
      obtain ⟨block, found, _⟩ := Option.bind_eq_some_iff.mp isExits
      exact Option.isSome_of_mem found
    rcases two b live with rfl | rfl
    · exact ⟨_, _, rfl, rfl, isExits⟩
    · obtain rfl := Option.some.inj isExits
      exact absurd several (by decide)
  · intro b block found none
    rcases two b (Option.isSome_of_mem found) with rfl | rfl
    · obtain rfl := Option.some.inj found
      cases none
    · obtain rfl := Option.some.inj found
      cases none
  · intro b p listed
    have live : (bothExits.block? b).isSome := by
      unfold IR.preds at listed
      cases found : bothExits.block? b with
      | some block => rfl
      | none => simp [found] at listed
    rcases two b live with rfl | rfl
    · cases listed
    · revert p
      decide
  · intro b phi isPhi instr present
    have listed : phi ∈ bothExits.iterInstrs b := (List.mem_filter.mp isPhi).1
    have live : (bothExits.block? b).isSome := by
      unfold iterInstrs at listed
      cases found : bothExits.block? b with
      | some block => rfl
      | none => simp [found] at listed
    rcases two b live with rfl | rfl
    · cases isPhi
    · obtain rfl := List.mem_singleton.mp isPhi
      obtain rfl := Option.some.inj present
      rfl

end Results

end Dis86.Fin
