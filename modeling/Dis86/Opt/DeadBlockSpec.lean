import Dis86.Opt.DeadBlockRepair

namespace Dis86
open Lib Lib.Splice

namespace IR

/-- The instructions of a block, in their order. -/
def code (ir : IR) (b : BlockRef) : List Instr := (ir.iterInstrs b).filterMap ir.instr?

/-- The targets of the branches of a block. -/
def targets (ir : IR) (b : BlockRef) : List BlockRef :=
  (ir.code b).flatMap fun instr => (branchExits instr).getD []

/-- The predecessor lists are the multisets of edges, and each phi has an operand for each
predecessor. -/
structure Consistent (ir : IR) : Prop where
  formed : ∀ b, ∀ instr ∈ ir.code b, (branchExits instr).isSome
  edges : ∀ b c, (ir.targets b).count c = (ir.preds c).count b
  arity : ∀ b, ∀ instr ∈ ir.code b, instr.opcode = .phi →
    instr.operands.length = (ir.preds b).length

theorem mem_code {ir : IR} {b : BlockRef} {instr : Instr} :
    instr ∈ ir.code b ↔ ∃ r ∈ ir.iterInstrs b, ir.instr? r = some instr := by
  simp [code, List.mem_filterMap]

theorem targets_eq (ir : IR) (b : BlockRef) : ir.targets b =
    (ir.iterInstrs b).flatMap fun r => ((ir.instr? r).bind branchExits).getD [] := by
  unfold targets code
  induction ir.iterInstrs b with
  | nil => rfl
  | cons r rest hypothesis =>
      rw [List.filterMap_cons, List.flatMap_cons, ← hypothesis]
      cases ir.instr? r <;> rfl

/-- An edge leads from a block that exists to a block that exists. -/
theorem Consistent.target_present {ir : IR} (consistent : ir.Consistent) {b c : BlockRef}
    (edge : c ∈ ir.targets b) : ∃ block, ir.block? c = some block ∧ b ∈ block.preds := by
  have count : 0 < (ir.preds c).count b := by
    rw [← consistent.edges]
    exact List.count_pos_iff.mpr edge
  have listed := List.count_pos_iff.mp count
  unfold preds at listed
  cases found : ir.block? c with
  | none => simp [found] at listed
  | some block => exact ⟨block, rfl, by simpa [found] using listed⟩

theorem lastEffective_mem {ir : IR} {b : BlockRef} {block : Block} {instr : Instr}
    (found : ir.block? b = some block) (last : lastEffective block = some instr) :
    instr ∈ ir.code b := by
  obtain ⟨idx, inside, found_instr⟩ := List.exists_of_findSome?_eq_some last
  obtain ⟨lookup, _⟩ := Option.filter_eq_some_iff.mp found_instr
  refine mem_code.mpr ⟨.instr b idx, ?_, ?_⟩
  · simp only [iterInstrs, found, List.mem_map]
    exact ⟨idx, List.mem_reverse.mp inside, rfl⟩
  · simpa [instr?, found] using lookup

/-- The exits of a block are among its branch targets. -/
theorem Consistent.blockExits_some {ir : IR} (consistent : ir.Consistent) {b : BlockRef}
    {block : Block} (found : ir.block? b = some block) :
    ∃ exits, ir.blockExits b = some exits ∧ ∀ c ∈ exits, c ∈ ir.targets b := by
  simp only [blockExits, found, Option.bind_eq_bind, Option.bind_some]
  cases last : lastEffective block with
  | none => exact ⟨[], rfl, by simp⟩
  | some instr =>
      have inside := lastEffective_mem found last
      obtain ⟨exits, formed⟩ := Option.isSome_iff_exists.mp (consistent.formed b instr inside)
      refine ⟨exits, formed, fun c member => ?_⟩
      exact List.mem_flatMap.mpr ⟨instr, inside, by rwa [formed]⟩

/-- The last instruction that is not erased is looked for from the end of the code. -/
theorem lastEffective_eq {ir : IR} {b : BlockRef} {block : Block} (found : ir.block? b = some block) :
    lastEffective block = (ir.code b).reverse.find? fun instr => instr.opcode ≠ .nop := by
  have lookup : ir.code b = block.data.order.filterMap block.data.lookup := by
    simp only [code, iterInstrs, found, List.filterMap_map]
    congr 1
    funext idx
    simp [instr?, found]
  rw [lookup, ← List.filterMap_reverse, lastEffective]
  induction block.data.order.reverse with
  | nil => rfl
  | cons idx rest hypothesis =>
      rw [List.findSome?_cons, List.filterMap_cons, hypothesis]
      cases block.data.lookup idx with
      | none => rfl
      | some instr =>
          rw [Option.filter_some, List.find?_cons]
          by_cases erased : instr.opcode = .nop
          · simp only [erased, ne_eq, not_true_eq_false, decide_false, Bool.false_eq_true, if_false]
          · simp only [erased, ne_eq, not_false_eq_true, decide_true, if_true]

/-- Where a block branches at its end only, its targets are its exits. -/
theorem blockExits_eq_targets {ir : IR} {b : BlockRef} {block : Block} {body nops : List Instr}
    {last : Instr} {exits : List BlockRef} (found : ir.block? b = some block)
    (code : ir.code b = body ++ last :: nops)
    (plain : ∀ instr ∈ body, branchExits instr = some []) (live : last.opcode ≠ .nop)
    (erased : ∀ instr ∈ nops, instr.opcode = .nop) (formed : branchExits last = some exits) :
    ir.blockExits b = some exits ∧ ir.targets b = exits := by
  constructor
  · have tail : nops.reverse.find? (fun instr => decide (instr.opcode ≠ .nop)) = none := by
      rw [List.find?_eq_none]
      intro instr inside
      simpa using erased instr (List.mem_reverse.mp inside)
    have final : lastEffective block = some last := by
      rw [lastEffective_eq found, code, List.reverse_append, List.reverse_cons, List.append_assoc,
        List.find?_append, tail]
      simp [live]
    simp only [blockExits, found, Option.bind_eq_bind, Option.bind_some, final, formed]
  · have none : ∀ instr ∈ nops, branchExits instr = some [] := fun instr inside => by
      simp [branchExits, erased instr inside]
    have before : (body.flatMap fun instr => (branchExits instr).getD []) = [] :=
      List.flatMap_eq_nil_iff.mpr fun instr inside => by rw [plain instr inside]; rfl
    have after : (nops.flatMap fun instr => (branchExits instr).getD []) = [] :=
      List.flatMap_eq_nil_iff.mpr fun instr inside => by rw [none instr inside]; rfl
    rw [targets, code, List.flatMap_append, List.flatMap_cons, before, after, formed]
    simp

theorem block?_setBlock {ir : IR} {b : BlockRef} {old : Block} (found : ir.block? b = some old)
    (block : Block) (c : BlockRef) :
    (ir.setBlock b block).block? c = if c = b then some block else ir.block? c := by
  have inside : b < ir.blocks.length := block?_lt (by rw [found]; rfl)
  simp only [block?, setBlock, List.getD_eq_getElem?_getD, List.getElem?_set]
  by_cases same : c = b
  · subst same
    simp [inside]
  · simp [same, Ne.symm same]

theorem setBlock_self {ir : IR} {b : BlockRef} {block : Block} (found : ir.block? b = some block) :
    ir.setBlock b block = ir := by
  have inside : b < ir.blocks.length := block?_lt (by rw [found]; rfl)
  have here : ir.blocks[b] = some block := by
    rwa [block?, List.getD_eq_getElem?_getD, List.getElem?_eq_getElem inside,
      Option.getD_some] at found
  rw [setBlock, ← here, List.set_getElem_self]

theorem setBlock_setBlock (ir : IR) (b : BlockRef) (first second : Block) :
    (ir.setBlock b first).setBlock b second = ir.setBlock b second := by
  simp [setBlock]

theorem setBlock_comm (ir : IR) {b c : BlockRef} (different : b ≠ c) (first second : Block) :
    (ir.setBlock b first).setBlock c second = (ir.setBlock c second).setBlock b first := by
  simp only [setBlock]
  rw [List.set_comm _ _ different]

end IR

namespace Opt

/-- The edges of a block that a repair takes away: each exit once, with the positions of the block
among its predecessors. -/
structure ExitEdges (ir : IR) (b : BlockRef) (exits : List (BlockRef × List Nat)) : Prop where
  distinct : (exits.map Prod.fst).Nodup
  positions : ∀ entry ∈ exits, ∃ block, ir.block? entry.1 = some block ∧
    entry.2 = predIdxs b block.preds

theorem predIdxs_eq_nil {b : BlockRef} {preds : List BlockRef} :
    predIdxs b preds = [] ↔ b ∉ preds := by
  simp only [predIdxs, List.eq_nil_iff_forall_not_mem, mem_positions, not_exists, not_and]
  constructor
  · intro none inside
    obtain ⟨i, here⟩ := List.mem_iff_getElem?.mp inside
    exact none i b here (decide_eq_true rfl)
  · rintro away i pred here same
    obtain rfl := of_decide_eq_true same
    exact away (List.mem_of_getElem? here)

/-- Each exit that knows the block gets one entry. -/
theorem exitRepairs_edges {ir : IR} {b : BlockRef} {rest : List BlockRef}
    {exits : List (BlockRef × List Nat)} (present : ∀ c ∈ rest, (ir.block? c).isSome)
    (edges : ExitEdges ir b exits) :
    ∃ exits', exitRepairs ir b rest exits = some exits' ∧ ExitEdges ir b exits' ∧
      ∀ c, c ∈ exits'.map Prod.fst ↔ c ∈ exits.map Prod.fst ∨ c ∈ rest ∧ b ∈ ir.preds c := by
  induction rest generalizing exits with
  | nil => exact ⟨exits, rfl, edges, by simp⟩
  | cons exit rest hypothesis =>
      have later : ∀ c ∈ rest, (ir.block? c).isSome := fun c member =>
        present c (List.mem_cons_of_mem exit member)
      obtain ⟨block, found⟩ := Option.isSome_iff_exists.mp (present exit List.mem_cons_self)
      have inside : exit < ir.blocks.length := IR.block?_lt (by rw [found]; rfl)
      have preds : ir.preds exit = block.preds := by simp [IR.preds, found]
      simp only [exitRepairs, inside, guard_true, found, Option.bind_eq_bind, Option.pure_def,
        Option.bind_some]
      split
      · rename_i old
        have old : exit ∈ exits.map Prod.fst := by simpa using old
        obtain ⟨exits', ran, edges', named⟩ := hypothesis later edges
        refine ⟨exits', ran, edges', fun c => ?_⟩
        rw [named, List.mem_cons]
        by_cases same : c = exit
        · subst same
          simp [old]
        · simp [same]
      · rename_i fresh
        split
        · rename_i none
          have away : b ∉ ir.preds exit := by rwa [preds, ← predIdxs_eq_nil]
          obtain ⟨exits', ran, edges', named⟩ := hypothesis later edges
          refine ⟨exits', ran, edges', fun c => ?_⟩
          rw [named, List.mem_cons]
          by_cases same : c = exit
          · subst same
            simp [away]
          · simp [same]
        · rename_i some
          have knows : b ∈ ir.preds exit := by
            rw [preds]
            by_contra away
            exact some (predIdxs_eq_nil.mpr away)
          have more : ExitEdges ir b (exits ++ [(exit, predIdxs b block.preds)]) := by
            refine ⟨?_, fun entry member => ?_⟩
            · rw [List.map_append, List.nodup_append]
              refine ⟨edges.distinct, by simp, ?_⟩
              rintro c member _ same rfl
              obtain ⟨entry, inside_exits, rfl⟩ := List.mem_map.mp member
              refine fresh (List.any_eq_true.mpr ⟨entry, inside_exits, ?_⟩)
              simpa using same
            · rcases List.mem_append.mp member with member | member
              · exact edges.positions entry member
              · obtain rfl := List.mem_singleton.mp member
                exact ⟨block, found, rfl⟩
          obtain ⟨exits', ran, edges', named⟩ := hypothesis later more
          refine ⟨exits', ran, edges', fun c => ?_⟩
          rw [named, List.mem_cons, List.map_append, List.mem_append, List.map_singleton,
            List.mem_singleton]
          by_cases same : c = exit
          · subst same
            simp [knows]
          · simp [same]

theorem predIdxs_lt {b : BlockRef} {preds : List BlockRef} :
    ∀ idx ∈ predIdxs b preds, idx < preds.length := by
  intro idx member
  obtain ⟨pred, here, _⟩ := mem_positions.mp member
  exact (List.getElem?_eq_some_iff.mp here).1

/-- The restoration of other exits does not see the block. -/
theorem restoreExits_setBlock (b : BlockRef) {c : BlockRef} {old block : Block}
    (exits : List ((BlockRef × List Nat) × List Removed)) {ir : IR}
    (found : ir.block? c = some old) (other : ∀ entry ∈ exits, entry.1.1 ≠ c) :
    restoreExits b exits (ir.setBlock c block) =
      (restoreExits b exits ir).map (fun ir => ir.setBlock c block) := by
  induction exits generalizing ir with
  | nil => rfl
  | cons entry exits hypothesis =>
      obtain ⟨⟨exit, idxs⟩, removed⟩ := entry
      have different : exit ≠ c := other _ List.mem_cons_self
      have later := fun entry member => other entry (List.mem_cons_of_mem _ member)
      simp only [restoreExits, IR.block?_setBlock found, if_neg different, Option.bind_eq_bind]
      cases here : ir.block? exit with
      | none => rfl
      | some block₁ =>
          simp only [Option.bind_some]
          cases restoreExit b idxs removed block₁ with
          | none => rfl
          | some block₂ =>
              simp only [Option.bind_some]
              rw [IR.setBlock_comm ir (Ne.symm different)]
              refine hypothesis ?_ later
              rw [IR.block?_setBlock here, if_neg (Ne.symm different), found]

/-- The function after the repair of its exits. -/
structure AllRepaired (ir : IR) (b : BlockRef) (exits : List (BlockRef × List Nat))
    (repaired : IR) : Prop where
  frame : repaired = { ir with blocks := repaired.blocks }
  length : repaired.blocks.length = ir.blocks.length
  others : ∀ c, c ∉ exits.map Prod.fst → repaired.block? c = ir.block? c
  exits : ∀ entry ∈ exits, ∃ block block' removed, ir.block? entry.1 = some block ∧
    repaired.block? entry.1 = some block' ∧ Repaired (predIdxs b block.preds) block block' removed

theorem repairExits_repaired {ir : IR} {b : BlockRef} {exits : List (BlockRef × List Nat)}
    (edges : ExitEdges ir b exits) :
    ∃ repaired removed, repairExits exits ir = some (repaired, removed) ∧
      AllRepaired ir b exits repaired ∧
      restoreExits b (exits.zip removed) repaired = some ir := by
  induction exits generalizing ir with
  | nil => exact ⟨ir, [], rfl, ⟨rfl, rfl, fun _ _ => rfl, by simp⟩, rfl⟩
  | cons entry exits hypothesis =>
      obtain ⟨exit, idxs⟩ := entry
      obtain ⟨block, found, same⟩ := edges.positions _ List.mem_cons_self
      obtain rfl : idxs = predIdxs b block.preds := same
      obtain ⟨block', removed, ran, fixed⟩ : ∃ block' removed,
          repairExit (predIdxs b block.preds) block = some (block', removed) ∧
            Repaired (predIdxs b block.preds) block block' removed :=
        repairExit_repaired (positions_descending _ _) predIdxs_lt
      have nodup := edges.distinct
      rw [List.map_cons, List.nodup_cons] at nodup
      have distinct : ∀ entry ∈ exits, entry.1 ≠ exit := fun entry member same =>
        nodup.1 (List.mem_map.mpr ⟨entry, member, same⟩)
      have later : ExitEdges (ir.setBlock exit block') b exits := by
        refine ⟨nodup.2, fun entry member => ?_⟩
        rw [IR.block?_setBlock found, if_neg (distinct entry member)]
        exact edges.positions entry (List.mem_cons_of_mem _ member)
      obtain ⟨repaired, rest, ran', all, restored⟩ := hypothesis later
      have here : repaired.block? exit = some block' := by
        rw [all.others exit nodup.1, IR.block?_setBlock found, if_pos rfl]
      refine ⟨repaired, removed :: rest, ?_, ⟨?_, ?_, fun c other => ?_, fun entry member => ?_⟩, ?_⟩
      · simp only [repairExits, found, ran, ran', Option.bind_eq_bind, Option.pure_def,
          Option.bind_some]
      · rw [all.frame]
        rfl
      · rw [all.length]
        simp [IR.setBlock]
      · rw [List.map_cons, List.mem_cons, not_or] at other
        rw [all.others c other.2, IR.block?_setBlock found, if_neg other.1]
      · rcases List.mem_cons.mp member with rfl | member
        · exact ⟨block, block', removed, found, here, fixed⟩
        · obtain ⟨old, new, taken, found', here', fixed'⟩ := all.exits entry member
          rw [IR.block?_setBlock found, if_neg (distinct entry member)] at found'
          exact ⟨old, new, taken, found', here', fixed'⟩
      · simp only [List.zip_cons_cons, restoreExits, here, restoreExit_repairExit fixed,
          Option.bind_eq_bind, Option.bind_some]
        rw [restoreExits_setBlock b _ here fun entry member => ?_, restored]
        · rw [Option.map_some, IR.setBlock_setBlock, IR.setBlock_self found]
        · exact distinct entry.1 (List.of_mem_zip member).1

end Opt

end Dis86
