import Dis86.Opt.DeadBlockCut

namespace Dis86.Opt
open Lib Lib.Splice

theorem block?_modifyBlocks (ir : IR) (f : Block → Block) (c : BlockRef) :
    (ir.modifyBlocks f).block? c = (ir.block? c).map f := by
  simp only [IR.block?, IR.modifyBlocks, List.getD_eq_getElem?_getD, List.getElem?_map]
  cases ir.blocks[c]? <;> rfl

theorem instr?_modifyBlocks (ir : IR) (f : Block → Block) (same : ∀ block, (f block).data = block.data)
    (r : Ref) : (ir.modifyBlocks f).instr? r = ir.instr? r := by
  cases r with
  | instr c idx =>
      simp only [IR.instr?, block?_modifyBlocks]
      cases ir.block? c <;> simp [same]
  | _ => rfl

theorem block?_blockRemove {ir after : IR} {b : BlockRef} (removed : ir.blockRemove b = some after)
    (c : BlockRef) : after.block? c = if c = b then none else ir.block? c := by
  simp only [IR.blockRemove, Option.bind_eq_bind, Option.bind_eq_some_iff, Option.pure_def,
    Option.some.injEq] at removed
  obtain ⟨block, found, rfl⟩ := removed
  have inside : b < ir.blocks.length := IR.block?_lt (by rw [found]; rfl)
  simp only [IR.block?, List.getD_eq_getElem?_getD, List.getElem?_set]
  by_cases same : c = b
  · subst same
    simp [inside]
  · simp [same, Ne.symm same]

theorem eraseConsumers_cons (ir : IR) (r : Ref) (consumers : List Ref) :
    eraseConsumers ir (r :: consumers) = eraseConsumers (ir.modifyInstr r makeNop) consumers := rfl

/-- An erasure touches the instructions of a block only. -/
theorem eraseConsumers_block {ir : IR} {c : BlockRef} {block : Block} (consumers : List Ref)
    (found : ir.block? c = some block) :
    ∃ data, (eraseConsumers ir consumers).block? c = some { block with data } ∧
      data.order = block.data.order := by
  induction consumers generalizing ir block with
  | nil => exact ⟨block.data, found, rfl⟩
  | cons r consumers hypothesis =>
      rw [eraseConsumers_cons]
      have step : ∃ data, (ir.modifyInstr r makeNop).block? c = some { block with data } ∧
          data.order = block.data.order := by
        cases r with
        | instr home idx =>
            by_cases same : c = home
            · subst same
              exact ⟨block.data.modify idx makeNop, by simp [IR.modifyInstr, found], rfl⟩
            · refine ⟨block.data, ?_, rfl⟩
              rw [IR.modifyInstr, IR.block?_modifyBlock, if_neg same, found]
        | _ => exact ⟨block.data, found, rfl⟩
      obtain ⟨data, here, order⟩ := step
      obtain ⟨data', there, order'⟩ := hypothesis here
      exact ⟨data', there, order'.trans order⟩

theorem eraseConsumers_shape (ir : IR) (consumers : List Ref) :
    IR.SameShape ir (eraseConsumers ir consumers) := by
  induction consumers generalizing ir with
  | nil => exact .refl ir
  | cons r consumers hypothesis =>
      exact (IR.SameShape.modifyInstr ir r makeNop).trans (hypothesis _)

theorem eraseConsumers_frame (ir : IR) (consumers : List Ref) :
    eraseConsumers ir consumers = { ir with blocks := (eraseConsumers ir consumers).blocks } := by
  induction consumers generalizing ir with
  | nil => rfl
  | cons r consumers hypothesis =>
      rw [eraseConsumers_cons, hypothesis]
      cases r <;> rfl

theorem instr?_eraseConsumers (ir : IR) (consumers : List Ref) (r : Ref) :
    (eraseConsumers ir consumers).instr? r =
      if r ∈ consumers then (ir.instr? r).map makeNop else ir.instr? r := by
  induction consumers generalizing ir with
  | nil => simp [eraseConsumers]
  | cons s consumers hypothesis =>
      rw [eraseConsumers_cons, hypothesis, IR.instr?_modifyInstr]
      by_cases same : r = s
      · subst same
        cases ir.instr? r <;> simp [makeNop]
      · simp [same]

/-- What the removal of a block leaves of the others. -/
structure Removal (ir : IR) (b : BlockRef) (after : IR) : Prop where
  frame : after = { ir with blocks := after.blocks }
  length : after.blocks.length = ir.blocks.length
  gone : after.block? b = none
  missing : ∀ c, ir.block? c = none → after.block? c = none
  block : ∀ c block, c ≠ b → ir.block? c = some block → ∃ data, after.block? c = some
    { block with
      preds := block.preds.filter (· ≠ b)
      defs := fun name => (block.defs name).filter fun r => !r.mentionsBlock b
      incompletePhis := block.incompletePhis.filter fun entry => !entry.2.mentionsBlock b
      data } ∧ data.order = block.data.order
  erased : ∀ c, c ≠ b → ∀ r ∈ ir.iterInstrs c, Depends ir b r →
    after.instr? r = (ir.instr? r).map makeNop
  others : ∀ c, c ≠ b → ∀ r ∈ ir.iterInstrs c, ¬ Depends ir b r →
    after.instr? r = (ir.instr? r).map (withoutOperands (predIdxs b (ir.preds c)))

/-- The removal at the end of a visit. -/
def dismiss (repaired : IR) (b : BlockRef) (consumers : List Ref) : Option IR :=
  (((eraseConsumers repaired consumers).dropDefsIntoBlock b).dropIncompletePhisIntoBlock b).blockRemove b

theorem home_ne {ir : IR} {b c : BlockRef} {r : Ref} (listed : r ∈ ir.iterInstrs c) (other : c ≠ b) :
    ∃ idx, r = .instr c idx ∧ c ≠ b := by
  simp only [IR.iterInstrs] at listed
  split at listed
  · obtain ⟨idx, _, rfl⟩ := List.mem_map.mp listed
    exact ⟨idx, rfl, other⟩
  · cases listed

theorem dismiss_removal {ir repaired : IR} {b : BlockRef} {block : Block} {consumers : List Ref}
    (cut : Cut ir b repaired) (found : ir.block? b = some block)
    (complete : ∀ r, r ∈ consumers ↔ Depends ir b r) :
    ∃ after, dismiss repaired b consumers = some after ∧ Removal ir b after := by
  obtain ⟨data, here, order⟩ := cut.block b block found
  obtain ⟨data', there, _⟩ := eraseConsumers_block consumers here
  have shape := eraseConsumers_shape repaired consumers
  have ran : ∃ after, dismiss repaired b consumers = some after := by
    simp [dismiss, IR.blockRemove, IR.dropDefsIntoBlock, IR.dropIncompletePhisIntoBlock,
      block?_modifyBlocks, there]
  obtain ⟨after, ran⟩ := ran
  have blocks := block?_blockRemove ran
  simp only [IR.dropDefsIntoBlock, IR.dropIncompletePhisIntoBlock, block?_modifyBlocks] at blocks
  have instrs : ∀ c, c ≠ b → ∀ r ∈ ir.iterInstrs c, after.instr? r =
      (eraseConsumers repaired consumers).instr? r := by
    intro c other r listed
    obtain ⟨idx, rfl, _⟩ := home_ne listed other
    simp only [IR.instr?, blocks c, if_neg other]
    cases (eraseConsumers repaired consumers).block? c <;> rfl
  have rest : after.blocks.length = (eraseConsumers repaired consumers).blocks.length ∧
      after = { eraseConsumers repaired consumers with blocks := after.blocks } := by
    simp only [dismiss, IR.blockRemove, Option.bind_eq_bind, Option.bind_eq_some_iff,
      Option.pure_def, Option.some.injEq] at ran
    obtain ⟨_, _, rfl⟩ := ran
    simp [IR.dropDefsIntoBlock, IR.dropIncompletePhisIntoBlock, IR.modifyBlocks]
  refine ⟨after, ran, ?_, ?_, ?_, ?_, ?_, ?_, ?_⟩
  · rw [rest.2, eraseConsumers_frame, cut.frame]
  · rw [rest.1, shape.length, cut.length]
  · rw [blocks, if_pos rfl]
  · intro c missing
    rw [blocks]
    have none : (eraseConsumers repaired consumers).block? c = none := by
      have := shape.live c
      rw [cut.missing c missing] at this
      simpa using this
    simp [none]
  · intro c block other found
    obtain ⟨data, here, order⟩ := cut.block c block found
    obtain ⟨data', there, order'⟩ := eraseConsumers_block consumers here
    refine ⟨data', ?_, order'.trans order⟩
    rw [blocks, if_neg other, there]
    rfl
  · intro c other r listed depends
    rw [instrs c other r listed, instr?_eraseConsumers, if_pos ((complete r).mpr depends),
      cut.instr c r listed, Option.map_map]
    congr 1
    funext instr
    unfold withoutOperands
    simp only [Function.comp]
    split <;> rfl
  · intro c other r listed independent
    rw [instrs c other r listed, instr?_eraseConsumers,
      if_neg fun member => independent ((complete r).mp member), cut.instr c r listed]

/-- The removal meets the contract that the source asserts. -/
theorem dismiss_contract {ir repaired finished : IR} {b : BlockRef} {consumers : List Ref}
    (cut : Cut ir b repaired) (complete : ∀ r, r ∈ consumers ↔ Depends ir b r)
    (cleaned : finished = ((eraseConsumers repaired consumers).dropDefsIntoBlock
      b).dropIncompletePhisIntoBlock b) : finished.RemovalContract b := by
  have blocks : ∀ c block', finished.block? c = some block' → ∃ block data,
      ir.block? c = some block ∧ data.order = block.data.order ∧ block' = { block with
        preds := block.preds.filter (· ≠ b)
        defs := fun name => (block.defs name).filter fun r => !r.mentionsBlock b
        incompletePhis := block.incompletePhis.filter fun entry => !entry.2.mentionsBlock b
        data } := by
    intro c block' here
    simp only [cleaned, IR.dropDefsIntoBlock, IR.dropIncompletePhisIntoBlock,
      block?_modifyBlocks] at here
    cases found : ir.block? c with
    | none =>
        have missing := (eraseConsumers_shape repaired consumers).live c
        rw [cut.missing c found] at missing
        simp_all
    | some block =>
        obtain ⟨data, there, order⟩ := cut.block c block found
        obtain ⟨data', erased, order'⟩ := eraseConsumers_block consumers there
        rw [erased] at here
        obtain rfl := Option.some.inj here
        exact ⟨block, data', rfl, order'.trans order, rfl⟩
  have instrs : ∀ r, finished.instr? r = (eraseConsumers repaired consumers).instr? r := by
    intro r
    rw [cleaned]
    refine (instr?_modifyBlocks _ _ ?_ r).trans (instr?_modifyBlocks _ _ ?_ r)
    · exact fun _ => rfl
    · exact fun _ => rfl
  refine ⟨?_, ?_, ?_, ?_⟩
  · refine List.eq_nil_iff_forall_not_mem.mpr fun r inside => ?_
    obtain ⟨c, instr', other, listed, found, live, o, operand, mentions⟩ := mem_usersOutside.mp inside
    have listed' : r ∈ repaired.iterInstrs c := by
      rw [cut.order]
      cases here : finished.block? c with
      | none => simp [IR.iterInstrs, here] at listed
      | some block' =>
          obtain ⟨block, data, there, order, rfl⟩ := blocks c block' here
          simpa [IR.iterInstrs, here, there, order] using listed
    rw [instrs, instr?_eraseConsumers] at found
    split at found
    · obtain ⟨_, _, rfl⟩ := Option.map_eq_some_iff.mp found
      exact live rfl
    · rename_i kept
      obtain ⟨o, reads, mentions⟩ := cut.users.mp
        (mem_usersOutside.mpr ⟨c, instr', other, listed', found, live, o, operand, mentions⟩)
      exact kept ((complete r).mpr (.direct reads mentions))
  · intro c block' name r here found
    obtain ⟨block, data, _, _, rfl⟩ := blocks c block' here
    simpa using (Option.filter_eq_some_iff.mp found).2
  · intro c inside
    cases here : finished.block? c with
    | none => simp [IR.preds, here] at inside
    | some block' =>
        obtain ⟨block, data, _, _, rfl⟩ := blocks c block' here
        simp [IR.preds, here] at inside
  · intro c entry inside
    cases here : finished.block? c with
    | none => simp [IR.incompletePhis, here] at inside
    | some block' =>
        obtain ⟨block, data, _, _, rfl⟩ := blocks c block' here
        simp only [IR.incompletePhis, here, Option.map_some, Option.getD_some] at inside
        simpa using (List.mem_filter.mp inside).2

/-- A block goes when nothing leads to it, its last branch is its only one, and no dependent has to
stay. -/
structure Dies (ir : IR) (b : BlockRef) : Prop where
  inner : b ≠ 0
  unreached : ir.preds b = []
  exits : ∀ exits, ir.blockExits b = some exits → ∀ c ∈ ir.targets b, c ∈ exits
  dependents : ∀ r, Depends ir b r → Erasable ir r

section Visit

variable {ir repaired : IR} {b : BlockRef} {exits : List BlockRef} {edges : List (BlockRef × List Nat)}

theorem mem_targets (consistent : ir.Consistent) {c : BlockRef} :
    c ∈ ir.targets b ↔ b ∈ ir.preds c := by
  rw [← List.count_pos_iff, consistent.edges, List.count_pos_iff]

/-- After the repair no edge is left exactly when every branch target was an exit. -/
theorem AllRepaired.gone_iff (consistent : ir.Consistent) (all : AllRepaired ir b edges repaired)
    (named : ∀ c, c ∈ edges.map Prod.fst ↔ c ∈ exits ∧ b ∈ ir.preds c) :
    (∀ c, b ∉ repaired.preds c) ↔ ∀ c ∈ ir.targets b, c ∈ exits := by
  constructor
  · intro gone c target
    by_contra missed
    have other : c ∉ edges.map Prod.fst := fun member => missed ((named c).mp member).1
    apply gone c
    rw [IR.preds, all.others c other]
    exact (mem_targets consistent).mp target
  · intro covered c inside
    by_cases exit : c ∈ edges.map Prod.fst
    · obtain ⟨entry, member, rfl⟩ := List.mem_map.mp exit
      obtain ⟨block, block', removed, _, here, fixed⟩ := all.exits entry member
      have kept : block'.preds = block.preds.filter (· ≠ b) := by
        rw [fixed.frame]
        simpa [predIdxs] using dropAt_positions (fun pred => decide (pred = b)) block.preds
      simp [IR.preds, here, kept] at inside
    · rw [IR.preds, all.others c exit] at inside
      exact exit ((named c).mpr ⟨covered c ((mem_targets consistent).mpr inside), inside⟩)

theorem stillPred_iff : (repaired.iterBlocks.any fun c => (repaired.preds c).contains b) = false ↔
    ∀ c, b ∉ repaired.preds c := by
  rw [List.any_eq_false]
  constructor
  · intro none c inside
    refine none c (IR.mem_iterBlocks.mpr ?_) (List.contains_iff_mem.mpr inside)
    unfold IR.preds at inside
    cases found : repaired.block? c with
    | none => simp [found] at inside
    | some block => rfl
  · intro gone c _ inside
    exact gone c (List.contains_iff_mem.mp inside)

theorem deadblockVisit_spec (consistent : ir.Consistent) {block : Block}
    (found : ir.block? b = some block) :
    Dies ir b ∧ (∃ after, deadblockVisit ir b = some after ∧ Removal ir b after) ∨
      ¬ Dies ir b ∧ deadblockVisit ir b = some ir := by
  have preds : ir.preds b = block.preds := by simp [IR.preds, found]
  by_cases entry : b = 0
  · refine .inr ⟨fun dies => dies.inner entry, ?_⟩
    simp only [deadblockVisit, found, Option.bind_eq_bind, Option.bind_some, if_pos entry,
      Option.pure_def]
  by_cases reached : block.preds.length > 0
  · refine .inr ⟨fun dies => ?_, ?_⟩
    · rw [← preds, dies.unreached] at reached
      simp at reached
    · simp only [deadblockVisit, found, Option.bind_eq_bind, Option.bind_some, if_neg entry,
        if_pos reached, Option.pure_def]
  have unreached : ir.preds b = [] := by
    rw [preds]
    exact List.length_eq_zero_iff.mp (by omega)
  obtain ⟨exits, exits_eq, inside⟩ := consistent.blockExits_some found
  have present : ∀ c ∈ exits, (ir.block? c).isSome := fun c member => by
    obtain ⟨other, there, _⟩ := consistent.target_present (inside c member)
    rw [there]
    rfl
  obtain ⟨edges, edges_eq, positions, named⟩ :=
    exitRepairs_edges present (⟨.nil, by simp⟩ : ExitEdges ir b [])
  obtain ⟨repaired, removed, repaired_eq, all, restored⟩ := repairExits_repaired positions
  have gone_iff := @AllRepaired.gone_iff ir repaired b exits edges consistent all (by simpa using named)
  -- Past the guards the visit dismisses the block, or it puts its exits back.
  have dismissed {consumers} (ended : sweep repaired b = some (some consumers))
      (alone : (repaired.iterBlocks.any fun c => (repaired.preds c).contains b) = false) :
      deadblockVisit ir b = dismiss repaired b consumers := by
    simp only [deadblockVisit, found, Option.bind_eq_bind, Option.bind_some, if_neg entry,
      if_neg reached, exits_eq, edges_eq, repaired_eq, ended, alone]
    rfl
  have kept {consumers} (ended : sweep repaired b = some consumers)
      (stays : consumers = none ∨ (repaired.iterBlocks.any fun c => (repaired.preds c).contains b) = true) :
      deadblockVisit ir b = restoreExits b (edges.zip removed) repaired := by
    simp only [deadblockVisit, found, Option.bind_eq_bind, Option.bind_some, if_neg entry,
      if_neg reached, exits_eq, edges_eq, repaired_eq, ended]
    rcases stays with rfl | still
    · rfl
    · rw [still]
      cases consumers <;> rfl
  by_cases gone : ∀ c, b ∉ repaired.preds c
  · have cut := all.cut gone
    rcases cut.sweep with ⟨⟨r, depends, stays⟩, ended⟩ | ⟨erasable, consumers, ended, complete⟩
    · refine .inr ⟨fun dies => stays (dies.dependents r depends), ?_⟩
      rw [kept ended (.inl rfl)]
      exact restored
    · refine .inl ⟨⟨entry, unreached, fun other same => ?_, erasable⟩, ?_⟩
      · rw [exits_eq] at same
        obtain rfl := Option.some.inj same
        exact gone_iff.mp gone
      · rw [dismissed ended (stillPred_iff.mpr gone)]
        exact dismiss_removal cut found complete
  · refine .inr ⟨fun dies => gone (gone_iff.mpr (dies.exits exits exits_eq)), ?_⟩
    obtain ⟨consumers, ended⟩ := sweep_ends repaired b
    have still : (repaired.iterBlocks.any fun c => (repaired.preds c).contains b) = true := by
      rw [← Bool.not_eq_false, stillPred_iff]
      exact gone
    rw [kept ended (.inr still)]
    exact restored

end Visit

end Dis86.Opt
