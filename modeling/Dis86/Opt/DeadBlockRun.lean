import Dis86.Lib.Trace
import Dis86.Opt.DeadBlockVisit

namespace Dis86.Opt
open Lib Lib.Splice

/-- Nothing refers to a block that is gone. -/
structure Unreferenced (ir : IR) (b : BlockRef) : Prop where
  operands : ∀ c, ∀ instr ∈ ir.code c, instr.opcode ≠ .nop →
    ∀ o ∈ instr.operands, o.mentionsBlock b = false
  preds : ∀ c, b ∉ ir.preds c
  defs : ∀ c block, ir.block? c = some block → ∀ name r, block.defs name = some r →
    r.mentionsBlock b = false
  pending : ∀ c block, ir.block? c = some block → ∀ entry ∈ block.incompletePhis,
    entry.2.mentionsBlock b = false

/-- An erased instruction has no operands. -/
def NopsBare (ir : IR) : Prop := ∀ b, ∀ instr ∈ ir.code b, instr.opcode = .nop → instr.operands = []

namespace Removal

variable {ir after : IR} {b : BlockRef}

theorem order (removal : Removal ir b after) {c : BlockRef} (other : c ≠ b) :
    after.iterInstrs c = ir.iterInstrs c := by
  cases found : ir.block? c with
  | none => simp [IR.iterInstrs, removal.missing c found, found]
  | some block =>
      obtain ⟨data, here, order⟩ := removal.block c block other found
      simp [IR.iterInstrs, here, found, order]

theorem preds (removal : Removal ir b after) {c : BlockRef} (other : c ≠ b) :
    after.preds c = (ir.preds c).filter (· ≠ b) := by
  cases found : ir.block? c with
  | none => simp [IR.preds, removal.missing c found, found]
  | some block =>
      obtain ⟨data, here, order⟩ := removal.block c block other found
      simp [IR.preds, here, found]

theorem code_gone (removal : Removal ir b after) : after.code b = [] := by
  simp [IR.code, IR.iterInstrs, removal.gone]

theorem preds_gone (removal : Removal ir b after) : after.preds b = [] := by
  simp [IR.preds, removal.gone]

/-- An instruction that is left was erased or lost the operands of the edges. -/
theorem code_cases (removal : Removal ir b after) {c : BlockRef} {instr' : Instr}
    (inside : instr' ∈ after.code c) : c ≠ b ∧ ∃ r ∈ ir.iterInstrs c, ∃ instr,
      ir.instr? r = some instr ∧ (Depends ir b r ∧ instr' = makeNop instr ∨
        ¬ Depends ir b r ∧ instr' = withoutOperands (predIdxs b (ir.preds c)) instr) := by
  have other : c ≠ b := by
    rintro rfl
    rw [removal.code_gone] at inside
    cases inside
  obtain ⟨r, listed, found⟩ := IR.mem_code.mp inside
  rw [removal.order other] at listed
  refine ⟨other, r, listed, ?_⟩
  by_cases depends : Depends ir b r
  · rw [removal.erased c other r listed depends, Option.map_eq_some_iff] at found
    obtain ⟨instr, found, rfl⟩ := found
    exact ⟨instr, found, .inl ⟨depends, rfl⟩⟩
  · rw [removal.others c other r listed depends, Option.map_eq_some_iff] at found
    obtain ⟨instr, found, rfl⟩ := found
    exact ⟨instr, found, .inr ⟨depends, rfl⟩⟩

end Removal

theorem branchExits_withoutOperands (idxs : List Nat) (instr : Instr) :
    IR.branchExits (withoutOperands idxs instr) = IR.branchExits instr := by
  unfold withoutOperands
  split
  · rename_i isPhi
    simp [IR.branchExits, isPhi]
  · rfl

theorem branchExits_erasable {instr : Instr} (erasable : isNopableConsumer instr = true) :
    IR.branchExits instr = some [] := by
  unfold IR.branchExits
  split <;> simp_all [isNopableConsumer]

section Preserved

variable {ir after : IR} {b : BlockRef}

theorem targets_removal (dies : Dies ir b) (removal : Removal ir b after) {c : BlockRef}
    (other : c ≠ b) : after.targets c = ir.targets c := by
  rw [IR.targets_eq, IR.targets_eq, removal.order other]
  refine List.flatMap_congr fun r listed => ?_
  obtain ⟨instr, found⟩ := Option.isSome_iff_exists.mp (IR.mem_iterInstrs_instr? listed)
  by_cases depends : Depends ir b r
  · obtain ⟨instr', found', erasable⟩ := dies.dependents r depends
    rw [removal.erased c other r listed depends, found']
    simp only [Option.map_some, Option.bind_some, branchExits_erasable erasable]
    rfl
  · rw [removal.others c other r listed depends, found]
    simp only [Option.map_some, Option.bind_some, branchExits_withoutOperands]

theorem count_filter_ne {c b : BlockRef} (other : c ≠ b) (preds : List BlockRef) :
    (preds.filter (· ≠ b)).count c = preds.count c := by
  rw [List.count_filter]
  exact decide_eq_true other

theorem length_withoutOperands {preds : List BlockRef} {instr : Instr} (isPhi : instr.opcode = .phi)
    (arity : instr.operands.length = preds.length) :
    (withoutOperands (predIdxs b preds) instr).operands.length =
      (preds.filter (· ≠ b)).length := by
  have descending : (predIdxs b preds).Pairwise (· > ·) := positions_descending _ _
  have kept : dropAt (predIdxs b preds) preds = preds.filter (· ≠ b) := by
    simpa [predIdxs] using dropAt_positions (fun pred => decide (pred = b)) preds
  have inside : ∀ idx ∈ predIdxs b preds, idx < preds.length := predIdxs_lt
  rw [← kept, length_dropAt descending inside, withoutOperands, if_pos isPhi]
  change (dropAt (predIdxs b preds) instr.operands).length = _
  rw [length_dropAt descending (by rwa [arity]), arity]

theorem consistent_removal (consistent : ir.Consistent) (dies : Dies ir b)
    (removal : Removal ir b after) : after.Consistent where
  formed c instr' inside := by
    obtain ⟨other, r, listed, instr, found, shape⟩ := removal.code_cases inside
    rcases shape with ⟨_, rfl⟩ | ⟨_, rfl⟩
    · rfl
    · rw [branchExits_withoutOperands]
      exact consistent.formed c instr (IR.mem_code.mpr ⟨r, listed, found⟩)
  edges c d := by
    have before := consistent.edges c d
    by_cases source : c = b
    · have none : after.targets c = [] := by
        rw [source, IR.targets, removal.code_gone, List.flatMap_nil]
      rw [none, List.count_nil]
      by_cases target : d = b
      · rw [target, removal.preds_gone, List.count_nil]
      · rw [removal.preds target, source, List.count_eq_zero_of_not_mem (by simp)]
    · rw [targets_removal dies removal source, before]
      by_cases target : d = b
      · rw [target, removal.preds_gone, dies.unreached]
      · rw [removal.preds target, count_filter_ne source]
  arity c instr' inside isPhi := by
    obtain ⟨other, r, listed, instr, found, shape⟩ := removal.code_cases inside
    rw [removal.preds other]
    rcases shape with ⟨_, rfl⟩ | ⟨_, rfl⟩
    · cases isPhi
    · rw [withoutOperands_opcode] at isPhi
      exact length_withoutOperands isPhi
        (consistent.arity c instr (IR.mem_code.mpr ⟨r, listed, found⟩) isPhi)

theorem nopsBare_removal (bare : NopsBare ir) (removal : Removal ir b after) : NopsBare after := by
  intro c instr' inside nop
  obtain ⟨other, r, listed, instr, found, shape⟩ := removal.code_cases inside
  rcases shape with ⟨_, rfl⟩ | ⟨_, rfl⟩
  · rfl
  · rw [withoutOperands_opcode] at nop
    have plain : ¬ instr.opcode = .phi := by simp [nop]
    rw [withoutOperands, if_neg plain]
    exact bare c instr (IR.mem_code.mpr ⟨r, listed, found⟩) nop

/-- A block of the rest has only what it had. -/
theorem Removal.block_part (removal : Removal ir b after) {c : BlockRef} {block' : Block}
    (here : after.block? c = some block') : c ≠ b ∧ ∃ block, ir.block? c = some block ∧
      (block'.defs = fun name => (block.defs name).filter fun r => !r.mentionsBlock b) ∧
      block'.incompletePhis = block.incompletePhis.filter fun entry => !entry.2.mentionsBlock b := by
  have other : c ≠ b := by
    rintro rfl
    rw [removal.gone] at here
    cases here
  refine ⟨other, ?_⟩
  cases found : ir.block? c with
  | none =>
      rw [removal.missing c found] at here
      cases here
  | some block =>
      obtain ⟨data, there, _⟩ := removal.block c block other found
      obtain rfl := Option.some.inj (there.symm.trans here)
      exact ⟨block, rfl, rfl, rfl⟩

theorem unreferenced_gone (removal : Removal ir b after) : Unreferenced after b where
  operands c instr' inside live o member := by
    obtain ⟨other, r, listed, instr, found, shape⟩ := removal.code_cases inside
    rcases shape with ⟨_, rfl⟩ | ⟨independent, rfl⟩
    · exact absurd rfl live
    · obtain ⟨i, operand, away⟩ := mem_withoutOperands.mp member
      rw [withoutOperands_opcode] at live
      by_contra mentions
      rw [Bool.not_eq_false] at mentions
      exact independent (.direct ⟨c, instr, i, other, listed, found, live, operand, away⟩ mentions)
  preds c := by
    by_cases same : c = b
    · rw [same, removal.preds_gone]
      exact List.not_mem_nil
    · rw [removal.preds same]
      simp
  defs c block' here name r found := by
    obtain ⟨_, block, _, defs, _⟩ := removal.block_part here
    rw [defs] at found
    simpa using (Option.filter_eq_some_iff.mp found).2
  pending c block' here entry inside := by
    obtain ⟨_, block, _, _, pending⟩ := removal.block_part here
    rw [pending] at inside
    simpa using (List.mem_filter.mp inside).2

theorem unreferenced_removal {d : BlockRef} (away : Unreferenced ir d)
    (removal : Removal ir b after) : Unreferenced after d where
  operands c instr' inside live o member := by
    obtain ⟨other, r, listed, instr, found, shape⟩ := removal.code_cases inside
    rcases shape with ⟨_, rfl⟩ | ⟨_, rfl⟩
    · exact absurd rfl live
    · obtain ⟨i, operand, _⟩ := mem_withoutOperands.mp member
      rw [withoutOperands_opcode] at live
      exact away.operands c instr (IR.mem_code.mpr ⟨r, listed, found⟩) live o
        (List.mem_of_getElem? operand)
  preds c := by
    by_cases same : c = b
    · rw [same, removal.preds_gone]
      exact List.not_mem_nil
    · rw [removal.preds same]
      intro inside
      exact away.preds c (List.mem_filter.mp inside).1
  defs c block' here name r found := by
    obtain ⟨_, block, there, defs, _⟩ := removal.block_part here
    rw [defs] at found
    exact away.defs c block there name r (Option.filter_eq_some_iff.mp found).1
  pending c block' here entry inside := by
    obtain ⟨_, block, there, _, pending⟩ := removal.block_part here
    rw [pending] at inside
    exact away.pending c block there entry (List.mem_filter.mp inside).1

end Preserved

end Dis86.Opt
