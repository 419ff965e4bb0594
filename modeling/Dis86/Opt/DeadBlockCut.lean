import Dis86.Opt.DeadBlockSpec
import Mathlib.Data.List.Flatten

namespace Dis86.Opt
open Lib Lib.Splice

/-- An instruction outside a block reads an operand, other than along an edge from the block. -/
def ReadsOutside (ir : IR) (b : BlockRef) (r o : Ref) : Prop :=
  ∃ (c : BlockRef) (instr : Instr) (i : Nat), c ≠ b ∧ r ∈ ir.iterInstrs c ∧
    ir.instr? r = some instr ∧ instr.opcode ≠ .nop ∧ instr.operands[i]? = some o ∧
    ¬(instr.opcode = .phi ∧ (ir.preds c)[i]? = some b)

/-- The instructions that depend on a block through live operands. -/
inductive Depends (ir : IR) (b : BlockRef) : Ref → Prop where
  | direct {r o : Ref} (reads : ReadsOutside ir b r o) (mentions : o.mentionsBlock b = true) :
      Depends ir b r
  | through {r s : Ref} (depends : Depends ir b r) (reads : ReadsOutside ir b s r) : Depends ir b s

/-- The function without the edges from a block. -/
structure Cut (ir : IR) (b : BlockRef) (repaired : IR) : Prop where
  frame : repaired = { ir with blocks := repaired.blocks }
  length : repaired.blocks.length = ir.blocks.length
  missing : ∀ c, ir.block? c = none → repaired.block? c = none
  block : ∀ c block, ir.block? c = some block → ∃ data, repaired.block? c =
    some { block with preds := block.preds.filter (· ≠ b), data } ∧ data.order = block.data.order
  instr : ∀ c, ∀ r ∈ ir.iterInstrs c, repaired.instr? r =
    (ir.instr? r).map (withoutOperands (predIdxs b (ir.preds c)))

theorem withoutOperands_nil : withoutOperands [] = id := by
  funext instr
  simp [withoutOperands]

theorem AllRepaired.block {ir repaired : IR} {b : BlockRef} {exits : List (BlockRef × List Nat)}
    (all : AllRepaired ir b exits repaired) (gone : ∀ c, b ∉ repaired.preds c) {c : BlockRef}
    {block : Block} (found : ir.block? c = some block) :
    ∃ data, repaired.block? c = some { block with preds := block.preds.filter (· ≠ b), data } ∧
      data.order = block.data.order ∧ ∀ j ∈ block.data.order, data.lookup j =
        (block.data.lookup j).map (withoutOperands (predIdxs b block.preds)) := by
  by_cases exit : c ∈ exits.map Prod.fst
  · obtain ⟨entry, member, rfl⟩ := List.mem_map.mp exit
    obtain ⟨old, block', removed, found', here, fixed⟩ := all.exits entry member
    obtain rfl : block = old := Option.some.inj (found.symm.trans found')
    have kept : dropAt (predIdxs b block.preds) block.preds = block.preds.filter (· ≠ b) := by
      simpa [predIdxs] using dropAt_positions (fun pred => decide (pred = b)) block.preds
    refine ⟨block'.data, ?_, fixed.order, fun j inside => ?_⟩
    · rw [here, fixed.frame, kept]
    · rw [fixed.lookup, if_pos inside]
  · have same : repaired.block? c = some block := by rw [all.others c exit, found]
    have away : b ∉ block.preds := by
      have := gone c
      rwa [IR.preds, same] at this
    have kept : block.preds.filter (· ≠ b) = block.preds :=
      List.filter_eq_self.mpr fun pred member => by
        simpa using fun same : pred = b => away (same ▸ member)
    refine ⟨block.data, ?_, rfl, fun j _ => ?_⟩
    · rw [same, kept]
    · rw [predIdxs_eq_nil.mpr away, withoutOperands_nil, Option.map_id]
      rfl

theorem AllRepaired.missing {ir repaired : IR} {b : BlockRef} {exits : List (BlockRef × List Nat)}
    (all : AllRepaired ir b exits repaired) {c : BlockRef} (missing : ir.block? c = none) :
    repaired.block? c = none := by
  by_cases exit : c ∈ exits.map Prod.fst
  · obtain ⟨entry, member, rfl⟩ := List.mem_map.mp exit
    obtain ⟨old, _, _, found, _⟩ := all.exits entry member
    rw [missing] at found
    cases found
  · rw [all.others c exit, missing]

theorem AllRepaired.cut {ir repaired : IR} {b : BlockRef} {exits : List (BlockRef × List Nat)}
    (all : AllRepaired ir b exits repaired) (gone : ∀ c, b ∉ repaired.preds c) :
    Cut ir b repaired where
  frame := all.frame
  length := all.length
  missing _ missing := all.missing missing
  block c block found := by
    obtain ⟨data, here, order, _⟩ := all.block gone found
    exact ⟨data, here, order⟩
  instr c r inside := by
    cases found : ir.block? c with
    | none => simp [IR.iterInstrs, found] at inside
    | some block =>
        obtain ⟨data, here, _, lookup⟩ := all.block gone found
        simp only [IR.iterInstrs, found, List.mem_map] at inside
        obtain ⟨j, inside, rfl⟩ := inside
        simpa [IR.instr?, IR.preds, here, found] using lookup j inside

theorem Cut.order {ir repaired : IR} {b : BlockRef} (cut : Cut ir b repaired) (c : BlockRef) :
    repaired.iterInstrs c = ir.iterInstrs c := by
  cases found : ir.block? c with
  | none => simp [IR.iterInstrs, cut.missing c found, found]
  | some block =>
      obtain ⟨data, here, order⟩ := cut.block c block found
      simp [IR.iterInstrs, here, found, order]

section Sweep

variable {ir : IR} {b : BlockRef}

theorem mem_usersOutside {kind : Ref → Bool} {r : Ref} :
    r ∈ ir.usersOutside b kind ↔ ∃ c instr, c ≠ b ∧ r ∈ ir.iterInstrs c ∧ ir.instr? r = some instr ∧
      instr.opcode ≠ .nop ∧ ∃ o ∈ instr.operands, kind o = true := by
  simp only [IR.usersOutside, List.mem_flatMap, List.mem_filter, Option.any_eq_true,
    Bool.and_eq_true, decide_eq_true_eq, List.any_eq_true]
  constructor
  · rintro ⟨c, ⟨_, other⟩, listed, instr, found, live, reads⟩
    exact ⟨c, instr, other, listed, found, live, reads⟩
  · rintro ⟨c, instr, other, listed, found, live, reads⟩
    have present : c ∈ ir.iterBlocks := by
      refine IR.mem_iterBlocks.mpr ?_
      cases here : ir.block? c with
      | none => simp [IR.iterInstrs, here] at listed
      | some block => rfl
    exact ⟨c, ⟨present, other⟩, listed, instr, found, live, reads⟩

theorem usersOutside_sublist (ir : IR) (b : BlockRef) (kind : Ref → Bool) :
    (ir.usersOutside b kind).Sublist (ir.iterBlocks.flatMap ir.iterInstrs) :=
  (List.Sublist.flatMap_right _ fun _ _ => List.filter_sublist).trans
    (List.Sublist.flatMap List.filter_sublist ir.iterInstrs)

/-- The walk over the consumers ends. -/
theorem sweep_ends (ir : IR) (b : BlockRef) : ∃ found, sweep ir b = some found := by
  have part := usersOutside_sublist ir b
  have start := (part (Ref.mentionsBlock b)).length_le
  have seen_less : (Search.unseen (ir.iterBlocks.flatMap ir.iterInstrs) []).length ≤
      (ir.iterBlocks.flatMap ir.iterInstrs).length := List.filter_sublist.length_le
  refine @Search.ends Ref _ _ _ (ir.iterBlocks.flatMap ir.iterInstrs) [] _ _
    (ir.iterBlocks.flatMap ir.iterInstrs).length ?_ ?_ ?_ ?_
  · intro r member
    exact (part _).subset (List.mem_reverse.mp member)
  · intro s _ r member
    exact (part _).subset (List.mem_reverse.mp member)
  · intro s _
    rw [List.length_reverse]
    exact (part _).length_le
  · have wide := Nat.mul_le_mul_left (ir.iterBlocks.flatMap ir.iterInstrs).length seen_less
    rw [List.length_reverse, IR.blockRefUsers, sweepFuel, Nat.pow_two, Nat.add_mul, Nat.mul_add]
    omega

end Sweep

/-- The operands that a phi keeps are those that came along other edges. -/
theorem mem_withoutOperands {b : BlockRef} {preds : List BlockRef} {instr : Instr} {o : Ref} :
    o ∈ (withoutOperands (predIdxs b preds) instr).operands ↔
      ∃ i : Nat, instr.operands[i]? = some o ∧ ¬(instr.opcode = .phi ∧ preds[i]? = some b) := by
  have listed : ∀ i, i ∈ predIdxs b preds ↔ preds[i]? = some b := by
    intro i
    simp [predIdxs, mem_positions]
  unfold withoutOperands
  split
  · rename_i isPhi
    have kept := @mem_dropAt Ref (predIdxs b preds) instr.operands (positions_descending _ _) o
    simp only [isPhi, true_and, ← listed]
    exact kept
  · rename_i notPhi
    simp [notPhi, List.mem_iff_getElem?]

@[simp] theorem withoutOperands_opcode (idxs : List Nat) (instr : Instr) :
    (withoutOperands idxs instr).opcode = instr.opcode := by
  unfold withoutOperands
  split <;> rfl

@[simp] theorem withoutOperands_attrs (idxs : List Nat) (instr : Instr) :
    (withoutOperands idxs instr).attrs = instr.attrs := by
  unfold withoutOperands
  split <;> rfl

@[simp] theorem isNopableConsumer_withoutOperands (idxs : List Nat) (instr : Instr) :
    isNopableConsumer (withoutOperands idxs instr) = isNopableConsumer instr := by
  simp [isNopableConsumer]

/-- The instruction may go with a block. -/
def Erasable (ir : IR) (r : Ref) : Prop := ∃ instr, ir.instr? r = some instr ∧ isNopableConsumer instr

section Consumers

variable {ir repaired : IR} {b : BlockRef}

theorem Cut.users (cut : Cut ir b repaired) {kind : Ref → Bool} {r : Ref} :
    r ∈ repaired.usersOutside b kind ↔ ∃ o, ReadsOutside ir b r o ∧ kind o = true := by
  rw [mem_usersOutside]
  constructor
  · rintro ⟨c, instr', other, listed, found, live, o, inside, good⟩
    rw [cut.order] at listed
    rw [cut.instr c r listed, Option.map_eq_some_iff] at found
    obtain ⟨instr, found, rfl⟩ := found
    obtain ⟨i, here, away⟩ := mem_withoutOperands.mp inside
    rw [withoutOperands_opcode] at live
    exact ⟨o, ⟨c, instr, i, other, listed, found, live, here, away⟩, good⟩
  · rintro ⟨o, ⟨c, instr, i, other, listed, found, live, here, away⟩, good⟩
    refine ⟨c, withoutOperands (predIdxs b (ir.preds c)) instr, other, ?_, ?_, ?_, o, ?_, good⟩
    · rwa [cut.order]
    · rw [cut.instr c r listed, found]
      rfl
    · rwa [withoutOperands_opcode]
    · exact mem_withoutOperands.mpr ⟨i, here, away⟩

theorem Cut.reaches (cut : Cut ir b repaired) {r : Ref} :
    Reaches (fun r => (valueUsers repaired b r).reverse) (repaired.blockRefUsers b).reverse r ↔
      Depends ir b r := by
  constructor
  · intro reaches
    induction reaches with
    | start inside =>
        obtain ⟨o, reads, mentions⟩ := cut.users.mp (List.mem_reverse.mp inside)
        exact .direct reads mentions
    | step _ next hypothesis =>
        obtain ⟨o, reads, same⟩ := cut.users.mp (List.mem_reverse.mp next)
        obtain rfl := of_decide_eq_true same
        exact .through hypothesis reads
  · intro depends
    induction depends with
    | direct reads mentions => exact .start (List.mem_reverse.mpr (cut.users.mpr ⟨_, reads, mentions⟩))
    | through _ reads hypothesis =>
        exact .step hypothesis (List.mem_reverse.mpr (cut.users.mpr ⟨_, reads, decide_eq_true rfl⟩))

theorem Depends.listed {r : Ref} (depends : Depends ir b r) :
    ∃ c, c ≠ b ∧ r ∈ ir.iterInstrs c := by
  cases depends with
  | direct reads _ =>
      obtain ⟨c, _, _, other, listed, _⟩ := reads
      exact ⟨c, other, listed⟩
  | through _ reads =>
      obtain ⟨c, _, _, other, listed, _⟩ := reads
      exact ⟨c, other, listed⟩

theorem Cut.observable (cut : Cut ir b repaired) {r : Ref} (depends : Depends ir b r) :
    observable repaired r = false ↔ Erasable ir r := by
  obtain ⟨c, _, listed⟩ := depends.listed
  obtain ⟨instr, found⟩ := Option.isSome_iff_exists.mp (IR.mem_iterInstrs_instr? listed)
  simp [Opt.observable, Erasable, cut.instr c r listed, found]

/-- The walk finds the dependents, unless one of them has to stay. -/
theorem Cut.sweep (cut : Cut ir b repaired) :
    (∃ r, Depends ir b r ∧ ¬ Erasable ir r) ∧ sweep repaired b = some none ∨
      (∀ r, Depends ir b r → Erasable ir r) ∧ ∃ consumers, sweep repaired b = some (some consumers) ∧
        ∀ r, r ∈ consumers ↔ Depends ir b r := by
  obtain ⟨found, ended⟩ := sweep_ends repaired b
  have verdict := Search.sound (Search.Open.init _) ended
  cases found with
  | none =>
      obtain ⟨r, reaches, bad⟩ := verdict
      have depends := cut.reaches.mp reaches
      refine .inl ⟨⟨r, depends, fun erasable => ?_⟩, ended⟩
      rw [(cut.observable depends).mpr erasable] at bad
      cases bad
  | some consumers =>
      have complete : ∀ r, r ∈ consumers ↔ Depends ir b r := fun r =>
        (verdict.complete r).trans cut.reaches
      refine .inr ⟨fun r depends => ?_, consumers, ended, complete⟩
      exact (cut.observable depends).mp (verdict.good r ((complete r).mpr depends))

end Consumers

end Dis86.Opt
