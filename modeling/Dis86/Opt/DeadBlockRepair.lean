import Dis86.Opt.DeadBlock

namespace Dis86

theorem InstrData.ext_instrs {first second : InstrData} (instrs : first.instrs = second.instrs)
    (order : first.order = second.order) : first = second := by
  cases first
  cases second
  simp_all

@[simp] theorem InstrData.modify_order (data : InstrData) (idx : Nat) (f : Instr → Instr) :
    (data.modify idx f).order = data.order := rfl

theorem InstrData.lookup_modify (data : InstrData) (idx other : Nat) (f : Instr → Instr) :
    (data.modify idx f).lookup other =
      if idx = other then (data.lookup other).map f else data.lookup other := by
  simp only [lookup, modify, List.getElem?_modify]
  cases data.instrs[other]? <;> split <;> simp_all

namespace Opt
open Lib Lib.Splice

/-- A phi loses the operands of the dropped edges. -/
def withoutOperands (idxs : List Nat) (instr : Instr) : Instr :=
  if instr.opcode = .phi then { instr with operands := dropAt idxs instr.operands } else instr

/-- The operands that a phi loses. -/
def lostOperands (idxs : List Nat) (instr : Instr) : List (Nat × Ref) :=
  if instr.opcode = .phi then takenAt idxs instr.operands else []

/-- The entries of one phi. -/
def entriesOf (phi : Nat) (removed : List Removed) : List (Nat × Ref) :=
  (removed.filter fun entry => entry.phi = phi).map fun entry => (entry.idx, entry.operand)

theorem entriesOf_append (phi : Nat) (first second : List Removed) :
    entriesOf phi (first ++ second) = entriesOf phi first ++ entriesOf phi second := by
  simp [entriesOf]

theorem entriesOf_cons_same (phi idx : Nat) (operand : Ref) (removed : List Removed) :
    entriesOf phi (⟨phi, idx, operand⟩ :: removed) = (idx, operand) :: entriesOf phi removed := by
  simp [entriesOf]

theorem entriesOf_cons_other {phi other : Nat} (different : other ≠ phi) (idx : Nat) (operand : Ref)
    (removed : List Removed) :
    entriesOf phi (⟨other, idx, operand⟩ :: removed) = entriesOf phi removed := by
  simp [entriesOf, different]

theorem withoutOperands_single {idx : Nat} {instr : Instr}
    (short : (if instr.opcode = .phi then instr.operands[idx]? else none) = none) :
    withoutOperands [idx] instr = instr := by
  unfold withoutOperands
  split
  · rename_i phi
    rw [if_pos phi, List.getElem?_eq_none_iff] at short
    rw [dropAt_cons, dropAt_nil, List.eraseIdx_of_length_le short]
  · rfl

theorem removeOperand_order (idx : Nat) (order : List Nat) (data : InstrData) :
    (removeOperand idx order data).1.order = data.order := by
  induction order generalizing data with
  | nil => rfl
  | cons phi order hypothesis =>
      unfold removeOperand
      split
      · exact hypothesis _
      · exact hypothesis _

theorem removeOperand_idx (idx : Nat) (order : List Nat) (data : InstrData) :
    ∀ entry ∈ (removeOperand idx order data).2, entry.idx = idx := by
  induction order generalizing data with
  | nil => simp [removeOperand]
  | cons phi order hypothesis =>
      unfold removeOperand
      split
      · intro entry inside
        rcases List.mem_cons.mp inside with rfl | later
        · rfl
        · exact hypothesis _ entry later
      · exact hypothesis _

/-- The phis of the order lose the operand, and nothing else changes. -/
theorem removeOperand_lookup (idx : Nat) {order : List Nat} (distinct : order.Nodup)
    (data : InstrData) (j : Nat) :
    (removeOperand idx order data).1.lookup j =
      (data.lookup j).map (if j ∈ order then withoutOperands [idx] else id) := by
  induction order generalizing data with
  | nil => simp [removeOperand]
  | cons phi order hypothesis =>
      obtain ⟨fresh, rest⟩ := List.nodup_cons.mp distinct
      unfold removeOperand
      split
      · rename_i operand taken
        obtain ⟨instr, found, here⟩ := Option.bind_eq_some_iff.mp taken
        rw [hypothesis rest, InstrData.lookup_modify]
        by_cases same : phi = j
        · subst same
          have isPhi : instr.opcode = .phi := by
            by_contra other
            simp [other] at here
          simp [fresh, found, withoutOperands, isPhi, dropOperand]
        · simp [same, Ne.symm same]
      · rename_i kept
        rw [hypothesis rest]
        by_cases same : phi = j
        · subst same
          cases found : data.lookup phi with
          | none => simp
          | some instr =>
              rw [found, Option.bind_some] at kept
              simp [fresh, withoutOperands_single kept]
        · simp [Ne.symm same]

theorem removeOperand_entries (idx : Nat) {order : List Nat} (distinct : order.Nodup)
    (data : InstrData) (j : Nat) :
    entriesOf j (removeOperand idx order data).2 =
      if j ∈ order then ((data.lookup j).map (lostOperands [idx])).getD [] else [] := by
  induction order generalizing data with
  | nil => simp [removeOperand, entriesOf]
  | cons phi order hypothesis =>
      obtain ⟨fresh, rest⟩ := List.nodup_cons.mp distinct
      unfold removeOperand
      split
      · rename_i operand taken
        obtain ⟨instr, found, here⟩ := Option.bind_eq_some_iff.mp taken
        have isPhi : instr.opcode = .phi := by
          by_contra other
          simp [other] at here
        rw [if_pos isPhi] at here
        by_cases same : phi = j
        · subst same
          rw [entriesOf_cons_same, hypothesis rest, if_neg fresh, if_pos List.mem_cons_self]
          simp [found, lostOperands, isPhi, takenAt, here]
        · rw [entriesOf_cons_other same, hypothesis rest, InstrData.lookup_modify, if_neg same]
          simp [Ne.symm same]
      · rename_i kept
        rw [hypothesis rest]
        by_cases same : phi = j
        · subst same
          rw [if_neg fresh, if_pos List.mem_cons_self]
          cases found : data.lookup phi with
          | none => rfl
          | some instr =>
              rw [found, Option.bind_some] at kept
              simp only [Option.map_some, Option.getD_some, lostOperands]
              split
              · rename_i isPhi
                rw [if_pos isPhi] at kept
                simp [takenAt, kept]
              · rfl
        · simp [Ne.symm same]

theorem withoutOperands_cons (idx : Nat) (idxs : List Nat) (instr : Instr) :
    withoutOperands idxs (withoutOperands [idx] instr) = withoutOperands (idx :: idxs) instr := by
  unfold withoutOperands
  by_cases isPhi : instr.opcode = .phi <;> simp [isPhi]

theorem lostOperands_cons (idx : Nat) (idxs : List Nat) (instr : Instr) :
    lostOperands (idx :: idxs) instr =
      lostOperands [idx] instr ++ lostOperands idxs (withoutOperands [idx] instr) := by
  unfold lostOperands withoutOperands
  by_cases isPhi : instr.opcode = .phi <;> simp [isPhi, takenAt]

theorem lostOperands_single_reverse (idx : Nat) (instr : Instr) :
    (lostOperands [idx] instr).reverse = lostOperands [idx] instr := by
  unfold lostOperands
  split
  · simp only [takenAt, List.append_nil]
    cases instr.operands[idx]? <;> rfl
  · rfl

abbrev sortRemoved (removed : List Removed) : List Removed :=
  removed.insertionSort fun x y => x.idx ≤ y.idx

/-- What the repair of one exit leaves behind. -/
structure Repaired (idxs : List Nat) (block block' : Block) (removed : List Removed) : Prop where
  frame : block' = { block with preds := dropAt idxs block.preds, data := block'.data }
  order : block'.data.order = block.data.order
  lookup : ∀ j, block'.data.lookup j = (block.data.lookup j).map
    (if j ∈ block.data.order then withoutOperands idxs else id)
  idxs_only : ∀ entry ∈ removed, entry.idx ∈ idxs
  entries : ∀ j, entriesOf j (sortRemoved removed) = if j ∈ block.data.order then
    ((block.data.lookup j).map fun instr => (lostOperands idxs instr).reverse).getD [] else []

theorem repairExit_repaired {idxs : List Nat} {block : Block} (descending : idxs.Pairwise (· > ·))
    (inside : ∀ idx ∈ idxs, idx < block.preds.length) :
    ∃ block' removed, repairExit idxs block = some (block', removed) ∧
      Repaired idxs block block' removed := by
  induction idxs generalizing block with
  | nil =>
      refine ⟨block, [], rfl, rfl, rfl, fun j => ?_, by simp, fun j => ?_⟩
      · have same : withoutOperands [] = id := by
          funext instr
          simp [withoutOperands]
        simp [same]
      · cases block.data.lookup j <;> simp [entriesOf, lostOperands, takenAt]
  | cons idx idxs hypothesis =>
      obtain ⟨first, rest⟩ := List.pairwise_cons.mp descending
      have here := inside idx List.mem_cons_self
      have distinct := block.data.distinct
      let taken := removeOperand idx block.data.order block.data
      let middle : Block := { block with preds := block.preds.eraseIdx idx, data := taken.1 }
      have middle_order : middle.data.order = block.data.order := removeOperand_order idx _ _
      have shorter : middle.preds.length = block.preds.length - 1 := List.length_eraseIdx_of_lt here
      obtain ⟨block', later, ran, repaired⟩ := @hypothesis middle rest fun other member => by
        have := first other member
        omega
      have middle_lookup : ∀ j, middle.data.lookup j = (block.data.lookup j).map
          (if j ∈ block.data.order then withoutOperands [idx] else id) :=
        removeOperand_lookup idx distinct block.data
      refine ⟨block', taken.2 ++ later, ?_, ?_, ?_, fun j => ?_, ?_, fun j => ?_⟩
      · simp only [repairExit, here, guard_true, Option.bind_eq_bind, Option.pure_def,
          Option.bind_some]
        rw [show repairExit idxs _ = some (block', later) from ran]
        rfl
      · exact repaired.frame
      · exact repaired.order.trans middle_order
      · rw [repaired.lookup, middle_lookup, middle_order, Option.map_map]
        split
        · congr 1
          funext instr
          exact withoutOperands_cons idx idxs instr
        · rfl
      · intro entry member
        rcases List.mem_append.mp member with member | member
        · rw [removeOperand_idx idx _ _ entry member]
          exact List.mem_cons_self
        · exact List.mem_cons_of_mem idx (repaired.idxs_only entry member)
      · have sorted : sortRemoved (taken.2 ++ later) = sortRemoved later ++ taken.2 :=
          insertionSort_group (removeOperand_idx idx _ _) fun entry member =>
            first entry.idx (repaired.idxs_only entry member)
        rw [sorted, entriesOf_append, repaired.entries, middle_order, middle_lookup,
          removeOperand_entries idx distinct]
        split
        · cases block.data.lookup j with
          | none => rfl
          | some instr =>
              simp only [Option.map_some, Option.getD_some]
              rw [lostOperands_cons idx idxs, List.reverse_append, lostOperands_single_reverse]
        · rfl

/-- Operands come back to the phis to which the entries belong. -/
theorem restoreOperands_lookup {entries : List Removed} {block : Block}
    (present : ∀ entry ∈ entries, (block.data.lookup entry.phi).isSome)
    (fits : ∀ j instr, block.data.lookup j = some instr →
      Fits instr.operands (entriesOf j entries)) :
    ∃ data, restoreOperands entries block = some { block with data } ∧
      data.order = block.data.order ∧ ∀ j, data.lookup j = (block.data.lookup j).map fun instr =>
        { instr with operands := putBack instr.operands (entriesOf j entries) } := by
  induction entries generalizing block with
  | nil => exact ⟨block.data, rfl, rfl, fun j => by simp [entriesOf, putBack]⟩
  | cons entry entries hypothesis =>
      obtain ⟨phi, idx, operand⟩ := entry
      obtain ⟨instr, found⟩ := Option.isSome_iff_exists.mp (present _ List.mem_cons_self)
      have here := fits phi instr found
      rw [entriesOf_cons_same] at here
      let middle : Block := { block with data := block.data.modify phi (putOperand idx operand) }
      have middle_lookup : ∀ j, middle.data.lookup j = if phi = j
          then (block.data.lookup j).map (putOperand idx operand) else block.data.lookup j := fun j =>
        InstrData.lookup_modify block.data phi j _
      obtain ⟨data, ran, order, lookup⟩ := @hypothesis middle
        (fun entry member => by
          have kept := present entry (List.mem_cons_of_mem _ member)
          rw [middle_lookup]
          split <;> simpa using kept)
        (fun j other found' => by
          rw [middle_lookup] at found'
          split at found'
          · rename_i same
            subst same
            rw [found] at found'
            obtain rfl := Option.some.inj found'
            exact here.2
          · rename_i different
            have := fits j other found'
            rwa [entriesOf_cons_other different] at this)
      refine ⟨data, ?_, order, fun j => ?_⟩
      · simp only [restoreOperands, found, here.1, guard_true, Option.bind_eq_bind,
          Option.pure_def, Option.bind_some]
        exact ran
      · rw [lookup, middle_lookup]
        by_cases same : phi = j
        · subst same
          rw [if_pos rfl, entriesOf_cons_same]
          cases block.data.lookup phi <;> rfl
        · rw [if_neg same, entriesOf_cons_other same]

theorem restorePreds_eq (b : BlockRef) (idxs : List Nat) (block : Block)
    (fits : Fits block.preds (idxs.map fun idx => (idx, b))) :
    restorePreds b idxs block =
      some { block with preds := putBack block.preds (idxs.map fun idx => (idx, b)) } := by
  induction idxs generalizing block with
  | nil => rfl
  | cons idx idxs hypothesis =>
      simp only [restorePreds, fits.1, guard_true, Option.bind_eq_bind, Option.pure_def,
        Option.bind_some]
      exact hypothesis { block with preds := block.preds.insertIdx idx b } fits.2

theorem putBack_lostOperands (idxs : List Nat) (instr : Instr) :
    { withoutOperands idxs instr with
      operands := putBack (withoutOperands idxs instr).operands (lostOperands idxs instr).reverse } =
      instr := by
  unfold withoutOperands lostOperands
  split
  · simp [putBack_takenAt]
  · rfl

theorem fits_lostOperands (idxs : List Nat) (instr : Instr) :
    Fits (withoutOperands idxs instr).operands (lostOperands idxs instr).reverse := by
  unfold withoutOperands lostOperands
  split
  · exact fits_takenAt idxs instr.operands
  · trivial

theorem mem_entriesOf {removed : List Removed} {entry : Removed} (inside : entry ∈ removed) :
    entriesOf entry.phi removed ≠ [] := by
  simp only [entriesOf, ne_eq, List.map_eq_nil_iff, List.filter_eq_nil_iff, decide_eq_true_eq]
  exact fun none => none entry inside rfl

/-- The restoration is the exact inverse of the repair. -/
theorem restoreExit_repairExit {b : BlockRef} {block block' : Block} {removed : List Removed}
    (repaired : Repaired (predIdxs b block.preds) block block' removed) :
    restoreExit b (predIdxs b block.preds) removed block' = some block := by
  have descending : (predIdxs b block.preds).Pairwise (· > ·) := positions_descending _ _
  have lost : takenAt (predIdxs b block.preds) block.preds =
      (predIdxs b block.preds).map fun idx => (idx, b) :=
    takenAt_same descending fun idx member => by
      obtain ⟨pred, here, same⟩ := mem_positions.mp member
      rw [here, of_decide_eq_true same]
  have preds : block'.preds = dropAt (predIdxs b block.preds) block.preds := by
    rw [repaired.frame]
  have lookup := repaired.lookup
  have entries := repaired.entries
  generalize predIdxs b block.preds = idxs at *
  have fits := fits_takenAt idxs block.preds
  have back := putBack_takenAt idxs block.preds
  rw [lost, ← List.map_reverse, ← preds] at fits back
  have operands_fit : ∀ j instr, block'.data.lookup j = some instr →
      Fits instr.operands (entriesOf j (sortRemoved removed)) := by
    intro j instr found
    rw [lookup, Option.map_eq_some_iff] at found
    obtain ⟨old, found, rfl⟩ := found
    rw [entries, found]
    split
    · exact fits_lostOperands idxs old
    · trivial
  have present : ∀ entry ∈ sortRemoved removed, (block'.data.lookup entry.phi).isSome := by
    intro entry inside
    have some_entry := mem_entriesOf inside
    rw [entries] at some_entry
    rw [lookup, Option.isSome_map]
    split at some_entry
    · cases found : block.data.lookup entry.phi with
      | none => simp [found] at some_entry
      | some instr => rfl
    · exact absurd rfl some_entry
  obtain ⟨data, ran, order, restored⟩ :=
    @restoreOperands_lookup _ { block' with preds := block.preds } present operands_fit
  have same : data = block.data := by
    refine InstrData.ext_instrs (List.ext_getElem? fun j => ?_) (order.trans repaired.order)
    show data.lookup j = block.data.lookup j
    rw [restored, lookup, entries, Option.map_map]
    split
    · cases block.data.lookup j with
      | none => rfl
      | some instr => exact congrArg some (putBack_lostOperands idxs instr)
    · cases block.data.lookup j with
      | none => rfl
      | some instr => rfl
  rw [restoreExit, restorePreds_eq b idxs.reverse block' fits, back]
  refine ran.trans ?_
  rw [same, repaired.frame]

end Opt

end Dis86
