import Dis86.IR.Total

namespace Dis86.IR
open Lib

variable {ir next : IR} {R : IR → IR → Prop}

/-- The edits of a lookup: a phi is created where the variable has no definition, it waits in an open
block, and its operands are filled in. -/
structure LookupEdits (R : IR → IR → Prop) : Prop where
  refl : ∀ ir, R ir ir
  trans : ∀ first second third, R first second → R second third → R first third
  create : ∀ ir sym b phi next, (ir.flow sym).defined b = none → ir.phiCreate sym b = some (phi, next) → R ir next
  push : ∀ ir sym b phi, R ir (ir.pushIncompletePhi sym b phi)
  fill : ∀ ir phi refs, R ir (ir.modifyInstr phi fun instr => { instr with operands := refs })

theorem LookupEdits.getVars (edits : LookupEdits R) {get : IR → BlockRef → Option (Ref × IR)}
    (reads : ∀ ir b r next, get ir b = some (r, next) → R ir next) {preds : List BlockRef}
    {refs : List Ref} (result : getVars get ir preds = some (refs, next)) : R ir next := by
  induction preds generalizing ir refs with
  | nil =>
      simp only [IR.getVars, Option.some.injEq, Prod.mk.injEq] at result
      obtain ⟨rfl, rfl⟩ := result
      exact edits.refl ir
  | cons pred rest ih =>
      simp only [IR.getVars, Option.bind_eq_bind, Option.bind_eq_some_iff, Option.pure_def,
        Option.some.injEq, Prod.mk.injEq, Prod.exists] at result
      obtain ⟨r, middle, first, later, last, others, rfl, rfl⟩ := result
      exact edits.trans ir middle last (reads ir pred r middle first) (ih others)

theorem LookupEdits.phiPopulateWith (edits : LookupEdits R) {get : IR → BlockRef → Option (Ref × IR)}
    (reads : ∀ ir b r next, get ir b = some (r, next) → R ir next) {phi : Ref}
    (result : phiPopulateWith get ir phi = some next) : R ir next := by
  cases phi with
  | instr b idx =>
      simp only [IR.phiPopulateWith, Option.bind_eq_bind, Option.bind_eq_some_iff, Option.pure_def,
        Option.some.injEq, Prod.exists] at result
      obtain ⟨_, _, _, _, _, _, refs, middle, read, rfl⟩ := result
      exact edits.trans ir middle _ (edits.getVars reads read) (edits.fill middle _ refs)
  | _ => simp [IR.phiPopulateWith] at result

/-- Whatever relates the function before and after each edit relates it before and after a search. -/
theorem LookupEdits.getVarLoop (edits : LookupEdits R) {sym : Name} {fuel : Nat} {visited : List BlockRef}
    {b : BlockRef} {r : Ref} (result : getVarLoop sym fuel ir visited b = some (r, next)) : R ir next := by
  induction fuel generalizing ir visited b r next with
  | zero => simp [IR.getVarLoop] at result
  | succ fuel ih =>
      have populate : ∀ {middle}, (ir.flow sym).defined b = none → ir.phiCreate sym b = some (r, middle) →
          IR.phiPopulateWith (fun ir pred => IR.getVarLoop sym fuel ir [] pred) middle r = some next →
          R ir next := by
        intro middle undefined created populated
        exact edits.trans ir middle next (edits.create ir sym b r middle undefined created)
          (edits.phiPopulateWith (fun _ _ _ _ read => ih read) populated)
      cases getVarLoop_turn result with
      | found here same =>
          subst same
          exact edits.refl next
      | wait middle undefined isOpen present created pushed =>
          subst pushed
          exact edits.trans ir middle _ (edits.create ir sym b r middle undefined created)
            (edits.push middle sym b r)
      | merge middle undefined isSealed many created populated => exact populate undefined created populated
      | revisit middle undefined isSealed seen created populated => exact populate undefined created populated
      | climb parent step rest => exact ih rest

theorem LookupEdits.getVar (edits : LookupEdits R) {sym : Name} {b : BlockRef} {r : Ref}
    (result : ir.getVar sym b = some (r, next)) : R ir next := edits.getVarLoop result

theorem LookupEdits.phiPopulates (edits : LookupEdits R) {entries : List (Name × Ref)}
    (result : phiPopulates ir entries = some next) : R ir next := by
  induction entries generalizing ir with
  | nil =>
      simp only [IR.phiPopulates, Option.some.injEq] at result
      subst result
      exact edits.refl ir
  | cons entry rest ih =>
      simp only [IR.phiPopulates, Option.bind_eq_bind, Option.bind_eq_some_iff] at result
      obtain ⟨middle, first, others⟩ := result
      exact edits.trans ir middle next (edits.phiPopulateWith (fun _ _ _ _ read => edits.getVar read) first)
        (ih others)

/-- Sealing is one more edit, followed by the lookups of the phis that waited. -/
theorem LookupEdits.sealBlock (edits : LookupEdits R) (close : ∀ ir b, R ir (ir.closeBlock b)) {b : BlockRef}
    (result : ir.sealBlock b = some next) : R ir next := by
  simp only [IR.sealBlock, Option.bind_eq_bind, Option.bind_eq_some_iff] at result
  obtain ⟨block, _, _, _, result⟩ := result
  exact edits.trans ir (ir.closeBlock b) next (close ir b) (edits.phiPopulates result)

/-- A phi is new for a variable and a block when it was not there before, it stands in the block, and
its name tells the variable. -/
structure NewPhi (ir next : IR) (sym : Name) (b : BlockRef) (phi : Ref) : Prop where
  absent : ir.instr? phi = none
  present : ∃ instr, next.instr? phi = some instr ∧ instr.opcode = .phi
  home : home phi = some b
  name : (next.names phi).map FullName.name = some sym

/-- Every instruction that lookups add is the phi that defines its variable in its block. -/
structure AddsPhis (ir next : IR) : Prop where
  kept : ∀ r instr, ir.instr? r = some instr → ∃ instr', next.instr? r = some instr' ∧
    instr'.opcode = instr.opcode ∧ next.names r = ir.names r
  defined : ∀ sym b r, (ir.flow sym).defined b = some r → (next.flow sym).defined b = some r
  added : ∀ r, ir.instr? r = none → (next.instr? r).isSome → ∃ sym b, NewPhi ir next sym b r ∧
    (ir.flow sym).defined b = none ∧ (next.flow sym).defined b = some r

theorem AddsPhis.of_same (instrs : ∀ r, (next.instr? r).map Instr.opcode = (ir.instr? r).map Instr.opcode)
    (names : next.names = ir.names) (defined : ∀ sym, (next.flow sym).defined = (ir.flow sym).defined) :
    AddsPhis ir next where
  kept := fun r instr found => by
    have same := instrs r
    rw [found, Option.map_some, Option.map_eq_some_iff] at same
    obtain ⟨instr', found', opcode⟩ := same
    exact ⟨instr', found', opcode, by rw [names]⟩
  defined := fun sym b r found => by rwa [defined]
  added := fun r absent present => by
    have same := instrs r
    rw [absent, Option.map_none, Option.map_eq_none_iff] at same
    simp [same] at present

theorem AddsPhis.trans {first second third : IR} (before : AddsPhis first second)
    (after : AddsPhis second third) : AddsPhis first third where
  kept := fun r instr found => by
    obtain ⟨instr', found', opcode, names⟩ := before.kept r instr found
    obtain ⟨instr'', found'', opcode', names'⟩ := after.kept r instr' found'
    exact ⟨instr'', found'', opcode'.trans opcode, names'.trans names⟩
  defined := fun sym b r found => after.defined sym b r (before.defined sym b r found)
  added := fun r absent present => by
    cases middle : second.instr? r with
    | some instr =>
        obtain ⟨sym, b, phi, undefined, defined⟩ := before.added r absent (by simp [middle])
        obtain ⟨instr', found, opcode⟩ := phi.present
        obtain ⟨instr'', found', opcode', names⟩ := after.kept r instr' found
        exact ⟨sym, b, ⟨absent, ⟨instr'', found', opcode'.trans opcode⟩, phi.home, by rw [names, phi.name]⟩,
          undefined, after.defined sym b r defined⟩
    | none =>
        obtain ⟨sym, b, phi, undefined, defined⟩ := after.added r middle present
        refine ⟨sym, b, ⟨absent, phi.present, phi.home, phi.name⟩, ?_, defined⟩
        cases earlier : (first.flow sym).defined b with
        | none => rfl
        | some s =>
            rw [before.defined sym b s earlier] at undefined
            simp at undefined

/-- A definition keeps the instructions and numbers its own value only. -/
theorem phiCreate_names {sym : Name} {b : BlockRef} {phi : Ref} (created : ir.phiCreate sym b = some (phi, next)) :
    (next.names phi).map FullName.name = some sym ∧ ∀ r, r ≠ phi → next.names r = ir.names r := by
  cases found : ir.block? b with
  | none => simp [phiCreate, blockInstrPrepend, blockInstrInsert, found] at created
  | some block =>
      rw [phiCreate_eq sym found] at created
      simp only [Option.some.injEq, Prod.mk.injEq] at created
      obtain ⟨rfl, rfl⟩ := created
      refine ⟨by simp [setName], fun r away => ?_⟩
      simp [setName, modifyBlock, Function.update_of_ne away]

theorem AddsPhis.create {sym : Name} {b : BlockRef} {phi : Ref} (undefined : (ir.flow sym).defined b = none)
    (created : ir.phiCreate sym b = some (phi, next)) : AddsPhis ir next := by
  have made := phiCreate_created created
  obtain ⟨named, others⟩ := phiCreate_names created
  refine ⟨fun r instr found => ?_, fun other c r found => ?_, fun r absent present => ?_⟩
  · have away : r ≠ phi := by
      rintro rfl
      simp [made.fresh] at found
    exact ⟨instr, by rw [made.instr?, if_neg away, found], rfl, others r away⟩
  · by_cases same : other = sym
    · subst same
      have away : c ≠ b := by
        rintro rfl
        simp [undefined] at found
      simpa [made.flow, VarFlow.define, Function.update_of_ne away] using found
    · rwa [made.flowOther other same]
  · have same : r = phi := by
      by_contra away
      rw [made.instr?, if_neg away, absent] at present
      simp at present
    subst same
    refine ⟨sym, b, ⟨absent, ⟨emptyPhi, by rw [made.instr?, if_pos rfl], rfl⟩, made.home, named⟩, undefined, ?_⟩
    simp [made.flow, VarFlow.define]

theorem names_modifyInstr (ir : IR) (r : Ref) (f : Instr → Instr) : (ir.modifyInstr r f).names = ir.names := by
  cases r <;> rfl

theorem addsPhis_edits : LookupEdits AddsPhis where
  refl ir := .of_same (fun _ => rfl) rfl fun _ => rfl
  trans _ _ _ := AddsPhis.trans
  create _ _ _ _ _ := AddsPhis.create
  push ir sym b phi := .of_same (fun r => by rw [instr?_pushIncompletePhi]) rfl
    fun other => by rw [flow_pushIncompletePhi]
  fill ir phi refs := by
    refine .of_same (fun r => ?_) (names_modifyInstr ir phi _) fun sym => by rw [flow_modifyInstr]
    rw [instr?_modifyInstr]
    split
    · subst r
      cases ir.instr? phi <;> rfl
    · rfl

theorem AddsPhis.closeBlock (ir : IR) (b : BlockRef) : AddsPhis ir (ir.closeBlock b) := by
  refine .of_same (fun r => by rw [instr?_closeBlock]) rfl fun sym => ?_
  cases present : ir.block? b with
  | some block => rw [flow_closeBlock present, VarFlow.close]
  | none =>
      simp only [flow, IR.closeBlock, block?_modifyBlock, present, Option.map_none]
      funext c
      split
      · subst c
        rw [present]
      · rfl

/-- A client looks a variable up or seals a block. -/
inductive Lookup where
  | getVar (sym : Name) (b : BlockRef)
  | sealBlock (b : BlockRef)
deriving DecidableEq, Repr

def lookup (ir : IR) : Lookup → Option IR
  | .getVar sym b => (ir.getVar sym b).map Prod.snd
  | .sealBlock b => ir.sealBlock b

def runLookups : IR → List Lookup → Option IR
  | ir, [] => some ir
  | ir, first :: rest => do runLookups (← ir.lookup first) rest

/-- A variable is looked up in a block of the graph, and an open block is sealed. -/
def Allows (ir : IR) : Lookup → Prop
  | .getVar _ b => (ir.block? b).isSome
  | .sealBlock b => (ir.block? b).any fun block => !block.sealed

instance (ir : IR) : (first : Lookup) → Decidable (ir.Allows first)
  | .getVar _ _ => inferInstanceAs (Decidable (_ = true))
  | .sealBlock _ => inferInstanceAs (Decidable (_ = true))

/-- Every lookup of the sequence is allowed when it is made. -/
def Possible (ir : IR) : List Lookup → Prop
  | [] => True
  | first :: rest => ir.Allows first ∧
      match ir.lookup first with
      | some next => next.Possible rest
      | none => True

def decidePossible : (ir : IR) → (lookups : List Lookup) → Decidable (ir.Possible lookups)
  | _, [] => inferInstanceAs (Decidable True)
  | ir, first :: rest =>
      match found : ir.lookup first with
      | some next =>
          have := decidePossible next rest
          decidable_of_iff (ir.Allows first ∧ next.Possible rest) (by simp [Possible, found])
      | none => decidable_of_iff (ir.Allows first) (by simp [Possible, found])

instance (ir : IR) (lookups : List Lookup) : Decidable (ir.Possible lookups) := decidePossible ir lookups

variable {store : Name → BlockRef → Option Ref} {owner : Ref → Option Name} {pending : List (Name × Ref)}

/-- A phi in a live block can be populated. -/
theorem phiPopulate_returns {sym : Name} {phi : Ref} {instr : Instr} (preds : ir.PredsPresent)
    (found : ir.instr? phi = some instr) (isPhi : instr.opcode = .phi) :
    ∃ next, ir.phiPopulate sym phi = some next ∧ Grows ir sym next := by
  cases phi with
  | instr b idx =>
      obtain ⟨block, present, _⟩ := Option.bind_eq_some_iff.mp found
      have live : ∀ pred ∈ block.preds, (ir.block? pred).isSome := fun pred inside =>
        preds sym b pred (by simpa [flow, present] using inside)
      have ready : Ready ir sym ir.blocks.length (ir.undefinedBlocks sym).card := ⟨preds, rfl, Nat.le_refl _⟩
      have reads : ∀ (other : IR) (pred : BlockRef),
          Ready other sym ir.blocks.length (ir.undefinedBlocks sym).card → (other.block? pred).isSome →
            ∃ r next, other.getVar sym pred = some (r, next) ∧ Grows other sym next :=
        fun other pred ready live => getVar_returns sym ready.preds live
      obtain ⟨refs, last, read, grows⟩ := getVars_returns reads ready live
      exact ⟨last.modifyInstr (.instr b idx) fun instr => { instr with operands := refs },
        by simp [phiPopulate, phiPopulateWith, present, found, isPhi, read],
        grows.trans (.modifyInstr last sym _ _)⟩
  | _ => simp [instr?] at found

/-- The queued phis of a sealed block can be populated one after the other. -/
theorem phiPopulates_returns {entries : List (Name × Ref)} {b : BlockRef}
    (inv : SsaInv ir store owner (entries ++ pending)) (preds : ir.PredsPresent)
    (place : ∀ sym phi, (sym, phi) ∈ entries → home phi = some b)
    (isSealed : ∀ sym, (ir.flow sym).closed b = true) :
    ∃ next, phiPopulates ir entries = some next ∧ next.PredsPresent ∧ SameShape ir next := by
  induction entries generalizing ir owner with
  | nil => exact ⟨ir, rfl, preds, .refl ir⟩
  | cons entry rest ih =>
      obtain ⟨sym, phi⟩ := entry
      obtain ⟨instr, found, isPhi⟩ := inv.phi sym phi (inv.queued sym phi List.mem_cons_self)
      obtain ⟨middle, populated, grows⟩ := phiPopulate_returns preds found isPhi
      obtain ⟨owner', inv', evolves⟩ := phiPopulateWith_sound (getVar_reads sym) inv
        (place sym phi List.mem_cons_self) (isSealed sym) populated
      obtain ⟨next, others, preds', shape⟩ := ih inv' (grows.predsPresent preds)
        (fun sym phi present => place sym phi (List.mem_cons_of_mem _ present))
        (fun sym => by rw [evolves.closed]; exact isSealed sym)
      exact ⟨next, by simp [phiPopulates, populated, others], preds', grows.shape.trans shape⟩

theorem sealBlock_returns {b : BlockRef} (inv : SsaInv ir store owner []) (preds : ir.PredsPresent)
    (isOpen : (ir.block? b).any fun block => !block.sealed) :
    ∃ next, ir.sealBlock b = some next ∧ next.PredsPresent ∧ SameShape ir next := by
  obtain ⟨block, present, isOpen⟩ := (Option.any_eq_true _ _).mp isOpen
  have place : ∀ sym phi, (sym, phi) ∈ block.incompletePhis → home phi = some b := by
    intro sym phi entry
    exact (inv.waiting sym phi b (by simpa [incompletePhis, present] using entry)).2.1
  have live : (ir.closeBlock b).PredsPresent := by
    intro sym c pred inside
    rw [flow_closeBlock present] at inside
    rw [IR.closeBlock, (SameShape.modifyBlock ir b _).live]
    exact preds sym c pred inside
  obtain ⟨next, result, preds', shape⟩ := phiPopulates_returns (inv.close present) live place fun sym => by
    rw [flow_closeBlock present]
    simp [VarFlow.close]
  refine ⟨next, ?_, preds', (SameShape.modifyBlock ir b _).trans shape⟩
  have isOpen : block.sealed = false := by simpa using isOpen
  simp [sealBlock, present, isOpen, result]

/-- What a run of lookups keeps about the graph and its phis. -/
structure LookupInv (start ir : IR) (owner : Ref → Option Name) : Prop where
  ssa : SsaInv ir (fun sym => (start.flow sym).defined) owner []
  preds : ir.PredsPresent
  adds : AddsPhis start ir
  edges : ∀ sym, (ir.flow sym).preds = (start.flow sym).preds

theorem LookupInv.start (preds : ir.PredsPresent) (fresh : ∀ b, ir.incompletePhis b = []) :
    LookupInv ir ir fun _ => none where
  ssa := {
    stored := fun _ _ _ found => found
    merged := fun _ _ _ free found => by simp [free] at found
    phi := fun _ _ owned => by simp at owned
    waiting := fun _ _ b entry => by simp [fresh b] at entry
    queued := fun _ _ entry => by simp at entry
    covered := fun _ _ _ owned => by simp at owned }
  preds := preds
  adds := addsPhis_edits.refl ir
  edges := fun _ => rfl

/-- An allowed lookup returns and keeps the invariant. -/
theorem LookupInv.lookup {start : IR} (inv : LookupInv start ir owner) {first : Lookup}
    (allowed : ir.Allows first) :
    ∃ next owner', ir.lookup first = some next ∧ LookupInv start next owner' := by
  cases first with
  | getVar sym b =>
      obtain ⟨r, next, result, grows⟩ := getVar_returns sym inv.preds allowed
      obtain ⟨owner', ssa, evolves, -⟩ := getVar_sound inv.ssa result
      refine ⟨next, owner', by simp [IR.lookup, result], ssa, grows.predsPresent inv.preds,
        inv.adds.trans (addsPhis_edits.getVar result), fun other => ?_⟩
      rw [evolves.preds, inv.edges]
  | sealBlock b =>
      obtain ⟨next, result, preds, -⟩ := sealBlock_returns inv.ssa inv.preds allowed
      obtain ⟨owner', ssa, seals⟩ := sealBlock_sound inv.ssa result
      refine ⟨next, owner', result, ssa, preds,
        inv.adds.trans (addsPhis_edits.sealBlock AddsPhis.closeBlock result), fun other => ?_⟩
      rw [seals.preds, inv.edges]

theorem LookupInv.run {start : IR} (inv : LookupInv start ir owner) {lookups : List Lookup}
    (possible : ir.Possible lookups) :
    ∃ next owner', ir.runLookups lookups = some next ∧ LookupInv start next owner' := by
  induction lookups generalizing ir owner with
  | nil => exact ⟨ir, owner, rfl, inv⟩
  | cons first rest ih =>
      obtain ⟨middle, owner', result, inv'⟩ := inv.lookup possible.1
      have later : middle.Possible rest := by simpa [Possible, result] using possible.2
      obtain ⟨next, owner'', ran, inv''⟩ := ih inv' later
      exact ⟨next, owner'', by simp [runLookups, result, ran], inv''⟩

/-- On every finite graph with live predecessors, every sequence of lookups and seals returns and adds
at most one phi for a variable and a block. Once all blocks are sealed, each added phi has one operand
for each predecessor, in order. -/
theorem lookups_return_complete_phis (ir : IR) (lookups : List Lookup) (preds : ir.PredsPresent)
    (fresh : ∀ b, ir.incompletePhis b = []) (possible : ir.Possible lookups) :
    ∃ next, ir.runLookups lookups = some next ∧
      (∀ r, ir.instr? r = none → (next.instr? r).isSome → ∃ sym b, NewPhi ir next sym b r) ∧
      (∀ sym b r s, NewPhi ir next sym b r → NewPhi ir next sym b s → r = s) ∧
      (next.AllSealed → ∀ sym b r, NewPhi ir next sym b r → ∃ instr, next.instr? r = some instr ∧
        instr.operands.length = (ir.preds b).length ∧
        List.Forall₂ (next.flow sym).Resolves (ir.preds b) instr.operands) := by
  obtain ⟨next, owner, ran, inv⟩ := (LookupInv.start preds fresh).run possible
  have defines : ∀ {sym b r}, NewPhi ir next sym b r →
      (ir.flow sym).defined b = none ∧ (next.flow sym).defined b = some r := by
    intro sym b r phi
    obtain ⟨instr, found, _⟩ := phi.present
    obtain ⟨sym', b', phi', undefined, defined⟩ := inv.adds.added r phi.absent (by simp [found])
    obtain rfl : sym' = sym := Option.some.inj (phi'.name.symm.trans phi.name)
    obtain rfl : b' = b := Option.some.inj (phi'.home.symm.trans phi.home)
    exact ⟨undefined, defined⟩
  refine ⟨next, ran, fun r absent present => ?_, fun sym b r s one two => ?_, fun allSealed sym b r phi => ?_⟩
  · obtain ⟨sym, b, phi, -, -⟩ := inv.adds.added r absent present
    exact ⟨sym, b, phi⟩
  · exact Option.some.inj ((defines one).2.symm.trans (defines two).2)
  · obtain ⟨undefined, defined⟩ := defines phi
    obtain ⟨owned, place⟩ := inv.ssa.merged sym b r undefined defined
    have edges : (next.flow sym).preds b = ir.preds b := congrFun (inv.edges sym) b
    rcases inv.ssa.covered sym r b owned place with entry | entry | complete
    · have isOpen := (inv.ssa.waiting sym r b entry).2.2
      cases present : next.block? b with
      | none => simp [incompletePhis, present] at entry
      | some block => simp [flow, present, allSealed b block present] at isOpen
    · simp at entry
    · obtain ⟨instr, found, operands⟩ := complete.operands
      rw [edges] at operands
      exact ⟨instr, found, operands.length_eq.symm, operands⟩

/-- A sealed self-loop, a sealed cycle of two blocks that nothing enters, and an open merge of both. -/
def cyclicGraph : IR :=
  { new with blocks := [
      some ⟨"alone", fun _ => none, [0], .new, true, []⟩, some ⟨"front", fun _ => none, [2], .new, true, []⟩,
      some ⟨"back", fun _ => none, [1], .new, true, []⟩, some ⟨"merge", fun _ => none, [0, 1], .new, false, []⟩] }

def cyclicLookups : List Lookup :=
  [.getVar (.reg .AX) 3, .getVar (.reg .AX) 0, .sealBlock 3, .getVar (.reg .AX) 1, .getVar (.reg .BX) 2]

theorem cyclic_lookups_return : ∃ next, cyclicGraph.runLookups cyclicLookups = some next ∧
    (∀ r, cyclicGraph.instr? r = none → (next.instr? r).isSome → ∃ sym b, NewPhi cyclicGraph next sym b r) ∧
    (∀ sym b r s, NewPhi cyclicGraph next sym b r → NewPhi cyclicGraph next sym b s → r = s) ∧
    (next.AllSealed → ∀ sym b r, NewPhi cyclicGraph next sym b r → ∃ instr, next.instr? r = some instr ∧
      instr.operands.length = (cyclicGraph.preds b).length ∧
      List.Forall₂ (next.flow sym).Resolves (cyclicGraph.preds b) instr.operands) := by
  refine lookups_return_complete_phis cyclicGraph cyclicLookups (fun sym b pred inside => ?_) (fun b => ?_)
    (by decide)
  · rcases b with _ | _ | _ | _ | b <;> simp [flow, cyclicGraph, block?] at inside
    all_goals rcases inside with rfl | rfl <;> rfl
  · rcases b with _ | _ | _ | _ | b <;> simp [incompletePhis, cyclicGraph, block?]

end Dis86.IR
