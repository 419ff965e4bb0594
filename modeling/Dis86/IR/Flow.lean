import Dis86.IR.Methods
import Dis86.Lib.FlowRun
import Mathlib.Data.List.Nodup

namespace Dis86.IR
open Lib

/-- The construction sees one variable through the definitions and edges of the blocks. -/
def flow (ir : IR) (sym : Name) : VarFlow BlockRef Ref where
  defined b := (ir.block? b).bind fun block => block.defs sym
  closed b := (ir.block? b).any fun block => block.sealed
  preds b := ((ir.block? b).map fun block => block.preds).getD []

def preds (ir : IR) (b : BlockRef) : List BlockRef :=
  ((ir.block? b).map fun block => block.preds).getD []

theorem flow_preds (ir : IR) (sym : Name) (b : BlockRef) : (ir.flow sym).preds b = ir.preds b := rfl

def incompletePhis (ir : IR) (b : BlockRef) : List (Name × Ref) :=
  ((ir.block? b).map fun block => block.incompletePhis).getD []

/-- Only instruction results belong to a block. -/
def home : Ref → Option BlockRef
  | .instr b _ => some b
  | _ => none

/-- An empty phi is filled once its block is sealed. -/
def emptyPhi : Instr := ⟨.u16, none, Attribute.NONE, .phi, []⟩

/-- Two functions have the same tables and the same live blocks. -/
structure SameShape (ir next : IR) : Prop where
  consts : next.consts = ir.consts
  symbols : next.symbols = ir.symbols
  funcs : next.funcs = ir.funcs
  length : next.blocks.length = ir.blocks.length
  live : ∀ b, (next.block? b).isSome = (ir.block? b).isSome

section Views

variable {ir next : IR}

theorem block?_lt {b : BlockRef} (present : (ir.block? b).isSome) : b < ir.blocks.length := by
  by_contra beyond
  have missing : ir.blocks[b]? = none := List.getElem?_eq_none (Nat.le_of_not_lt beyond)
  simp [block?, List.getD_eq_getElem?_getD, missing] at present

theorem mem_iterBlocks {b : BlockRef} : b ∈ ir.iterBlocks ↔ (ir.block? b).isSome := by
  constructor
  · intro inside
    exact (List.mem_filter.mp inside).2
  · intro present
    simp [iterBlocks, block?_lt present, present]

theorem closed_mem_iterBlocks {sym : Name} {b : BlockRef} (isSealed : (ir.flow sym).closed b = true) :
    b ∈ ir.iterBlocks := by
  simp only [flow, Option.any_eq_true] at isSealed
  obtain ⟨block, present, _⟩ := isSealed
  exact mem_iterBlocks.mpr (by simp [present])

theorem SameShape.refl (ir : IR) : SameShape ir ir := ⟨rfl, rfl, rfl, rfl, fun _ => rfl⟩

theorem SameShape.trans {third : IR} (first : SameShape ir next) (second : SameShape next third) :
    SameShape ir third where
  consts := second.consts.trans first.consts
  symbols := second.symbols.trans first.symbols
  funcs := second.funcs.trans first.funcs
  length := second.length.trans first.length
  live := fun b => (second.live b).trans (first.live b)

theorem SameShape.iterBlocks (same : SameShape ir next) : next.iterBlocks = ir.iterBlocks := by
  simp only [IR.iterBlocks, same.length, same.live]

theorem SameShape.modifyBlock (ir : IR) (b : BlockRef) (f : Block → Block) :
    SameShape ir (ir.modifyBlock b f) where
  consts := rfl
  symbols := rfl
  funcs := rfl
  length := blocks_length_modifyBlock ir b f
  live := fun c => by
    rw [block?_modifyBlock]
    split
    · subst c
      simp
    · rfl

theorem SameShape.setName (ir : IR) (name : Name) (r : Ref) : SameShape ir (ir.setName name r) :=
  ⟨rfl, rfl, rfl, rfl, fun _ => rfl⟩

theorem SameShape.modifyInstr (ir : IR) (r : Ref) (f : Instr → Instr) :
    SameShape ir (ir.modifyInstr r f) := by
  cases r with
  | instr b idx => exact .modifyBlock ir b _
  | _ => exact .refl ir

theorem SameShape.setVar {sym : Name} {b : BlockRef} {r : Ref} (stored : ir.setVar sym b r = some next) :
    SameShape ir next := by
  simp only [IR.setVar, Option.map_eq_some_iff] at stored
  obtain ⟨block, _, rfl⟩ := stored
  exact (SameShape.modifyBlock ir b _).trans (.setName _ sym r)

/-- A change of a block that keeps its order keeps the order of every block. -/
theorem iterInstrs_modifyBlock_same (ir : IR) (b : BlockRef) (f : Block → Block)
    (same : ∀ block, (f block).data.order = block.data.order) (c : BlockRef) :
    (ir.modifyBlock b f).iterInstrs c = ir.iterInstrs c := by
  simp only [iterInstrs, block?_modifyBlock]
  by_cases here : c = b
  · subst here
    cases ir.block? c <;> simp [same]
  · simp [here]

theorem iterInstrs_modifyInstr (ir : IR) (r : Ref) (f : Instr → Instr) (b : BlockRef) :
    (ir.modifyInstr r f).iterInstrs b = ir.iterInstrs b := by
  cases r with
  | instr c idx =>
      apply iterInstrs_modifyBlock_same
      exact fun _ => rfl
  | _ => rfl

theorem iterInstrs_setVar {sym : Name} {b : BlockRef} {r : Ref} (stored : ir.setVar sym b r = some next)
    (c : BlockRef) : next.iterInstrs c = ir.iterInstrs c := by
  simp only [setVar, Option.map_eq_some_iff] at stored
  obtain ⟨block, _, rfl⟩ := stored
  change (ir.modifyBlock b _).iterInstrs c = ir.iterInstrs c
  apply iterInstrs_modifyBlock_same
  exact fun _ => rfl

theorem mem_iterInstrs {b : BlockRef} {r : Ref} (inside : r ∈ ir.iterInstrs b) : home r = some b := by
  simp only [iterInstrs] at inside
  split at inside
  · obtain ⟨idx, _, rfl⟩ := List.mem_map.mp inside
    rfl
  · simp at inside

/-- Every listed instruction exists. -/
theorem mem_iterInstrs_instr? {b : BlockRef} {r : Ref} (inside : r ∈ ir.iterInstrs b) :
    (ir.instr? r).isSome := by
  simp only [iterInstrs] at inside
  split at inside
  · rename_i block present
    obtain ⟨idx, listed, rfl⟩ := List.mem_map.mp inside
    simp [instr?, present, InstrData.lookup, block.data.bounded idx listed]
  · simp at inside

/-- No instruction is listed twice. -/
theorem iterInstrs_nodup (ir : IR) (b : BlockRef) : (ir.iterInstrs b).Nodup := by
  simp only [iterInstrs]
  split
  · rename_i block _
    refine List.Nodup.map (fun first second same => ?_) block.data.distinct
    simpa using same
  · exact .nil

/-- An insertion before an instruction splits the order of the block there. -/
theorem iterInstrs_insert {ir₁ : IR} {b : BlockRef} {instr : Instr} {loc : Loc} {r : Ref}
    {pre post : List Ref} (inserted : ir.blockInstrInsert b instr loc = some (r, ir₁))
    (split : ir.iterInstrs b = pre ++ post)
    (spot : loc = .last ∧ post = [] ∨ ∃ idx rest, loc = .before idx ∧ post = .instr b idx :: rest) :
    ir₁.iterInstrs b = pre ++ r :: post := by
  obtain ⟨block, present, same⟩ := Option.map_eq_some_iff.mp inserted
  obtain ⟨rfl, rfl⟩ := Prod.mk.inj same
  have distinct := block.data.distinct
  have old : ir.iterInstrs b = block.data.order.map (.instr b) := by rw [iterInstrs, present]
  have new : (ir.modifyBlock b fun block' =>
      { block' with data := (block.data.insert instr loc).2 }).iterInstrs b =
        (insertAt block.data.instrs.length block.data.order loc).map (.instr b) := by
    rw [iterInstrs, block?_modifyBlock_self, present]
    rfl
  rw [old] at split
  apply new.trans
  rcases spot with ⟨rfl, rfl⟩ | ⟨idx, rest, rfl, rfl⟩
  · rw [insertAt, List.map_append, split, List.append_nil]
    rfl
  · obtain ⟨p, q, order, rfl, tail⟩ := List.map_eq_append_iff.mp split
    obtain ⟨idx', q', rfl, here, rfl⟩ := List.map_eq_cons_iff.mp tail
    obtain rfl : idx' = idx := by injection here
    have apart : idx' ∉ p := by
      rw [order, List.nodup_append] at distinct
      exact fun inside => distinct.2.2 idx' inside idx' List.mem_cons_self rfl
    rw [insertAt, order, insertBefore_split apart, List.map_append]
    rfl

theorem iterInstrs_insert_away {ir₁ : IR} {b c : BlockRef} {instr : Instr} {loc : Loc} {r : Ref}
    (inserted : ir.blockInstrInsert b instr loc = some (r, ir₁)) (away : c ≠ b) :
    ir₁.iterInstrs c = ir.iterInstrs c := by
  obtain ⟨block, _, same⟩ := Option.map_eq_some_iff.mp inserted
  obtain ⟨rfl, rfl⟩ := Prod.mk.inj same
  rw [iterInstrs, iterInstrs, block?_modifyBlock, if_neg away]

@[simp] theorem flow_setName (ir : IR) (name : Name) (r : Ref) (sym : Name) :
    (ir.setName name r).flow sym = ir.flow sym := rfl

@[simp] theorem incompletePhis_setName (ir : IR) (name : Name) (r : Ref) (b : BlockRef) :
    (ir.setName name r).incompletePhis b = ir.incompletePhis b := rfl

@[simp] theorem instr?_setName (ir : IR) (name : Name) (r s : Ref) :
    (ir.setName name r).instr? s = ir.instr? s := by
  cases s <;> rfl

/-- A change of a block that keeps its definitions and edges keeps every flow. -/
theorem flow_modifyBlock_same (ir : IR) (b : BlockRef) (f : Block → Block)
    (defs : ∀ block, (f block).defs = block.defs) (isSealed : ∀ block, (f block).sealed = block.sealed)
    (preds : ∀ block, (f block).preds = block.preds) (sym : Name) :
    (ir.modifyBlock b f).flow sym = ir.flow sym := by
  simp only [flow, VarFlow.mk.injEq]
  refine ⟨?_, ?_, ?_⟩ <;> funext c <;> rw [block?_modifyBlock] <;> split
  · subst c
    cases ir.block? b <;> simp [defs]
  · rfl
  · subst c
    cases ir.block? b <;> simp [isSealed]
  · rfl
  · subst c
    cases ir.block? b <;> simp [preds]
  · rfl

/-- A change of a block that keeps its pending phis keeps all pending phis. -/
theorem incompletePhis_modifyBlock_same (ir : IR) (b : BlockRef) (f : Block → Block)
    (same : ∀ block, (f block).incompletePhis = block.incompletePhis) (c : BlockRef) :
    (ir.modifyBlock b f).incompletePhis c = ir.incompletePhis c := by
  simp only [incompletePhis, block?_modifyBlock]
  split
  · subst c
    cases ir.block? b <;> simp [same]
  · rfl

/-- A change of a block that keeps its instructions keeps all instructions. -/
theorem instr?_modifyBlock_same (ir : IR) (b : BlockRef) (f : Block → Block)
    (same : ∀ block, (f block).data = block.data) (r : Ref) :
    (ir.modifyBlock b f).instr? r = ir.instr? r := by
  cases r with
  | instr c idx =>
      simp only [instr?, block?_modifyBlock]
      split
      · subst c
        cases ir.block? b <;> simp [same]
      · rfl
  | _ => rfl

theorem flow_modifyInstr (ir : IR) (r : Ref) (f : Instr → Instr) (sym : Name) :
    (ir.modifyInstr r f).flow sym = ir.flow sym := by
  cases r with
  | instr b idx =>
      apply flow_modifyBlock_same <;> exact fun _ => rfl
  | _ => rfl

theorem incompletePhis_modifyInstr (ir : IR) (r : Ref) (f : Instr → Instr) (b : BlockRef) :
    (ir.modifyInstr r f).incompletePhis b = ir.incompletePhis b := by
  cases r with
  | instr c idx =>
      apply incompletePhis_modifyBlock_same
      exact fun _ => rfl
  | _ => rfl

theorem instr?_modifyInstr (ir : IR) (r s : Ref) (f : Instr → Instr) :
    (ir.modifyInstr r f).instr? s = if s = r then (ir.instr? r).map f else ir.instr? s := by
  cases r with
  | instr b idx =>
      cases s with
      | instr c jdx =>
          simp only [modifyInstr, instr?, block?_modifyBlock, Ref.instr.injEq]
          by_cases sameBlock : c = b
          · subst sameBlock
            cases ir.block? c with
            | none => simp
            | some block =>
                by_cases sameIdx : jdx = idx
                · simp [sameIdx, InstrData.lookup, InstrData.modify]
                · have away : idx ≠ jdx := fun h => sameIdx h.symm
                  simp [sameIdx, away, InstrData.lookup, InstrData.modify]
          · simp [sameBlock]
      | _ => simp [instr?]
  | _ =>
      simp only [modifyInstr]
      split
      · subst s
        simp [instr?]
      · rfl

/-- An insertion leaves every flow, every pending phi, and every older instruction as it was. -/
theorem blockInstrInsert_view {b : BlockRef} {instr : Instr} {loc : Loc} {r : Ref}
    (inserted : ir.blockInstrInsert b instr loc = some (r, next)) :
    home r = some b ∧ ir.instr? r = none ∧
      (∀ s, next.instr? s = if s = r then some instr else ir.instr? s) ∧
      (∀ sym, next.flow sym = ir.flow sym) ∧ next.incompletePhis = ir.incompletePhis := by
  simp only [blockInstrInsert, Option.map_eq_some_iff, Prod.mk.injEq] at inserted
  obtain ⟨block, present, rfl, rfl⟩ := inserted
  refine ⟨rfl, ?_, ?_, ?_, ?_⟩
  · simp [instr?, present, InstrData.insert, InstrData.lookup]
  · intro s
    cases s with
    | instr c idx =>
        simp only [instr?, block?_modifyBlock, Ref.instr.injEq]
        by_cases sameBlock : c = b
        · subst sameBlock
          simp only [present, if_true, Option.map_some, Option.bind_some, InstrData.insert,
            InstrData.lookup, true_and]
          rw [List.getElem?_append]
          split
          · have away : idx ≠ block.data.instrs.length := by omega
            simp [away]
          · by_cases last : idx = block.data.instrs.length
            · simp [last]
            · have beyond : block.data.instrs.length < idx := by omega
              rw [List.getElem?_eq_none (by simp; omega), List.getElem?_eq_none (by omega)]
              simp [last]
        · simp [sameBlock]
    | _ => simp [instr?, InstrData.insert]
  · intro sym
    apply flow_modifyBlock_same <;> exact fun _ => rfl
  · funext c
    apply incompletePhis_modifyBlock_same
    exact fun _ => rfl

/-- A store of a variable defines it in its block and changes nothing else. -/
theorem setVar_view {sym : Name} {b : BlockRef} {r : Ref} (stored : ir.setVar sym b r = some next) :
    next.flow sym = (ir.flow sym).define b r ∧ (∀ other, other ≠ sym → next.flow other = ir.flow other) ∧
      (∀ s, next.instr? s = ir.instr? s) ∧ next.incompletePhis = ir.incompletePhis := by
  simp only [setVar, Option.map_eq_some_iff] at stored
  obtain ⟨block, present, rfl⟩ := stored
  refine ⟨?_, ?_, ?_, ?_⟩
  · simp only [flow, VarFlow.define, VarFlow.mk.injEq]
    refine ⟨?_, ?_, ?_⟩ <;> funext c <;> rw [block?_setName, block?_modifyBlock]
    · by_cases same : c = b
      · subst same
        simp [present]
      · simp [same]
    · split
      · subst c
        simp [present]
      · rfl
    · split
      · subst c
        simp [present]
      · rfl
  · intro other different
    simp only [flow, VarFlow.mk.injEq]
    refine ⟨?_, ?_, ?_⟩ <;> funext c <;> rw [block?_setName, block?_modifyBlock] <;> split
    · subst c
      simp [present, Function.update_of_ne different]
    · rfl
    · subst c
      simp [present]
    · rfl
    · subst c
      simp [present]
    · rfl
  · intro s
    rw [instr?_setName]
    apply instr?_modifyBlock_same
    exact fun _ => rfl
  · funext c
    rw [incompletePhis_setName]
    apply incompletePhis_modifyBlock_same
    exact fun _ => rfl

theorem phiCreate_eq {b : BlockRef} {block : Block} (sym : Name) (found : ir.block? b = some block) :
    ir.phiCreate sym b = some (.instr b block.data.instrs.length,
      ((ir.modifyBlock b fun old => { old with data := (block.data.insert emptyPhi .first).2 }).modifyBlock b
        fun old => { old with
          defs := Function.update old.defs sym (some (.instr b block.data.instrs.length)) }).setName sym
        (.instr b block.data.instrs.length)) := by
  simp [phiCreate, blockInstrPrepend, blockInstrInsert, found, setVar, InstrData.insert, emptyPhi]

/-- What a new phi adds to a function. -/
structure PhiCreated (ir : IR) (sym : Name) (b : BlockRef) (phi : Ref) (next : IR) : Prop where
  shape : SameShape ir next
  order : ∀ c, next.iterInstrs c = if c = b then phi :: ir.iterInstrs c else ir.iterInstrs c
  home : home phi = some b
  fresh : ir.instr? phi = none
  instr? : ∀ s, next.instr? s = if s = phi then some emptyPhi else ir.instr? s
  flow : next.flow sym = (ir.flow sym).define b phi
  flowOther : ∀ other, other ≠ sym → next.flow other = ir.flow other
  incompletePhis : next.incompletePhis = ir.incompletePhis

theorem phiCreate_order {sym : Name} {b : BlockRef} {phi : Ref}
    (created : ir.phiCreate sym b = some (phi, next)) : SameShape ir next ∧
      ∀ c, next.iterInstrs c = if c = b then phi :: ir.iterInstrs c else ir.iterInstrs c := by
  cases found : ir.block? b with
  | none => simp [phiCreate, blockInstrPrepend, blockInstrInsert, found] at created
  | some block =>
      rw [phiCreate_eq sym found] at created
      simp only [Option.some.injEq, Prod.mk.injEq] at created
      obtain ⟨rfl, rfl⟩ := created
      refine ⟨((SameShape.modifyBlock ir b _).trans (.modifyBlock _ b _)).trans (.setName _ sym _), ?_⟩
      intro c
      simp only [iterInstrs, block?_setName, block?_modifyBlock]
      by_cases same : c = b
      · subst same
        simp [found, InstrData.insert, insertAt]
      · simp [same]

theorem phiCreate_created {sym : Name} {b : BlockRef} {phi : Ref}
    (created : ir.phiCreate sym b = some (phi, next)) : PhiCreated ir sym b phi next := by
  obtain ⟨shape, order⟩ := phiCreate_order created
  simp only [phiCreate, blockInstrPrepend, Option.bind_eq_bind, Option.bind_eq_some_iff,
    Option.pure_def, Option.some.injEq, Prod.mk.injEq, Prod.exists] at created
  obtain ⟨_, middle, inserted, _, stored, rfl, rfl⟩ := created
  obtain ⟨place, fresh, instrs, flows, pending⟩ := blockInstrInsert_view inserted
  obtain ⟨flowSelf, flowOther, instrs', pending'⟩ := setVar_view stored
  exact {
    shape := shape
    order := order
    home := place
    fresh := fresh
    instr? := fun s => (instrs' s).trans (instrs s)
    flow := by rw [flowSelf, flows]
    flowOther := fun other different => (flowOther other different).trans (flows other)
    incompletePhis := pending'.trans pending }

theorem flow_pushIncompletePhi (ir : IR) (sym : Name) (b : BlockRef) (phi : Ref) (other : Name) :
    (ir.pushIncompletePhi sym b phi).flow other = ir.flow other := by
  apply flow_modifyBlock_same <;> exact fun _ => rfl

theorem instr?_pushIncompletePhi (ir : IR) (sym : Name) (b : BlockRef) (phi s : Ref) :
    (ir.pushIncompletePhi sym b phi).instr? s = ir.instr? s := by
  apply instr?_modifyBlock_same
  exact fun _ => rfl

/-- A pending phi is pushed only onto its own block. -/
theorem mem_pushIncompletePhi {ir : IR} {sym : Name} {b : BlockRef} {phi : Ref} {c : BlockRef}
    {entry : Name × Ref} (present : (ir.block? b).isSome) :
    entry ∈ (ir.pushIncompletePhi sym b phi).incompletePhis c ↔
      entry ∈ ir.incompletePhis c ∨ (c = b ∧ entry = (sym, phi)) := by
  obtain ⟨block, found⟩ := Option.isSome_iff_exists.mp present
  simp only [incompletePhis, pushIncompletePhi, block?_modifyBlock]
  by_cases same : c = b
  · subst same
    simp [found]
  · simp [same]

theorem flow_closeBlock {b : BlockRef} {block : Block} (present : ir.block? b = some block)
    (sym : Name) : (ir.closeBlock b).flow sym = (ir.flow sym).close b := by
  simp only [flow, VarFlow.close, closeBlock, VarFlow.mk.injEq]
  refine ⟨?_, ?_, ?_⟩ <;> funext c <;> rw [block?_modifyBlock]
  · split
    · subst c
      simp [present]
    · rfl
  · by_cases same : c = b
    · subst same
      simp [present]
    · simp [same]
  · split
    · subst c
      simp [present]
    · rfl

theorem instr?_closeBlock (ir : IR) (b : BlockRef) (r : Ref) :
    (ir.closeBlock b).instr? r = ir.instr? r := by
  apply instr?_modifyBlock_same
  exact fun _ => rfl

theorem incompletePhis_closeBlock (ir : IR) (b c : BlockRef) :
    (ir.closeBlock b).incompletePhis c = if c = b then [] else ir.incompletePhis c := by
  simp only [incompletePhis, closeBlock, block?_modifyBlock]
  split
  · cases ir.block? b <;> rfl
  · rfl

/-- Reopening a list of blocks reopens exactly the blocks of the list. -/
theorem block?_unseal (blocks : List BlockRef) (b : BlockRef) :
    (blocks.foldl (fun ir b => ir.modifyBlock b fun block => { block with sealed := false }) ir).block? b =
      if b ∈ blocks then (ir.block? b).map fun block => { block with sealed := false }
      else ir.block? b := by
  induction blocks generalizing ir with
  | nil => simp
  | cons first rest ih =>
      rw [List.foldl_cons, ih, block?_modifyBlock]
      by_cases same : b = first
      · subst same
        by_cases again : b ∈ rest
        · simp [again, Function.comp_def]
        · simp [again]
      · simp [same]

theorem block?_unsealAllBlocks (ir : IR) (b : BlockRef) : (ir.unsealAllBlocks).block? b =
    (ir.block? b).map fun block => { block with sealed := false } := by
  rw [unsealAllBlocks, block?_unseal]
  split
  · rfl
  · rename_i out
    rw [mem_iterBlocks] at out
    simp only [Bool.not_eq_true, Option.isSome_eq_false_iff, Option.isNone_iff_eq_none] at out
    simp [out]

theorem SameShape.unseal (ir : IR) (blocks : List BlockRef) : SameShape ir
    (blocks.foldl (fun ir b => ir.modifyBlock b fun block => { block with sealed := false }) ir) := by
  induction blocks generalizing ir with
  | nil => exact .refl ir
  | cons first rest ih => exact (SameShape.modifyBlock ir first _).trans (ih _)

end Views

/-- The operands of an instruction. Other values have none. -/
def valueOperands (ir : IR) (r : Ref) : List Ref := ((ir.instr? r).map Instr.operands).getD []

/-- All instructions that are stored in a block. -/
def blockInstrs (ir : IR) (b : BlockRef) : List Ref :=
  ((ir.block? b).map fun block => (List.range block.data.instrs.length).map (Ref.instr b)).getD []

def allInstrs (ir : IR) : List Ref := (List.range ir.blocks.length).flatMap ir.blockInstrs

theorem mem_allInstrs {ir : IR} {r : Ref} {instr : Instr} (found : ir.instr? r = some instr) :
    r ∈ ir.allInstrs := by
  cases r with
  | instr b idx =>
      obtain ⟨block, present, here⟩ := Option.bind_eq_some_iff.mp found
      have inside : b < ir.blocks.length := block?_lt (Option.isSome_of_mem present)
      have stored : idx < block.data.instrs.length := (List.getElem?_eq_some_iff.mp here).1
      apply List.mem_flatMap.mpr
      refine ⟨b, List.mem_range.mpr inside, ?_⟩
      rw [blockInstrs, present, Option.map_some, Option.getD_some]
      exact List.mem_map_of_mem (List.mem_range.mpr stored)
  | const | init | block | symbol | func => cases found

end Dis86.IR
