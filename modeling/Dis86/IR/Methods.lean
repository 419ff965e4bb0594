import Dis86.IR.Def
import Mathlib.Logic.Function.Basic
import Mathlib.Tactic.Common

namespace Dis86

/-- A number keeps its name only until the next definition of the same value. -/
def IR.setName (ir : IR) (name : Name) (r : Ref) : IR :=
  let idx := (ir.nameNext name).getD 1
  { ir with
    nameNext := Function.update ir.nameNext name (some (idx + 1))
    names := Function.update ir.names r (some ⟨name, idx⟩) }

namespace IR

def new : IR := ⟨[], .new, [], fun _ => none, fun _ => none, []⟩

/-- The lookup fails where the source panics on a removed block. -/
def block? (ir : IR) (b : BlockRef) : Option Block := ir.blocks.getD b none

def modifyBlock (ir : IR) (b : BlockRef) (f : Block → Block) : IR :=
  { ir with blocks := ir.blocks.modify b (Option.map f) }

theorem block?_modifyBlock (ir : IR) (b c : BlockRef) (f : Block → Block) :
    (ir.modifyBlock b f).block? c = if c = b then (ir.block? b).map f else ir.block? c := by
  simp only [block?, modifyBlock, List.getD_eq_getElem?_getD, List.getElem?_modify]
  by_cases same : c = b
  · subst same
    cases ir.blocks[c]? <;> simp
  · have away : b ≠ c := fun h => same h.symm
    cases ir.blocks[c]? <;> simp [same, away]

@[simp] theorem block?_modifyBlock_self (ir : IR) (b : BlockRef) (f : Block → Block) :
    (ir.modifyBlock b f).block? b = (ir.block? b).map f := by
  simp [block?_modifyBlock]

@[simp] theorem block?_setName (ir : IR) (name : Name) (r : Ref) (b : BlockRef) :
    (ir.setName name r).block? b = ir.block? b := rfl

@[simp] theorem blocks_length_modifyBlock (ir : IR) (b : BlockRef) (f : Block → Block) :
    (ir.modifyBlock b f).blocks.length = ir.blocks.length := by
  simp [modifyBlock]

/-- A new block has no predecessors yet and is open. -/
def addBlock (ir : IR) (name : String) : BlockRef × IR :=
  (ir.blocks.length,
    { ir with blocks := ir.blocks ++ [some ⟨name, fun _ => none, [], .new, false, []⟩] })

/-- A new block is the only block that appears. -/
theorem block?_addBlock (ir : IR) (name : String) (b : BlockRef) :
    (ir.addBlock name).2.block? b = ir.block? b ∨ ir.block? b = none ∧
      (ir.addBlock name).2.block? b = some ⟨name, fun _ => none, [], .new, false, []⟩ := by
  simp only [addBlock, block?, List.getD_eq_getElem?_getD]
  rcases Nat.lt_trichotomy b ir.blocks.length with inside | last | beyond
  · left
    rw [List.getElem?_append_left inside]
  · right
    subst last
    simp
  · left
    rw [List.getElem?_eq_none (by simp; omega), List.getElem?_eq_none (by omega)]

/-- The predecessors are a plain field that a client edits. -/
def setPreds (ir : IR) (b : BlockRef) (preds : List BlockRef) : IR :=
  ir.modifyBlock b fun block => { block with preds }

def iterBlocks (ir : IR) : List BlockRef :=
  (List.range ir.blocks.length).filter fun b => (ir.block? b).isSome

def iterInstrs (ir : IR) (b : BlockRef) : List Ref :=
  match ir.block? b with
  | some block => block.data.order.map (.instr b)
  | none => []

def instr? (ir : IR) : Ref → Option Instr
  | .instr b idx => (ir.block? b).bind fun block => block.data.lookup idx
  | _ => none

def modifyInstr (ir : IR) (r : Ref) (f : Instr → Instr) : IR :=
  match r with
  | .instr b idx => ir.modifyBlock b fun block => { block with data := block.data.modify idx f }
  | _ => ir

/-- An insertion fails only on a removed block. -/
def blockInstrInsert (ir : IR) (b : BlockRef) (instr : Instr) (loc : Loc) : Option (Ref × IR) :=
  (ir.block? b).map fun block =>
    let (idx, data) := block.data.insert instr loc
    (.instr b idx, ir.modifyBlock b fun block => { block with data })

def blockInstrAppend (ir : IR) (b : BlockRef) (instr : Instr) : Option (Ref × IR) :=
  ir.blockInstrInsert b instr .last

def blockInstrPrepend (ir : IR) (b : BlockRef) (instr : Instr) : Option (Ref × IR) :=
  ir.blockInstrInsert b instr .first

/-- Equal constants share one reference. -/
def constNew (ir : IR) (val : BitVec 16) : Ref × IR :=
  match ir.consts.findIdx? (· = val) with
  | some idx => (.const idx, ir)
  | none => (.const ir.consts.length, { ir with consts := ir.consts ++ [val] })

def constLookup (ir : IR) : Ref → Option (BitVec 16)
  | .const idx => ir.consts[idx]?
  | _ => none

/-- A definition replaces the value of the variable in its block and numbers the new value. -/
def setVar (ir : IR) (sym : Name) (b : BlockRef) (r : Ref) : Option IR :=
  (ir.block? b).map fun _ =>
    (ir.modifyBlock b fun block =>
      { block with defs := Function.update block.defs sym (some r) }).setName sym r

/-- An empty phi stands first in its block and defines the variable there. -/
def phiCreate (ir : IR) (sym : Name) (b : BlockRef) : Option (Ref × IR) := do
  let (vref, ir) ← ir.blockInstrPrepend b ⟨.u16, none, Attribute.NONE, .phi, []⟩
  let ir ← ir.setVar sym b vref
  return (vref, ir)

/-- The reads run in order and each one may change the function. -/
def getVars (get : IR → BlockRef → Option (Ref × IR)) :
    IR → List BlockRef → Option (List Ref × IR)
  | ir, [] => some ([], ir)
  | ir, pred :: rest => do
      let (r, ir) ← get ir pred
      let (refs, ir) ← getVars get ir rest
      return (r :: refs, ir)

/-- A phi receives one operand for each predecessor. -/
def phiPopulateWith (get : IR → BlockRef → Option (Ref × IR)) (ir : IR) (phi : Ref) :
    Option IR := do
  let .instr b _ := phi | none
  let block ← ir.block? b
  let instr ← ir.instr? phi
  guard (instr.opcode = .phi)
  let (refs, ir) ← getVars get ir block.preds
  return ir.modifyInstr phi fun instr => { instr with operands := refs }

/-- The pending phi waits until its block is sealed. -/
def pushIncompletePhi (ir : IR) (sym : Name) (b : BlockRef) (phi : Ref) : IR :=
  ir.modifyBlock b fun block => { block with incompletePhis := block.incompletePhis ++ [(sym, phi)] }

/-- The search walks single predecessors and stops at a definition, an open block,
a merge point, or a block it has already seen. The fuel pays for walking and for recursion. -/
def getVarLoop (sym : Name) : Nat → IR → List BlockRef → BlockRef → Option (Ref × IR)
  | 0, _, _, _ => none
  | fuel + 1, ir, visited, b => do
      let block ← ir.block? b
      match block.defs sym with
      | some val => return (val, ir)
      | none =>
        if block.sealed then
          let populate := do
            let (phi, ir) ← ir.phiCreate sym b
            let ir ← phiPopulateWith (fun ir pred => getVarLoop sym fuel ir [] pred) ir phi
            return (phi, ir)
          match block.preds with
          | [parent] =>
              if b ∈ visited then populate
              else getVarLoop sym fuel ir (b :: visited) parent
          | _ => populate
        else
          let (phi, ir) ← ir.phiCreate sym b
          return (phi, ir.pushIncompletePhi sym b phi)

/-- This fuel is enough for every search, since each phi defines one more block. -/
def getVarFuel (ir : IR) : Nat := (ir.blocks.length + 1) * (ir.blocks.length + 2)

def getVar (ir : IR) (sym : Name) (b : BlockRef) : Option (Ref × IR) :=
  getVarLoop sym ir.getVarFuel ir [] b

def phiPopulate (ir : IR) (sym : Name) (phi : Ref) : Option IR :=
  phiPopulateWith (fun ir pred => ir.getVar sym pred) ir phi

def phiPopulates : IR → List (Name × Ref) → Option IR
  | ir, [] => some ir
  | ir, (sym, phi) :: rest => do phiPopulates (← ir.phiPopulate sym phi) rest

def closeBlock (ir : IR) (b : BlockRef) : IR :=
  ir.modifyBlock b fun block => { block with sealed := true, incompletePhis := [] }

/-- A sealed block accepts no more predecessors, so its pending phis get their operands. -/
def sealBlock (ir : IR) (b : BlockRef) : Option IR := do
  let block ← ir.block? b
  guard (!block.sealed)
  phiPopulates (ir.closeBlock b) block.incompletePhis

def unsealAllBlocks (ir : IR) : IR :=
  ir.iterBlocks.foldl (fun ir b => ir.modifyBlock b fun block => { block with sealed := false }) ir

def sealAllBlocks (ir : IR) : Option IR :=
  ir.iterBlocks.foldlM sealBlock ir

/-- The use count covers the operands of every live instruction. -/
def computeUses (ir : IR) (r : Ref) : Nat :=
  ((ir.iterBlocks.flatMap ir.iterInstrs).map fun user =>
    match ir.instr? user with
    | some instr => instr.operands.count r
    | none => 0).sum

end IR

end Dis86
