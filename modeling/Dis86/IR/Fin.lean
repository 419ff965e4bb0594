import Dis86.IR.Flow

namespace Dis86

/-- The unwrap fails where the source panics on another kind of reference. -/
def Ref.unwrapBlock : Ref → Option BlockRef
  | .block blk => some blk
  | _ => none

/-- A value or a branch target lies in the block. -/
def Ref.mentionsBlock (target : BlockRef) : Ref → Bool
  | .instr b _ => b = target
  | .block b => b = target
  | _ => false

namespace IR

/-- A branch names the blocks it may go to. -/
def branchExits (instr : Instr) : Option (List BlockRef) :=
  match instr.opcode with
  | .retFar | .retNear => some []
  | .jmp => do return [← (← instr.operands[0]?).unwrapBlock]
  | .jne => do
      return [← (← instr.operands[1]?).unwrapBlock, ← (← instr.operands[2]?).unwrapBlock]
  | .jmpTbl => do
      guard (instr.operands ≠ [])
      instr.operands.tail.mapM Ref.unwrapBlock
  | _ => some []

/-- The trailing erased instructions are skipped. -/
def lastEffective (block : Block) : Option Instr :=
  block.data.order.reverse.findSome? fun idx =>
    (block.data.lookup idx).filter fun instr => instr.opcode ≠ .nop

/-- A block that does not branch has no exits. -/
def blockExits (ir : IR) (b : BlockRef) : Option (List BlockRef) := do
  let block ← ir.block? b
  match lastEffective block with
  | some instr => branchExits instr
  | none => return []

/-- The live instructions outside a block that have an operand of a kind. -/
def usersOutside (ir : IR) (target : BlockRef) (kind : Ref → Bool) : List Ref :=
  (ir.iterBlocks.filter (· ≠ target)).flatMap fun b => (ir.iterInstrs b).filter fun r =>
    (ir.instr? r).any fun instr => instr.opcode ≠ .nop && instr.operands.any kind

def blockRefUsers (ir : IR) (target : BlockRef) : List Ref :=
  ir.usersOutside target (Ref.mentionsBlock target)

def modifyBlocks (ir : IR) (f : Block → Block) : IR :=
  { ir with blocks := ir.blocks.map (Option.map f) }

def dropDefsIntoBlock (ir : IR) (target : BlockRef) : IR :=
  ir.modifyBlocks fun block =>
    { block with defs := fun name => (block.defs name).filter fun r => !r.mentionsBlock target }

def dropIncompletePhisIntoBlock (ir : IR) (target : BlockRef) : IR :=
  ir.modifyBlocks fun block =>
    { block with incompletePhis :=
        block.incompletePhis.filter fun entry => !entry.2.mentionsBlock target }

/-- What the caller has to grant before a block goes away. -/
structure RemovalContract (ir : IR) (target : BlockRef) : Prop where
  users : ir.blockRefUsers target = []
  defs : ∀ b block name r, ir.block? b = some block → block.defs name = some r →
    r.mentionsBlock target = false
  preds : ∀ b, target ∉ ir.preds b
  pending : ∀ b, ∀ entry ∈ ir.incompletePhis b, entry.2.mentionsBlock target = false

def blockRemove (ir : IR) (target : BlockRef) : Option IR := do
  let _ ← ir.block? target
  return { ir with blocks := ir.blocks.set target none }

def setBlock (ir : IR) (b : BlockRef) (block : Block) : IR :=
  { ir with blocks := ir.blocks.set b (some block) }

end IR

/-- The unwrap fails where the source panics on another kind of reference. -/
def Ref.unwrapSymbol : Ref → Option SymbolRef
  | .symbol symref => some symref
  | _ => none

def Ref.unwrapFunc : Ref → Option Nat
  | .func idx => some idx
  | _ => none

namespace IR

def blockInstrCount (ir : IR) (b : BlockRef) : Option Nat :=
  (ir.block? b).map fun block => block.data.count

def blockLast (ir : IR) (b : BlockRef) : Option Ref := do
  let block ← ir.block? b
  let idx ← block.data.order.getLast?
  return .instr b idx

end IR

namespace Fin

/-- A block without instructions has no exits, so it never has an edge to split. -/
def targetHasPhis (ir : IR) (b : BlockRef) : Bool :=
  (ir.iterInstrs b).any fun r => (ir.instr? r).any fun instr => instr.opcode = .phi

/-- The new block takes over one edge and jumps to its old target. -/
def insertBlock (num : Nat) (ir : IR) (blkref : BlockRef) (r : Ref) (operIdx : Nat) :
    Option (BlockRef × IR) := do
  let instr ← ir.instr? r
  let dest ← instr.operands[operIdx]?
  let (new, ir) := ir.addBlock ("phi_" ++ ("".pushn '0' (4 - (toString num).length)) ++ toString num)
  let ir := ir.modifyBlock new fun block => { block with sealed := true, preds := [blkref] }
  let (_, ir) ← ir.blockInstrAppend new ⟨.void, none, Attribute.NONE, .jmp, [dest]⟩
  let ir := ir.modifyInstr r fun instr => { instr with operands := instr.operands.set operIdx (.block new) }
  let target ← dest.unwrapBlock
  let ir := ir.modifyBlock target fun block =>
    { block with preds := block.preds.map fun pred => if pred = blkref then new else pred }
  return (new, ir)

/-- The state of one pass over the exits of a block: the next number, the function, and the new
block of each exit that already has one. -/
structure Splitting where
  num : Nat
  ir : IR
  oldToNew : List (BlockRef × BlockRef)

def splitExit (blkref : BlockRef) (r : Ref) (state : Splitting) (exit : BlockRef × Nat) :
    Option Splitting :=
  match state.oldToNew.lookup exit.1 with
  | some new =>
      some { state with ir := state.ir.modifyInstr r fun instr =>
        { instr with operands := instr.operands.set (exit.2 + 1) (.block new) } }
  | none =>
      if targetHasPhis state.ir exit.1 then do
        let (new, ir) ← insertBlock state.num state.ir blkref r (exit.2 + 1)
        return ⟨state.num + 1, ir, (exit.1, new) :: state.oldToNew⟩
      else some state

/-- Only a block with several exits needs blocks in between. -/
def splitBlock (state : Nat × IR) (blkref : BlockRef) : Option (Nat × IR) := do
  let (num, ir) := state
  if (← ir.blockInstrCount blkref) = 0 then return (num, ir)
  let r ← ir.blockLast blkref
  let exits ← ir.blockExits blkref
  if exits.length ≤ 1 then return (num, ir)
  let state ← exits.zipIdx.foldlM (splitExit blkref r) ⟨num, ir, []⟩
  return (state.num, state.ir)

/-- The pass splits the edges from a conditional jump or a jump table into a block with phis. -/
def insertIntermediatePhiBlocks (ir : IR) : Option IR := do
  let (_, ir) ← ir.iterBlocks.foldlM splitBlock (0, ir)
  return ir

def finalize (ir : IR) : Option IR := insertIntermediatePhiBlocks ir

end Fin

end Dis86
