import Dis86.IR.Fin
import Dis86.Lib.Search
import Dis86.Lib.Splice

namespace Dis86.Opt
open Lib

/-- A pure producer may go with a block on which it depends. -/
def isNopableConsumer (instr : Instr) : Bool :=
  !instr.opcode.hasSideEffects && instr.attrs &&& Attribute.PIN == 0 &&
    !(instr.opcode matches .writeArr8 | .writeArr16) &&
    !(instr.opcode matches .nop | .phi | .jmp | .jne | .jmpTbl | .retFar | .retNear)

/-- An operand that a phi has lost together with an edge. -/
structure Removed where
  phi : Nat
  idx : Nat
  operand : Ref
deriving DecidableEq, Repr

def dropOperand (idx : Nat) (instr : Instr) : Instr :=
  { instr with operands := instr.operands.eraseIdx idx }

def putOperand (idx : Nat) (operand : Ref) (instr : Instr) : Instr :=
  { instr with operands := instr.operands.insertIdx idx operand }

/-- Each phi that is long enough loses the operand. -/
def removeOperand (idx : Nat) : List Nat → InstrData → InstrData × List Removed
  | [], data => (data, [])
  | phi :: order, data =>
      match (data.lookup phi).bind fun instr =>
        if instr.opcode = .phi then instr.operands[idx]? else none with
      | some operand =>
          let (data', removed) := removeOperand idx order (data.modify phi (dropOperand idx))
          (data', ⟨phi, idx, operand⟩ :: removed)
      | none => removeOperand idx order data

/-- The indices come in descending order, so that no removal moves a later one. -/
def repairExit : List Nat → Block → Option (Block × List Removed)
  | [], block => some (block, [])
  | idx :: idxs, block => do
      guard (idx < block.preds.length)
      let (data, here) := removeOperand idx block.data.order block.data
      let (block', later) ← repairExit idxs { block with preds := block.preds.eraseIdx idx, data }
      return (block', here ++ later)

def restorePreds (b : BlockRef) : List Nat → Block → Option Block
  | [], block => some block
  | idx :: idxs, block => do
      guard (idx ≤ block.preds.length)
      restorePreds b idxs { block with preds := block.preds.insertIdx idx b }

def restoreOperands : List Removed → Block → Option Block
  | [], block => some block
  | ⟨phi, idx, operand⟩ :: removed, block => do
      let instr ← block.data.lookup phi
      guard (idx ≤ instr.operands.length)
      restoreOperands removed { block with data := block.data.modify phi (putOperand idx operand) }

/-- Predecessors and operands come back in ascending order. -/
def restoreExit (b : BlockRef) (idxs : List Nat) (removed : List Removed) (block : Block) :
    Option Block := do
  let block ← restorePreds b idxs.reverse block
  restoreOperands (removed.insertionSort fun x y => x.idx ≤ y.idx) block

/-- The positions of a block among the predecessors, in descending order. -/
def predIdxs (b : BlockRef) (preds : List BlockRef) : List Nat := Splice.positions (· = b) preds

/-- Duplicate edges to one exit share an entry; an exit that is gone or does not know the block is
skipped. -/
def exitRepairs (ir : IR) (b : BlockRef) :
    List BlockRef → List (BlockRef × List Nat) → Option (List (BlockRef × List Nat))
  | [], exits => some exits
  | exit :: rest, exits => do
      guard (exit < ir.blocks.length)
      match ir.block? exit with
      | none => exitRepairs ir b rest exits
      | some block =>
          if exits.any fun entry => entry.1 = exit then exitRepairs ir b rest exits
          else
            let idxs := predIdxs b block.preds
            if idxs = [] then exitRepairs ir b rest exits
            else exitRepairs ir b rest (exits ++ [(exit, idxs)])

def repairExits : List (BlockRef × List Nat) → IR → Option (IR × List (List Removed))
  | [], ir => some (ir, [])
  | (exit, idxs) :: exits, ir => do
      let block ← ir.block? exit
      let (block', removed) ← repairExit idxs block
      let (ir', rest) ← repairExits exits (ir.setBlock exit block')
      return (ir', removed :: rest)

def restoreExits (b : BlockRef) : List ((BlockRef × List Nat) × List Removed) → IR → Option IR
  | [], ir => some ir
  | ((exit, idxs), removed) :: exits, ir => do
      let block ← ir.block? exit
      let block' ← restoreExit b idxs removed block
      restoreExits b exits (ir.setBlock exit block')

/-- The live users of a value outside the block. -/
def valueUsers (ir : IR) (b : BlockRef) (r : Ref) : List Ref := ir.usersOutside b (· = r)

def observable (ir : IR) (r : Ref) : Bool := (ir.instr? r).any fun instr => !isNopableConsumer instr

/-- This many pops are enough for a walk in which every instruction pushes its users once. -/
def sweepFuel (ir : IR) : Nat :=
  ((ir.iterBlocks.flatMap ir.iterInstrs).length + 1) ^ 2

/-- The consumers to erase, or nothing when something observable depends on the block. -/
def sweep (ir : IR) (b : BlockRef) : Option (Option (List Ref)) :=
  search (fun r => (valueUsers ir b r).reverse) (observable ir) (sweepFuel ir) []
    (ir.blockRefUsers b).reverse

def makeNop (instr : Instr) : Instr := { instr with opcode := .nop, operands := [] }

def eraseConsumers (ir : IR) (consumers : List Ref) : IR :=
  consumers.foldl (fun ir r => ir.modifyInstr r makeNop) ir

/-- One turn of the loop over the blocks. -/
def deadblockVisit (ir : IR) (b : BlockRef) : Option IR := do
  let block ← ir.block? b
  if b = 0 then return ir
  else if block.preds.length > 0 then return ir
  else do
    let exits ← exitRepairs ir b (← ir.blockExits b) []
    let (repaired, removed) ← repairExits exits ir
    let consumers ← sweep repaired b
    let stillPred := repaired.iterBlocks.any fun c => (repaired.preds c).contains b
    match consumers, stillPred with
    | some consumers, false =>
        let erased := eraseConsumers repaired consumers
        ((erased.dropDefsIntoBlock b).dropIncompletePhisIntoBlock b).blockRemove b
    | _, _ => restoreExits b (exits.zip removed) repaired

/-- A dead block is one with no predecessors. -/
def deadblockElimination (ir : IR) : Option IR := ir.iterBlocks.foldlM deadblockVisit ir

end Dis86.Opt
