import Dis86.Ast.Render

namespace Dis86.Ast.Builder
open Asm (Reg)

/-- One phi of the target becomes an assignment of its operand for the edge. -/
def emitPhi (fuel : Nat) (idx : Nat) (state : Block × Builder) (r : Ref) :
    Option (Block × Builder) := do
  let (blk, b) := state
  let instr ← b.ir.instr? r
  if instr.opcode ≠ .phi then return (blk, b)
  let (name, b) := b.refName r
  let (rvalue, b) ← b.refToExpr fuel (← instr.operands[idx]?) 1
  return b.assign blk instr.typ name rvalue

/-- An edge emits the phis of its target one after the other, in their order in the block. -/
def emitPhis (fuel : Nat) (b : Builder) (blk : Block) (src dst : BlockRef) :
    Option (Block × Builder) := do
  let target ← b.ir.block? dst
  let idx ← target.preds.findIdx? (· = src)
  (b.ir.iterInstrs dst).foldlM (emitPhi fuel idx) (blk, b)

/-- The place that a store writes. -/
def storePlace (fuel : Nat) (b : Builder) (width : Nat) (pointer : String)
    (operands : List Ref) : Option (Expr × Builder) := do
  let shape ← b.loadShape width pointer operands
  let (es, b) ← renderAll (fun b r => b.refToExprHex fuel r 1 true) b shape.shown
  return (← shape.form.build es, b)

/-- What is left of a block: the statements so far, the writes that wait for the frame teardown,
and the branch condition once the block has ended. -/
structure Emitting where
  blk : Block
  postFrame : List Assign
  ended : Option (Option Expr)
  builder : Builder

/-- A statement assigns the second operand of a write to the place of the first. -/
def writePlace (fuel : Nat) (b : Builder) (instr : Instr) : Option (Assign × Builder) := do
  let (lhs, b) ← b.symbolToExpr fuel (← (← instr.operands[0]?).unwrapSymbol)
  let (rhs, b) ← b.refToExpr fuel (← instr.operands[1]?) 1
  return (⟨none, lhs, rhs⟩, b)

def storeAt (fuel : Nat) (b : Builder) (width : Nat) (pointer : String) (instr : Instr) :
    Option (Assign × Builder) := do
  let (lhs, b) ← b.storePlace fuel width pointer instr.operands
  let (rhs, b) ← b.refToExpr fuel (← instr.operands[2]?) 1
  return (⟨none, lhs, rhs⟩, b)

/-- The operands of a return and the writes that were kept for it. -/
def emitReturn (fuel : Nat) (state : Emitting) (rt : ReturnType) (instr : Instr) :
    Option Emitting := do
  let (vals, b) ← renderAll (fun b r => b.refToExpr fuel r 1) state.builder instr.operands
  return ⟨state.blk ++ [.ret ⟨rt, vals, state.postFrame⟩], [], some none, b⟩

/-- One instruction of a block. An instruction without an arm of its own is left to its only user
when it has exactly one, is not a call and is not materialised. -/
def emitInstr (fuel : Nat) (bref : BlockRef) (inverted : Bool) (state : Emitting) (r : Ref) :
    Option Emitting := do
  if state.ended.isSome then return state
  let b := state.builder
  let instr ← b.ir.instr? r
  let assign (result : Assign × Builder) : Emitting :=
    { state with blk := state.blk ++ [.assign result.1], builder := result.2 }
  match instr.opcode with
  | .nop | .phi | .pin => return state
  | .retFar => emitReturn fuel state .far instr
  | .retNear => emitReturn fuel state .near instr
  | .jmp => do
      let dst ← (← instr.operands[0]?).unwrapBlock
      let (blk, b) ← b.emitPhis fuel state.blk bref dst
      return { state with blk, ended := some none, builder := b }
  | .jne => do
      let (cond, b) ← b.refToExpr2 fuel (← instr.operands[0]?) 1 inverted
      return { state with ended := some (some cond), builder := b }
  | .jmpTbl => do
      let (idx, b) ← b.refToExpr fuel (← instr.operands[0]?) 1
      return { state with ended := some (some idx), builder := b }
  | .writeVar8 | .writeVar32 => return assign (← b.writePlace fuel instr)
  | .writeVar16 => do
      let result ← b.writePlace fuel instr
      if instr.attrs &&& Attribute.POST_FRAME ≠ 0 then
        return { state with postFrame := state.postFrame ++ [result.1], builder := result.2 }
      return assign result
  | .store8 => return assign (← b.storeAt fuel 1 "PTR_8" instr)
  | .store16 => return assign (← b.storeAt fuel 2 "PTR_16" instr)
  | .assertEven => do
      let (val, b) ← b.refToExpr fuel (← instr.operands[0]?) 1
      let cond : Expr := .binary .eq (.binary .mod val (.decimalConst 2)) (.decimalConst 0)
      return { state with blk := state.blk ++ [.expr (.abstract "assert" [cond])], builder := b }
  | .assertPos => do
      let (val, b) ← b.refToExpr fuel (← instr.operands[0]?) 1
      let cond : Expr := .binary .geq (.cast .i16 val) (.decimalConst 0)
      return { state with blk := state.blk ++ [.expr (.abstract "assert" [cond])], builder := b }
  | .int => do
      let (num, b) ← b.refToExprHex fuel (← instr.operands[0]?) 0 true
      return { state with blk := state.blk ++ [.expr (.abstract "INT" [num])], builder := b }
  | _ =>
      if b.keepsName r instr then do
        let (rvalue, b) ← b.refToExpr fuel r 0
        if instr.typ = .void then
          return { state with blk := state.blk ++ [.expr rvalue], builder := b }
        let (name, b) := b.refName r
        let (blk, b) := b.assign state.blk instr.typ name rvalue
        return { state with blk, builder := b }
      else return state

/-- A block emits its statements and the condition of its branch, when it has one. -/
def emitBlk (fuel : Nat) (b : Builder) (blk : Block) (bref : BlockRef) (inverted : Bool) :
    Option (Block × Option Expr × Builder) := do
  if (← b.ir.blockInstrCount bref) = 0 then return (blk, none, b)
  let state ← (b.ir.iterInstrs bref).foldlM (emitInstr fuel bref inverted) ⟨blk, [], none, b⟩
  return (state.blk, state.ended.join, state.builder)

end Dis86.Ast.Builder
