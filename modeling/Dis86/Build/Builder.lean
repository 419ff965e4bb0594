import Dis86.Spec.Regions
import Dis86.IR.Methods
import Mathlib.Control.Monad.Basic

namespace Dis86.Build
open Asm (Reg Size SegOff Operand OperandMem)

/-- What one lowering works on. -/
structure Input where
  instrs : List Asm.Instr
  cfg : Config
  spec : Spec
  codeRegions : List FuncRegion
  binary : Binary
  overlay : Bool
  pinAll : Bool

/-- A return that waits for the writes of the registers live at it. -/
structure RetExit where
  retRef : Ref
  pending : List (Reg × Ref)
deriving Repr

/-- The lowering has a cursor into the function it builds, and tracks beside it whether the
direction flag is provably clear and which value the carry has. -/
structure IRBuilder extends Input where
  ir : IR
  addrmap : SegOff → Option BlockRef
  cur : BlockRef
  /-- The last instruction pushed CS. -/
  special : Bool
  dfClear : Bool
  dfClearEntry : BlockRef → Option Bool
  dfExitClear : BlockRef → Option Bool
  dfEntryDefault : Bool
  lastCf : Option Ref
  carryKnown : Bool
  carryKnownEntry : BlockRef → Option Bool
  exitKnown : BlockRef → Option Bool
  entryKnownDefault : Bool
  retExits : List RetExit

/-- A lowering fails where the source panics. -/
abbrev Lowering := StateT IRBuilder Option

/-- The variable under which the carry crosses blocks. -/
def carryVar : Name := .var "carry"

/-- The registers that the entry block defines. -/
def entryRegs : List Reg :=
  [.AX, .CX, .DX, .BX, .SP, .BP, .SI, .DI, .ES, .CS, .SS, .DS,
    .AL, .AH, .BL, .BH, .CL, .CH, .DL, .DH, .IP, .FLAGS]

/-- A step that only changes the function. -/
def onIR {α : Type} (f : IR → Option (α × IR)) : Lowering α := fun s =>
  (f s.ir).map fun result => (result.1, { s with ir := result.2 })

def liftOption {α : Type} (value : Option α) : Lowering α := fun s => value.map fun a => (a, s)

def newBlock (name : String) : Lowering BlockRef := onIR fun ir => some (ir.addBlock name)

def getBlock (addr : SegOff) : Lowering BlockRef := do liftOption ((← get).addrmap addr)

def constNew (k : BitVec 16) : Lowering Ref := onIR fun ir => some (ir.constNew k)

def getVar (sym : Name) : Lowering Ref := do
  let s ← get
  onIR fun ir => ir.getVar sym s.cur

def setVar (sym : Name) (vref : Ref) : Lowering Unit := do
  let s ← get
  onIR fun ir => (ir.setVar sym s.cur vref).map fun ir => ((), ir)

def getReg (reg : Reg) : Lowering Ref := getVar (.reg reg)

def setReg (reg : Reg) (vref : Ref) : Lowering Unit := setVar (.reg reg) vref

def setRegs (regs : List Reg) (value : Reg → Ref) : Lowering Unit :=
  regs.forM fun reg => setReg reg (value reg)

def appendInstrWithAttrs (typ : Typ) (attrs : BitVec 8) (opcode : Opcode) (operands : List Ref) :
    Lowering Ref := do
  let s ← get
  onIR fun ir => ir.blockInstrAppend s.cur ⟨typ, none, attrs, opcode, operands⟩

def appendInstr (typ : Typ) (opcode : Opcode) (operands : List Ref) : Lowering Ref :=
  appendInstrWithAttrs typ Attribute.NONE opcode operands

def pushPred (b pred : BlockRef) : Lowering Unit := onIR fun ir =>
  (ir.block? b).map fun _ =>
    ((), ir.modifyBlock b fun block => { block with preds := block.preds ++ [pred] })

def operand (ins : Asm.Instr) (idx : Nat) : Lowering Operand := liftOption (ins.operand? idx)

def operandRel (ins : Asm.Instr) (idx : Nat) : Lowering (BitVec 16) := do
  match ← operand ins idx with
  | .rel rel => return rel
  | _ => failure

def appendJmp (next : BlockRef) : Lowering Unit := do
  let s ← get
  pushPred next s.cur
  discard <| appendInstr .void .jmp [.block next]

def appendJne (cond : Ref) (trueBlk falseBlk : BlockRef) : Lowering Unit := do
  let s ← get
  pushPred trueBlk s.cur
  pushPred falseBlk s.cur
  discard <| appendInstr .void .jne [cond, .block trueBlk, .block falseBlk]

/-- The name of a block ends in a four-digit number. -/
def hex4 (x : BitVec 16) : String :=
  let digits := String.ofList (Nat.toDigits 16 x.toNat)
  "".pushn '0' (4 - digits.length) ++ digits

/-- Control leaves the function here, so the block ends with a jump to an empty block. -/
def appendUnmodelledTransfer (ins : Asm.Instr) : Lowering Unit := do
  discard <| appendInstr .void .unimpl []
  let trap ← newBlock ("transfer_out_" ++ hex4 ins.addr.off)
  appendJmp trap

/-- The type of a value; only instructions and entry registers have one. -/
def deduceTypeUnary (a : Ref) : Lowering Typ := do
  match a with
  | .instr _ _ => return (← liftOption ((← get).ir.instr? a)).typ
  | .init _ => return .u16
  | _ => return .unknown

def deduceTypes (a b : Typ) : Typ :=
  if a = b then a else if a = .unknown then b else if b = .unknown then a else .unknown

def deduceTypeBinary (a b : Ref) : Lowering Typ := do
  return deduceTypes (← deduceTypeUnary a) (← deduceTypeUnary b)

def appendUpperLowerSplit (r : Ref) : Lowering (Ref × Ref) := do
  let upper ← appendInstr .u16 .upper16 [r]
  let lower ← appendInstr .u16 .lower16 [r]
  return (upper, lower)

/-- The high and the low byte of a word. -/
def appendByteSplit (r : Ref) : Lowering (Ref × Ref) := do
  let mask ← constNew 0xFF
  let eight ← constNew 8
  let shifted ← appendInstr .u16 .ushr [r, eight]
  let upper ← appendInstr .u16 .and [shifted, mask]
  let lower ← appendInstr .u16 .and [r, mask]
  return (upper, lower)

/-- The bytes of a register, low byte first. -/
def fragments? : Reg → Option (Reg × Reg)
  | .AX => some (.AL, .AH)
  | .BX => some (.BL, .BH)
  | .CX => some (.CL, .CH)
  | .DX => some (.DL, .DH)
  | _ => none

/-- The register that a byte is part of. -/
def parent? : Reg → Option Reg
  | .AL | .AH => some .AX
  | .BL | .BH => some .BX
  | .CL | .CH => some .CX
  | .DL | .DH => some .DX
  | _ => none

def isHigh : Reg → Bool
  | .AH | .BH | .CH | .DH => true
  | _ => false

def initStorageParent (reg : Reg) : Reg := (parent? reg).getD reg

def setFragments (full : Reg) (upper lower : Ref) : Lowering Unit :=
  match fragments? full with
  | some (lo, hi) => do
      setReg lo lower
      setReg hi upper
  | none => return ()

/-- A register of two bytes defines both of them. -/
def splitRegister (full : Reg) : Lowering Unit := do
  let cur ← getReg full
  let (upper, lower) ← appendByteSplit cur
  setFragments full upper lower

/-- A byte is masked and its register composed again. -/
def recompose (reg full lo hi : Reg) (vref : Ref) : Lowering Unit := do
  let mask ← constNew 0xFF
  let masked ← appendInstr .u16 .and [vref, mask]
  setReg reg masked
  let loV ← getReg lo
  let hiV ← getReg hi
  let (useLo, useHi) := if reg = lo then (masked, hiV) else (loV, masked)
  let eight ← constNew 8
  let shifted ← appendInstr .u16 .shl [useHi, eight]
  let composed ← appendInstr .u16 .or [shifted, useLo]
  setReg full composed

/-- Overlapping registers stay coherent: a full write splits, a partial write composes. -/
def refreshViews (reg : Reg) (vref : Ref) : Lowering Unit :=
  match fragments? reg, parent? reg with
  | some _, _ => splitRegister reg
  | none, some full =>
      match fragments? full with
      | some (lo, hi) => recompose reg full lo hi vref
      | none => return ()
  | none, none => return ()

def pinnedValue (vref : Ref) : Lowering Ref := do
  if (← get).pinAll then appendInstrWithAttrs .u16 Attribute.PIN .ref [vref] else return vref

def appendAsmDstReg (reg : Reg) (vref : Ref) : Lowering Unit := do
  let vref ← pinnedValue vref
  setReg reg vref
  refreshViews reg vref

/-- The values that a memory operand adds up. -/
def memParts (mem : OperandMem) : Lowering (List Ref) := do
  let index ← mem.reg2.toList.mapM getReg
  let base ← mem.reg1.toList.mapM getReg
  let off ← mem.off.toList.mapM constNew
  return index ++ base ++ off

def appendOffset (attrs : BitVec 8) (a b : Ref) : Lowering Ref := do
  let typ ← deduceTypeBinary a b
  appendInstrWithAttrs typ attrs .add [a, b]

def computeMemAddress (mem : OperandMem) : Lowering Ref := do
  let refs ← memParts mem
  let attrs := if mem.sreg = .SS then Attribute.STACK_PTR else Attribute.NONE
  match refs with
  | [a] => return a
  | [a, b] => appendOffset attrs a b
  | [a, b, c] => appendOffset attrs (← appendOffset attrs a b) c
  | _ => failure

def appendAsmSrcMem (mem : OperandMem) : Lowering Ref := do
  let addr ← computeMemAddress mem
  let seg ← getReg mem.sreg
  match mem.sz with
  | .size8 => appendInstrWithAttrs .u8 Attribute.MAY_ESCAPE .load8 [seg, addr]
  | .size16 => appendInstrWithAttrs .u16 Attribute.MAY_ESCAPE .load16 [seg, addr]
  | .size32 => appendInstrWithAttrs .u32 Attribute.MAY_ESCAPE .load32 [seg, addr]

def storeAttrs : Lowering (BitVec 8) := do
  return if (← get).pinAll then Attribute.MAY_ESCAPE ||| Attribute.PIN else Attribute.MAY_ESCAPE

def appendAsmDstMem (mem : OperandMem) (vref : Ref) : Lowering Unit := do
  let addr ← computeMemAddress mem
  let seg ← getReg mem.sreg
  let attrs ← storeAttrs
  match mem.sz with
  | .size8 => discard <| appendInstrWithAttrs .void attrs .store8 [seg, addr, vref]
  | .size16 => discard <| appendInstrWithAttrs .void attrs .store16 [seg, addr, vref]
  | .size32 => failure

def appendAsmSrcOperand : Operand → Lowering Ref
  | .reg reg => getReg reg
  | .mem mem => appendAsmSrcMem mem
  | .imm _ val => constNew val
  | .rel _ | .far _ _ => failure

def appendAsmDstOperand (oper : Operand) (vref : Ref) : Lowering Unit :=
  match oper with
  | .reg reg => appendAsmDstReg reg vref
  | .mem mem => appendAsmDstMem mem vref
  | .imm _ _ | .rel _ | .far _ _ => failure

/-- The value of the operand at an index. -/
def src (ins : Asm.Instr) (idx : Nat) : Lowering Ref := do appendAsmSrcOperand (← operand ins idx)

def dst (ins : Asm.Instr) (idx : Nat) (vref : Ref) : Lowering Unit := do
  appendAsmDstOperand (← operand ins idx) vref

end Dis86.Build
