import Dis86.Build.Builder

namespace Dis86.Build
open Asm (Reg Operand OperandMem)

/-- A step of a lowering over any state; it fails where the source panics. -/
abbrev Emission (S : Type) := StateT S Option

/-- What the lowering of an instruction asks of the function under construction. The values are
references there, and numbers when the lowering is run on a machine. -/
structure Emitter (S V : Type) where
  getVar : Reg → Emission S V
  setVar : Reg → V → Emission S Unit
  constNew : BitVec 16 → Emission S V
  appendInstr : Typ → BitVec 8 → Opcode → List V → Emission S V
  appendAsmSrcMem : OperandMem → Emission S V
  appendAsmDstMem : OperandMem → V → Emission S Unit
  entryFlags : V
  clearCarry : Emission S Unit
  dfClear : Emission S Bool
  pinAll : Emission S Bool

/-- The emitter that builds the function. -/
def building : Emitter IRBuilder Ref where
  getVar := getReg
  setVar := setReg
  constNew := constNew
  appendInstr := appendInstrWithAttrs
  appendAsmSrcMem := appendAsmSrcMem
  appendAsmDstMem := appendAsmDstMem
  entryFlags := .init .FLAGS
  clearCarry := modify fun s => { s with lastCf := none, carryKnown := false }
  dfClear := do return (← get).dfClear
  pinAll := do return (← get).pinAll

namespace Emitter

variable {S V : Type} (e : Emitter S V)

def append (typ : Typ) (opcode : Opcode) (operands : List V) : Emission S V :=
  e.appendInstr typ Attribute.NONE opcode operands

def operand (ins : Asm.Instr) (idx : Nat) : Emission S Operand :=
  match ins.operand? idx with
  | some oper => pure oper
  | none => failure

/-- A register of two bytes defines both of them. -/
def splitRegister (full lo hi : Reg) : Emission S Unit := do
  let cur ← e.getVar full
  let mask ← e.constNew 0xFF
  let eight ← e.constNew 8
  let shifted ← e.append .u16 .ushr [cur, eight]
  let upper ← e.append .u16 .and [shifted, mask]
  let lower ← e.append .u16 .and [cur, mask]
  e.setVar lo lower
  e.setVar hi upper

/-- A byte is masked and its register composed again. -/
def recompose (reg full lo hi : Reg) (vref : V) : Emission S Unit := do
  let mask ← e.constNew 0xFF
  let masked ← e.append .u16 .and [vref, mask]
  e.setVar reg masked
  let loV ← e.getVar lo
  let hiV ← e.getVar hi
  let (useLo, useHi) := if reg = lo then (masked, hiV) else (loV, masked)
  let eight ← e.constNew 8
  let shifted ← e.append .u16 .shl [useHi, eight]
  let composed ← e.append .u16 .or [shifted, useLo]
  e.setVar full composed

def pinnedValue (vref : V) : Emission S V := do
  if ← e.pinAll then e.appendInstr .u16 Attribute.PIN .ref [vref] else return vref

def refreshViews (reg : Reg) (vref : V) : Emission S Unit :=
  match fragments? reg, parent? reg with
  | some (lo, hi), _ => e.splitRegister reg lo hi
  | none, some full =>
      match fragments? full with
      | some (lo, hi) => e.recompose reg full lo hi vref
      | none => return ()
  | none, none => return ()

def appendAsmDstReg (reg : Reg) (vref : V) : Emission S Unit := do
  let vref ← e.pinnedValue vref
  e.setVar reg vref
  e.refreshViews reg vref

def appendAsmSrcOperand : Operand → Emission S V
  | .reg reg => e.getVar reg
  | .mem mem => e.appendAsmSrcMem mem
  | .imm _ val => e.constNew val
  | .rel _ | .far _ _ => failure

def appendAsmDstOperand (oper : Operand) (vref : V) : Emission S Unit :=
  match oper with
  | .reg reg => e.appendAsmDstReg reg vref
  | .mem mem => e.appendAsmDstMem mem vref
  | .imm _ _ | .rel _ | .far _ _ => failure

/-- An instruction that is not modelled leaves the flags and the carry unknown. -/
def appendUpdateFlags (vref : V) : Emission S Unit := do
  let oldFlags ← e.getVar .FLAGS
  let newFlags ← e.append .u16 .updateFlags [oldFlags, vref]
  e.setVar .FLAGS newFlags
  e.clearCarry

def clobberFlags : Emission S Unit := do
  e.setVar .FLAGS e.entryFlags
  e.clearCarry

end Emitter

/-- The two byte fragments are set as one step of the builder sets them. -/
theorem building_splitRegister {full lo hi : Reg} (bytes : fragments? full = some (lo, hi)) :
    building.splitRegister full lo hi = splitRegister full := by
  simp only [Emitter.splitRegister, splitRegister, appendByteSplit, setFragments, bytes, bind_assoc,
    pure_bind]
  rfl

/-- Lowering through the emitter is lowering. -/
theorem building_appendAsmDstReg (reg : Reg) (vref : Ref) :
    building.appendAsmDstReg reg vref = appendAsmDstReg reg vref := by
  have views (vref : Ref) : building.refreshViews reg vref = refreshViews reg vref := by
    rw [Emitter.refreshViews, refreshViews]
    cases bytes : fragments? reg with
    | some pair => exact building_splitRegister bytes
    | none => cases reg <;> rfl
  simp only [Emitter.appendAsmDstReg, appendAsmDstReg, views]
  rfl

end Dis86.Build
