import Dis86.Asm.InstrFmt
import Dis86.Asm.Region

namespace Dis86.Asm
open Lib (Outcome Run)
open RegionIter (peekChecked advance fetch fetchSext fetchU16)

/-- The mode is in the two high bits of the ModRM byte. -/
def modrmMode (modrm : BitVec 8) : BitVec 8 := modrm >>> 6

/-- The register field of the ModRM byte. -/
def modrmReg (modrm : BitVec 8) : BitVec 8 := (modrm >>> 3) &&& 7

/-- A second opcode stands in the place of the register field. -/
def modrmOp2 (modrm : BitVec 8) : BitVec 8 := (modrm >>> 3) &&& 7

def modrmRm (modrm : BitVec 8) : BitVec 8 := modrm &&& 7

namespace Reg

def reg8 (num : BitVec 8) : Outcome DecodeError Reg := do
  .require (num.toNat ≤ 7)
  .unwrap [AL, CL, DL, BL, AH, CH, DH, BH][num.toNat]?

def reg16 (num : BitVec 8) : Outcome DecodeError Reg := do
  .require (num.toNat ≤ 7)
  .unwrap [AX, CX, DX, BX, SP, BP, SI, DI][num.toNat]?

/-- There are four segment registers, and a number above three panics. -/
def sreg16 (num : BitVec 8) : Outcome DecodeError Reg := do
  .require (num.toNat ≤ 3)
  .unwrap [ES, CS, SS, DS][num.toNat]?

end Reg

def operandReg (r : Reg) : Decode Operand := return .reg r

def operandImm8 (imm : BitVec 8) : Decode Operand := return .imm .size8 (imm.setWidth 16)

def operandImm16 (imm : BitVec 16) : Decode Operand := return .imm .size16 imm

def operandRel (sz : Size) : Decode Operand := do
  let val ← match sz with
    | .size8 => fetchSext
    | .size16 => fetchU16
    | .size32 => .fail (.relativeSize sz)
  return .rel val

def operandSrc (sz : Size) (sreg : Option Reg) : Decode Operand :=
  return .mem ⟨sz, sreg.getD .DS, some .SI, none, none⟩

/-- The destination of a string operation is in ES, whatever the prefix says. -/
def operandDst (sz : Size) (_sreg : Option Reg) : Decode Operand :=
  return .mem ⟨sz, .ES, some .DI, none, none⟩

def operandFar : Decode Operand := do
  let off ← fetchU16
  let seg ← fetchU16
  return .far seg off

def operandMoff (sz : Size) (prefixSreg : Option Reg) : Decode Operand := do
  let off ← fetchU16
  return .mem ⟨sz, prefixSreg.getD .DS, none, none, some off⟩

/-- The default segment and the registers of an indirect operand. -/
def indirectRegs (rm : BitVec 8) : Outcome DecodeError (Reg × Reg × Option Reg) :=
  match rm.toNat with
  | 0 => .ok (.DS, .BX, some .SI)
  | 1 => .ok (.DS, .BX, some .DI)
  | 2 => .ok (.SS, .BP, some .SI)
  | 3 => .ok (.SS, .BP, some .DI)
  | 4 => .ok (.DS, .SI, none)
  | 5 => .ok (.DS, .DI, none)
  | 6 => .ok (.SS, .BP, none)
  | 7 => .ok (.DS, .BX, none)
  | _ => .panic

def displacement (mode : BitVec 8) : Decode (Option (BitVec 16)) :=
  match mode.toNat with
  | 0 => return none
  | 1 => do
      let off ← fetchSext
      return some off
  | 2 => do
      let off ← fetchU16
      return some off
  | _ => .ask fun _ => .panic

def operandRm (sz : Size) (modrm : BitVec 8) (prefixSreg : Option Reg) : Decode Operand :=
  let mode := modrmMode modrm
  let rm := modrmRm modrm
  if mode = 3 then
    match sz with
    | .size8 => do
        let reg ← .ask fun _ => Reg.reg8 rm
        operandReg reg
    | .size16 => do
        let reg ← .ask fun _ => Reg.reg16 rm
        operandReg reg
    | .size32 => .fail .registerSize
  else if mode = 0 ∧ rm = 6 then operandMoff sz prefixSreg
  else do
    let (sreg, reg1, reg2) ← .ask fun _ => indirectRegs rm
    let off ← displacement mode
    return .mem ⟨sz, prefixSreg.getD sreg, some reg1, reg2, off⟩

/-- An operand that has to be in memory. -/
def operandM (sz : Size) (modrm : BitVec 8) (sreg : Option Reg) : Decode Operand := do
  let oper ← operandRm sz modrm sreg
  match oper with
  | .mem mem => return .mem mem
  | _ => .fail .registerForMemory

/-- The sentinel has no operand and ends the list of operands. -/
def decodeOperand (oper : Oper) (modrm : BitVec 8) (sreg : Option Reg) : Option (Decode Operand) :=
  match oper with
  | .NONE => none
  | .AX => some (operandReg .AX)
  | .CX => some (operandReg .CX)
  | .DX => some (operandReg .DX)
  | .BX => some (operandReg .BX)
  | .SP => some (operandReg .SP)
  | .BP => some (operandReg .BP)
  | .SI => some (operandReg .SI)
  | .DI => some (operandReg .DI)
  | .AL => some (operandReg .AL)
  | .CL => some (operandReg .CL)
  | .DL => some (operandReg .DL)
  | .BL => some (operandReg .BL)
  | .AH => some (operandReg .AH)
  | .CH => some (operandReg .CH)
  | .DH => some (operandReg .DH)
  | .BH => some (operandReg .BH)
  | .ES => some (operandReg .ES)
  | .CS => some (operandReg .CS)
  | .SS => some (operandReg .SS)
  | .DS => some (operandReg .DS)
  | .FLAGS => some (operandReg .FLAGS)
  | .LIT1 => some (operandImm8 1)
  | .LIT3 => some (operandImm8 3)
  | .SRC8 => some (operandSrc .size8 sreg)
  | .SRC16 => some (operandSrc .size16 sreg)
  | .DST8 => some (operandDst .size8 sreg)
  | .DST16 => some (operandDst .size16 sreg)
  | .R8 => some (do operandReg (← .ask fun _ => Reg.reg8 (modrmReg modrm)))
  | .R16 => some (do operandReg (← .ask fun _ => Reg.reg16 (modrmReg modrm)))
  | .SREG => some (do operandReg (← .ask fun _ => Reg.sreg16 (modrmReg modrm)))
  | .M8 => some (operandM .size8 modrm sreg)
  | .M16 => some (operandM .size16 modrm sreg)
  | .M32 => some (operandM .size32 modrm sreg)
  | .RM8 => some (operandRm .size8 modrm sreg)
  | .RM16 => some (operandRm .size16 modrm sreg)
  | .IMM8 => some (do operandImm8 (← fetch))
  | .IMM8_EXT => some (do operandImm16 (← fetchSext))
  | .IMM16 => some (do operandImm16 (← fetchU16))
  | .FAR32 => some (operandFar)
  | .MOFF8 => some (operandMoff .size8 sreg)
  | .MOFF16 => some (operandMoff .size16 sreg)
  | .REL8 => some (operandRel .size8)
  | .REL16 => some (operandRel .size16)

/-- Operands are pushed on an array of three. -/
def decodeOperands (modrm : BitVec 8) (sreg : Option Reg) :
    List Oper → List Operand → Decode (List Operand)
  | [], operands => return operands
  | oper :: opers, operands =>
      match decodeOperand oper modrm sreg with
      | none => return operands
      | some decode => do
          let operand ← decode
          .ask fun _ => .require (operands.length < 3)
          decodeOperands modrm sreg opers (operands ++ [operand])

/-- What the prefix bytes of an instruction have said so far. -/
structure Prefixes where
  sreg : Option Reg
  rep : Option Rep
  lock : Bool
deriving DecidableEq, Repr

/-- A later prefix of one kind replaces the earlier one. -/
def Prefixes.take? (p : Prefixes) (b : BitVec 8) : Option Prefixes :=
  match b.toNat with
  | 0x26 => some { p with sreg := some .ES }
  | 0x2e => some { p with sreg := some .CS }
  | 0x36 => some { p with sreg := some .SS }
  | 0x3e => some { p with sreg := some .DS }
  | 0xf0 => some { p with lock := true }
  | 0xf2 => some { p with rep := some .ne }
  | 0xf3 => some { p with rep := some .eq }
  | _ => none

/-- The loop moves over one byte in each round; the fuel is the number of rounds. -/
def prefixLoop : Nat → Prefixes → Decode Prefixes
  | 0, _ => .ask fun _ => .panic
  | fuel + 1, p => do
      let b ← peekChecked
      match p.take? b with
      | some p' => do
          advance
          prefixLoop fuel p'
      | none => return p

def decodePrefixes : Decode Prefixes := fun bin =>
  prefixLoop (bin.bytesRemaining + 1) ⟨none, none, false⟩ bin

def unpackFmt (opcode1 : BitVec 8) (opcode2 : Option (BitVec 8)) (startAddr : SegOff)
    (ret : Except LookupError InstrFmt) : Decode InstrFmt :=
  match ret with
  | .ok fmt => return fmt
  | .error _ => .fail (.unknownFormat opcode1 opcode2 startAddr)

/-- A second opcode is the register field of the next byte, or the whole byte after 0f. -/
def findFmt (opcode1 : BitVec 8) (startAddr : SegOff) : Decode InstrFmt :=
  match lookup opcode1 none with
  | .error .needOpcode2 => do
      let b ← peekChecked
      let opcode2 := some (modrmOp2 b)
      unpackFmt opcode1 opcode2 startAddr (lookup opcode1 opcode2)
  | .error .needOpcode2Ext0F => do
      let b ← peekChecked
      advance
      let opcode2 := some b
      unpackFmt opcode1 opcode2 startAddr (lookup opcode1 opcode2)
  | ret => unpackFmt opcode1 none startAddr ret

/-- The string operations on which a LOCK prefix is ignored. -/
def lockIgnored : List Opcode := [.MOVS, .CMPS, .STOS, .LODS, .SCAS]

def checkFmt (fmt : InstrFmt) (lock : Bool) (startAddr : SegOff) : Decode Unit := do
  .check (fmt.op ≠ .INVAL) (.invalidInstruction startAddr)
  .check (lock = true → fmt.op ∈ lockIgnored) (.lockPrefix startAddr)

def fetchModrm (fmt : InstrFmt) : Decode (BitVec 8) :=
  if fmt.requiresModrm then fetch else return 0

/-- The operands of a row of the table. -/
def decodeFmt (startAddr : SegOff) (p : Prefixes) (fmt : InstrFmt) :
    Decode (InstrFmt × List Operand) := do
  checkFmt fmt p.lock startAddr
  let modrm ← fetchModrm fmt
  let operands ← decodeOperands modrm p.sreg fmt.opers []
  return (fmt, operands)

/-- The row and the operands of an instruction whose first opcode has been read. -/
def decodeOpcode (startAddr : SegOff) (p : Prefixes) (opcode1 : BitVec 8) :
    Decode (InstrFmt × List Operand) := do
  let fmt ← findFmt opcode1 startAddr
  decodeFmt startAddr p fmt

def decodeParts (startAddr : SegOff) : Decode (Prefixes × InstrFmt × List Operand) := do
  let p ← decodePrefixes
  let opcode1 ← fetch
  let parts ← decodeOpcode startAddr p opcode1
  return (p, parts)

def decodeOneImpl : Decode (Option (Instr × Bytes)) := do
  let startAddr ← .ask RegionIter.addr
  let endAddr ← .ask RegionIter.endAddr
  if startAddr = endAddr then return none
  else do
    let (p, fmt, operands) ← decodeParts startAddr
    let curAddr ← .ask RegionIter.addr
    let nBytes ← .ask fun _ => startAddr.offsetTo curAddr
    let raw ← .ask fun bin => bin.slice startAddr nBytes
    return some (⟨p.rep, fmt.op, operands, startAddr, nBytes, fmt.hidden⟩, raw)

/-- An error rolls back the bytes that were consumed. -/
def decodeOne : Decode (Option (Instr × Bytes)) := do
  let saveAddr ← .ask RegionIter.addr
  fun bin =>
    match decodeOneImpl bin with
    | (.err e, bin') =>
        match bin'.resetAddr saveAddr with
        | .ok bin'' => (.err e, bin'')
        | _ => (.panic, bin')
    | ret => ret

end Dis86.Asm
