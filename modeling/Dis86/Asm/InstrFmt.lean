import Dis86.Asm.Instr

namespace Dis86.Asm

/-- The operand descriptions of the instruction table. -/
inductive Oper where
  | NONE | AX | CX | DX | BX | SP | BP | SI | DI | AL | CL | DL | BL | AH | CH | DH | BH | ES
  | CS | SS | DS | FLAGS | LIT1 | LIT3 | SRC8 | SRC16 | DST8 | DST16 | R8 | R16 | SREG | M8 | M16
  | M32 | RM8 | RM16 | IMM8 | IMM8_EXT | IMM16 | FAR32 | MOFF8 | MOFF16 | REL8 | REL16
deriving DecidableEq, Repr

/-- A row of the instruction table; a second opcode of -1 means that the first one is enough. -/
structure InstrFmt where
  op : Opcode
  op1 : Int
  op2 : Int
  oper : Oper × Oper × Oper
  hidden : BitVec 8
deriving DecidableEq, Repr

namespace InstrFmt

def opers (fmt : InstrFmt) : List Oper := [fmt.oper.1, fmt.oper.2.1, fmt.oper.2.2]

end InstrFmt

/-- Operands that the ModRM byte describes. -/
def Oper.usesModrm : Oper → Bool
  | .R8 | .R16 | .SREG | .M8 | .M16 | .M32 | .RM8 | .RM16 => true
  | _ => false

def InstrFmt.requiresModrm (fmt : InstrFmt) : Bool := fmt.opers.any Oper.usesModrm

def instrTbl : List InstrFmt := [
  ⟨.ADD, 0x00, -1, (.RM8, .R8, .NONE), 0x0⟩,
  ⟨.ADD, 0x01, -1, (.RM16, .R16, .NONE), 0x0⟩,
  ⟨.ADD, 0x02, -1, (.R8, .RM8, .NONE), 0x0⟩,
  ⟨.ADD, 0x03, -1, (.R16, .RM16, .NONE), 0x0⟩,
  ⟨.ADD, 0x04, -1, (.AL, .IMM8, .NONE), 0x0⟩,
  ⟨.ADD, 0x05, -1, (.AX, .IMM16, .NONE), 0x0⟩,
  ⟨.PUSH, 0x06, -1, (.ES, .NONE, .NONE), 0x0⟩,
  ⟨.POP, 0x07, -1, (.ES, .NONE, .NONE), 0x0⟩,
  ⟨.OR, 0x08, -1, (.RM8, .R8, .NONE), 0x0⟩,
  ⟨.OR, 0x09, -1, (.RM16, .R16, .NONE), 0x0⟩,
  ⟨.OR, 0x0a, -1, (.R8, .RM8, .NONE), 0x0⟩,
  ⟨.OR, 0x0b, -1, (.R16, .RM16, .NONE), 0x0⟩,
  ⟨.OR, 0x0c, -1, (.AL, .IMM8, .NONE), 0x0⟩,
  ⟨.OR, 0x0d, -1, (.AX, .IMM16, .NONE), 0x0⟩,
  ⟨.PUSH, 0x0e, -1, (.CS, .NONE, .NONE), 0x0⟩,
  ⟨.SETO, 0x0f, 0x90, (.RM8, .NONE, .NONE), 0x0⟩,
  ⟨.SETNO, 0x0f, 0x91, (.RM8, .NONE, .NONE), 0x0⟩,
  ⟨.SETB, 0x0f, 0x92, (.RM8, .NONE, .NONE), 0x0⟩,
  ⟨.SETAE, 0x0f, 0x93, (.RM8, .NONE, .NONE), 0x0⟩,
  ⟨.SETE, 0x0f, 0x94, (.RM8, .NONE, .NONE), 0x0⟩,
  ⟨.SETNE, 0x0f, 0x95, (.RM8, .NONE, .NONE), 0x0⟩,
  ⟨.SETBE, 0x0f, 0x96, (.RM8, .NONE, .NONE), 0x0⟩,
  ⟨.SETA, 0x0f, 0x97, (.RM8, .NONE, .NONE), 0x0⟩,
  ⟨.SETS, 0x0f, 0x98, (.RM8, .NONE, .NONE), 0x0⟩,
  ⟨.SETNS, 0x0f, 0x99, (.RM8, .NONE, .NONE), 0x0⟩,
  ⟨.SETP, 0x0f, 0x9a, (.RM8, .NONE, .NONE), 0x0⟩,
  ⟨.SETNP, 0x0f, 0x9b, (.RM8, .NONE, .NONE), 0x0⟩,
  ⟨.SETL, 0x0f, 0x9c, (.RM8, .NONE, .NONE), 0x0⟩,
  ⟨.SETGE, 0x0f, 0x9d, (.RM8, .NONE, .NONE), 0x0⟩,
  ⟨.SETLE, 0x0f, 0x9e, (.RM8, .NONE, .NONE), 0x0⟩,
  ⟨.SETG, 0x0f, 0x9f, (.RM8, .NONE, .NONE), 0x0⟩,
  ⟨.ADC, 0x10, -1, (.RM8, .R8, .NONE), 0x0⟩,
  ⟨.ADC, 0x11, -1, (.RM16, .R16, .NONE), 0x0⟩,
  ⟨.ADC, 0x12, -1, (.R8, .RM8, .NONE), 0x0⟩,
  ⟨.ADC, 0x13, -1, (.R16, .RM16, .NONE), 0x0⟩,
  ⟨.ADC, 0x14, -1, (.AL, .IMM8, .NONE), 0x0⟩,
  ⟨.ADC, 0x15, -1, (.AX, .IMM16, .NONE), 0x0⟩,
  ⟨.PUSH, 0x16, -1, (.SS, .NONE, .NONE), 0x0⟩,
  ⟨.POP, 0x17, -1, (.SS, .NONE, .NONE), 0x0⟩,
  ⟨.SBB, 0x18, -1, (.RM8, .R8, .NONE), 0x0⟩,
  ⟨.SBB, 0x19, -1, (.RM16, .R16, .NONE), 0x0⟩,
  ⟨.SBB, 0x1a, -1, (.R8, .RM8, .NONE), 0x0⟩,
  ⟨.SBB, 0x1b, -1, (.R16, .RM16, .NONE), 0x0⟩,
  ⟨.SBB, 0x1c, -1, (.AL, .IMM8, .NONE), 0x0⟩,
  ⟨.SBB, 0x1d, -1, (.AX, .IMM16, .NONE), 0x0⟩,
  ⟨.PUSH, 0x1e, -1, (.DS, .NONE, .NONE), 0x0⟩,
  ⟨.POP, 0x1f, -1, (.DS, .NONE, .NONE), 0x0⟩,
  ⟨.AND, 0x20, -1, (.RM8, .R8, .NONE), 0x0⟩,
  ⟨.AND, 0x21, -1, (.RM16, .R16, .NONE), 0x0⟩,
  ⟨.AND, 0x22, -1, (.R8, .RM8, .NONE), 0x0⟩,
  ⟨.AND, 0x23, -1, (.R16, .RM16, .NONE), 0x0⟩,
  ⟨.AND, 0x24, -1, (.AL, .IMM8, .NONE), 0x0⟩,
  ⟨.AND, 0x25, -1, (.AX, .IMM16, .NONE), 0x0⟩,
  ⟨.INVAL, 0x26, -1, (.NONE, .NONE, .NONE), 0x0⟩,
  ⟨.DAA, 0x27, -1, (.AL, .NONE, .NONE), 0x0⟩,
  ⟨.SUB, 0x28, -1, (.RM8, .R8, .NONE), 0x0⟩,
  ⟨.SUB, 0x29, -1, (.RM16, .R16, .NONE), 0x0⟩,
  ⟨.SUB, 0x2a, -1, (.R8, .RM8, .NONE), 0x0⟩,
  ⟨.SUB, 0x2b, -1, (.R16, .RM16, .NONE), 0x0⟩,
  ⟨.SUB, 0x2c, -1, (.AL, .IMM8, .NONE), 0x0⟩,
  ⟨.SUB, 0x2d, -1, (.AX, .IMM16, .NONE), 0x0⟩,
  ⟨.INVAL, 0x2e, -1, (.NONE, .NONE, .NONE), 0x0⟩,
  ⟨.DAS, 0x2f, -1, (.AL, .NONE, .NONE), 0x0⟩,
  ⟨.XOR, 0x30, -1, (.RM8, .R8, .NONE), 0x0⟩,
  ⟨.XOR, 0x31, -1, (.RM16, .R16, .NONE), 0x0⟩,
  ⟨.XOR, 0x32, -1, (.R8, .RM8, .NONE), 0x0⟩,
  ⟨.XOR, 0x33, -1, (.R16, .RM16, .NONE), 0x0⟩,
  ⟨.XOR, 0x34, -1, (.AL, .IMM8, .NONE), 0x0⟩,
  ⟨.XOR, 0x35, -1, (.AX, .IMM16, .NONE), 0x0⟩,
  ⟨.INVAL, 0x36, -1, (.NONE, .NONE, .NONE), 0x0⟩,
  ⟨.AAA, 0x37, -1, (.AL, .AH, .NONE), 0x0⟩,
  ⟨.CMP, 0x38, -1, (.RM8, .R8, .NONE), 0x0⟩,
  ⟨.CMP, 0x39, -1, (.RM16, .R16, .NONE), 0x0⟩,
  ⟨.CMP, 0x3a, -1, (.R8, .RM8, .NONE), 0x0⟩,
  ⟨.CMP, 0x3b, -1, (.R16, .RM16, .NONE), 0x0⟩,
  ⟨.CMP, 0x3c, -1, (.AL, .IMM8, .NONE), 0x0⟩,
  ⟨.CMP, 0x3d, -1, (.AX, .IMM16, .NONE), 0x0⟩,
  ⟨.INVAL, 0x3e, -1, (.NONE, .NONE, .NONE), 0x0⟩,
  ⟨.AAS, 0x3f, -1, (.AL, .AH, .NONE), 0x0⟩,
  ⟨.INC, 0x40, -1, (.AX, .NONE, .NONE), 0x0⟩,
  ⟨.INC, 0x41, -1, (.CX, .NONE, .NONE), 0x0⟩,
  ⟨.INC, 0x42, -1, (.DX, .NONE, .NONE), 0x0⟩,
  ⟨.INC, 0x43, -1, (.BX, .NONE, .NONE), 0x0⟩,
  ⟨.INC, 0x44, -1, (.SP, .NONE, .NONE), 0x0⟩,
  ⟨.INC, 0x45, -1, (.BP, .NONE, .NONE), 0x0⟩,
  ⟨.INC, 0x46, -1, (.SI, .NONE, .NONE), 0x0⟩,
  ⟨.INC, 0x47, -1, (.DI, .NONE, .NONE), 0x0⟩,
  ⟨.DEC, 0x48, -1, (.AX, .NONE, .NONE), 0x0⟩,
  ⟨.DEC, 0x49, -1, (.CX, .NONE, .NONE), 0x0⟩,
  ⟨.DEC, 0x4a, -1, (.DX, .NONE, .NONE), 0x0⟩,
  ⟨.DEC, 0x4b, -1, (.BX, .NONE, .NONE), 0x0⟩,
  ⟨.DEC, 0x4c, -1, (.SP, .NONE, .NONE), 0x0⟩,
  ⟨.DEC, 0x4d, -1, (.BP, .NONE, .NONE), 0x0⟩,
  ⟨.DEC, 0x4e, -1, (.SI, .NONE, .NONE), 0x0⟩,
  ⟨.DEC, 0x4f, -1, (.DI, .NONE, .NONE), 0x0⟩,
  ⟨.PUSH, 0x50, -1, (.AX, .NONE, .NONE), 0x0⟩,
  ⟨.PUSH, 0x51, -1, (.CX, .NONE, .NONE), 0x0⟩,
  ⟨.PUSH, 0x52, -1, (.DX, .NONE, .NONE), 0x0⟩,
  ⟨.PUSH, 0x53, -1, (.BX, .NONE, .NONE), 0x0⟩,
  ⟨.PUSH, 0x54, -1, (.SP, .NONE, .NONE), 0x0⟩,
  ⟨.PUSH, 0x55, -1, (.BP, .NONE, .NONE), 0x0⟩,
  ⟨.PUSH, 0x56, -1, (.SI, .NONE, .NONE), 0x0⟩,
  ⟨.PUSH, 0x57, -1, (.DI, .NONE, .NONE), 0x0⟩,
  ⟨.POP, 0x58, -1, (.AX, .NONE, .NONE), 0x0⟩,
  ⟨.POP, 0x59, -1, (.CX, .NONE, .NONE), 0x0⟩,
  ⟨.POP, 0x5a, -1, (.DX, .NONE, .NONE), 0x0⟩,
  ⟨.POP, 0x5b, -1, (.BX, .NONE, .NONE), 0x0⟩,
  ⟨.POP, 0x5c, -1, (.SP, .NONE, .NONE), 0x0⟩,
  ⟨.POP, 0x5d, -1, (.BP, .NONE, .NONE), 0x0⟩,
  ⟨.POP, 0x5e, -1, (.SI, .NONE, .NONE), 0x0⟩,
  ⟨.POP, 0x5f, -1, (.DI, .NONE, .NONE), 0x0⟩,
  ⟨.PUSHA, 0x60, -1, (.NONE, .NONE, .NONE), 0x0⟩,
  ⟨.POPA, 0x61, -1, (.NONE, .NONE, .NONE), 0x0⟩,
  ⟨.INVAL, 0x62, -1, (.NONE, .NONE, .NONE), 0x0⟩,
  ⟨.INVAL, 0x63, -1, (.NONE, .NONE, .NONE), 0x0⟩,
  ⟨.INVAL, 0x64, -1, (.NONE, .NONE, .NONE), 0x0⟩,
  ⟨.INVAL, 0x65, -1, (.NONE, .NONE, .NONE), 0x0⟩,
  ⟨.INVAL, 0x66, -1, (.NONE, .NONE, .NONE), 0x0⟩,
  ⟨.INVAL, 0x67, -1, (.NONE, .NONE, .NONE), 0x0⟩,
  ⟨.PUSH, 0x68, -1, (.IMM16, .NONE, .NONE), 0x0⟩,
  ⟨.IMUL_TRUNC, 0x69, -1, (.R16, .RM16, .IMM16), 0x0⟩,
  ⟨.PUSH, 0x6a, -1, (.IMM8, .NONE, .NONE), 0x0⟩,
  ⟨.IMUL_TRUNC, 0x6b, -1, (.R16, .RM16, .IMM8), 0x0⟩,
  ⟨.INS, 0x6c, -1, (.DST8, .DX, .NONE), 0x0⟩,
  ⟨.INS, 0x6d, -1, (.DST16, .DX, .NONE), 0x0⟩,
  ⟨.OUTS, 0x6e, -1, (.DX, .SRC8, .NONE), 0x0⟩,
  ⟨.OUTS, 0x6f, -1, (.DX, .SRC16, .NONE), 0x0⟩,
  ⟨.JO, 0x70, -1, (.REL8, .NONE, .NONE), 0x0⟩,
  ⟨.JNO, 0x71, -1, (.REL8, .NONE, .NONE), 0x0⟩,
  ⟨.JB, 0x72, -1, (.REL8, .NONE, .NONE), 0x0⟩,
  ⟨.JAE, 0x73, -1, (.REL8, .NONE, .NONE), 0x0⟩,
  ⟨.JE, 0x74, -1, (.REL8, .NONE, .NONE), 0x0⟩,
  ⟨.JNE, 0x75, -1, (.REL8, .NONE, .NONE), 0x0⟩,
  ⟨.JBE, 0x76, -1, (.REL8, .NONE, .NONE), 0x0⟩,
  ⟨.JA, 0x77, -1, (.REL8, .NONE, .NONE), 0x0⟩,
  ⟨.JS, 0x78, -1, (.REL8, .NONE, .NONE), 0x0⟩,
  ⟨.JNS, 0x79, -1, (.REL8, .NONE, .NONE), 0x0⟩,
  ⟨.JP, 0x7a, -1, (.REL8, .NONE, .NONE), 0x0⟩,
  ⟨.JNP, 0x7b, -1, (.REL8, .NONE, .NONE), 0x0⟩,
  ⟨.JL, 0x7c, -1, (.REL8, .NONE, .NONE), 0x0⟩,
  ⟨.JGE, 0x7d, -1, (.REL8, .NONE, .NONE), 0x0⟩,
  ⟨.JLE, 0x7e, -1, (.REL8, .NONE, .NONE), 0x0⟩,
  ⟨.JG, 0x7f, -1, (.REL8, .NONE, .NONE), 0x0⟩,
  ⟨.ADD, 0x80, 0, (.RM8, .IMM8, .NONE), 0x0⟩,
  ⟨.OR, 0x80, 1, (.RM8, .IMM8, .NONE), 0x0⟩,
  ⟨.ADC, 0x80, 2, (.RM8, .IMM8, .NONE), 0x0⟩,
  ⟨.SBB, 0x80, 3, (.RM8, .IMM8, .NONE), 0x0⟩,
  ⟨.AND, 0x80, 4, (.RM8, .IMM8, .NONE), 0x0⟩,
  ⟨.SUB, 0x80, 5, (.RM8, .IMM8, .NONE), 0x0⟩,
  ⟨.XOR, 0x80, 6, (.RM8, .IMM8, .NONE), 0x0⟩,
  ⟨.CMP, 0x80, 7, (.RM8, .IMM8, .NONE), 0x0⟩,
  ⟨.ADD, 0x81, 0, (.RM16, .IMM16, .NONE), 0x0⟩,
  ⟨.OR, 0x81, 1, (.RM16, .IMM16, .NONE), 0x0⟩,
  ⟨.ADC, 0x81, 2, (.RM16, .IMM16, .NONE), 0x0⟩,
  ⟨.SBB, 0x81, 3, (.RM16, .IMM16, .NONE), 0x0⟩,
  ⟨.AND, 0x81, 4, (.RM16, .IMM16, .NONE), 0x0⟩,
  ⟨.SUB, 0x81, 5, (.RM16, .IMM16, .NONE), 0x0⟩,
  ⟨.XOR, 0x81, 6, (.RM16, .IMM16, .NONE), 0x0⟩,
  ⟨.CMP, 0x81, 7, (.RM16, .IMM16, .NONE), 0x0⟩,
  ⟨.ADD, 0x82, 0, (.RM8, .IMM8, .NONE), 0x0⟩,
  ⟨.OR, 0x82, 1, (.RM8, .IMM8, .NONE), 0x0⟩,
  ⟨.ADC, 0x82, 2, (.RM8, .IMM8, .NONE), 0x0⟩,
  ⟨.SBB, 0x82, 3, (.RM8, .IMM8, .NONE), 0x0⟩,
  ⟨.AND, 0x82, 4, (.RM8, .IMM8, .NONE), 0x0⟩,
  ⟨.SUB, 0x82, 5, (.RM8, .IMM8, .NONE), 0x0⟩,
  ⟨.XOR, 0x82, 6, (.RM8, .IMM8, .NONE), 0x0⟩,
  ⟨.CMP, 0x82, 7, (.RM8, .IMM8, .NONE), 0x0⟩,
  ⟨.ADD, 0x83, 0, (.RM16, .IMM8_EXT, .NONE), 0x0⟩,
  ⟨.OR, 0x83, 1, (.RM16, .IMM8_EXT, .NONE), 0x0⟩,
  ⟨.ADC, 0x83, 2, (.RM16, .IMM8_EXT, .NONE), 0x0⟩,
  ⟨.SBB, 0x83, 3, (.RM16, .IMM8_EXT, .NONE), 0x0⟩,
  ⟨.AND, 0x83, 4, (.RM16, .IMM8_EXT, .NONE), 0x0⟩,
  ⟨.SUB, 0x83, 5, (.RM16, .IMM8_EXT, .NONE), 0x0⟩,
  ⟨.XOR, 0x83, 6, (.RM16, .IMM8_EXT, .NONE), 0x0⟩,
  ⟨.CMP, 0x83, 7, (.RM16, .IMM8_EXT, .NONE), 0x0⟩,
  ⟨.TEST, 0x84, -1, (.RM8, .R8, .NONE), 0x0⟩,
  ⟨.TEST, 0x85, -1, (.RM16, .R16, .NONE), 0x0⟩,
  ⟨.XCHG, 0x86, -1, (.R8, .RM8, .NONE), 0x0⟩,
  ⟨.XCHG, 0x87, -1, (.R16, .RM16, .NONE), 0x0⟩,
  ⟨.MOV, 0x88, -1, (.RM8, .R8, .NONE), 0x0⟩,
  ⟨.MOV, 0x89, -1, (.RM16, .R16, .NONE), 0x0⟩,
  ⟨.MOV, 0x8a, -1, (.R8, .RM8, .NONE), 0x0⟩,
  ⟨.MOV, 0x8b, -1, (.R16, .RM16, .NONE), 0x0⟩,
  ⟨.MOV, 0x8c, -1, (.RM16, .SREG, .NONE), 0x0⟩,
  ⟨.LEA, 0x8d, -1, (.R16, .M16, .NONE), 0x0⟩,
  ⟨.MOV, 0x8e, -1, (.SREG, .RM16, .NONE), 0x0⟩,
  ⟨.POP, 0x8f, -1, (.RM16, .NONE, .NONE), 0x0⟩,
  ⟨.NOP, 0x90, -1, (.NONE, .NONE, .NONE), 0x0⟩,
  ⟨.XCHG, 0x91, -1, (.CX, .AX, .NONE), 0x0⟩,
  ⟨.XCHG, 0x92, -1, (.DX, .AX, .NONE), 0x0⟩,
  ⟨.XCHG, 0x93, -1, (.BX, .AX, .NONE), 0x0⟩,
  ⟨.XCHG, 0x94, -1, (.SP, .AX, .NONE), 0x0⟩,
  ⟨.XCHG, 0x95, -1, (.BP, .AX, .NONE), 0x0⟩,
  ⟨.XCHG, 0x96, -1, (.SI, .AX, .NONE), 0x0⟩,
  ⟨.XCHG, 0x97, -1, (.DI, .AX, .NONE), 0x0⟩,
  ⟨.CBW, 0x98, -1, (.AX, .AL, .NONE), 0x0⟩,
  ⟨.CWD, 0x99, -1, (.DX, .AX, .NONE), 0x0⟩,
  ⟨.CALLF, 0x9a, -1, (.FAR32, .NONE, .NONE), 0x0⟩,
  ⟨.INVAL, 0x9b, -1, (.NONE, .NONE, .NONE), 0x0⟩,
  ⟨.PUSHF, 0x9c, -1, (.FLAGS, .NONE, .NONE), 0x1⟩,
  ⟨.POPF, 0x9d, -1, (.FLAGS, .NONE, .NONE), 0x1⟩,
  ⟨.SAHF, 0x9e, -1, (.AH, .NONE, .NONE), 0x0⟩,
  ⟨.LAHF, 0x9f, -1, (.AH, .NONE, .NONE), 0x0⟩,
  ⟨.MOV, 0xa0, -1, (.AL, .MOFF8, .NONE), 0x0⟩,
  ⟨.MOV, 0xa1, -1, (.AX, .MOFF16, .NONE), 0x0⟩,
  ⟨.MOV, 0xa2, -1, (.MOFF8, .AL, .NONE), 0x0⟩,
  ⟨.MOV, 0xa3, -1, (.MOFF16, .AX, .NONE), 0x0⟩,
  ⟨.MOVS, 0xa4, -1, (.DST8, .SRC8, .NONE), 0x0⟩,
  ⟨.MOVS, 0xa5, -1, (.DST16, .SRC16, .NONE), 0x0⟩,
  ⟨.CMPS, 0xa6, -1, (.DST8, .SRC8, .NONE), 0x0⟩,
  ⟨.CMPS, 0xa7, -1, (.DST16, .SRC16, .NONE), 0x0⟩,
  ⟨.TEST, 0xa8, -1, (.AL, .IMM8, .NONE), 0x0⟩,
  ⟨.TEST, 0xa9, -1, (.AX, .IMM16, .NONE), 0x0⟩,
  ⟨.STOS, 0xaa, -1, (.DST8, .AL, .NONE), 0x0⟩,
  ⟨.STOS, 0xab, -1, (.DST16, .AX, .NONE), 0x0⟩,
  ⟨.LODS, 0xac, -1, (.AL, .SRC8, .NONE), 0x0⟩,
  ⟨.LODS, 0xad, -1, (.AX, .SRC16, .NONE), 0x0⟩,
  ⟨.SCAS, 0xae, -1, (.AL, .DST8, .NONE), 0x0⟩,
  ⟨.SCAS, 0xaf, -1, (.AX, .DST16, .NONE), 0x0⟩,
  ⟨.MOV, 0xb0, -1, (.AL, .IMM8, .NONE), 0x0⟩,
  ⟨.MOV, 0xb1, -1, (.CL, .IMM8, .NONE), 0x0⟩,
  ⟨.MOV, 0xb2, -1, (.DL, .IMM8, .NONE), 0x0⟩,
  ⟨.MOV, 0xb3, -1, (.BL, .IMM8, .NONE), 0x0⟩,
  ⟨.MOV, 0xb4, -1, (.AH, .IMM8, .NONE), 0x0⟩,
  ⟨.MOV, 0xb5, -1, (.CH, .IMM8, .NONE), 0x0⟩,
  ⟨.MOV, 0xb6, -1, (.DH, .IMM8, .NONE), 0x0⟩,
  ⟨.MOV, 0xb7, -1, (.BH, .IMM8, .NONE), 0x0⟩,
  ⟨.MOV, 0xb8, -1, (.AX, .IMM16, .NONE), 0x0⟩,
  ⟨.MOV, 0xb9, -1, (.CX, .IMM16, .NONE), 0x0⟩,
  ⟨.MOV, 0xba, -1, (.DX, .IMM16, .NONE), 0x0⟩,
  ⟨.MOV, 0xbb, -1, (.BX, .IMM16, .NONE), 0x0⟩,
  ⟨.MOV, 0xbc, -1, (.SP, .IMM16, .NONE), 0x0⟩,
  ⟨.MOV, 0xbd, -1, (.BP, .IMM16, .NONE), 0x0⟩,
  ⟨.MOV, 0xbe, -1, (.SI, .IMM16, .NONE), 0x0⟩,
  ⟨.MOV, 0xbf, -1, (.DI, .IMM16, .NONE), 0x0⟩,
  ⟨.ROL, 0xc0, 0, (.RM8, .IMM8, .NONE), 0x0⟩,
  ⟨.ROR, 0xc0, 1, (.RM8, .IMM8, .NONE), 0x0⟩,
  ⟨.RCL, 0xc0, 2, (.RM8, .IMM8, .NONE), 0x0⟩,
  ⟨.RCR, 0xc0, 3, (.RM8, .IMM8, .NONE), 0x0⟩,
  ⟨.SHL, 0xc0, 4, (.RM8, .IMM8, .NONE), 0x0⟩,
  ⟨.SHR, 0xc0, 5, (.RM8, .IMM8, .NONE), 0x0⟩,
  ⟨.SHL, 0xc0, 6, (.RM8, .IMM8, .NONE), 0x0⟩,
  ⟨.SAR, 0xc0, 7, (.RM8, .IMM8, .NONE), 0x0⟩,
  ⟨.ROL, 0xc1, 0, (.RM16, .IMM8_EXT, .NONE), 0x0⟩,
  ⟨.ROR, 0xc1, 1, (.RM16, .IMM8_EXT, .NONE), 0x0⟩,
  ⟨.RCL, 0xc1, 2, (.RM16, .IMM8_EXT, .NONE), 0x0⟩,
  ⟨.RCR, 0xc1, 3, (.RM16, .IMM8_EXT, .NONE), 0x0⟩,
  ⟨.SHL, 0xc1, 4, (.RM16, .IMM8_EXT, .NONE), 0x0⟩,
  ⟨.SHR, 0xc1, 5, (.RM16, .IMM8_EXT, .NONE), 0x0⟩,
  ⟨.SHL, 0xc1, 6, (.RM16, .IMM8_EXT, .NONE), 0x0⟩,
  ⟨.SAR, 0xc1, 7, (.RM16, .IMM8_EXT, .NONE), 0x0⟩,
  ⟨.RET, 0xc2, -1, (.IMM16, .NONE, .NONE), 0x0⟩,
  ⟨.RET, 0xc3, -1, (.NONE, .NONE, .NONE), 0x0⟩,
  ⟨.LES, 0xc4, -1, (.ES, .R16, .M32), 0x1⟩,
  ⟨.LDS, 0xc5, -1, (.DS, .R16, .M32), 0x1⟩,
  ⟨.MOV, 0xc6, 0, (.RM8, .IMM8, .NONE), 0x0⟩,
  ⟨.MOV, 0xc7, 0, (.RM16, .IMM16, .NONE), 0x0⟩,
  ⟨.ENTER, 0xc8, -1, (.BP, .IMM16, .IMM8), 0x0⟩,
  ⟨.LEAVE, 0xc9, -1, (.BP, .SP, .NONE), 0x3⟩,
  ⟨.RETF, 0xca, -1, (.IMM16, .NONE, .NONE), 0x0⟩,
  ⟨.RETF, 0xcb, -1, (.NONE, .NONE, .NONE), 0x0⟩,
  ⟨.INT, 0xcc, -1, (.LIT3, .FLAGS, .NONE), 0x2⟩,
  ⟨.INT, 0xcd, -1, (.IMM8, .FLAGS, .NONE), 0x2⟩,
  ⟨.INTO, 0xce, -1, (.FLAGS, .NONE, .NONE), 0x1⟩,
  ⟨.IRET, 0xcf, -1, (.FLAGS, .NONE, .NONE), 0x1⟩,
  ⟨.ROL, 0xd0, 0, (.RM8, .LIT1, .NONE), 0x0⟩,
  ⟨.ROR, 0xd0, 1, (.RM8, .LIT1, .NONE), 0x0⟩,
  ⟨.RCL, 0xd0, 2, (.RM8, .LIT1, .NONE), 0x0⟩,
  ⟨.RCR, 0xd0, 3, (.RM8, .LIT1, .NONE), 0x0⟩,
  ⟨.SHL, 0xd0, 4, (.RM8, .LIT1, .NONE), 0x0⟩,
  ⟨.SHR, 0xd0, 5, (.RM8, .LIT1, .NONE), 0x0⟩,
  ⟨.SHL, 0xd0, 6, (.RM8, .LIT1, .NONE), 0x0⟩,
  ⟨.SAR, 0xd0, 7, (.RM8, .LIT1, .NONE), 0x0⟩,
  ⟨.ROL, 0xd1, 0, (.RM16, .LIT1, .NONE), 0x0⟩,
  ⟨.ROR, 0xd1, 1, (.RM16, .LIT1, .NONE), 0x0⟩,
  ⟨.RCL, 0xd1, 2, (.RM16, .LIT1, .NONE), 0x0⟩,
  ⟨.RCR, 0xd1, 3, (.RM16, .LIT1, .NONE), 0x0⟩,
  ⟨.SHL, 0xd1, 4, (.RM16, .LIT1, .NONE), 0x0⟩,
  ⟨.SHR, 0xd1, 5, (.RM16, .LIT1, .NONE), 0x0⟩,
  ⟨.SHL, 0xd1, 6, (.RM16, .LIT1, .NONE), 0x0⟩,
  ⟨.SAR, 0xd1, 7, (.RM16, .LIT1, .NONE), 0x0⟩,
  ⟨.ROL, 0xd2, 0, (.RM8, .CL, .NONE), 0x0⟩,
  ⟨.ROR, 0xd2, 1, (.RM8, .CL, .NONE), 0x0⟩,
  ⟨.RCL, 0xd2, 2, (.RM8, .CL, .NONE), 0x0⟩,
  ⟨.RCR, 0xd2, 3, (.RM8, .CL, .NONE), 0x0⟩,
  ⟨.SHL, 0xd2, 4, (.RM8, .CL, .NONE), 0x0⟩,
  ⟨.SHR, 0xd2, 5, (.RM8, .CL, .NONE), 0x0⟩,
  ⟨.SHL, 0xd2, 6, (.RM8, .CL, .NONE), 0x0⟩,
  ⟨.SAR, 0xd2, 7, (.RM8, .CL, .NONE), 0x0⟩,
  ⟨.ROL, 0xd3, 0, (.RM16, .CL, .NONE), 0x0⟩,
  ⟨.ROR, 0xd3, 1, (.RM16, .CL, .NONE), 0x0⟩,
  ⟨.RCL, 0xd3, 2, (.RM16, .CL, .NONE), 0x0⟩,
  ⟨.RCR, 0xd3, 3, (.RM16, .CL, .NONE), 0x0⟩,
  ⟨.SHL, 0xd3, 4, (.RM16, .CL, .NONE), 0x0⟩,
  ⟨.SHR, 0xd3, 5, (.RM16, .CL, .NONE), 0x0⟩,
  ⟨.SHL, 0xd3, 6, (.RM16, .CL, .NONE), 0x0⟩,
  ⟨.SAR, 0xd3, 7, (.RM16, .CL, .NONE), 0x0⟩,
  ⟨.INVAL, 0xd4, -1, (.NONE, .NONE, .NONE), 0x0⟩,
  ⟨.INVAL, 0xd5, -1, (.NONE, .NONE, .NONE), 0x0⟩,
  ⟨.INVAL, 0xd6, -1, (.NONE, .NONE, .NONE), 0x0⟩,
  ⟨.XLAT, 0xd7, -1, (.AL, .DS, .BX), 0x0⟩,
  ⟨.INVAL, 0xd8, -1, (.NONE, .NONE, .NONE), 0x0⟩,
  ⟨.INVAL, 0xd9, -1, (.NONE, .NONE, .NONE), 0x0⟩,
  ⟨.INVAL, 0xda, -1, (.NONE, .NONE, .NONE), 0x0⟩,
  ⟨.INVAL, 0xdb, -1, (.NONE, .NONE, .NONE), 0x0⟩,
  ⟨.INVAL, 0xdc, -1, (.NONE, .NONE, .NONE), 0x0⟩,
  ⟨.INVAL, 0xdd, -1, (.NONE, .NONE, .NONE), 0x0⟩,
  ⟨.INVAL, 0xde, -1, (.NONE, .NONE, .NONE), 0x0⟩,
  ⟨.INVAL, 0xdf, -1, (.NONE, .NONE, .NONE), 0x0⟩,
  ⟨.LOOPNE, 0xe0, -1, (.CX, .REL8, .NONE), 0x1⟩,
  ⟨.LOOPE, 0xe1, -1, (.CX, .REL8, .NONE), 0x1⟩,
  ⟨.LOOP, 0xe2, -1, (.CX, .REL8, .NONE), 0x1⟩,
  ⟨.JCXZ, 0xe3, -1, (.CX, .REL8, .NONE), 0x1⟩,
  ⟨.IN, 0xe4, -1, (.AL, .IMM8, .NONE), 0x0⟩,
  ⟨.IN, 0xe5, -1, (.AX, .IMM8, .NONE), 0x0⟩,
  ⟨.OUT, 0xe6, -1, (.IMM8, .AL, .NONE), 0x0⟩,
  ⟨.OUT, 0xe7, -1, (.IMM8, .AX, .NONE), 0x0⟩,
  ⟨.CALL, 0xe8, -1, (.REL16, .NONE, .NONE), 0x0⟩,
  ⟨.JMP, 0xe9, -1, (.REL16, .NONE, .NONE), 0x0⟩,
  ⟨.JMPF, 0xea, -1, (.FAR32, .NONE, .NONE), 0x0⟩,
  ⟨.JMP, 0xeb, -1, (.REL8, .NONE, .NONE), 0x0⟩,
  ⟨.IN, 0xec, -1, (.AL, .DX, .NONE), 0x0⟩,
  ⟨.IN, 0xed, -1, (.AX, .DX, .NONE), 0x0⟩,
  ⟨.OUT, 0xee, -1, (.DX, .AL, .NONE), 0x0⟩,
  ⟨.OUT, 0xef, -1, (.DX, .AX, .NONE), 0x0⟩,
  ⟨.INVAL, 0xf0, -1, (.NONE, .NONE, .NONE), 0x0⟩,
  ⟨.INVAL, 0xf1, -1, (.NONE, .NONE, .NONE), 0x0⟩,
  ⟨.INVAL, 0xf2, -1, (.NONE, .NONE, .NONE), 0x0⟩,
  ⟨.INVAL, 0xf3, -1, (.NONE, .NONE, .NONE), 0x0⟩,
  ⟨.HLT, 0xf4, -1, (.NONE, .NONE, .NONE), 0x0⟩,
  ⟨.CMC, 0xf5, -1, (.NONE, .NONE, .NONE), 0x0⟩,
  ⟨.TEST, 0xf6, 0, (.RM8, .IMM8, .NONE), 0x0⟩,
  ⟨.TEST, 0xf6, 1, (.RM8, .IMM8, .NONE), 0x0⟩,
  ⟨.NOT, 0xf6, 2, (.RM8, .NONE, .NONE), 0x0⟩,
  ⟨.NEG, 0xf6, 3, (.RM8, .NONE, .NONE), 0x0⟩,
  ⟨.MUL, 0xf6, 4, (.AX, .AL, .RM8), 0x0⟩,
  ⟨.IMUL, 0xf6, 5, (.AX, .AL, .RM8), 0x0⟩,
  ⟨.DIV, 0xf6, 6, (.AH, .AL, .RM8), 0x0⟩,
  ⟨.IDIV, 0xf6, 7, (.AH, .AL, .RM8), 0x0⟩,
  ⟨.TEST, 0xf7, 0, (.RM16, .IMM16, .NONE), 0x0⟩,
  ⟨.TEST, 0xf7, 1, (.RM16, .IMM16, .NONE), 0x0⟩,
  ⟨.NOT, 0xf7, 2, (.RM16, .NONE, .NONE), 0x0⟩,
  ⟨.NEG, 0xf7, 3, (.RM16, .NONE, .NONE), 0x0⟩,
  ⟨.MUL, 0xf7, 4, (.DX, .AX, .RM16), 0x0⟩,
  ⟨.IMUL, 0xf7, 5, (.DX, .AX, .RM16), 0x0⟩,
  ⟨.DIV, 0xf7, 6, (.DX, .AX, .RM16), 0x0⟩,
  ⟨.IDIV, 0xf7, 7, (.DX, .AX, .RM16), 0x0⟩,
  ⟨.CLC, 0xf8, -1, (.NONE, .NONE, .NONE), 0x0⟩,
  ⟨.STC, 0xf9, -1, (.NONE, .NONE, .NONE), 0x0⟩,
  ⟨.CLI, 0xfa, -1, (.NONE, .NONE, .NONE), 0x0⟩,
  ⟨.STI, 0xfb, -1, (.NONE, .NONE, .NONE), 0x0⟩,
  ⟨.CLD, 0xfc, -1, (.NONE, .NONE, .NONE), 0x0⟩,
  ⟨.STD, 0xfd, -1, (.NONE, .NONE, .NONE), 0x0⟩,
  ⟨.INC, 0xfe, 0, (.RM8, .NONE, .NONE), 0x0⟩,
  ⟨.DEC, 0xfe, 1, (.RM8, .NONE, .NONE), 0x0⟩,
  ⟨.INC, 0xff, 0, (.RM16, .NONE, .NONE), 0x0⟩,
  ⟨.DEC, 0xff, 1, (.RM16, .NONE, .NONE), 0x0⟩,
  ⟨.CALL, 0xff, 2, (.RM16, .NONE, .NONE), 0x0⟩,
  ⟨.CALLF, 0xff, 3, (.M32, .NONE, .NONE), 0x0⟩,
  ⟨.JMP, 0xff, 4, (.RM16, .NONE, .NONE), 0x0⟩,
  ⟨.JMPF, 0xff, 5, (.M32, .NONE, .NONE), 0x0⟩,
  ⟨.PUSH, 0xff, 6, (.RM16, .NONE, .NONE), 0x0⟩]

inductive LookupError where
  | notFound
  | needOpcode2
  | needOpcode2Ext0F
deriving DecidableEq, Repr

/-- The first row with both opcodes; a row with the first one only asks for the second. -/
def lookup (opcode1 : BitVec 8) (opcode2 : Option (BitVec 8)) : Except LookupError InstrFmt :=
  let op1 : Int := opcode1.toNat
  let op2 : Int := (opcode2.map fun x => (x.toNat : Int)).getD (-1)
  match instrTbl.find? fun fmt => fmt.op1 = op1 ∧ fmt.op2 = op2 with
  | some fmt => .ok fmt
  | none =>
      if (instrTbl.any fun fmt => fmt.op1 = op1) ∧ op2 = -1 then
        if op1 ≠ 0x0f then .error .needOpcode2 else .error .needOpcode2Ext0F
      else .error .notFound

end Dis86.Asm
