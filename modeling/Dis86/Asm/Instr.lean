import Mathlib.Data.BitVec

namespace Dis86.Asm

/-- The guest registers, in the order of the source's enumeration. -/
inductive Reg where
  | AX | CX | DX | BX | SP | BP | SI | DI
  | AL | CL | DL | BL | AH | CH | DH | BH
  | ES | CS | SS | DS
  | IP | FLAGS
deriving DecidableEq, Repr, Inhabited

/-- The name of a register in the emitted code. -/
def Reg.name : Reg → String
  | .AX => "AX" | .CX => "CX" | .DX => "DX" | .BX => "BX"
  | .SP => "SP" | .BP => "BP" | .SI => "SI" | .DI => "DI"
  | .AL => "AL" | .CL => "CL" | .DL => "DL" | .BL => "BL"
  | .AH => "AH" | .CH => "CH" | .DH => "DH" | .BH => "BH"
  | .ES => "ES" | .CS => "CS" | .SS => "SS" | .DS => "DS"
  | .IP => "IP" | .FLAGS => "FLAGS"

/-- The operations of the machine, under the names of the decoder. -/
inductive Opcode where
  | AAA | AAS | ADC | ADD | AND | CALL | CALLF | CBW | CLC | CLD | CLI | CMC | CMP | CMPS | CWD
  | DAA | DAS | DEC | DIV | ENTER | HLT | IDIV | IMUL | IMUL_TRUNC | IN | INC | INS | INT
  | INTO | INVAL | IRET | JA | JAE | JB | JBE | JCXZ | JE | JG | JGE | JL | JLE | JMP | JMPF
  | JNE | JNO | JNP | JNS | JO | JP | JS | LAHF | LDS | LEA | LEAVE | LES | LODS | LOOP | LOOPE
  | LOOPNE | MOV | MOVS | MUL | NEG | NOP | NOT | OR | OUT | OUTS | POP | POPA | POPF | PUSH
  | PUSHA | PUSHF | RCL | RCR | RET | RETF | ROL | ROR | SAHF | SAR | SBB | SCAS | SETO | SETNO
  | SETA | SETAE | SETB | SETBE | SETE | SETG | SETGE | SETL | SETLE | SETP | SETS | SETNE
  | SETNP | SETNS | SHL | SHR | STC | STD | STI | STOS | SUB | TEST | XCHG | XLAT | XOR
deriving DecidableEq, Repr

inductive Size where
  | size8 | size16 | size32
deriving DecidableEq, Repr

inductive Rep where
  | ne | eq
deriving DecidableEq, Repr

/-- A segment is a number of the loaded program or an overlay. -/
inductive Seg where
  | normal (num : BitVec 16)
  | overlay (num : BitVec 16)
deriving DecidableEq, Repr

structure SegOff where
  seg : Seg
  off : BitVec 16
deriving DecidableEq, Repr

/-- An offset wraps inside its segment. -/
def SegOff.addOffset (addr : SegOff) (off : BitVec 16) : SegOff := ⟨addr.seg, addr.off + off⟩

/-- A memory operand adds up to two registers and an offset. -/
structure OperandMem where
  sz : Size
  sreg : Reg
  reg1 : Option Reg
  reg2 : Option Reg
  off : Option (BitVec 16)
deriving DecidableEq, Repr

inductive Operand where
  | reg (reg : Reg)
  | mem (mem : OperandMem)
  | imm (sz : Size) (val : BitVec 16)
  | rel (val : BitVec 16)
  | far (seg off : BitVec 16)
deriving DecidableEq, Repr

structure Instr where
  rep : Option Rep
  opcode : Opcode
  operands : List Operand
  addr : SegOff
  nBytes : BitVec 16
  intelHiddenOperandBitmask : BitVec 8
deriving DecidableEq, Repr

namespace Instr

def operand? (ins : Instr) (idx : Nat) : Option Operand := ins.operands[idx]?

def endAddr (ins : Instr) : SegOff := ins.addr.addOffset ins.nBytes

def relAddr (ins : Instr) (rel : BitVec 16) : SegOff := ins.endAddr.addOffset rel

end Instr

/-- A branch names the operand of its relative target and whether it falls through. -/
structure BranchShape where
  operNum : Nat
  fallthrough : Bool
deriving DecidableEq, Repr

def branchShape : Opcode → Option BranchShape
  | .JA | .JAE | .JB | .JBE | .JE | .JG | .JGE | .JL | .JLE | .JNE | .JNO | .JNP | .JNS | .JO
  | .JP | .JS => some ⟨0, true⟩
  | .JCXZ | .LOOP | .LOOPE | .LOOPNE => some ⟨1, true⟩
  | .JMP | .JMPF => some ⟨0, false⟩
  | _ => none

/-- A transfer whose destination is not a relative offset. -/
inductive UnresolvedTransfer where
  | farDirect (seg off : BitVec 16)
  | farIndirect
  | nearIndirect
deriving DecidableEq, Repr

def unresolvedTransfer (ins : Instr) : UnresolvedTransfer :=
  match ins.opcode, ins.operand? 0 with
  | .JMPF, some (.far seg off) => .farDirect seg off
  | .JMPF, _ => .farIndirect
  | _, _ => .nearIndirect

inductive BranchTarget where
  | relative (target : SegOff) (fallthrough : Option SegOff)
  | unresolved (kind : UnresolvedTransfer)
deriving DecidableEq, Repr

def branchTarget (ins : Instr) : Option BranchTarget :=
  (branchShape ins.opcode).map fun shape =>
    match ins.operand? shape.operNum with
    | some (.rel rel) =>
        .relative (ins.relAddr rel) (if shape.fallthrough then some ins.endAddr else none)
    | _ => .unresolved (unresolvedTransfer ins)

/-- Execution may continue at the next sequential address. -/
def hasFallthrough (opcode : Opcode) : Bool :=
  !(opcode matches .RET | .RETF | .IRET | .JMP | .JMPF | .HLT)

/-- The address in the first operand that gives one. -/
def operandTarget (ins : Instr) : Option SegOff :=
  ins.operands.findSome? fun operand =>
    match operand with
    | .rel rel => some (ins.relAddr rel)
    | .far seg off => some ⟨.normal seg, off⟩
    | _ => none

def branchDestination (ins : Instr) : Option SegOff :=
  match branchTarget ins with
  | some (.relative target _) => some target
  | some (.unresolved (.farDirect seg off)) => some ⟨.normal seg, off⟩
  | _ => none

/-- The static target of a call or a branch. -/
def directTarget (ins : Instr) : Option SegOff :=
  if ins.opcode matches .CALL | .CALLF then (operandTarget ins).or (branchDestination ins)
  else branchDestination ins

end Dis86.Asm
