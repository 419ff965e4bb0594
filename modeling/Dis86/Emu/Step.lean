import Dis86.Asm.Decode
import Dis86.Emu.Alu

namespace Dis86.Emu
open Asm (Reg Seg SegOff DecodeError Operand OperandMem Size Rep Bytes RegionIter)
open Lib (Outcome)

/-- The processor with its memory and its interrupt table. The devices are a parameter. -/
structure Machine (D : Type) where
  halted : Bool
  mem : Memory
  cpu : Cpu
  interruptVectors : BitVec 8 → Option SegOff
  devices : D
  execCount : Nat

/-- What the program sees of the sound chip, of the display and of the services of the system. -/
structure Devices (D : Type) where
  tick : D → D
  status : D → BitVec 8
  writeAddr : D → BitVec 8 → D
  writeRegister : D → BitVec 8 → D
  setPaletteIndex : D → BitVec 8 → D
  writePalette : D → BitVec 8 → Result D
  video : Machine D → Result (Machine D)
  dos : Machine D → Result (Machine D)
  mouse : Machine D → Result (Machine D)

/-- The size of a register in the table of the assembler. -/
def regSize : Reg → Size
  | .AL | .CL | .DL | .BL | .AH | .CH | .DH | .BH => .size8
  | _ => .size16

namespace Machine

variable {D : Type}

def regRead (m : Machine D) (r : Register) : Value := m.cpu.regRead r

def regWrite (m : Machine D) (r : Register) (val : Value) : Result (Machine D) := do
  return { m with cpu := ← m.cpu.regWrite r val }

def regReadU8 (m : Machine D) (r : Register) : Result (BitVec 8) := m.cpu.regReadU8 r

def regReadU16 (m : Machine D) (r : Register) : Result (BitVec 16) := m.cpu.regReadU16 r

def regReadAddr (m : Machine D) (seg off : Register) : Result SegOff := m.cpu.regReadAddr seg off

def regWriteU8 (m : Machine D) (r : Register) (val : BitVec 8) : Result (Machine D) := m.regWrite r (.u8 val)

def regWriteU16 (m : Machine D) (r : Register) (val : BitVec 16) : Result (Machine D) := m.regWrite r (.u16 val)

def regWriteU32 (m : Machine D) (high low : Register) (val : BitVec 32) : Result (Machine D) := do
  return { m with cpu := ← m.cpu.regWriteU32 high low val }

def regWriteAddr (m : Machine D) (seg off : Register) (addr : SegOff) : Result (Machine D) := do
  return { m with cpu := ← m.cpu.regWriteAddr seg off addr }

/-- A register as a word. -/
def reg (m : Machine D) (r : Register) : Result (BitVec 16) :=
  match m.regRead r with
  | .u8 val => .ok (val.setWidth 16)
  | .u16 val => .ok val
  | _ => .panic

def regSet (m : Machine D) (r : Register) (val : BitVec 16) : Result (Machine D) :=
  m.regWrite r (if r.size = 1 then .u8 (val.setWidth 8) else .u16 val)

def flagReadAll (m : Machine D) : Flags := m.cpu.flagReadAll

def flagWriteAll (m : Machine D) (f : Flags) : Machine D := { m with cpu := m.cpu.flagWriteAll f }

def flagRead (m : Machine D) (flag : Flag) : Bool := m.cpu.flagRead flag

def flagWrite (m : Machine D) (flag : Flag) (on : Bool) : Machine D := { m with cpu := m.cpu.flagWrite flag on }

def withMem (m : Machine D) (mem : Memory) : Machine D := { m with mem := mem }

/-- The stack pointer wraps in its segment. -/
def stackPushU16 (m : Machine D) (val : BitVec 16) : Result (Machine D) := do
  let addr ← m.regReadAddr .SS .SP
  let addr : SegOff := ⟨addr.seg, addr.off - 2⟩
  let m ← m.regWriteU16 .SP addr.off
  return m.withMem (← m.mem.writeU16 addr val)

def stackPopU16 (m : Machine D) : Result (BitVec 16 × Machine D) := do
  let addr ← m.regReadAddr .SS .SP
  let val ← m.mem.readU16 addr
  let m ← m.regWriteU16 .SP (addr.off + 2)
  return (val, m)

def stackPush (m : Machine D) (val : Value) : Result (Machine D) := do
  m.stackPushU16 (← val.unwrapU16)

def stackPop (m : Machine D) : Result (Value × Machine D) := do
  let (val, m) ← m.stackPopU16
  return (.u16 val, m)

def operandImmRead (sz : Size) (val : BitVec 16) : Result Value :=
  match sz with
  | .size8 => .ok (.u8 (val.setWidth 8))
  | .size16 => .ok (.u16 val)
  | .size32 => .panic

def operandRegRead (m : Machine D) (reg : Reg) : Value := m.regRead (convertReg reg)

def operandRegWrite (m : Machine D) (reg : Reg) (val : Value) : Result (Machine D) :=
  let reg := convertReg reg
  match val with
  | .u8 val => do
      .require (reg.size = 1)
      m.regSet reg (val.setWidth 16)
  | .u16 val => do
      .require (reg.size = 2)
      m.regSet reg val
  | _ => .panic

/-- A part that the operand does not have adds nothing. -/
def addReg (m : Machine D) (offset : BitVec 16) (reg : Option Reg) : Result (BitVec 16) :=
  match reg with
  | none => .ok offset
  | some reg => do return offset + (← m.reg (convertReg reg))

def operandMemAddr (m : Machine D) (mem : OperandMem) : Result SegOff := do
  let seg ← m.reg (convertReg mem.sreg)
  let offset ← m.addReg 0 mem.reg1
  let offset ← m.addReg offset mem.reg2
  let offset := offset + mem.off.getD 0
  return ⟨.normal seg, offset⟩

def operandMemRead (m : Machine D) (mem : OperandMem) : Result Value := do
  let addr ← m.operandMemAddr mem
  match mem.sz with
  | .size8 => return .u8 (← m.mem.readU8 addr)
  | .size16 => return .u16 (← m.mem.readU16 addr)
  | .size32 => return .u32 (← m.mem.readU32 addr)

def operandMemWriteAt (m : Machine D) (addr : SegOff) (val : Value) : Result (Machine D) :=
  match val with
  | .u8 val => do return m.withMem (← m.mem.writeU8 addr val)
  | .u16 val => do return m.withMem (← m.mem.writeU16 addr val)
  | .u32 val => do return m.withMem (← m.mem.writeU32 addr val)
  | .addr _ => .panic

def operandMemWrite (m : Machine D) (mem : OperandMem) (val : Value) : Result (Machine D) := do
  m.operandMemWriteAt (← m.operandMemAddr mem) val

def operandRead (m : Machine D) (ins : Asm.Instr) (oper : Nat) : Result Value := do
  match ← .unwrap ins.operands[oper]? with
  | .imm sz val => operandImmRead sz val
  | .reg reg => return m.operandRegRead reg
  | .mem mem => m.operandMemRead mem
  | .rel rel => return .addr (ins.relAddr rel)
  | .far seg off => return .addr ⟨.normal seg, off⟩

def operandReadU8 (m : Machine D) (ins : Asm.Instr) (oper : Nat) : Result (BitVec 8) := do
  (← m.operandRead ins oper).unwrapU8

def operandReadU16 (m : Machine D) (ins : Asm.Instr) (oper : Nat) : Result (BitVec 16) := do
  (← m.operandRead ins oper).unwrapU16

/-- A loaded double word is an address too. -/
def operandReadAddr (m : Machine D) (ins : Asm.Instr) (oper : Nat) : Result SegOff := do
  match ← m.operandRead ins oper with
  | .addr addr => return addr
  | .u32 val => return fromU32 val
  | _ => .panic

def operandWrite (m : Machine D) (ins : Asm.Instr) (oper : Nat) (val : Value) : Result (Machine D) := do
  match ← .unwrap ins.operands[oper]? with
  | .reg reg => m.operandRegWrite reg val
  | .mem mem => m.operandMemWrite mem val
  | _ => .panic

def opUnary (m : Machine D) (ins : Asm.Instr) (op : UnaryOp) : Result (Machine D) := do
  let val ← m.operandRead ins 0
  let (result, flags) ← Alu.unary op val m.flagReadAll
  (m.flagWriteAll flags).operandWrite ins 0 result

def opBinary (m : Machine D) (ins : Asm.Instr) (op : BinaryOp) : Result (Machine D) := do
  let lhs ← m.operandRead ins 0
  let rhs ← m.operandRead ins 1
  let (result, flags) ← Alu.binary op lhs rhs m.flagReadAll
  (m.flagWriteAll flags).operandWrite ins 0 result

/-- A comparison and a test keep the flags only. -/
def opCompare (m : Machine D) (ins : Asm.Instr) (op : BinaryOp) : Result (Machine D) := do
  let lhs ← m.operandRead ins 0
  let rhs ← m.operandRead ins 1
  let (_, flags) ← Alu.binary op lhs rhs m.flagReadAll
  return m.flagWriteAll flags

/-- The count is the low byte. -/
def shiftCount : Value → Result (BitVec 8)
  | .u8 val => .ok val
  | .u16 val => .ok (val.setWidth 8)
  | _ => .panic

def opShift (m : Machine D) (ins : Asm.Instr) (op : ShiftOp) : Result (Machine D) := do
  let lhs ← m.operandRead ins 0
  let count ← shiftCount (← m.operandRead ins 1)
  let (result, flags) ← Alu.shift op lhs count m.flagReadAll
  (m.flagWriteAll flags).operandWrite ins 0 result

/-- Only the word form is there. -/
def opMultiply (m : Machine D) (ins : Asm.Instr) (op : MultiplyOp) : Result (Machine D) := do
  let lhs ← m.operandReadU16 ins 1
  let rhs ← m.operandReadU16 ins 2
  let (result, flags) ← Alu.multiply op (.u16 lhs) (.u16 rhs) m.flagReadAll
  let m := m.flagWriteAll flags
  let result ← result.unwrapU32
  let m ← m.operandWrite ins 0 (.u16 ((result >>> 16).setWidth 16))
  m.operandWrite ins 1 (.u16 (result.setWidth 16))

def opDivide (m : Machine D) (ins : Asm.Instr) (op : DivideOp) : Result (Machine D) := do
  let high ← m.operandRead ins 0
  let low ← m.operandRead ins 1
  let lhs ← Value.join high low
  let rhs ← m.operandRead ins 2
  let (quotient, remainder, flags) ← Alu.divmod op lhs rhs m.flagReadAll
  let m := m.flagWriteAll flags
  let m ← m.operandWrite ins 1 quotient
  m.operandWrite ins 0 remainder

def extendFactor : Value → Result (BitVec 16)
  | .u8 rhs => .ok (rhs.signExtend 16)
  | .u16 rhs => .ok rhs
  | _ => .panic

def opSignedMultiplyTrunc (m : Machine D) (ins : Asm.Instr) : Result (Machine D) := do
  let lhs ← m.operandRead ins 1
  let rhs ← m.operandRead ins 2
  let lhs ← lhs.unwrapU16
  let rhs ← extendFactor rhs
  let (result, flags) ← Alu.multiply .Signed (.u16 lhs) (.u16 rhs) m.flagReadAll
  let m := m.flagWriteAll flags
  let result ← result.unwrapU32
  m.operandWrite ins 0 (.u16 (result.setWidth 16))

def opJumpCond (m : Machine D) (ins : Asm.Instr) (cond : Bool) : Result (Machine D) := do
  let tgt ← m.operandReadAddr ins 0
  if cond then m.regWriteAddr .CS .IP tgt else return m

def opLoop (m : Machine D) (ins : Asm.Instr) (zeroFlagCond : Bool) : Result (Machine D) := do
  let count ← m.operandReadU16 ins 0
  let tgt ← m.operandReadAddr ins 1
  let newCount := count - 1
  let m ← m.operandWrite ins 0 (.u16 newCount)
  if newCount ≠ 0 ∧ zeroFlagCond then m.regWriteAddr .CS .IP tgt else return m

/-- The flags are saved with the bit that always reads as one. -/
def interruptSave (m : Machine D) : Result (Machine D) := do
  let flags ← m.regReadU16 .FLAGS
  let m ← m.stackPushU16 (flags ||| 2)
  let m := m.flagWrite .IF false
  let m := m.flagWrite .TF false
  let m ← m.stackPush (m.regRead .CS)
  m.stackPush (m.regRead .IP)

def interruptRestore (m : Machine D) : Result (Machine D) := do
  let (ip, m) ← m.stackPop
  let (cs, m) ← m.stackPop
  let (flags, m) ← m.stackPopU16
  let m ← m.regWriteU16 .FLAGS flags
  let m ← m.regWrite .CS cs
  m.regWrite .IP ip

def biosGetSystemTime (m : Machine D) : Result (Machine D) := do
  let m ← m.regWriteU8 .AL 0
  m.regWriteU32 .CX .DX 0

def biosTimeOfDay (m : Machine D) : Result (Machine D) := do
  let ah ← m.regReadU8 .AH
  if ah = 0 then m.biosGetSystemTime else .panic

variable (dev : Devices D)

def interruptDefaultHandler (m : Machine D) (num : BitVec 8) : Result (Machine D) :=
  if num = 0x1a then m.biosTimeOfDay
  else if num = 0x10 then dev.video m
  else if num = 0x21 then dev.dos m
  else if num = 0x33 then dev.mouse m
  else .panic

/-- A handler of the program runs next. A default handler runs at once, with the registers restored. -/
def interrupt (m : Machine D) (num : BitVec 8) : Result (Machine D) := do
  let m ← m.interruptSave
  match m.interruptVectors num with
  | some addr => m.regWriteAddr .CS .IP addr
  | none => do
      let m ← m.interruptRestore
      m.interruptDefaultHandler dev num

def ioPortInb (m : Machine D) (port : BitVec 16) : Result (BitVec 8 × Machine D) :=
  let m := { m with devices := dev.tick m.devices }
  if port = 0x388 then .ok (dev.status m.devices, m)
  else if port = 0x3da then .ok (0, m)
  else .panic

def ioPortOutb (m : Machine D) (port : BitVec 16) (data : BitVec 8) : Result (Machine D) :=
  let m := { m with devices := dev.tick m.devices }
  if port = 0x20 ∨ port = 0x40 ∨ port = 0x43 then .ok m
  else if port = 0x388 then .ok { m with devices := dev.writeAddr m.devices data }
  else if port = 0x389 then .ok { m with devices := dev.writeRegister m.devices data }
  else if port = 0x3c8 then .ok { m with devices := dev.setPaletteIndex m.devices data }
  else if port = 0x3c9 then do return { m with devices := ← dev.writePalette m.devices data }
  else .panic

section Strings

/-- The loop of a string operation ends with the count that is left. -/
def elementLoop (body : Machine D → Result (Machine D)) (stops : Machine D → Bool) :
    Nat → Machine D → Result (Nat × Machine D)
  | 0, m => .ok (0, m)
  | count + 1, m => do
      let m ← body m
      if stops m then return (count, m) else elementLoop body stops count m

/-- A prefix takes the count from CX and leaves the rest of it there. -/
def repeated (m : Machine D) (rep : Option Rep) (body : Machine D → Result (Machine D)) (stops : Machine D → Bool) :
    Result (Machine D) :=
  match rep with
  | none => do
      let (_, m) ← elementLoop body stops 1 m
      return m
  | some _ => do
      let count ← m.regReadU16 .CX
      let (count, m) ← elementLoop body stops count.toNat m
      m.regWriteU16 .CX (.ofNat 16 count)

def elementSize : Size → Result (BitVec 16)
  | .size8 => .ok 1
  | .size16 => .ok 2
  | .size32 => .panic

/-- The pointers move down while the direction flag is set. -/
def increment (m : Machine D) (size : BitVec 16) : BitVec 16 := if m.flagRead .DF then -size else size

def advance (m : Machine D) (r : Register) (inc : BitVec 16) : Result (Machine D) := do
  m.regWriteU16 r ((← m.regReadU16 r) + inc)

/-- A search ends where the zero flag contradicts its prefix. -/
def searchStops (rep : Option Rep) (m : Machine D) : Bool :=
  match rep with
  | none => false
  | some .ne => m.flagRead .ZF
  | some .eq => !m.flagRead .ZF

def memOperand (ins : Asm.Instr) (oper : Nat) : Result OperandMem := do
  match ← .unwrap ins.operands[oper]? with
  | .mem mem => return mem
  | _ => .panic

def regOperand (ins : Asm.Instr) (oper : Nat) : Result Reg := do
  match ← .unwrap ins.operands[oper]? with
  | .reg reg => return reg
  | _ => .panic

def opcodeMovs (m : Machine D) (ins : Asm.Instr) : Result (Machine D) := do
  .require (ins.opcode = .MOVS)
  let mem ← memOperand ins 1
  let inc := m.increment (← elementSize mem.sz)
  m.repeated ins.rep (fun m => do
    let rhs ← m.operandRead ins 1
    let m ← m.operandWrite ins 0 rhs
    let m ← m.advance .SI inc
    m.advance .DI inc) fun _ => false

def opcodeLods (m : Machine D) (ins : Asm.Instr) : Result (Machine D) := do
  .require (ins.opcode = .LODS)
  let mem ← memOperand ins 1
  let inc := m.increment (← elementSize mem.sz)
  m.repeated ins.rep (fun m => do
    let value ← m.operandRead ins 1
    let m ← m.operandWrite ins 0 value
    m.advance .SI inc) fun _ => false

/-- The value is read once, before the first element. -/
def opcodeStos (m : Machine D) (ins : Asm.Instr) : Result (Machine D) := do
  .require (ins.opcode = .STOS)
  let reg ← regOperand ins 1
  let inc := m.increment (← elementSize (regSize reg))
  let rhs ← m.operandRead ins 1
  m.repeated ins.rep (fun m => do
    let m ← m.operandWrite ins 0 rhs
    m.advance .DI inc) fun _ => false

def opcodeScas (m : Machine D) (ins : Asm.Instr) : Result (Machine D) := do
  .require (ins.opcode = .SCAS)
  let reg ← regOperand ins 0
  let inc := m.increment (← elementSize (regSize reg))
  m.repeated ins.rep (fun m => do
    let m ← m.opCompare ins .Sub
    m.advance .DI inc) (searchStops ins.rep)

/-- The source is compared with the destination, so the operands are read in the other order. -/
def opcodeCmps (m : Machine D) (ins : Asm.Instr) : Result (Machine D) := do
  .require (ins.opcode = .CMPS)
  let source ← memOperand ins 1
  let inc := m.increment (← elementSize source.sz)
  m.repeated ins.rep (fun m => do
    let lhs ← m.operandRead ins 1
    let rhs ← m.operandRead ins 0
    let (_, flags) ← Alu.binary .Sub lhs rhs m.flagReadAll
    let m := m.flagWriteAll flags
    let m ← m.advance .SI inc
    m.advance .DI inc) (searchStops ins.rep)

end Strings

section Instructions

def pushed : Value → Result (BitVec 16)
  | .u16 val => .ok val
  | .u8 val => .ok (val.signExtend 16)
  | _ => .panic

/-- A near target is an offset. -/
def nearTarget : Value → Result (BitVec 16)
  | .addr addr => .ok addr.off
  | .u16 off => .ok off
  | _ => .panic

def portNumber : Value → Result (BitVec 16)
  | .u16 port => .ok port
  | .u8 port => .ok (port.setWidth 16)
  | _ => .panic

/-- A return drops the arguments of its call. -/
def dropArguments (m : Machine D) (ins : Asm.Instr) : Result (Machine D) :=
  if ins.operands.length = 1 then do
    let adj ← m.operandReadU16 ins 0
    m.regWriteU16 .SP ((← m.regReadU16 .SP) + adj)
  else return m

def opPush (m : Machine D) (ins : Asm.Instr) : Result (Machine D) := do
  m.stackPushU16 (← pushed (← m.operandRead ins 0))

def opPop (m : Machine D) (ins : Asm.Instr) : Result (Machine D) := do
  let (val, m) ← m.stackPop
  m.operandWrite ins 0 val

def opPushf (m : Machine D) (ins : Asm.Instr) : Result (Machine D) := do
  m.stackPushU16 ((← m.operandReadU16 ins 0) ||| 2)

def opPopf (m : Machine D) (ins : Asm.Instr) : Result (Machine D) := do
  let (val, m) ← m.stackPop
  let flags ← val.unwrapU16
  m.operandWrite ins 0 (.u16 ((flags ||| 2) &&& flagMask))

def opXlat (m : Machine D) (ins : Asm.Instr) : Result (Machine D) := do
  let idx ← m.operandReadU8 ins 0
  let addrSeg ← m.operandReadU16 ins 1
  let addrOff ← m.operandReadU16 ins 2
  let val ← m.mem.readU8 ⟨.normal addrSeg, addrOff + idx.setWidth 16⟩
  m.operandWrite ins 0 (.u8 val)

def opCall (m : Machine D) (ins : Asm.Instr) : Result (Machine D) := do
  let off ← nearTarget (← m.operandRead ins 0)
  let m ← m.stackPush (m.regRead .IP)
  m.regSet .IP off

def opCallf (m : Machine D) (ins : Asm.Instr) : Result (Machine D) := do
  let tgt ← m.operandReadAddr ins 0
  let m ← m.stackPush (m.regRead .CS)
  let m ← m.stackPush (m.regRead .IP)
  m.regWriteAddr .CS .IP tgt

/-- Only a frame without locals and without nesting can be entered. -/
def opEnter (m : Machine D) (ins : Asm.Instr) : Result (Machine D) := do
  let locals ← m.operandRead ins 1
  let level ← m.operandRead ins 2
  .require (locals = .u16 0)
  .require (level = .u8 0)
  let m ← m.stackPush (m.regRead .BP)
  m.regWrite .BP (m.regRead .SP)

def opLeave (m : Machine D) : Result (Machine D) := do
  let m ← m.regWrite .SP (m.regRead .BP)
  let (val, m) ← m.stackPop
  m.regWrite .BP val

def opRet (m : Machine D) (ins : Asm.Instr) : Result (Machine D) := do
  let (off, m) ← m.stackPop
  let m ← m.dropArguments ins
  m.regWrite .IP off

def opRetf (m : Machine D) (ins : Asm.Instr) : Result (Machine D) := do
  let (off, m) ← m.stackPop
  let (seg, m) ← m.stackPop
  let m ← m.dropArguments ins
  let m ← m.regWrite .CS seg
  m.regWrite .IP off

def opLoadFar (m : Machine D) (ins : Asm.Instr) : Result (Machine D) := do
  let addr := fromU32 (← (← m.operandRead ins 2).unwrapU32)
  let m ← m.operandWrite ins 0 (.u16 (← unwrapNormal addr.seg))
  m.operandWrite ins 1 (.u16 addr.off)

def opLea (m : Machine D) (ins : Asm.Instr) : Result (Machine D) := do
  let addr ← m.operandMemAddr (← memOperand ins 1)
  m.operandWrite ins 0 (.u16 addr.off)

def opIn (dev : Devices D) (m : Machine D) (ins : Asm.Instr) : Result (Machine D) := do
  let port ← m.operandReadU16 ins 1
  let (data, m) ← m.ioPortInb dev port
  m.operandWrite ins 0 (.u8 data)

def opOut (dev : Devices D) (m : Machine D) (ins : Asm.Instr) : Result (Machine D) := do
  let port ← portNumber (← m.operandRead ins 0)
  let data ← m.operandReadU8 ins 1
  m.ioPortOutb dev port data

def opJmp (m : Machine D) (ins : Asm.Instr) : Result (Machine D) := do
  m.regWriteU16 .IP (← nearTarget (← m.operandRead ins 0))

def opJmpf (m : Machine D) (ins : Asm.Instr) : Result (Machine D) := do
  m.regWriteAddr .CS .IP (← m.operandReadAddr ins 0)

def opJcxz (m : Machine D) (ins : Asm.Instr) : Result (Machine D) := do
  let tgt ← m.operandReadAddr ins 1
  if (← m.regReadU16 .CX) = 0 then m.regWriteAddr .CS .IP tgt else return m

/-- The address of a memory operand is taken before the other operand is written. -/
def opXchg (m : Machine D) (ins : Asm.Instr) : Result (Machine D) := do
  let second ← .unwrap ins.operands[1]?
  match second with
  | .mem mem => do
      let addr ← m.operandMemAddr mem
      let lhs ← m.operandRead ins 0
      let rhs ← m.operandRead ins 1
      let m ← m.operandWrite ins 0 rhs
      m.operandMemWriteAt addr lhs
  | _ => do
      let lhs ← m.operandRead ins 0
      let rhs ← m.operandRead ins 1
      let m ← m.operandWrite ins 0 rhs
      m.operandWrite ins 1 lhs

def opCbw (m : Machine D) (ins : Asm.Instr) : Result (Machine D) := do
  let lower ← m.operandReadU8 ins 1
  let upper := lower.sshiftRight 7
  m.operandWrite ins 0 (.u16 (upper.setWidth 16 <<< 8 ||| lower.setWidth 16))

def opCwd (m : Machine D) (ins : Asm.Instr) : Result (Machine D) := do
  let lower ← m.operandReadU16 ins 1
  m.operandWrite ins 0 (.u16 (lower.sshiftRight 15))

end Instructions

/-- The condition of a jump on the flags. -/
def jumpCondition (f : Flags) : Asm.Opcode → Option Bool
  | .JE => some (f.get .ZF)
  | .JNE => some (!f.get .ZF)
  | .JB => some (f.get .CF)
  | .JAE => some (!f.get .CF)
  | .JA => some (!f.get .CF && !f.get .ZF)
  | .JBE => some (f.get .CF || f.get .ZF)
  | .JL => some (f.get .SF != f.get .OF)
  | .JGE => some (f.get .SF == f.get .OF)
  | .JG => some (!f.get .ZF && f.get .SF == f.get .OF)
  | .JLE => some (f.get .ZF || f.get .SF != f.get .OF)
  | .JS => some (f.get .SF)
  | .JNS => some (!f.get .SF)
  | .JO => some (f.get .OF)
  | .JNO => some (!f.get .OF)
  | .JP => some (f.get .PF)
  | .JNP => some (!f.get .PF)
  | _ => none

/-- The operations other than the string operations. -/
def execute (m : Machine D) (ins : Asm.Instr) : Result (Machine D) :=
  let f := m.flagReadAll
  match jumpCondition f ins.opcode with
  | some cond => m.opJumpCond ins cond
  | none =>
      match ins.opcode with
      | .MOV => do m.operandWrite ins 0 (← m.operandRead ins 1)
      | .PUSH => m.opPush ins
      | .POP => m.opPop ins
      | .PUSHF => m.opPushf ins
      | .POPF => m.opPopf ins
      | .XLAT => m.opXlat ins
      | .INT => do m.interrupt dev (← m.operandReadU8 ins 0)
      | .IRET => m.interruptRestore
      | .CALL => m.opCall ins
      | .CALLF => m.opCallf ins
      | .ENTER => m.opEnter ins
      | .LEAVE => m.opLeave
      | .RET => m.opRet ins
      | .RETF => m.opRetf ins
      | .LDS | .LES => m.opLoadFar ins
      | .LEA => m.opLea ins
      | .CLD => return m.flagWrite .DF false
      | .STD => return m.flagWrite .DF true
      | .CLI => return m.flagWrite .IF false
      | .STI => return m.flagWrite .IF true
      | .CLC => return m.flagWrite .CF false
      | .STC => return m.flagWrite .CF true
      | .IN => opIn dev m ins
      | .OUT => opOut dev m ins
      | .JMP => m.opJmp ins
      | .JMPF => m.opJmpf ins
      | .JCXZ => m.opJcxz ins
      | .LOOP => m.opLoop ins true
      | .LOOPE => m.opLoop ins (f.get .ZF)
      | .LOOPNE => m.opLoop ins (!f.get .ZF)
      | .CMP => m.opCompare ins .Sub
      | .TEST => m.opCompare ins .And
      | .INC => m.opUnary ins .Inc
      | .DEC => m.opUnary ins .Dec
      | .NEG => m.opUnary ins .Neg
      | .AND => m.opBinary ins .And
      | .OR => m.opBinary ins .Or
      | .XOR => m.opBinary ins .Xor
      | .NOT => m.opUnary ins .Not
      | .ADD => m.opBinary ins .Add
      | .ADC => m.opBinary ins .Adc
      | .SUB => m.opBinary ins .Sub
      | .SBB => m.opBinary ins .Sbb
      | .SHL => m.opShift ins .Shl
      | .SHR => m.opShift ins .Shr
      | .SAR => m.opShift ins .Sar
      | .ROL => m.opShift ins .Rol
      | .MUL => m.opMultiply ins .Unsigned
      | .IMUL => m.opMultiply ins .Signed
      | .IMUL_TRUNC => m.opSignedMultiplyTrunc ins
      | .DIV => m.opDivide ins .Unsigned
      | .IDIV => m.opDivide ins .Signed
      | .XCHG => m.opXchg ins
      | .CBW => m.opCbw ins
      | .CWD => m.opCwd ins
      | .NOP => return m
      | _ => .panic

/-- The string operations know the repeat prefixes, and they are not counted. -/
def exec (m : Machine D) (ins : Asm.Instr) : Result (Machine D) :=
  match ins.opcode with
  | .SCAS => m.opcodeScas ins
  | .STOS => m.opcodeStos ins
  | .MOVS => m.opcodeMovs ins
  | .CMPS => m.opcodeCmps ins
  | .LODS => m.opcodeLods ins
  | _ => do
      .require (ins.rep = none)
      let m ← m.execute dev ins
      return { m with execCount := m.execCount + 1 }

/-- Sixteen bytes of the memory are decoded. -/
def decodeInstr (mem : Memory) (addr : SegOff) : Result Asm.Instr := do
  let start ← absNormal addr
  .require (start + 16 ≤ memSize)
  let slice : Bytes := (List.range 16).map fun i => mem.raw (start + i)
  let ins ← (Asm.decodeOne (RegionIter.new slice addr)).1
  let (ins, _) ← .unwrap ins
  return ins

def step (m : Machine D) : Result (Machine D) := do
  let cs ← m.regReadU16 .CS
  let ip ← m.regReadU16 .IP
  let ins ← decodeInstr m.mem ⟨.normal cs, ip⟩
  let m ← m.regSet .IP ins.endAddr.off
  m.exec dev ins

end Machine

end Dis86.Emu
