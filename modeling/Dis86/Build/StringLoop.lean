import Dis86.Build.StringValues

namespace Dis86.Build
open Asm (Reg Operand OperandMem)
open Hydra (Hardware Arg Locals)
open Lib (countdown)

/-- The operations that repeat an element. -/
inductive StringOp where
  | movs | stos | lods | cmps | scas
deriving DecidableEq, Repr

def segmentRegs : List Reg := [.ES, .CS, .SS, .DS]

/-- A string instruction with a repeat prefix. The source segment may be overridden. -/
structure StringInstr where
  op : StringOp
  element : Hydra.Element
  seg : Reg
  isSegment : seg ∈ segmentRegs
  rep : Asm.Rep

/-- The guest registers and the memory. A byte register is a part of its register. -/
structure Guest (M : Type) where
  regs : Reg → BitVec 16
  mem : M

def readRegister (regs : Reg → BitVec 16) (reg : Reg) : BitVec 16 :=
  regView reg (regs (initStorageParent reg))

def writeRegister (regs : Reg → BitVec 16) (reg : Reg) (v : BitVec 16) : Reg → BitVec 16 :=
  match parent? reg with
  | none => Function.update regs reg v
  | some full =>
      Function.update regs full
        (if isHigh reg then (v &&& 0xFF) <<< 8 ||| regs full &&& 0xFF
          else regs full >>> 8 <<< 8 ||| v &&& 0xFF)

namespace Guest

variable {M : Type}

/-- What one element reads and writes beside the registers that stay. -/
def locals (g : Guest M) : Locals M := ⟨g.mem, g.regs .SI, g.regs .DI⟩

def withCount (g : Guest M) (cx : BitVec 16) : Guest M :=
  { g with regs := Function.update g.regs .CX cx }

end Guest

namespace StringInstr

variable {M : Type} (i : StringInstr) (hw : Hardware M)

def opcode : Asm.Opcode :=
  match i.op with
  | .movs => .MOVS
  | .stos => .STOS
  | .lods => .LODS
  | .cmps => .CMPS
  | .scas => .SCAS

def accumulator : Reg :=
  match i.element with
  | .byte => .AL
  | .word => .AX

def sz : Asm.Size :=
  match i.element with
  | .byte => .size8
  | .word => .size16

def srcOperand : Operand := .mem ⟨i.sz, i.seg, some .SI, none, none⟩

def dstOperand : Operand := .mem ⟨i.sz, .ES, some .DI, none, none⟩

def operands : List Operand :=
  match i.op with
  | .movs | .cmps => [i.dstOperand, i.srcOperand]
  | .stos => [i.dstOperand, .reg i.accumulator]
  | .lods => [.reg i.accumulator, i.srcOperand]
  | .scas => [.reg i.accumulator, i.dstOperand]

/-- The instruction as the decoder returns it. -/
def instr (addr : Asm.SegOff) (nBytes : BitVec 16) : Asm.Instr :=
  ⟨some i.rep, i.opcode, i.operands, addr, nBytes, 0⟩

/-- The direction flag is clear, so the pointers move upwards. -/
def siStep : BitVec 16 :=
  match i.op with
  | .movs | .lods | .cmps => i.element.size
  | .stos | .scas => 0

def diStep : BitVec 16 :=
  match i.op with
  | .movs | .stos | .cmps | .scas => i.element.size
  | .lods => 0

/-- A comparison sets the flags. -/
def searches : Bool :=
  match i.op with
  | .cmps | .scas => true
  | .movs | .stos | .lods => false

/-- The memory after an element, with given segments and accumulator. -/
def storeElement (seg : Reg → BitVec 16) (acc : BitVec 16) (l : Locals M) : M :=
  match i.op with
  | .movs => hw.store i.element (seg .ES) l.di (hw.load i.element (seg i.seg) l.si l.mem) l.mem
  | .stos => hw.store i.element (seg .ES) l.di acc l.mem
  | .lods | .cmps | .scas => l.mem

/-- The registers after `n` elements, the accumulator apart. -/
def advance (n : Nat) (regs : Reg → BitVec 16) : Reg → BitVec 16
  | .CX => regs .CX - n
  | .SI => regs .SI + n * i.siStep
  | .DI => regs .DI + n * i.diStep
  | reg => regs reg

/-- Only LODS changes the accumulator. -/
def accumulate (g : Guest M) : Reg → BitVec 16 :=
  match i.op with
  | .lods => writeRegister g.regs i.accumulator
      (hw.load i.element (g.regs i.seg) (g.regs .SI) g.mem)
  | .movs | .stos | .cmps | .scas => g.regs

/-- One element of the instruction. -/
def step (g : Guest M) : Guest M where
  regs := i.advance 1 (i.accumulate hw g)
  mem := i.storeElement hw g.regs (readRegister g.regs i.accumulator) g.locals

/-- A comparing instruction goes on while the zero flag is as its prefix says. -/
def stopsAt (a b : BitVec 16) : Bool :=
  match i.rep with
  | .eq => a != b
  | .ne => a == b

def stops (g : Guest M) : Bool :=
  match i.op with
  | .cmps => i.stopsAt (hw.load i.element (g.regs i.seg) (g.regs .SI) g.mem)
      (hw.load i.element (g.regs .ES) (g.regs .DI) g.mem)
  | .scas => i.stopsAt (readRegister g.regs i.accumulator)
      (hw.load i.element (g.regs .ES) (g.regs .DI) g.mem)
  | .movs | .stos | .lods => false

/-- The instruction repeats its element until the count is zero or the comparison ends it. -/
def run (g : Guest M) : Guest M :=
  (countdown (fun g => (i.step hw g, i.stops hw g)) (g.regs .CX).toNat g).2

end StringInstr

/-- The texts that the emitted code has for the segment registers. Each has the value of its
register in the memory before the instruction. -/
structure Segments {M : Type} (g : Guest M) where
  text : Reg → Arg M
  exact : ∀ seg ∈ segmentRegs, text seg g.mem = g.regs seg

/-- The variables before the instruction, for a count. -/
def startVariables {M : Type} {g : Guest M} (segs : Segments g) (cx : BitVec 16) : Variables M where
  vars reg :=
    if reg ∈ segmentRegs then ⟨g.regs reg, segs.text reg⟩
    else .known (readRegister (g.withCount cx).regs reg)
  mem := g.mem

namespace StringInstr

variable {M : Type} (i : StringInstr) (hw : Hardware M)

/-- The lowered code leaves the memory and every register view as the instruction does; a comparing
instruction leaves the flags unknown. -/
def Agrees (addr : Asm.SegOff) (nBytes : BitVec 16) (pinAll : Bool) (entryFlags : BitVec 16)
    {g : Guest M} (segs : Segments g) (cx : BitVec 16) : Prop :=
  ∃ after, (running hw true pinAll entryFlags).appendRepInstr (i.instr addr nBytes)
      (startVariables segs cx) = some ((), after) ∧
    after.mem = (i.run hw (g.withCount cx)).mem ∧
    ∀ reg, (reg = .FLAGS → i.searches = false) →
      (after.vars reg).val = readRegister (i.run hw (g.withCount cx)).regs reg

/-- The segment texts, evaluated again at a later element, lead to the same store as the segment
registers. -/
def StoresAgree {g : Guest M} (segs : Segments g) (at' : Guest M) : Prop :=
  i.storeElement hw (fun seg => segs.text seg at'.mem) (readRegister at'.regs i.accumulator)
      at'.locals =
    i.storeElement hw at'.regs (readRegister at'.regs i.accumulator) at'.locals

end StringInstr

end Dis86.Build
