import Dis86.Build.StringAgreement
import Dis86.Emu.Conditions

namespace Dis86.Emu
open Asm (Reg Operand OperandMem)
open Build (StringInstr Guest readRegister writeRegister segmentRegs regView parent? initStorageParent isHigh)
open Hydra (Hardware Element)
open Lib (Outcome countdown)

variable {D : Type}

/-- The memory of the emulator by linear addresses. -/
def linearHardware : Hardware (Nat → BitVec 8) where
  memRead8 raw addr := raw addr.toNat
  memRead16 raw addr := (raw (addr.toNat + 1)).setWidth 16 <<< 8 ||| (raw addr.toNat).setWidth 16
  memWrite8 raw addr val := Function.update raw addr.toNat val
  memWrite16 raw addr val :=
    Function.update (Function.update raw addr.toNat (val.setWidth 8)) (addr.toNat + 1) ((val >>> 8).setWidth 8)

/-- A byte register of the guest is a part of its register. -/
def Machine.guest (m : Machine D) : Guest (Nat → BitVec 8) := ⟨fun reg => m.cpu.get (convertReg reg), m.mem.raw⟩

section Elements

variable (e : Element)

/-- A word element does not cross the end of its segment. -/
def Whole (off : BitVec 16) : Prop := e = .word → off ≠ 0xffff

def elementWidth : Width :=
  match e with
  | .byte => .byte
  | .word => .word

def Memory.store (mem : Memory) (seg off v : BitVec 16) : Memory :=
  match e with
  | .byte => mem.set (Memory.linear seg off) (v.setWidth 8)
  | .word => mem.setWord seg off v

variable {e}

theorem linear_next {off : BitVec 16} (seg : BitVec 16) (whole : off ≠ 0xffff) :
    Memory.linear seg (off + 1) = Memory.linear seg off + 1 := by
  have next : (off + 1).toNat = off.toNat + 1 := by bv_omega
  rw [Memory.linear, Memory.linear, next]
  omega

theorem linear_eq (seg off : BitVec 16) : (Hydra.linear seg off).toNat = Memory.linear seg off := by
  rw [Hydra.linear_toNat, Memory.linear, Nat.mul_comm]

theorem load_byte (mem : Memory) (seg off : BitVec 16) :
    linearHardware.load .byte seg off mem.raw = (mem.raw (Memory.linear seg off)).setWidth 16 := by
  rw [← linear_eq]
  rfl

theorem load_word (mem : Memory) (seg : BitVec 16) {off : BitVec 16} (whole : off ≠ 0xffff) :
    linearHardware.load .word seg off mem.raw = mem.wordAt seg off := by
  rw [Memory.wordAt, linear_next seg whole, ← linear_eq]
  rfl

/-- The emulator stores an element as the interface of the hardware does. -/
theorem store_raw (mem : Memory) (seg v : BitVec 16) {off : BitVec 16} (whole : Whole e off) :
    (mem.store e seg off v).raw = linearHardware.store e seg off v mem.raw := by
  cases e with
  | byte =>
      rw [Memory.store, Memory.set, ← linear_eq]
      rfl
  | word =>
      rw [Memory.store, Memory.setWord, linear_next seg (whole rfl), ← linear_eq]
      rfl

end Elements

section Operands

variable (m : Machine D) {i : StringInstr}

theorem convertReg_word {reg : Reg} (whole : parent? reg = none) : ∃ idx, convertReg reg = .word idx := by
  cases reg <;> first | exact ⟨_, rfl⟩ | cases whole

theorem reg_word {reg : Reg} (whole : parent? reg = none) :
    m.reg (convertReg reg) = .ok (m.cpu.get (convertReg reg)) := by
  obtain ⟨idx, same⟩ := convertReg_word whole
  rw [same]
  rfl

theorem advance_word (reg : Reg) (whole : parent? reg = none) (inc : BitVec 16) :
    m.advance (convertReg reg) inc =
      .ok { m with cpu := m.cpu.put (convertReg reg) (m.cpu.get (convertReg reg) + inc) } := by
  obtain ⟨idx, same⟩ := convertReg_word whole
  rw [same]
  rfl

theorem element_addr {seg ptr : Reg} (wholeSeg : parent? seg = none) (wholePtr : parent? ptr = none) :
    m.operandMemAddr ⟨i.sz, seg, some ptr, none, none⟩ =
      .ok ⟨.normal (m.cpu.get (convertReg seg)), m.cpu.get (convertReg ptr)⟩ := by
  have offset : (0 : BitVec 16) + m.cpu.get (convertReg ptr) + (none : Option (BitVec 16)).getD 0 =
      m.cpu.get (convertReg ptr) := by simp
  rw [← offset]
  simp only [Machine.operandMemAddr, Machine.addReg, reg_word m wholeSeg, reg_word m wholePtr, Outcome.ok_bind]
  rfl

theorem read_element {seg ptr : Reg} (wholeSeg : parent? seg = none) (wholePtr : parent? ptr = none)
    (whole : Whole i.element (m.cpu.get (convertReg ptr))) :
    m.operandMemRead ⟨i.sz, seg, some ptr, none, none⟩ = .ok ((elementWidth i.element).pack
      (linearHardware.load i.element (m.cpu.get (convertReg seg)) (m.cpu.get (convertReg ptr)) m.mem.raw)) := by
  rw [Machine.operandMemRead, element_addr m wholeSeg wholePtr, Outcome.ok_bind]
  unfold StringInstr.sz
  cases element : i.element with
  | byte =>
      rw [load_byte, Memory.readU8_normal]
      simp [elementWidth, Width.pack]
      rfl
  | word =>
      rw [load_word _ _ (whole element), Memory.readU16_normal]
      rfl

theorem write_element {seg ptr : Reg} (wholeSeg : parent? seg = none) (wholePtr : parent? ptr = none)
    (v : BitVec 16) :
    m.operandMemWrite ⟨i.sz, seg, some ptr, none, none⟩ ((elementWidth i.element).pack v) = .ok (m.withMem
      (m.mem.store i.element (m.cpu.get (convertReg seg)) (m.cpu.get (convertReg ptr)) v)) := by
  rw [Machine.operandMemWrite, element_addr m wholeSeg wholePtr, Outcome.ok_bind]
  cases i.element with
  | byte =>
      rw [elementWidth, Width.pack, Machine.operandMemWriteAt, Memory.writeU8_normal]
      rfl
  | word =>
      rw [elementWidth, Width.pack, Machine.operandMemWriteAt, Memory.writeU16_normal]
      rfl

theorem low_byte (v : BitVec 16) : (v &&& 255#16).setWidth 8 = v.setWidth 8 := by
  apply BitVec.eq_of_getLsbD_eq
  intro k inside
  rw [BitVec.getLsbD_setWidth, BitVec.getLsbD_and, Build.getLsbD_byteMask, BitVec.getLsbD_setWidth]
  simp [inside]

theorem widened_byte (v : BitVec 16) : (v.setWidth 8).setWidth 16 = v &&& 255#16 := by
  apply BitVec.eq_of_getLsbD_eq
  intro k inside
  rw [BitVec.getLsbD_setWidth, BitVec.getLsbD_setWidth, BitVec.getLsbD_and, Build.getLsbD_byteMask]
  simp [inside, Bool.and_comm]

theorem highMask_getLsbD {k : Nat} (inside : k < 16) : (0xff00#16).getLsbD k = decide (8 ≤ k) := by
  have all : ∀ k : Fin 16, (0xff00#16).getLsbD k = decide (8 ≤ (k : Nat)) := by decide
  exact all ⟨k, inside⟩

theorem combined_byte (cur v : BitVec 16) :
    (cur &&& 0xff00#16) ||| (v.setWidth 8).setWidth 16 = cur >>> 8 <<< 8 ||| v &&& 255#16 := by
  apply BitVec.eq_of_getLsbD_eq
  intro k inside
  rw [BitVec.getLsbD_or, BitVec.getLsbD_and, highMask_getLsbD inside, BitVec.getLsbD_or, BitVec.getLsbD_and,
    Build.getLsbD_byteMask, BitVec.getLsbD_setWidth, BitVec.getLsbD_setWidth, BitVec.getLsbD_shiftLeft,
    BitVec.getLsbD_ushiftRight]
  by_cases low : k < 8
  · simp [low, inside]
  · have back : 8 + (k - 8) = k := by omega
    simp [low, inside, back, Nat.not_lt.mp low]

theorem accumulator_read :
    m.operandRegRead i.accumulator = (elementWidth i.element).pack (readRegister m.guest.regs i.accumulator) := by
  unfold StringInstr.accumulator
  cases i.element with
  | byte =>
      change Value.u8 ((m.cpu.get .AX).setWidth 8) = .u8 ((m.cpu.get .AX &&& 255#16).setWidth 8)
      rw [low_byte]
  | word => rfl

theorem accumulator_write (v : BitVec 16) :
    m.operandRegWrite i.accumulator ((elementWidth i.element).pack v) =
      .ok { m with cpu := m.cpu.put .AX (writeRegister m.guest.regs i.accumulator v .AX) } := by
  unfold StringInstr.accumulator
  cases i.element with
  | byte =>
      have value : writeRegister m.guest.regs .AL v .AX = m.cpu.get .AX >>> 8 <<< 8 ||| v &&& 255#16 := rfl
      have narrow : ((v.setWidth 8).setWidth 16).setWidth 8 = v.setWidth 8 := by simp
      rw [value, ← combined_byte, ← narrow]
      rfl
  | word => rfl

end Operands

/-- A machine that has the registers and the memory of a guest, the count and the flags apart. -/
structure Shadows (m : Machine D) (g : Guest (Nat → BitVec 8)) : Prop where
  mem : m.mem.raw = g.mem
  regs : ∀ reg, parent? reg = none → reg ≠ .CX → reg ≠ .FLAGS → m.cpu.get (convertReg reg) = g.regs reg

/-- The machine with its string pointers moved. -/
def Machine.moved (m : Machine D) (si di : BitVec 16) : Machine D :=
  { m with cpu := (m.cpu.put .SI (m.cpu.get .SI + si)).put .DI (m.cpu.get .DI + di) }

section Moves

variable (m : Machine D) (inc : BitVec 16)

theorem advance_source : m.advance .SI inc = .ok (m.moved inc 0) := by
  have other : (m.cpu.put .SI (m.cpu.get .SI + inc)).get .DI = m.cpu.get .DI := by
    rw [Cpu.get_put]
    exact if_neg (by decide)
  have kept : m.cpu.get .DI + (0 : BitVec 16) = m.cpu.get .DI := BitVec.add_zero _
  rw [Machine.moved, kept, ← other, Cpu.put_get]
  exact advance_word m .SI rfl inc

theorem advance_destination : m.advance .DI inc = .ok (m.moved 0 inc) := by
  have kept : m.cpu.get .SI + (0 : BitVec 16) = m.cpu.get .SI := BitVec.add_zero _
  rw [Machine.moved, kept, Cpu.put_get]
  exact advance_word m .DI rfl inc

theorem advance_both : (do
    let m ← m.advance .SI inc
    m.advance .DI inc) = .ok (m.moved inc inc) := by
  have first : m.advance .SI inc = .ok { m with cpu := m.cpu.put .SI (m.cpu.get .SI + inc) } :=
    advance_word m .SI rfl inc
  rw [first, Outcome.ok_bind]
  exact advance_word _ .DI rfl inc

end Moves

namespace Shadows

variable {m : Machine D} {g : Guest (Nat → BitVec 8)} {i : StringInstr}

theorem moved (shadows : Shadows m g) : Shadows (m.moved i.siStep i.diStep) ⟨i.advance 1 g.regs, g.mem⟩ where
  mem := shadows.mem
  regs reg whole other general := by
    have here := shadows.regs reg whole other general
    simp only [Machine.moved, Cpu.get_put]
    cases reg with
    | CX => exact absurd rfl other
    | SI =>
        change m.cpu.get .SI + i.siStep = g.regs .SI + ((1 : Nat) : BitVec 16) * i.siStep
        rw [Nat.cast_one, one_mul]
        exact congrArg (· + i.siStep) here
    | DI =>
        change m.cpu.get .DI + i.diStep = g.regs .DI + ((1 : Nat) : BitVec 16) * i.diStep
        rw [Nat.cast_one, one_mul]
        exact congrArg (· + i.diStep) here
    | _ => exact here

/-- The flags are no part of the guest. -/
theorem flags (shadows : Shadows m g) (f : Flags) : Shadows (m.flagWriteAll f) g where
  mem := shadows.mem
  regs reg whole other general := by
    rw [← shadows.regs reg whole other general]
    apply Function.update_of_ne
    cases reg <;> first | exact absurd rfl general | decide

theorem stored (shadows : Shadows m g) {mem : Memory} {raw : Nat → BitVec 8} (same : mem.raw = raw) :
    Shadows (m.withMem mem) ⟨g.regs, raw⟩ := ⟨same, shadows.regs⟩

/-- A written accumulator is a written part of AX. -/
theorem loaded (shadows : Shadows m g) (v : BitVec 16) :
    Shadows { m with cpu := m.cpu.put .AX (writeRegister m.guest.regs i.accumulator v .AX) }
      ⟨writeRegister g.regs i.accumulator v, g.mem⟩ where
  mem := shadows.mem
  regs reg whole other general := by
    have here := shadows.regs reg whole other general
    have accumulator := shadows.regs .AX rfl (by decide) (by decide)
    rw [Cpu.get_put]
    by_cases isAx : reg = .AX
    · rw [isAx, if_pos (show (convertReg .AX).idx = Register.AX.idx from rfl)]
      unfold StringInstr.accumulator
      cases i.element with
      | byte => exact congrArg (fun cur : BitVec 16 => cur >>> 8 <<< 8 ||| v &&& 0xFF) accumulator
      | word => rfl
    · have kept : writeRegister g.regs i.accumulator v reg = g.regs reg := StringInstr.writeRegister_other _ _ isAx
      rw [if_neg]
      · exact here.trans kept.symm
      · cases reg <;> first | exact absurd rfl isAx | decide | cases whole

end Shadows

section Bodies

variable (i : StringInstr) (inc : BitVec 16) (acc : Value) (ins : Asm.Instr)

/-- What the loop of a string operation repeats. -/
def elementBody (m : Machine D) : Result (Machine D) :=
  match i.op with
  | .movs => do
      let rhs ← m.operandRead ins 1
      let m ← m.operandWrite ins 0 rhs
      let m ← m.advance .SI inc
      m.advance .DI inc
  | .stos => do
      let m ← m.operandWrite ins 0 acc
      m.advance .DI inc
  | .lods => do
      let value ← m.operandRead ins 1
      let m ← m.operandWrite ins 0 value
      m.advance .SI inc
  | .cmps => do
      let lhs ← m.operandRead ins 1
      let rhs ← m.operandRead ins 0
      let (_, flags) ← Alu.binary .Sub lhs rhs m.flagReadAll
      let m := m.flagWriteAll flags
      let m ← m.advance .SI inc
      m.advance .DI inc
  | .scas => do
      let m ← m.opCompare ins .Sub
      m.advance .DI inc

def elementStops (m : Machine D) : Bool :=
  match i.op with
  | .cmps | .scas => Machine.searchStops (some i.rep) m
  | .movs | .stos | .lods => false

variable {i} {dev : Devices D} {m : Machine D} {addr : Asm.SegOff} {nBytes : BitVec 16}

theorem exec_string : m.exec dev (i.instr addr nBytes) = m.repeated (some i.rep)
    (elementBody i (m.increment i.element.size) (m.operandRegRead i.accumulator) (i.instr addr nBytes))
    (elementStops i) := by
  obtain ⟨op, element, seg, inside, rep⟩ := i
  cases op with
  | movs | stos | lods | cmps | scas => cases element <;> rfl

end Bodies

section Found

variable {m : Machine D} {ins : Asm.Instr} {k : Nat}

theorem operandRead_mem {mem : OperandMem} (found : ins.operands[k]? = some (.mem mem)) :
    m.operandRead ins k = m.operandMemRead mem := by
  rw [Machine.operandRead, found]
  rfl

theorem operandRead_reg {reg : Reg} (found : ins.operands[k]? = some (.reg reg)) :
    m.operandRead ins k = .ok (m.operandRegRead reg) := by
  rw [Machine.operandRead, found]
  rfl

theorem operandWrite_mem {mem : OperandMem} (found : ins.operands[k]? = some (.mem mem)) (val : Value) :
    m.operandWrite ins k val = m.operandMemWrite mem val := by
  rw [Machine.operandWrite, found]
  rfl

theorem operandWrite_reg {reg : Reg} (found : ins.operands[k]? = some (.reg reg)) (val : Value) :
    m.operandWrite ins k val = m.operandRegWrite reg val := by
  rw [Machine.operandWrite, found]
  rfl

end Found

section Rounds

variable {i : StringInstr} {m : Machine D} {g : Guest (Nat → BitVec 8)}

/-- The element that is next does not cross the end of its segment. -/
structure Ready (i : StringInstr) (g : Guest (Nat → BitVec 8)) : Prop where
  source : i.siStep ≠ 0 → Whole i.element (g.regs .SI)
  destination : i.diStep ≠ 0 → Whole i.element (g.regs .DI)

/-- What a search compares. -/
def comparedPair (i : StringInstr) (g : Guest (Nat → BitVec 8)) : BitVec 16 × BitVec 16 :=
  (match i.op with
    | .cmps => linearHardware.load i.element (g.regs i.seg) (g.regs .SI) g.mem
    | _ => readRegister g.regs i.accumulator,
    linearHardware.load i.element (g.regs .ES) (g.regs .DI) g.mem)

/-- The flags after an element. -/
def elementFlags (i : StringInstr) (g : Guest (Nat → BitVec 8)) (f : Flags) : Flags :=
  let bits := (elementWidth i.element).bits
  if i.searches then
    f.update (differenceReport ((comparedPair i g).1.setWidth bits) ((comparedPair i g).2.setWidth bits) false)
  else f

namespace Shadows

theorem segment (shadows : Shadows m g) {seg : Reg} (inside : seg ∈ segmentRegs) :
    parent? seg = none ∧ m.cpu.get (convertReg seg) = g.regs seg := by
  have whole : parent? seg = none ∧ seg ≠ .CX ∧ seg ≠ .FLAGS := by
    cases seg <;> first | decide | exact absurd inside (by decide)
  exact ⟨whole.1, shadows.regs seg whole.1 whole.2.1 whole.2.2⟩

theorem read (shadows : Shadows m g) {seg ptr : Reg} (inside : seg ∈ segmentRegs) (pointer : ptr = .SI ∨ ptr = .DI)
    (whole : Whole i.element (g.regs ptr)) :
    m.operandMemRead ⟨i.sz, seg, some ptr, none, none⟩ = .ok ((elementWidth i.element).pack
      (linearHardware.load i.element (g.regs seg) (g.regs ptr) g.mem)) := by
  obtain ⟨wholeSeg, same⟩ := shadows.segment inside
  have word : parent? ptr = none ∧ ptr ≠ .CX ∧ ptr ≠ .FLAGS := by
    rcases pointer with rfl | rfl <;> decide
  have here := shadows.regs ptr word.1 word.2.1 word.2.2
  rw [← here] at whole
  rw [read_element m wholeSeg word.1 whole, same, here, shadows.mem]

theorem load (shadows : Shadows m g) (v : BitVec 16) :
    ∃ m₁, m.operandRegWrite i.accumulator ((elementWidth i.element).pack v) = .ok m₁ ∧
      Shadows m₁ ⟨writeRegister g.regs i.accumulator v, g.mem⟩ ∧ m₁.flagReadAll = m.flagReadAll :=
  ⟨_, accumulator_write m v, shadows.loaded v, rfl⟩

theorem accumulator (shadows : Shadows m g) :
    m.operandRegRead i.accumulator = (elementWidth i.element).pack (readRegister g.regs i.accumulator) := by
  have same := shadows.regs .AX rfl (by decide) (by decide)
  rw [accumulator_read m]
  unfold StringInstr.accumulator
  cases i.element with
  | byte => exact congrArg (fun cur : BitVec 16 => (elementWidth .byte).pack (cur &&& 0xFF)) same
  | word => exact congrArg (elementWidth .word).pack same

theorem write (shadows : Shadows m g) (whole : Whole i.element (g.regs .DI)) (v : BitVec 16) :
    ∃ m₁, m.operandMemWrite ⟨i.sz, .ES, some .DI, none, none⟩ ((elementWidth i.element).pack v) = .ok m₁ ∧
      Shadows m₁ ⟨g.regs, linearHardware.store i.element (g.regs .ES) (g.regs .DI) v g.mem⟩ ∧
      m₁.flagReadAll = m.flagReadAll := by
  have segment := shadows.regs .ES rfl (by decide) (by decide)
  have pointer := shadows.regs .DI rfl (by decide) (by decide)
  rw [← pointer] at whole
  refine ⟨_, write_element m rfl rfl v, shadows.stored ?_, rfl⟩
  rw [store_raw _ _ _ whole, segment, pointer, shadows.mem]

end Shadows

theorem load_narrow (e : Element) (seg off : BitVec 16) (raw : Nat → BitVec 8) :
    e.truncate (linearHardware.load e seg off raw) = linearHardware.load e seg off raw := by
  cases e with
  | byte => simp [Element.truncate, Hardware.load]
  | word => rfl

theorem accumulator_narrow (regs : Reg → BitVec 16) :
    i.element.truncate (readRegister regs i.accumulator) = readRegister regs i.accumulator := by
  unfold StringInstr.accumulator
  cases i.element with
  | byte =>
      change ((regs .AX &&& 255#16).setWidth 8).setWidth 16 = regs .AX &&& 255#16
      rw [low_byte, widened_byte]
  | word => rfl

/-- Two elements are equal just when their low parts are. -/
theorem narrow_eq {e : Element} {a b : BitVec 16} (first : e.truncate a = a) (second : e.truncate b = b) :
    (a.setWidth (elementWidth e).bits == b.setWidth (elementWidth e).bits) = (a == b) := by
  rw [Bool.eq_iff_iff, beq_iff_eq, beq_iff_eq]
  constructor
  · intro same
    rw [← first, ← second]
    cases e with
    | byte => exact congrArg (fun low : BitVec 8 => low.setWidth 16) same
    | word => exact (BitVec.setWidth_eq a).symm.trans (same.trans (BitVec.setWidth_eq b))
  · exact congrArg _

theorem elementStops_eq {f : Flags} {m₁ : Machine D} (flags : m₁.flagReadAll = elementFlags i g f) :
    elementStops i m₁ = i.stops linearHardware g := by
  by_cases searching : i.searches = true
  · have positive : 0 < (elementWidth i.element).bits := by cases i.element <;> decide
    have zero : m₁.flagRead .ZF = ((comparedPair i g).1 == (comparedPair i g).2) := by
      have first : i.element.truncate (comparedPair i g).1 = (comparedPair i g).1 := by
        unfold comparedPair
        cases i.op with
        | cmps => exact load_narrow _ _ _ _
        | movs | stos | lods | scas => exact accumulator_narrow g.regs
      have second : i.element.truncate (comparedPair i g).2 = (comparedPair i g).2 := load_narrow _ _ _ _
      rw [← narrow_eq first second]
      rw [elementFlags, searching] at flags
      have condition := jumpCondition_compare positive ((comparedPair i g).1.setWidth (elementWidth i.element).bits)
        ((comparedPair i g).2.setWidth (elementWidth i.element).bits) f .JE
      simp only [if_pos] at flags
      rw [← flags] at condition
      exact Option.some.inj condition
    obtain ⟨op, element, seg, inside, rep⟩ := i
    cases op with
    | movs | stos | lods => cases searching
    | cmps | scas =>
        cases rep with
        | ne => exact zero
        | eq => exact congrArg (!·) zero
  · obtain ⟨op, element, seg, inside, rep⟩ := i
    cases op with
    | movs | stos | lods => rfl
    | cmps | scas => exact absurd rfl searching

/-- What one element does to a machine that shadows a guest. -/
structure Round (i : StringInstr) (m : Machine D) (g : Guest (Nat → BitVec 8)) (m₁ : Machine D) : Prop where
  shadows : Shadows m₁ (i.step linearHardware g)
  flags : m₁.flagReadAll = elementFlags i g m.flagReadAll

/-- The pointers move last. -/
theorem Round.moved {m₁ : Machine D} (shadows : Shadows m₁ ⟨i.accumulate linearHardware g,
      i.storeElement linearHardware g.regs (readRegister g.regs i.accumulator) g.locals⟩)
    (flags : m₁.flagReadAll = elementFlags i g m.flagReadAll) : Round i m g (m₁.moved i.siStep i.diStep) :=
  ⟨shadows.moved, flags⟩

variable {acc : Value} {addr : Asm.SegOff} {nBytes : BitVec 16}

theorem size_ne_zero (e : Element) : e.size ≠ 0 := by cases e <;> decide

theorem movs_round (op : i.op = .movs) (shadows : Shadows m g) (ready : Ready i g) :
    ∃ m₁, elementBody i i.element.size acc (i.instr addr nBytes) m = .ok m₁ ∧ Round i m g m₁ := by
  have source : i.siStep = i.element.size := by rw [StringInstr.siStep, op]
  have destination : i.diStep = i.element.size := by rw [StringInstr.diStep, op]
  have operands : (i.instr addr nBytes).operands = [i.dstOperand, i.srcOperand] := by
    simp only [StringInstr.instr, StringInstr.operands, op]
  have first : (i.instr addr nBytes).operands[0]? = some i.dstOperand := by rw [operands]; rfl
  have second : (i.instr addr nBytes).operands[1]? = some i.srcOperand := by rw [operands]; rfl
  have read := shadows.read (i := i) i.isSegment (.inl rfl) (ready.source (source ▸ size_ne_zero _))
  obtain ⟨m₁, written, after, flags⟩ := shadows.write (ready.destination (destination ▸ size_ne_zero _))
    (linearHardware.load i.element (g.regs i.seg) (g.regs .SI) g.mem)
  refine ⟨m₁.moved i.siStep i.diStep, ?_, .moved ?_ ?_⟩
  · simp only [elementBody, op]
    rw [operandRead_mem second, read, Outcome.ok_bind, operandWrite_mem first, written, Outcome.ok_bind,
      advance_both, source, destination]
  · simp only [StringInstr.accumulate, StringInstr.storeElement, op]
    exact after
  · simp only [elementFlags, StringInstr.searches, op]
    exact flags

theorem stos_round (op : i.op = .stos) (shadows : Shadows m g) (ready : Ready i g)
    (value : acc = (elementWidth i.element).pack (readRegister g.regs i.accumulator)) :
    ∃ m₁, elementBody i i.element.size acc (i.instr addr nBytes) m = .ok m₁ ∧ Round i m g m₁ := by
  have source : i.siStep = 0 := by rw [StringInstr.siStep, op]
  have destination : i.diStep = i.element.size := by rw [StringInstr.diStep, op]
  have operands : (i.instr addr nBytes).operands = [i.dstOperand, .reg i.accumulator] := by
    simp only [StringInstr.instr, StringInstr.operands, op]
  have first : (i.instr addr nBytes).operands[0]? = some i.dstOperand := by rw [operands]; rfl
  obtain ⟨m₁, written, after, flags⟩ := shadows.write (ready.destination (destination ▸ size_ne_zero _))
    (readRegister g.regs i.accumulator)
  refine ⟨m₁.moved i.siStep i.diStep, ?_, .moved ?_ ?_⟩
  · simp only [elementBody, op]
    rw [operandWrite_mem first, value, written, Outcome.ok_bind, advance_destination, source, destination]
  · simp only [StringInstr.accumulate, StringInstr.storeElement, op]
    exact after
  · simp only [elementFlags, StringInstr.searches, op]
    exact flags

theorem lods_round (op : i.op = .lods) (shadows : Shadows m g) (ready : Ready i g) :
    ∃ m₁, elementBody i i.element.size acc (i.instr addr nBytes) m = .ok m₁ ∧ Round i m g m₁ := by
  have source : i.siStep = i.element.size := by rw [StringInstr.siStep, op]
  have destination : i.diStep = 0 := by rw [StringInstr.diStep, op]
  have operands : (i.instr addr nBytes).operands = [.reg i.accumulator, i.srcOperand] := by
    simp only [StringInstr.instr, StringInstr.operands, op]
  have first : (i.instr addr nBytes).operands[0]? = some (.reg i.accumulator) := by rw [operands]; rfl
  have second : (i.instr addr nBytes).operands[1]? = some i.srcOperand := by rw [operands]; rfl
  have read := shadows.read (i := i) i.isSegment (.inl rfl) (ready.source (source ▸ size_ne_zero _))
  obtain ⟨m₁, written, after, flags⟩ := shadows.load (i := i)
    (linearHardware.load i.element (g.regs i.seg) (g.regs .SI) g.mem)
  refine ⟨m₁.moved i.siStep i.diStep, ?_, .moved ?_ ?_⟩
  · simp only [elementBody, op]
    rw [operandRead_mem second, read, Outcome.ok_bind, operandWrite_reg first, written, Outcome.ok_bind,
      advance_source, source, destination]
  · simp only [StringInstr.accumulate, StringInstr.storeElement, op]
    exact after
  · simp only [elementFlags, StringInstr.searches, op]
    exact flags

theorem cmps_round (op : i.op = .cmps) (shadows : Shadows m g) (ready : Ready i g) :
    ∃ m₁, elementBody i i.element.size acc (i.instr addr nBytes) m = .ok m₁ ∧ Round i m g m₁ := by
  have source : i.siStep = i.element.size := by rw [StringInstr.siStep, op]
  have destination : i.diStep = i.element.size := by rw [StringInstr.diStep, op]
  have searching : i.searches = true := by rw [StringInstr.searches, op]
  have operands : (i.instr addr nBytes).operands = [i.dstOperand, i.srcOperand] := by
    simp only [StringInstr.instr, StringInstr.operands, op]
  have first : (i.instr addr nBytes).operands[0]? = some i.dstOperand := by rw [operands]; rfl
  have second : (i.instr addr nBytes).operands[1]? = some i.srcOperand := by rw [operands]; rfl
  have left := shadows.read (i := i) i.isSegment (.inl rfl) (ready.source (source ▸ size_ne_zero _))
  have right : m.operandMemRead ⟨i.sz, .ES, some .DI, none, none⟩ = _ :=
    shadows.read (by decide) (.inr rfl) (ready.destination (destination ▸ size_ne_zero _))
  refine ⟨(m.flagWriteAll (elementFlags i g m.flagReadAll)).moved i.siStep i.diStep, ?_, .moved ?_ rfl⟩
  · simp only [elementBody, op]
    rw [operandRead_mem second, left, Outcome.ok_bind, operandRead_mem first, right, Outcome.ok_bind, Width.pack_eq,
      Width.pack_eq, binary_exact, Outcome.ok_bind, advance_both, source, destination, elementFlags, if_pos searching,
      comparedPair, op]
    rfl
  · simp only [StringInstr.accumulate, StringInstr.storeElement, op]
    exact shadows.flags _

theorem scas_round (op : i.op = .scas) (shadows : Shadows m g) (ready : Ready i g) :
    ∃ m₁, elementBody i i.element.size acc (i.instr addr nBytes) m = .ok m₁ ∧ Round i m g m₁ := by
  have source : i.siStep = 0 := by rw [StringInstr.siStep, op]
  have destination : i.diStep = i.element.size := by rw [StringInstr.diStep, op]
  have searching : i.searches = true := by rw [StringInstr.searches, op]
  have operands : (i.instr addr nBytes).operands = [.reg i.accumulator, i.dstOperand] := by
    simp only [StringInstr.instr, StringInstr.operands, op]
  have first : (i.instr addr nBytes).operands[0]? = some (.reg i.accumulator) := by rw [operands]; rfl
  have second : (i.instr addr nBytes).operands[1]? = some i.dstOperand := by rw [operands]; rfl
  have right : m.operandMemRead ⟨i.sz, .ES, some .DI, none, none⟩ = _ :=
    shadows.read (by decide) (.inr rfl) (ready.destination (destination ▸ size_ne_zero _))
  refine ⟨(m.flagWriteAll (elementFlags i g m.flagReadAll)).moved i.siStep i.diStep, ?_, .moved ?_ rfl⟩
  · have compared : m.opCompare (i.instr addr nBytes) .Sub =
        .ok (m.flagWriteAll (elementFlags i g m.flagReadAll)) := by
      rw [Machine.opCompare, operandRead_reg first, Outcome.ok_bind, shadows.accumulator (i := i),
        operandRead_mem second, right, Outcome.ok_bind, Width.pack_eq, Width.pack_eq, binary_exact, elementFlags,
        if_pos searching, comparedPair, op]
      rfl
    simp only [elementBody, op]
    rw [compared, Outcome.ok_bind, advance_destination, source, destination]
  · simp only [StringInstr.accumulate, StringInstr.storeElement, op]
    exact shadows.flags _

/-- The value of STOS is that of the accumulator, which no element changes. -/
theorem element_round (shadows : Shadows m g) (ready : Ready i g)
    (value : i.op = .stos → acc = (elementWidth i.element).pack (readRegister g.regs i.accumulator)) :
    ∃ m₁, elementBody i i.element.size acc (i.instr addr nBytes) m = .ok m₁ ∧ Round i m g m₁ := by
  cases op : i.op with
  | movs => exact movs_round op shadows ready
  | stos => exact stos_round op shadows ready (value op)
  | lods => exact lods_round op shadows ready
  | cmps => exact cmps_round op shadows ready
  | scas => exact scas_round op shadows ready

end Rounds

section Runs

variable {i : StringInstr} {acc : Value} {addr : Asm.SegOff} {nBytes : BitVec 16}

theorem accumulator_step (op : i.op = .stos) (g : Guest (Nat → BitVec 8)) :
    readRegister (i.step linearHardware g).regs i.accumulator = readRegister g.regs i.accumulator := by
  have fixed : i.op ≠ .lods := by
    rw [op]
    decide
  rw [StringInstr.step, i.accumulate_of_fixed linearHardware fixed]
  exact i.accumulator_advance 1 g.regs

/-- The flags of a later element replace those of an earlier one. -/
theorem elementFlags_again (g g' : Guest (Nat → BitVec 8)) (f : Flags) :
    elementFlags i g (elementFlags i g' f) = elementFlags i g f := by
  unfold elementFlags
  by_cases searching : i.searches = true
  · simp only [if_pos searching]
    ext flag
    · rw [Flags.get_update, Flags.get_update, Flags.get_update]
      cases flag <;> rfl
    · rw [Flags.rest_update, Flags.rest_update, Flags.rest_update]
  · simp only [if_neg searching]

/-- The rounds of the guest: the count that is left and its state. -/
def rounds (i : StringInstr) (n : Nat) (g : Guest (Nat → BitVec 8)) : Nat × Guest (Nat → BitVec 8) :=
  countdown (fun g => (i.step linearHardware g, i.stops linearHardware g)) n g

theorem rounds_lt {n : Nat} (positive : 0 < n) (g : Guest (Nat → BitVec 8)) : (rounds i n g).1 < n :=
  Lib.countdown_lt _ positive g

/-- The loop of the emulator is that of the guest, and the flags are those of its last element. -/
theorem elementLoop_run {n : Nat} {m : Machine D} {g : Guest (Nat → BitVec 8)} (shadows : Shadows m g)
    (ready : ∀ k < n - (rounds i n g).1, Ready i ((i.step linearHardware)^[k] g))
    (value : i.op = .stos → acc = (elementWidth i.element).pack (readRegister g.regs i.accumulator)) :
    ∃ m', Machine.elementLoop (elementBody i i.element.size acc (i.instr addr nBytes)) (elementStops i) n m =
        .ok ((rounds i n g).1, m') ∧ Shadows m' (rounds i n g).2 ∧
      m'.flagReadAll = if n = 0 then m.flagReadAll
        else elementFlags i ((i.step linearHardware)^[n - (rounds i n g).1 - 1] g) m.flagReadAll := by
  induction n generalizing m g with
  | zero => exact ⟨m, rfl, shadows, rfl⟩
  | succ n hypothesis =>
      have fewer := rounds_lt (i := i) (Nat.succ_pos n) g
      obtain ⟨m₁, ran, round⟩ : ∃ m₁, elementBody i i.element.size acc (i.instr addr nBytes) m = .ok m₁ ∧
          Round i m g m₁ := element_round shadows (ready 0 (Nat.sub_pos_of_lt fewer)) value
      have next : rounds i (n + 1) g = if i.stops linearHardware g then (n, i.step linearHardware g)
          else rounds i n (i.step linearHardware g) := rfl
      rw [Machine.elementLoop, ran, Outcome.ok_bind, elementStops_eq round.flags, if_neg (Nat.succ_ne_zero n)]
      cases stopped : i.stops linearHardware g with
      | true =>
          rw [stopped, if_pos rfl] at next
          rw [next]
          refine ⟨m₁, rfl, round.shadows, ?_⟩
          simpa using round.flags
      | false =>
          rw [stopped, if_neg Bool.false_ne_true] at next
          rw [next] at ready fewer ⊢
          have later (op : i.op = .stos) : acc = (elementWidth i.element).pack
              (readRegister (i.step linearHardware g).regs i.accumulator) := by
            rw [accumulator_step op]
            exact value op
          obtain ⟨m', rest, after, flags⟩ := hypothesis round.shadows
            (fun k below => ready (k + 1) (by omega)) later
          refine ⟨m', rest, after, ?_⟩
          rw [flags, round.flags]
          by_cases last : n = 0
          · subst last
            rfl
          · have left := rounds_lt (i := i) (Nat.pos_of_ne_zero last) (i.step linearHardware g)
            have passed : n + 1 - (rounds i n (i.step linearHardware g)).1 - 1 =
                n - (rounds i n (i.step linearHardware g)).1 - 1 + 1 := by
              omega
            rw [if_neg last, elementFlags_again, passed, Function.iterate_succ_apply]

theorem counter_iterate (k : Nat) (g : Guest (Nat → BitVec 8)) :
    ((i.step linearHardware)^[k] g).regs .CX = g.regs .CX - (k : BitVec 16) := by
  induction k with
  | zero => simp
  | succ k hypothesis =>
      have step (g : Guest (Nat → BitVec 8)) :
          (i.step linearHardware g).regs .CX = i.accumulate linearHardware g .CX - ((1 : Nat) : BitVec 16) := rfl
      rw [Function.iterate_succ_apply', step, i.accumulate_counter, hypothesis, sub_sub,
        ← Nat.cast_add]

/-- The count that is left is in CX. -/
theorem counter_run (g : Guest (Nat → BitVec 8)) :
    (i.run linearHardware g).regs .CX = .ofNat 16 (i.remaining linearHardware g) := by
  have within := @StringInstr.remaining_le _ i linearHardware g
  rw [i.run_eq_iterate, counter_iterate, Nat.cast_sub within, BitVec.natCast_eq_ofNat, BitVec.ofNat_toNat,
    BitVec.setWidth_eq, sub_sub_cancel]
  rfl

end Runs

section Views

variable {m : Machine D}

/-- Every register of the machine is a view of a register of the guest. -/
theorem reg_view (reg : Reg) : m.reg (convertReg reg) = .ok (readRegister m.guest.regs reg) := by
  have high (v : BitVec 16) : ((v >>> 8).setWidth 8).setWidth 16 = v >>> 8 := by
    rw [widened_byte]
    exact Build.high_byte v
  cases reg <;> first
    | rfl
    | exact congrArg Outcome.ok (widened_byte _)
    | exact congrArg Outcome.ok (high _)

theorem reg_of_words {regs : Reg → BitVec 16}
    (words : ∀ full, parent? full = none → full ≠ .FLAGS → m.cpu.get (convertReg full) = regs full) (reg : Reg)
    (general : reg ≠ .FLAGS) : m.reg (convertReg reg) = .ok (readRegister regs reg) := by
  have parent := words (initStorageParent reg) (by cases reg <;> rfl)
    (by cases reg <;> first | exact absurd rfl general | decide)
  rw [reg_view]
  exact congrArg (fun storage => Outcome.ok (regView reg storage)) parent

variable {i : StringInstr} {dev : Devices D} {addr : Asm.SegOff} {nBytes : BitVec 16}

theorem ready_byte (bytes : i.element = .byte) (g : Guest (Nat → BitVec 8)) : Ready i g := by
  have never (word : i.element = .word) : False := by
    rw [bytes] at word
    cases word
  exact ⟨fun _ word => (never word).elim, fun _ word => (never word).elim⟩

def copying : StringInstr := ⟨.movs, .byte, .DS, .tail _ (.tail _ (.tail _ (.head _))), .ne⟩

/-- The segments are variables of their own. -/
def countedSegments : Build.Segments counted.guest := ⟨fun seg _ => counted.guest.regs seg, fun _ _ => rfl⟩

end Views

end Dis86.Emu
