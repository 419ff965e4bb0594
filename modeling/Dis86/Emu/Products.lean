import Dis86.Build.ArithmeticRun
import Dis86.Emu.Strings
import Dis86.Emu.WideExact

namespace Dis86.Emu
open Asm (Reg Operand OperandMem)
open Build (ArithmeticInstr ArithmeticOp readRegister writeRegister registerOffset)
open Lib (Outcome product divide?)

variable {D : Type}

section Sources

variable {m : Machine D} {i : ArithmeticInstr} {ins : Asm.Instr}

theorem addReg_guest (offset : BitVec 16) (reg : Option Reg) :
    m.addReg offset reg = .ok (offset + (reg.toList.map (readRegister m.guest.regs)).sum) := by
  cases reg with
  | none =>
      simp only [Machine.addReg, Option.toList_none, List.map_nil, List.sum_nil]
      exact congrArg Outcome.ok (BitVec.add_zero offset).symm
  | some reg =>
      rw [Machine.addReg, reg_view, Outcome.ok_bind]
      simp only [Option.toList_some, List.map_cons, List.map_nil, List.sum_cons, List.sum_nil]
      exact congrArg (fun off => Outcome.ok (offset + off)) (BitVec.add_zero _).symm

theorem operandMemAddr_guest (mem : OperandMem) : m.operandMemAddr mem =
    .ok ⟨.normal (readRegister m.guest.regs mem.sreg), registerOffset m.guest.regs mem⟩ := by
  simp only [Machine.operandMemAddr, reg_view, addReg_guest, Outcome.ok_bind]
  have offset : (0 : BitVec 16) + (mem.reg1.toList.map (readRegister m.guest.regs)).sum +
      (mem.reg2.toList.map (readRegister m.guest.regs)).sum + mem.off.getD 0 = registerOffset m.guest.regs mem := by
    rw [registerOffset, List.map_append, List.sum_append, zero_add, add_comm (List.sum _)]
  rw [← offset]
  rfl

/-- A word in memory does not cross the end of its segment. -/
def SourceWhole (i : ArithmeticInstr) (m : Machine D) : Prop :=
  ∀ mem, i.source = .mem mem → registerOffset m.guest.regs mem ≠ 0xffff

theorem source_read (encoded : ins.operands = i.operands) (width : i.element = .word) (whole : SourceWhole i m) :
    m.operandRead ins 2 = .ok (.u16 (i.sourceValue linearHardware m.guest.regs m.mem.raw)) := by
  have found : ins.operands[2]? = some i.source := by
    rw [encoded]
    rfl
  have known := i.known
  rw [width] at known
  cases source : i.source with
  | reg reg =>
      rw [source] at found known
      rw [operandRead_reg found, ArithmeticInstr.sourceValue, source]
      cases reg <;> first | rfl | cases known
  | mem mem =>
      rw [source] at found known
      have size : mem.sz = .size16 := by
        cases sz : mem.sz <;> first | rfl | (rw [Build.isSource, sz] at known; cases known)
      have read := load_word m.mem (readRegister m.guest.regs mem.sreg) (whole mem source)
      rw [operandRead_mem found, Machine.operandMemRead, operandMemAddr_guest, Outcome.ok_bind, size,
        ArithmeticInstr.sourceValue, source, width]
      simp only [read, Memory.readU16_normal]
      rfl
  | imm | rel | far =>
      rw [source] at known
      cases known

end Sources

section Words

variable {m : Machine D} {dev : Devices D} {i : ArithmeticInstr} {ins : Asm.Instr}

/-- The machine after two registers of an instruction are written. -/
def wordsWritten (m : Machine D) (f : Flags) (ax dx : BitVec 16) : Machine D :=
  { m with cpu := ((m.cpu.flagWriteAll f).put .DX dx).put .AX ax }

theorem wordsWritten_words (f : Flags) (ax dx : BitVec 16) (full : Reg) (general : full ≠ .FLAGS)
    (whole : Build.parent? full = none) : (wordsWritten m f ax dx).cpu.get (convertReg full) =
      writeRegister (writeRegister m.guest.regs .DX dx) .AX ax full := by
  cases full <;> first | rfl | exact absurd rfl general | cases whole

theorem joined (high low : BitVec 16) : high.setWidth 32 <<< 16 ||| low.setWidth 32 = high ++ low := by
  apply BitVec.eq_of_getLsbD_eq
  intro k inside
  rw [BitVec.getLsbD_or, BitVec.getLsbD_shiftLeft, BitVec.getLsbD_setWidth, BitVec.getLsbD_setWidth,
    BitVec.getLsbD_append]
  by_cases below : k < 16
  · simp [below, inside]
  · have outside := low.getLsbD_of_ge k (Nat.not_lt.mp below)
    simp only [below, outside, inside, decide_true, decide_false, Bool.not_false, Bool.true_and, Bool.and_false,
      Bool.or_false, if_false]
    rw [decide_eq_true (show k - 16 < 32 by omega), Bool.true_and]

theorem general_operands (encoded : ins.operands = i.operands) (width : i.element = .word) :
    ins.operands[0]? = some (.reg .DX) ∧ ins.operands[1]? = some (.reg .AX) := by
  rw [encoded, ArithmeticInstr.operands, Build.upper_word width, Build.lower_word width]
  exact ⟨rfl, rfl⟩

theorem operandReadU16_eq {oper : Nat} {v : BitVec 16} (read : m.operandRead ins oper = .ok (.u16 v)) :
    m.operandReadU16 ins oper = .ok v := by
  rw [Machine.operandReadU16, read]
  rfl

theorem general_write (encoded : ins.operands = i.operands) (width : i.element = .word) (m : Machine D)
    (v : BitVec 16) : m.operandWrite ins 0 (.u16 v) = .ok { m with cpu := m.cpu.put .DX v } ∧
      m.operandWrite ins 1 (.u16 v) = .ok { m with cpu := m.cpu.put .AX v } := by
  obtain ⟨upper, lower⟩ := general_operands encoded width
  rw [operandWrite_reg upper, operandWrite_reg lower]
  exact ⟨rfl, rfl⟩

theorem multiply_word (encoded : ins.operands = i.operands) (width : i.element = .word) (whole : SourceWhole i m)
    (op : MultiplyOp) {p : BitVec 32}
    (value : p = product op.signed (m.guest.regs .AX) (i.sourceValue linearHardware m.guest.regs m.mem.raw)) :
    ∃ f, m.opMultiply ins op = .ok (wordsWritten m f (p.setWidth 16) ((p >>> 16).setWidth 16)) := by
  obtain ⟨upper, lower⟩ := general_operands encoded width
  have left : m.operandReadU16 ins 1 = .ok (m.guest.regs .AX) := operandReadU16_eq (operandRead_reg lower)
  have right := operandReadU16_eq (source_read encoded width whole)
  obtain ⟨f, multiplied⟩ : ∃ f, Alu.multiply op (.u16 (m.guest.regs .AX))
      (.u16 (i.sourceValue linearHardware m.guest.regs m.mem.raw)) m.flagReadAll = .ok (.u32 p, f) := by
    rw [value]
    exact ⟨_, multiply_exact m.flagReadAll .word _ _ op⟩
  refine ⟨f, ?_⟩
  rw [Machine.opMultiply, left, right, Outcome.ok_bind, Outcome.ok_bind, multiplied, Outcome.ok_bind]
  change (do
    let m ← (m.flagWriteAll f).operandWrite ins 0 (.u16 ((p >>> 16).setWidth 16))
    m.operandWrite ins 1 (.u16 (p.setWidth 16))) = _
  rw [(general_write encoded width _ _).1, Outcome.ok_bind, (general_write encoded width _ _).2]
  rfl

/-- A division without a quotient ends the emulator. -/
theorem divide_word (encoded : ins.operands = i.operands) (width : i.element = .word) (whole : SourceWhole i m)
    (op : DivideOp) :
    ((divide? op.signed (m.guest.regs .DX ++ m.guest.regs .AX)
        (i.sourceValue linearHardware m.guest.regs m.mem.raw) = none ∧ m.opDivide ins op = .panic) ∨
      ∃ q r f, divide? op.signed (m.guest.regs .DX ++ m.guest.regs .AX)
        (i.sourceValue linearHardware m.guest.regs m.mem.raw) = some (q, r) ∧
        m.opDivide ins op = .ok (wordsWritten m f q r)) := by
  obtain ⟨upper, lower⟩ := general_operands encoded width
  have high : m.operandRead ins 0 = .ok (.u16 (m.guest.regs .DX)) := operandRead_reg upper
  have low : m.operandRead ins 1 = .ok (.u16 (m.guest.regs .AX)) := operandRead_reg lower
  have dividend : Value.join (.u16 (m.guest.regs .DX)) (.u16 (m.guest.regs .AX)) =
      .ok (.u32 (m.guest.regs .DX ++ m.guest.regs .AX)) := by
    rw [Value.join, joined]
  have divided := divmod_exact (m.guest.regs .DX ++ m.guest.regs .AX)
    (i.sourceValue linearHardware m.guest.regs m.mem.raw) op m.flagReadAll
  rw [Machine.opDivide, high, Outcome.ok_bind, low, Outcome.ok_bind, dividend, Outcome.ok_bind,
    source_read encoded width whole, Outcome.ok_bind, divided]
  cases divide? op.signed (m.guest.regs .DX ++ m.guest.regs .AX)
      (i.sourceValue linearHardware m.guest.regs m.mem.raw) with
  | none => exact .inl ⟨rfl, rfl⟩
  | some pair =>
      refine .inr ⟨pair.1, pair.2, m.flagReadAll.update
        (divideReport (Lib.extendTo 32 op.signed pair.1) (Lib.extendTo 32 op.signed pair.2)), rfl, ?_⟩
      rw [Option.elim_some, Outcome.ok_bind]
      dsimp only
      rw [(general_write encoded width _ _).2, Outcome.ok_bind, (general_write encoded width _ _).1]
      have order := ((m.cpu.flagWriteAll (m.flagReadAll.update (divideReport (Lib.extendTo 32 op.signed pair.1)
        (Lib.extendTo 32 op.signed pair.2)))).put_comm pair.1 (r := .AX) (s := .DX) (by decide) pair.2)
      exact congrArg (fun cpu => Outcome.ok { m with cpu := cpu }) order

theorem upper_half (p : BitVec 32) : (p >>> 16).setWidth 16 = p.extractLsb' 16 16 := by
  apply BitVec.eq_of_getLsbD_eq
  intro k inside
  rw [BitVec.getLsbD_setWidth, BitVec.getLsbD_ushiftRight, BitVec.getLsbD_extractLsb']

theorem lower_half (p : BitVec 32) : p.setWidth 16 = p.extractLsb' 0 16 := by
  apply BitVec.eq_of_getLsbD_eq
  intro k inside
  rw [BitVec.getLsbD_setWidth, BitVec.getLsbD_extractLsb', Nat.zero_add]

/-- An instruction leaves the registers of the processor and the memory. -/
def Leaves (dev : Devices D) (m : Machine D) (ins : Asm.Instr) (regs' : Reg → BitVec 16) (m' : Machine D) : Prop :=
  m.exec dev ins = .ok m' ∧ m'.mem = m.mem ∧
    ∀ reg ≠ .FLAGS, m'.reg (convertReg reg) = .ok (readRegister regs' reg)

theorem exec_words {f : Flags} {ax dx : BitVec 16} (general : ins.opcode ∉ Machine.stringOpcodes)
    (unprefixed : ins.rep = none) (ran : m.execute dev ins = .ok (wordsWritten m f ax dx)) :
    ∃ m', Leaves dev m ins (writeRegister (writeRegister m.guest.regs .DX dx) .AX ax) m' := by
  refine ⟨{ wordsWritten m f ax dx with execCount := m.execCount + 1 }, ?_, rfl, ?_⟩
  · rw [Machine.exec_plain general, unprefixed, ran]
    rfl
  · exact reg_of_words fun full whole general => wordsWritten_words f ax dx full general whole

theorem arithmetic_general (named : ins.opcode = i.op.opcode) : ins.opcode ∉ Machine.stringOpcodes := by
  rw [named]
  cases i.op <;> decide

theorem exec_multiply (named : ins.opcode = i.op.opcode) (encoded : ins.operands = i.operands)
    (unprefixed : ins.rep = none) (width : i.element = .word) (whole : SourceWhole i m) {op : MultiplyOp}
    (divides : i.op.divides = false) (signed : i.op.signed = op.signed)
    (body : m.execute dev ins = m.opMultiply ins op) : ∃ regs' m',
      i.result m.guest.regs (i.sourceValue linearHardware m.guest.regs m.mem.raw) = some regs' ∧
        Leaves dev m ins regs' m' := by
  obtain ⟨f, ran⟩ := multiply_word encoded width whole op rfl
  rw [upper_half, lower_half] at ran
  obtain ⟨m', leaves⟩ := exec_words (arithmetic_general named) unprefixed (body.trans ran)
  refine ⟨_, m', ?_, leaves⟩
  rw [ArithmeticInstr.result, divides, width, signed]

theorem exec_divide (named : ins.opcode = i.op.opcode) (encoded : ins.operands = i.operands)
    (unprefixed : ins.rep = none) (width : i.element = .word) (whole : SourceWhole i m) {op : DivideOp}
    (divides : i.op.divides = true) (signed : i.op.signed = op.signed)
    (body : m.execute dev ins = m.opDivide ins op) :
    (i.result m.guest.regs (i.sourceValue linearHardware m.guest.regs m.mem.raw) = none ∧
        m.exec dev ins = .panic) ∨ ∃ regs' m',
      i.result m.guest.regs (i.sourceValue linearHardware m.guest.regs m.mem.raw) = some regs' ∧
        Leaves dev m ins regs' m' := by
  rcases divide_word encoded width whole op with ⟨none, stops⟩ | ⟨q, r, f, found, ran⟩
  · refine .inl ⟨?_, ?_⟩
    · rw [ArithmeticInstr.result, divides, width, signed]
      simp only [none, Option.map_none]
    · rw [Machine.exec_plain (arithmetic_general named), unprefixed, body, stops]
      rfl
  · obtain ⟨m', leaves⟩ := exec_words (arithmetic_general named) unprefixed (body.trans ran)
    refine .inr ⟨_, m', ?_, leaves⟩
    rw [ArithmeticInstr.result, divides, width, signed]
    simp only [found, Option.map_some]
    exact congrArg some (Function.update_comm (by decide) _ _ _)

/-- The emulator leaves what the processor leaves, and it ends on a divide error. -/
theorem exec_arithmetic (named : ins.opcode = i.op.opcode) (encoded : ins.operands = i.operands)
    (unprefixed : ins.rep = none) (width : i.element = .word) (whole : SourceWhole i m) :
    (i.result m.guest.regs (i.sourceValue linearHardware m.guest.regs m.mem.raw) = none ∧
        m.exec dev ins = .panic) ∨ ∃ regs' m',
      i.result m.guest.regs (i.sourceValue linearHardware m.guest.regs m.mem.raw) = some regs' ∧
        Leaves dev m ins regs' m' := by
  cases op : i.op with
  | mul =>
      have body : m.execute dev ins = m.opMultiply ins .Unsigned := by rw [Machine.execute, named, op]; rfl
      exact .inr (exec_multiply named encoded unprefixed width whole (by rw [op]; rfl) (by rw [op]; rfl) body)
  | imul =>
      have body : m.execute dev ins = m.opMultiply ins .Signed := by rw [Machine.execute, named, op]; rfl
      exact .inr (exec_multiply named encoded unprefixed width whole (by rw [op]; rfl) (by rw [op]; rfl) body)
  | div =>
      have body : m.execute dev ins = m.opDivide ins .Unsigned := by rw [Machine.execute, named, op]; rfl
      exact exec_divide named encoded unprefixed width whole (by rw [op]; rfl) (by rw [op]; rfl) body
  | idiv =>
      have body : m.execute dev ins = m.opDivide ins .Signed := by rw [Machine.execute, named, op]; rfl
      exact exec_divide named encoded unprefixed width whole (by rw [op]; rfl) (by rw [op]; rfl) body

/-- The product of AX and BX. -/
def multiplying : ArithmeticInstr := ⟨.mul, .word, .reg .BX, by decide⟩

def multiplyingInstr : Asm.Instr := ⟨none, .MUL, multiplying.operands, ⟨.normal 0, 0⟩, 2, 0⟩

def countedVariables : Build.WideVariables (Nat → BitVec 8) :=
  ⟨fun reg => ⟨(readRegister counted.guest.regs reg).setWidth 32, true⟩, counted.mem.raw⟩

end Words

end Dis86.Emu
