import Dis86.Emu.AluExact
import Dis86.Emu.Step

namespace Dis86.Emu
open Machine (jumpCondition)
open Lib (Outcome differenceWith borrowOut differenceOverflows)

variable {n : Nat} {D : Type}

/-- What a jump asks about two compared operands. -/
def relation (x y : BitVec n) : Asm.Opcode → Option Bool
  | .JE => some (x == y)
  | .JNE => some (x != y)
  | .JB => some (x.ult y)
  | .JAE => some (!x.ult y)
  | .JA => some (y.ult x)
  | .JBE => some (!y.ult x)
  | .JL => some (x.slt y)
  | .JGE => some (!x.slt y)
  | .JG => some (y.slt x)
  | .JLE => some (!y.slt x)
  | .JS => some (x - y).msb
  | .JNS => some (!(x - y).msb)
  | .JO => some (x.toInt - y.toInt != (x - y).toInt)
  | .JNO => some (x.toInt - y.toInt == (x - y).toInt)
  | .JP => some (evenOnes ((x - y).setWidth 8))
  | .JNP => some (!evenOnes ((x - y).setWidth 8))
  | _ => none

theorem differenceWith_false (x y : BitVec n) : differenceWith x y false = x - y := by
  rw [differenceWith]
  simp

theorem difference_zero (x y : BitVec n) : (x - y == 0) = (x == y) := by
  rw [Bool.eq_iff_iff, beq_iff_eq, beq_iff_eq]
  exact sub_eq_zero

theorem borrow_ult (x y : BitVec n) : borrowOut x y false = x.ult y := rfl

theorem sign_slt (positive : 0 < n) (x y : BitVec n) :
    ((x - y).msb != differenceOverflows x y false) = x.slt y := by
  have signs := Lib.differenceWith_sign positive x y false
  rw [differenceWith_false] at signs
  rw [Bool.eq_iff_iff, signs, BitVec.slt, decide_eq_true_iff]
  simp

theorem slt_swap (x y : BitVec n) : y.slt x = (!(x == y) && !x.slt y) := by
  have same : x = y ↔ x.toInt = y.toInt := BitVec.toInt_inj.symm
  rw [Bool.eq_iff_iff, BitVec.slt, BitVec.slt, Bool.and_eq_true, Bool.not_eq_true', Bool.not_eq_true',
    beq_eq_false_iff_ne, ne_eq, decide_eq_true_iff, decide_eq_false_iff_not, same]
  omega

theorem ult_swap (x y : BitVec n) : y.ult x = (!x.ult y && !(x == y)) := by
  have same : x = y ↔ x.toNat = y.toNat := BitVec.toNat_inj.symm
  rw [Bool.eq_iff_iff, BitVec.ult, BitVec.ult, Bool.and_eq_true, Bool.not_eq_true', Bool.not_eq_true',
    beq_eq_false_iff_ne, ne_eq, decide_eq_true_iff, decide_eq_false_iff_not, same]
  omega

/-- The flags of a comparison answer every conditional jump. -/
theorem jumpCondition_compare (positive : 0 < n) (x y : BitVec n) (f : Flags) (op : Asm.Opcode) :
    jumpCondition (f.update (differenceReport x y false)) op = relation x y op := by
  have less := sign_slt positive x y
  have overflow : differenceOverflows x y false = (x.toInt - y.toInt != (x - y).toInt) := by
    rw [differenceOverflows, differenceWith_false]
    simp
  have zero : (f.update (differenceReport x y false)).get .ZF = (x == y) := by
    rw [← difference_zero, ← differenceWith_false, Flags.get_update]
    simp [differenceReport, resultReport]
  have carry : (f.update (differenceReport x y false)).get .CF = x.ult y := by
    rw [Flags.get_update]
    rfl
  have sign : (f.update (differenceReport x y false)).get .SF = (x - y).msb := by
    simp [differenceReport, resultReport, differenceWith_false]
  have overflowed : (f.update (differenceReport x y false)).get .OF = differenceOverflows x y false := by
    rw [Flags.get_update]
    rfl
  have parity : (f.update (differenceReport x y false)).get .PF = evenOnes ((x - y).setWidth 8) := by
    simp [differenceReport, resultReport, differenceWith_false]
  cases op with
  | JE | JB | JS | JP => simp only [jumpCondition, relation, zero, carry, sign, parity]
  | JNE | JAE | JNS | JNP => simp only [jumpCondition, relation, zero, carry, sign, parity, bne]
  | JA => simp only [jumpCondition, relation, zero, carry, ult_swap x y]
  | JBE => simp only [jumpCondition, relation, zero, carry, ult_swap x y, Bool.not_and, Bool.not_not]
  | JL => simp only [jumpCondition, relation, sign, overflowed, less]
  | JGE => simp only [jumpCondition, relation, sign, overflowed, ← less, bne, Bool.not_not]
  | JG => simp only [jumpCondition, relation, zero, sign, overflowed, slt_swap x y, ← less, bne, Bool.not_not]
  | JLE => simp only [jumpCondition, relation, zero, sign, overflowed, slt_swap x y, less, Bool.not_and, Bool.not_not]
  | JO => simp only [jumpCondition, relation, overflowed, overflow]
  | JNO => simp only [jumpCondition, relation, overflowed, overflow, bne, Bool.not_not]
  | _ => rfl

/-- A logical result is compared with zero. -/
theorem jumpCondition_bitwise (positive : 0 < n) (r : BitVec n) (f : Flags) (op : Asm.Opcode) :
    jumpCondition (f.update (bitwiseReport r)) op = relation r 0 op := by
  rw [← jumpCondition_compare positive r 0 f op]
  have same (flag : Flag) (asked : flag ≠ .AF) :
      (f.update (bitwiseReport r)).get flag = (f.update (differenceReport r 0 false)).get flag := by
    have whole : differenceWith r 0#n false = r := by
      rw [differenceWith_false]
      simp
    have less : borrowOut r 0#n false = false := by simp [borrowOut]
    have fits : differenceOverflows r 0#n false = false := by
      rw [differenceOverflows, whole]
      simp
    cases flag with
    | AF => exact absurd rfl asked
    | CF | OF | ZF | SF | PF => simp [bitwiseReport, differenceReport, resultReport, whole, less, fits]
    | TF | IF | DF => simp [bitwiseReport, differenceReport, resultReport]
  unfold jumpCondition
  rw [same .ZF (by decide), same .CF (by decide), same .SF (by decide), same .OF (by decide), same .PF (by decide)]

namespace Machine

@[simp] theorem flagReadAll_flagWriteAll (m : Machine D) (f : Flags) : (m.flagWriteAll f).flagReadAll = f := by
  cases f with
  | mk bits =>
      change Flags.mk (Function.update m.cpu.regs Register.FLAGS.idx bits Register.FLAGS.idx) = _
      rw [Function.update_self]

/-- The operations that know the repeat prefixes. -/
def stringOpcodes : List Asm.Opcode := [.SCAS, .STOS, .MOVS, .CMPS, .LODS]

theorem exec_plain {dev : Devices D} {m : Machine D} {ins : Asm.Instr} (general : ins.opcode ∉ stringOpcodes) :
    m.exec dev ins = (do
      Outcome.require (ins.rep = none)
      let m ← m.execute dev ins
      return { m with execCount := m.execCount + 1 }) := by
  unfold exec
  cases named : ins.opcode <;> first
    | rfl
    | exact absurd (by rw [named]; decide) general

theorem exec_eq_ok {dev : Devices D} {m m' : Machine D} {ins : Asm.Instr} (general : ins.opcode ∉ stringOpcodes) :
    m.exec dev ins = .ok m' ↔
      ins.rep = none ∧ ∃ after, m.execute dev ins = .ok after ∧
        m' = { after with execCount := after.execCount + 1 } := by
  rw [exec_plain general, Outcome.bind_eq_ok]
  constructor
  · rintro ⟨_, unprefixed, ran⟩
    obtain ⟨after, executed, same⟩ := Outcome.bind_eq_ok.mp ran
    cases same
    exact ⟨Outcome.require_eq_ok.mp unprefixed, after, executed, rfl⟩
  · rintro ⟨unprefixed, after, executed, rfl⟩
    exact ⟨(), Outcome.require_eq_ok.mpr unprefixed, Outcome.bind_eq_ok.mpr ⟨after, executed, rfl⟩⟩

theorem not_string {f : Asm.Opcode → Option α} {op : Asm.Opcode} {a : α} (strings : ∀ op ∈ stringOpcodes, f op = none)
    (named : f op = some a) : op ∉ stringOpcodes := by
  intro string
  rw [strings op string] at named
  cases named

theorem regWrite_cpu {m m' : Machine D} {r s : Register} {val : Value} (ran : m.regWrite r val = .ok m')
    (apart : s.idx ≠ r.idx) : m'.cpu.get s = m.cpu.get s ∧ m'.mem = m.mem := by
  obtain ⟨cpu, written, same⟩ := Outcome.bind_eq_ok.mp ran
  cases same
  unfold Cpu.regWrite at written
  by_cases whole : r.size = 2
  · rw [if_pos whole] at written
    obtain ⟨val, _, same⟩ := Outcome.bind_eq_ok.mp written
    cases same
    exact ⟨Function.update_of_ne apart _ _, rfl⟩
  · rw [if_neg whole] at written
    obtain ⟨val, _, same⟩ := Outcome.bind_eq_ok.mp written
    cases same
    exact ⟨Function.update_of_ne apart _ _, rfl⟩

/-- A written operand changes its own register only. -/
theorem operandWrite_get {m m' : Machine D} {ins : Asm.Instr} {oper : Nat} {val : Value} {s : Register}
    (ran : m.operandWrite ins oper val = .ok m')
    (apart : ∀ reg, ins.operands[oper]? = some (.reg reg) → s.idx ≠ (convertReg reg).idx) :
    m'.cpu.get s = m.cpu.get s := by
  obtain ⟨operand, found, written⟩ := Outcome.bind_eq_ok.mp ran
  rw [Outcome.unwrap_eq_ok] at found
  cases operand with
  | reg reg =>
      have other := apart reg found
      cases val with
      | u8 val =>
          obtain ⟨_, _, written⟩ := Outcome.bind_eq_ok.mp written
          exact (regWrite_cpu written other).1
      | u16 val =>
          obtain ⟨_, _, written⟩ := Outcome.bind_eq_ok.mp written
          exact (regWrite_cpu written other).1
      | u32 | addr => cases written
  | mem mem =>
      obtain ⟨addr, _, written⟩ := Outcome.bind_eq_ok.mp written
      cases val with
      | u8 | u16 | u32 =>
          obtain ⟨mem, _, same⟩ := Outcome.bind_eq_ok.mp written
          cases same
          rfl
      | addr => cases written
  | imm | rel | far => cases written

theorem operandWrite_flags {m m' : Machine D} {ins : Asm.Instr} {oper : Nat} {val : Value}
    (ran : m.operandWrite ins oper val = .ok m') (general : ins.operands[oper]? ≠ some (.reg .FLAGS)) :
    m'.flagReadAll = m.flagReadAll := by
  apply congrArg Flags.mk
  apply operandWrite_get ran
  intro reg found
  cases reg <;> first
    | exact absurd found general
    | decide

end Machine

/-- The two numbers that the flags of an operation compare. -/
def comparedBy (op : Asm.Opcode) (x y : BitVec n) : Option (BitVec n × BitVec n) :=
  match op with
  | .CMP | .SUB => some (x, y)
  | .TEST | .AND => some (x &&& y, 0)
  | .OR => some (x ||| y, 0)
  | .XOR => some (x ^^^ y, 0)
  | _ => none

section Jump

variable {dev : Devices D} {m m' later : Machine D} {ins jump : Asm.Instr} {w : Width} {x y a b : BitVec w.bits}

theorem flags_opCompare {op : BinaryOp} (left : m.operandRead ins 0 = .ok (w.value x))
    (right : m.operandRead ins 1 = .ok (w.value y)) (ran : m.opCompare ins op = .ok m') :
    m'.flagReadAll = m.flagReadAll.update (op.report (m.flagReadAll.get .CF) x y) := by
  rw [Machine.opCompare, left, right, Outcome.ok_bind, Outcome.ok_bind, binary_exact, Outcome.ok_bind] at ran
  cases ran
  exact Machine.flagReadAll_flagWriteAll ..

theorem flags_opBinary {op : BinaryOp} (left : m.operandRead ins 0 = .ok (w.value x))
    (right : m.operandRead ins 1 = .ok (w.value y)) (general : ins.operands[0]? ≠ some (.reg .FLAGS))
    (ran : m.opBinary ins op = .ok m') :
    m'.flagReadAll = m.flagReadAll.update (op.report (m.flagReadAll.get .CF) x y) := by
  rw [Machine.opBinary, left, right, Outcome.ok_bind, Outcome.ok_bind, binary_exact, Outcome.ok_bind] at ran
  rw [Machine.operandWrite_flags ran general]
  exact Machine.flagReadAll_flagWriteAll ..

/-- The flags after an operation answer a jump by the numbers that the operation compares. -/
theorem flags_compared (compares : comparedBy ins.opcode x y = some (a, b))
    (left : m.operandRead ins 0 = .ok (w.value x)) (right : m.operandRead ins 1 = .ok (w.value y))
    (general : ins.operands[0]? ≠ some (.reg .FLAGS)) (ran : m.exec dev ins = .ok m') (op : Asm.Opcode) :
    jumpCondition m'.flagReadAll op = relation a b op := by
  have positive : 0 < w.bits := by
    have bits := w.bits_bounds
    omega
  have strings : ∀ op ∈ Machine.stringOpcodes, comparedBy op x y = none := by simp [Machine.stringOpcodes, comparedBy]
  obtain ⟨_, after, executed, rfl⟩ := (Machine.exec_eq_ok (Machine.not_string strings compares)).mp ran
  change jumpCondition after.flagReadAll op = relation a b op
  unfold comparedBy at compares
  unfold Machine.execute at executed
  split at compares <;> cases compares
  case h_1 named =>
      rw [named] at executed
      rw [flags_opCompare left right executed]
      exact jumpCondition_compare positive ..
  case h_2 named =>
      rw [named] at executed
      rw [flags_opBinary left right general executed]
      exact jumpCondition_compare positive ..
  case h_3 named =>
      rw [named] at executed
      rw [flags_opCompare left right executed]
      exact jumpCondition_bitwise positive ..
  case h_4 named | h_5 named | h_6 named =>
      rw [named] at executed
      rw [flags_opBinary left right general executed]
      exact jumpCondition_bitwise positive ..

/-- A jump after an operation is taken if and only if its relation holds between the numbers that the operation
compares. Whatever runs between them must keep the flags. -/
theorem compared_jump (compares : comparedBy ins.opcode x y = some (a, b))
    (left : m.operandRead ins 0 = .ok (w.value x)) (right : m.operandRead ins 1 = .ok (w.value y))
    (general : ins.operands[0]? ≠ some (.reg .FLAGS)) (ran : m.exec dev ins = .ok m')
    (kept : later.flagReadAll = m'.flagReadAll) {holds : Bool} (asks : relation a b jump.opcode = some holds)
    {rel off seg : BitVec 16} (plain : jump.rep = none) (operand : jump.operands[0]? = some (.rel rel))
    (target : jump.relAddr rel = ⟨.normal seg, off⟩) :
    later.exec dev jump =
      .ok { later with
        cpu := if holds then (later.cpu.put .CS seg).put .IP off else later.cpu
        execCount := later.execCount + 1 } := by
  have answer : jumpCondition later.flagReadAll jump.opcode = some holds := by
    rw [kept, flags_compared compares left right general ran, asks]
  have read : later.operandReadAddr jump 0 = .ok ⟨.normal seg, off⟩ := by
    rw [Machine.operandReadAddr, Machine.operandRead, operand, ← target]
    rfl
  have strings : ∀ op ∈ Machine.stringOpcodes, relation a b op = none := by simp [Machine.stringOpcodes, relation]
  rw [Machine.exec_eq_ok (Machine.not_string strings asks)]
  refine ⟨plain, { later with cpu := if holds then (later.cpu.put .CS seg).put .IP off else later.cpu }, ?_, rfl⟩
  simp only [Machine.execute, answer, Machine.opJumpCond, read, Outcome.ok_bind]
  cases holds <;> rfl

end Jump

/-- Devices that do nothing. -/
def silentDevices : Devices Unit where
  tick d := d
  status _ := 0
  writeAddr d _ := d
  writeRegister d _ := d
  setPaletteIndex d _ := d
  writePalette d _ := .ok d
  video := .ok
  dos := .ok
  mouse := .ok

/-- AX is 1, BX is 2, CX is 3 and DX is 4. -/
def counted : Machine Unit where
  halted := false
  mem := ⟨fun _ => 0, none⟩
  cpu := ⟨fun idx => .ofNat 16 (idx + 1)⟩
  interruptVectors _ := none
  devices := ()
  execCount := 0

def onRegisters (op : Asm.Opcode) (dst src : Asm.Reg) : Asm.Instr :=
  ⟨none, op, [.reg dst, .reg src], ⟨.normal 0, 0⟩, 2, 0⟩

/-- The machine after an instruction that it can execute. -/
def Machine.executed (m : Machine Unit) (ins : Asm.Instr) : Machine Unit :=
  match m.exec silentDevices ins with
  | .ok m => m
  | _ => m

def compared : Machine Unit := counted.executed (onRegisters .CMP .AX .BX)

theorem compared_jump_below :
    compared.exec silentDevices ⟨none, .JB, [.rel 16], ⟨.normal 0, 2⟩, 2, 0⟩ =
      .ok { compared with cpu := (compared.cpu.put .CS 0).put .IP 20, execCount := 2 } :=
  @compared_jump Unit silentDevices counted compared compared (onRegisters .CMP .AX .BX)
    ⟨none, .JB, [.rel 16], ⟨.normal 0, 2⟩, 2, 0⟩ .word 1 2 1 2 rfl rfl rfl (by decide) rfl rfl true rfl 16 20 0 rfl rfl
    rfl

end Dis86.Emu
