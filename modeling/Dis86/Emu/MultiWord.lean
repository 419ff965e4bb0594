import Dis86.Emu.Conditions

namespace Dis86.Emu
open Machine (jumpCondition)
open Asm (OperandMem Seg SegOff)
open Lib (Outcome sumWords differenceWords sumWith differenceWith wordsNat wordsInt firsts seconds)

variable {D : Type}

theorem unwrapU16_eq_ok {val : Value} {v : BitVec 16} : val.unwrapU16 = .ok v ↔ val = .u16 v := by
  cases val <;> simp [Value.unwrapU16]

theorem unwrapU8_eq_ok {val : Value} {v : BitVec 8} : val.unwrapU8 = .ok v ↔ val = .u8 v := by
  cases val <;> simp [Value.unwrapU8]

theorem low_combined (cur : BitVec 16) (v : BitVec 8) :
    ((cur &&& 0xff00) ||| v.setWidth 16).setWidth 8 = v := by
  apply BitVec.eq_of_getLsbD_eq
  intro i inside
  have mask : ∀ i : Fin 8, (0xff00#16).getLsbD i = false := by decide
  have clear := mask ⟨i, inside⟩
  simp [inside]

theorem high_combined (cur : BitVec 16) (v : BitVec 8) :
    (((cur &&& 0x00ff) ||| v.setWidth 16 <<< 8) >>> 8).setWidth 8 = v := by
  apply BitVec.eq_of_getLsbD_eq
  intro i inside
  have mask : ∀ i : Fin 8, (0x00ff#16).getLsbD (8 + i) = false := by decide
  have clear := mask ⟨i, inside⟩
  simp [inside, clear]
  grind

def Width.size : Width → Asm.Size
  | byte => .size8
  | word => .size16

namespace Machine

variable {m m' : Machine D} {ins : Asm.Instr} {oper : Nat}

theorem regRead_regWrite {r : Register} {val : Value} (ran : m.regWrite r val = .ok m') : m'.regRead r = val := by
  obtain ⟨cpu, written, same⟩ := Outcome.bind_eq_ok.mp ran
  cases same
  unfold Cpu.regWrite at written
  unfold regRead Cpu.regRead
  by_cases whole : r.size = 2
  · rw [if_pos whole] at written ⊢
    obtain ⟨v, isWord, same⟩ := Outcome.bind_eq_ok.mp written
    rw [unwrapU16_eq_ok] at isWord
    cases same
    simp only [isWord, Function.update_self]
  · rw [if_neg whole] at written ⊢
    obtain ⟨v, isByte, same⟩ := Outcome.bind_eq_ok.mp written
    rw [unwrapU8_eq_ok] at isByte
    cases same
    by_cases low : r.off = 0
    · simp only [isByte, Function.update_self, if_pos low, low_combined]
    · simp only [isByte, Function.update_self, if_neg low]
      exact congrArg Value.u8 (high_combined _ v)

theorem operandMemAddr_normal {mem : OperandMem} {addr : SegOff} (found : m.operandMemAddr mem = .ok addr) :
    ∃ seg, addr.seg = .normal seg := by
  obtain ⟨seg, _, rest⟩ := Outcome.bind_eq_ok.mp found
  obtain ⟨_, _, rest⟩ := Outcome.bind_eq_ok.mp rest
  obtain ⟨_, _, rest⟩ := Outcome.bind_eq_ok.mp rest
  cases rest
  exact ⟨seg, rfl⟩

/-- A memory operand has the size of the values that it reads. -/
theorem operandRead_size {w : Width} {x : BitVec w.bits} {mem : OperandMem}
    (read : m.operandRead ins oper = .ok (w.value x)) (found : ins.operands[oper]? = some (.mem mem)) :
    mem.sz = w.size := by
  rw [operandRead, found] at read
  change m.operandMemRead mem = _ at read
  obtain ⟨addr, _, loaded⟩ := Outcome.bind_eq_ok.mp read
  cases size : mem.sz <;> rw [size] at loaded <;> obtain ⟨_, _, same⟩ := Outcome.bind_eq_ok.mp loaded <;>
    cases w <;> cases same <;> rfl

/-- A written operand reads as the value that was written. -/
theorem operandRead_operandWrite {w : Width} {r : BitVec w.bits}
    (size : ∀ mem, ins.operands[oper]? = some (.mem mem) → mem.sz = w.size)
    (ran : m.operandWrite ins oper (w.value r) = .ok m') : m'.operandRead ins oper = .ok (w.value r) := by
  obtain ⟨operand, found, written⟩ := Outcome.bind_eq_ok.mp ran
  rw [Outcome.unwrap_eq_ok] at found
  rw [operandRead, found]
  cases operand with
  | reg reg =>
      change operandRegWrite m reg _ = _ at written
      change Outcome.ok (m'.regRead (convertReg reg)) = _
      cases w with
      | byte =>
          obtain ⟨_, isByte, written⟩ := Outcome.bind_eq_ok.mp written
          rw [Outcome.require_eq_ok] at isByte
          rw [regRead_regWrite written, if_pos isByte, BitVec.setWidth_setWidth_of_le _ (by decide), BitVec.setWidth_eq]
          rfl
      | word =>
          obtain ⟨_, isWord, written⟩ := Outcome.bind_eq_ok.mp written
          rw [Outcome.require_eq_ok] at isWord
          rw [regRead_regWrite written, if_neg (by rw [isWord]; decide)]
          rfl
  | mem mem =>
      obtain ⟨⟨segment, off⟩, place, written⟩ := Outcome.bind_eq_ok.mp written
      obtain ⟨seg, normal⟩ := operandMemAddr_normal place
      obtain rfl : segment = .normal seg := normal
      change m'.operandMemRead mem = _
      rw [operandMemRead, size mem found]
      cases w with
      | byte =>
          obtain ⟨mem', stored, same⟩ := Outcome.bind_eq_ok.mp written
          rw [Memory.writeU8_normal] at stored
          cases stored
          cases same
          have again : (m.withMem (m.mem.set (Memory.linear seg off) r)).operandMemAddr mem = _ := place
          rw [again, Outcome.ok_bind]
          simp only [Width.size, withMem, Memory.readU8_normal, Memory.raw_set, if_pos]
          rfl
      | word =>
          obtain ⟨mem', stored, same⟩ := Outcome.bind_eq_ok.mp written
          rw [Memory.writeU16_normal] at stored
          cases stored
          cases same
          have again : (m.withMem (m.mem.setWord seg off r)).operandMemAddr mem = _ := place
          rw [again, Outcome.ok_bind]
          simp only [Width.size, withMem, Memory.readU16_normal, Memory.wordAt_setWord]
          rfl
  | imm | rel | far => cases written

end Machine

/-- A run of an operation that takes the carry, on the words `l` with the results `rs`. Between them other
instructions may run that keep the carry. -/
inductive CarryRun (dev : Devices D) (op : Asm.Opcode) (w : Width) :
    Machine D → List (BitVec w.bits × BitVec w.bits) → List (BitVec w.bits) → Machine D → Prop where
  | done (m : Machine D) : CarryRun dev op w m [] [] m
  | other {m m' last : Machine D} {ins : Asm.Instr} {l : List (BitVec w.bits × BitVec w.bits)}
      {rs : List (BitVec w.bits)} (ran : m.exec dev ins = .ok m') (kept : m'.flagRead .CF = m.flagRead .CF)
      (rest : CarryRun dev op w m' l rs last) : CarryRun dev op w m l rs last
  | word {m m' last : Machine D} {ins : Asm.Instr} {l : List (BitVec w.bits × BitVec w.bits)}
      {rs : List (BitVec w.bits)} {x y r : BitVec w.bits} (named : ins.opcode = op)
      (left : m.operandRead ins 0 = .ok (w.value x)) (right : m.operandRead ins 1 = .ok (w.value y))
      (general : ins.operands[0]? ≠ some (.reg .FLAGS)) (ran : m.exec dev ins = .ok m')
      (result : m'.operandRead ins 0 = .ok (w.value r))
      (rest : CarryRun dev op w m' l rs last) : CarryRun dev op w m ((x, y) :: l) (r :: rs) last

section Carry

variable {dev : Devices D} {m m' last : Machine D} {ins : Asm.Instr} {w : Width} {x y r : BitVec w.bits}
  {l : List (BitVec w.bits × BitVec w.bits)} {rs : List (BitVec w.bits)}

/-- The operations of a multi-word sum and of a multi-word difference. -/
def binaryOf : Asm.Opcode → Option BinaryOp
  | .ADD => some .Add
  | .ADC => some .Adc
  | .SUB => some .Sub
  | .SBB => some .Sbb
  | _ => none

/-- What a binary operation leaves in its first operand and in the flags. -/
theorem exec_binary (op : BinaryOp) (named : binaryOf ins.opcode = some op)
    (left : m.operandRead ins 0 = .ok (w.value x)) (right : m.operandRead ins 1 = .ok (w.value y))
    (general : ins.operands[0]? ≠ some (.reg .FLAGS)) (ran : m.exec dev ins = .ok m') :
    m'.operandRead ins 0 = .ok (w.value (op.result (m.flagRead .CF) x y)) ∧
      m'.flagReadAll = m.flagReadAll.update (op.report (m.flagRead .CF) x y) := by
  have strings : ∀ op ∈ Machine.stringOpcodes, binaryOf op = none := by decide
  obtain ⟨_, after, executed, rfl⟩ := (Machine.exec_eq_ok (Machine.not_string strings named)).mp ran
  have operation : m.opBinary ins op = .ok after := by
    unfold Machine.execute at executed
    unfold binaryOf at named
    split at named <;> cases named
    case h_1 opcode | h_2 opcode | h_3 opcode | h_4 opcode =>
        rw [opcode] at executed
        exact executed
  have flags : after.flagReadAll = _ := flags_opBinary left right general operation
  rw [Machine.opBinary, left, right, Outcome.ok_bind, Outcome.ok_bind, binary_exact, Outcome.ok_bind] at operation
  have value : after.operandRead ins 0 = _ :=
    Machine.operandRead_operandWrite (fun mem found => Machine.operandRead_size left found) operation
  exact ⟨value, flags⟩

theorem width_value_inj (same : w.value x = w.value y) : x = y := by
  cases w with
  | byte | word => cases same; rfl

theorem Flags.get_carry (m' : Machine D) (f : Flags) (report : Flag → Option Bool) {c : Bool}
    (flags : m'.flagReadAll = f.update report) (reported : report .CF = some c) : m'.flagRead .CF = c := by
  change m'.flagReadAll.get .CF = c
  rw [flags, Flags.get_update, reported]
  rfl

/-- The words of a run with ADC are those of the sum. -/
theorem CarryRun.sums (run : CarryRun dev .ADC w m l rs last) :
    (rs, last.flagRead .CF) = sumWords l (m.flagRead .CF) := by
  induction run with
  | done m => rfl
  | other ran kept rest hypothesis => rw [hypothesis, kept]
  | word named left right general ran result rest hypothesis =>
      obtain ⟨value, flags⟩ := exec_binary .Adc (by rw [named]; rfl) left right general ran
      have word := width_value_inj (Outcome.ok.inj (result.symm.trans value))
      have carry := Flags.get_carry _ _ _ flags rfl
      obtain ⟨rest, out⟩ := Prod.mk.inj hypothesis
      rw [sumWords, word, rest, out, carry]
      rfl

theorem CarryRun.differences (run : CarryRun dev .SBB w m l rs last) :
    (rs, last.flagRead .CF) = differenceWords l (m.flagRead .CF) := by
  induction run with
  | done m => rfl
  | other ran kept rest hypothesis => rw [hypothesis, kept]
  | word named left right general ran result rest hypothesis =>
      obtain ⟨value, flags⟩ := exec_binary .Sbb (by rw [named]; rfl) left right general ran
      have word := width_value_inj (Outcome.ok.inj (result.symm.trans value))
      have carry := Flags.get_carry _ _ _ flags rfl
      obtain ⟨rest, out⟩ := Prod.mk.inj hypothesis
      rw [differenceWords, word, rest, out, carry]
      rfl

/-- An addition of the low words and a run with ADC add numbers of any length. The carry after them is the carry
of the whole sum. -/
theorem multiword_sum (first : ins.opcode = .ADD) (left : m.operandRead ins 0 = .ok (w.value x))
    (right : m.operandRead ins 1 = .ok (w.value y)) (general : ins.operands[0]? ≠ some (.reg .FLAGS))
    (ran : m.exec dev ins = .ok m') (result : m'.operandRead ins 0 = .ok (w.value r))
    (run : CarryRun dev .ADC w m' l rs last) :
    wordsNat (r :: rs) + 2 ^ (w.bits * (l.length + 1)) * (last.flagRead .CF).toNat =
      wordsNat (x :: firsts l) + wordsNat (y :: seconds l) := by
  have positive : 0 < w.bits := by
    have bits := w.bits_bounds
    omega
  obtain ⟨value, flags⟩ := exec_binary .Add (by rw [first]; rfl) left right general ran
  have word := width_value_inj (Outcome.ok.inj (result.symm.trans value))
  have carry := Flags.get_carry _ _ _ flags rfl
  have words : (r :: rs, last.flagRead .CF) = sumWords ((x, y) :: l) false := by
    obtain ⟨rest, out⟩ := Prod.mk.inj run.sums
    rw [sumWords, word, rest, out, carry]
    rfl
  have whole := Lib.sumWords_nat positive ((x, y) :: l) false
  rw [← words] at whole
  exact whole

def summed : Machine Unit := (counted.executed (onRegisters .ADD .AX .BX)).executed (onRegisters .ADC .CX .DX)

/-- The sum of 0x30001 and 0x40002. -/
theorem multiword_sum_dwords :
    wordsNat [(3 : BitVec 16), 7] + 2 ^ (16 * 2) * (summed.flagRead .CF).toNat =
      wordsNat [(1 : BitVec 16), 3] + wordsNat [(2 : BitVec 16), 4] := by
  have run : CarryRun silentDevices .ADC .word (counted.executed (onRegisters .ADD .AX .BX)) [(3, 4)] [7] summed :=
    @CarryRun.word Unit silentDevices .ADC .word _ summed summed (onRegisters .ADC .CX .DX) [] [] 3 4 7 rfl rfl rfl
      (by decide) rfl rfl (.done summed)
  exact @multiword_sum Unit silentDevices counted (counted.executed (onRegisters .ADD .AX .BX)) summed
    (onRegisters .ADD .AX .BX) .word 1 2 3 [(3, 4)] [7] rfl rfl rfl (by decide) rfl rfl run

/-- A subtraction of the low words and a run with SBB subtract numbers of any length. The carry after them says
that the second number is the larger one. -/
theorem multiword_difference (first : ins.opcode = .SUB) (left : m.operandRead ins 0 = .ok (w.value x))
    (right : m.operandRead ins 1 = .ok (w.value y)) (general : ins.operands[0]? ≠ some (.reg .FLAGS))
    (ran : m.exec dev ins = .ok m') (result : m'.operandRead ins 0 = .ok (w.value r))
    (run : CarryRun dev .SBB w m' l rs last) :
    wordsNat (r :: rs) + wordsNat (y :: seconds l) =
        wordsNat (x :: firsts l) + 2 ^ (w.bits * (l.length + 1)) * (last.flagRead .CF).toNat ∧
      (last.flagRead .CF = true ↔ wordsNat (x :: firsts l) < wordsNat (y :: seconds l)) := by
  have positive : 0 < w.bits := by
    have bits := w.bits_bounds
    omega
  obtain ⟨value, flags⟩ := exec_binary .Sub (by rw [first]; rfl) left right general ran
  have word := width_value_inj (Outcome.ok.inj (result.symm.trans value))
  have carry := Flags.get_carry _ _ _ flags rfl
  have words : (r :: rs, last.flagRead .CF) = differenceWords ((x, y) :: l) false := by
    obtain ⟨rest, out⟩ := Prod.mk.inj run.differences
    rw [differenceWords, word, rest, out, carry]
    rfl
  have whole := Lib.differenceWords_nat positive ((x, y) :: l) false
  have borrows := Lib.differenceWords_borrows positive ((x, y) :: l) false
  rw [← words] at whole borrows
  exact ⟨whole, borrows⟩

def subtracted : Machine Unit := (counted.executed (onRegisters .SUB .AX .BX)).executed (onRegisters .SBB .CX .DX)

/-- The difference of 0x30001 and 0x40002 borrows. -/
theorem multiword_difference_dwords :
    wordsNat [(0xffff : BitVec 16), 0xfffe] + wordsNat [(2 : BitVec 16), 4] =
        wordsNat [(1 : BitVec 16), 3] + 2 ^ (16 * 2) * (subtracted.flagRead .CF).toNat ∧
      (subtracted.flagRead .CF = true ↔ wordsNat [(1 : BitVec 16), 3] < wordsNat [(2 : BitVec 16), 4]) := by
  have run : CarryRun silentDevices .SBB .word (counted.executed (onRegisters .SUB .AX .BX)) [(3, 4)] [0xfffe]
      subtracted :=
    @CarryRun.word Unit silentDevices .SBB .word _ subtracted subtracted (onRegisters .SBB .CX .DX) [] [] 3 4 0xfffe
      rfl rfl rfl (by decide) rfl rfl (.done subtracted)
  exact @multiword_difference Unit silentDevices counted (counted.executed (onRegisters .SUB .AX .BX)) subtracted
    (onRegisters .SUB .AX .BX) .word 1 2 0xffff [(3, 4)] [0xfffe] rfl rfl rfl (by decide) rfl rfl run

/-- The flags of a comparison or a subtraction. -/
theorem flags_difference (named : ins.opcode = .CMP ∨ ins.opcode = .SUB)
    (left : m.operandRead ins 0 = .ok (w.value x)) (right : m.operandRead ins 1 = .ok (w.value y))
    (general : ins.operands[0]? ≠ some (.reg .FLAGS)) (ran : m.exec dev ins = .ok m') :
    m'.flagReadAll = m.flagReadAll.update (differenceReport x y false) := by
  rcases named with named | named
  · have others : ins.opcode ∉ Machine.stringOpcodes := by
      rw [named]
      decide
    obtain ⟨_, after, executed, rfl⟩ := (Machine.exec_eq_ok others).mp ran
    unfold Machine.execute at executed
    rw [named] at executed
    exact flags_opCompare left right executed
  · exact (exec_binary .Sub (by rw [named]; rfl) left right general ran).2

/-- A comparison of the low words, a run with SBB and a last SBB of the high words order numbers of any length, as
unsigned numbers by the carry and as signed numbers by the sign and the overflow. -/
theorem multiword_order {m₁ m₂ : Machine D} {top : Asm.Instr} {hx hy : BitVec w.bits}
    (first : ins.opcode = .CMP ∨ ins.opcode = .SUB) (left : m.operandRead ins 0 = .ok (w.value x))
    (right : m.operandRead ins 1 = .ok (w.value y)) (general : ins.operands[0]? ≠ some (.reg .FLAGS))
    (ran : m.exec dev ins = .ok m₁) (run : CarryRun dev .SBB w m₁ l rs m₂) (high : top.opcode = .SBB)
    (highLeft : m₂.operandRead top 0 = .ok (w.value hx)) (highRight : m₂.operandRead top 1 = .ok (w.value hy))
    (highGeneral : top.operands[0]? ≠ some (.reg .FLAGS)) (highRan : m₂.exec dev top = .ok last) :
    (jumpCondition last.flagReadAll .JB = some true ↔
        wordsNat (x :: firsts l ++ [hx]) < wordsNat (y :: seconds l ++ [hy])) ∧
      (jumpCondition last.flagReadAll .JL = some true ↔
        wordsInt (x :: firsts l) hx < wordsInt (y :: seconds l) hy) := by
  have positive : 0 < w.bits := by
    have bits := w.bits_bounds
    omega
  have flags := flags_difference first left right general ran
  have carry := Flags.get_carry _ _ _ flags rfl
  have words : (m₂.flagRead .CF) = (differenceWords ((x, y) :: l) false).2 := by
    obtain ⟨_, out⟩ := Prod.mk.inj run.differences
    rw [differenceWords, out, carry]
  have highFlags := (exec_binary .Sbb (by rw [high]; rfl) highLeft highRight highGeneral highRan).2
  constructor
  · have borrows := Lib.differenceWords_borrows positive ((x, y) :: l ++ [(hx, hy)]) false
    have snoc := Lib.differenceWords_snoc ((x, y) :: l) hx hy false
    have borrow : last.flagReadAll.get .CF = Lib.borrowOut hx hy (m₂.flagRead .CF) := by
      rw [highFlags, Flags.get_update]
      rfl
    rw [jumpCondition, Option.some.injEq, borrow, words, ← snoc]
    refine borrows.trans (Iff.of_eq ?_)
    simp [firsts, seconds]
  · have signed := Lib.differenceWords_signed positive ((x, y) :: l) hx hy false
    have sign : last.flagReadAll.get .SF = (differenceWith hx hy (m₂.flagRead .CF)).msb := by
      rw [highFlags, Flags.get_update]
      rfl
    have overflow : last.flagReadAll.get .OF = Lib.differenceOverflows hx hy (m₂.flagRead .CF) := by
      rw [highFlags, Flags.get_update]
      rfl
    rw [jumpCondition, Option.some.injEq, sign, overflow, words, signed]
    simp [firsts, seconds]

def ordered : Machine Unit := (counted.executed (onRegisters .CMP .AX .BX)).executed (onRegisters .SBB .CX .DX)

/-- 0x30001 is less than 0x40002. -/
theorem multiword_order_dwords :
    (jumpCondition ordered.flagReadAll .JB = some true ↔
        wordsNat [(1 : BitVec 16), 3] < wordsNat [(2 : BitVec 16), 4]) ∧
      (jumpCondition ordered.flagReadAll .JL = some true ↔
        wordsInt [(1 : BitVec 16)] 3 < wordsInt [(2 : BitVec 16)] 4) :=
  @multiword_order Unit silentDevices counted ordered (onRegisters .CMP .AX .BX) .word 1 2 [] []
    (counted.executed (onRegisters .CMP .AX .BX)) (counted.executed (onRegisters .CMP .AX .BX))
    (onRegisters .SBB .CX .DX) 3 4 (.inl rfl) rfl rfl (by decide) rfl (.done _) rfl rfl rfl (by decide) rfl

end Carry

end Dis86.Emu
