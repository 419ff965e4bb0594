import Dis86.Asm.Decode
import Mathlib.Tactic.IntervalCases

namespace Dis86.Asm
open Lib (Outcome Run Cursor)
open RegionIter (peekChecked advance fetch fetchSext fetchU16 cursor)

namespace RegionIter

theorem peekChecked_cons {bin : RegionIter} {b : BitVec 8} {tail : Bytes} (fits : bin.Fits)
    (rest : bin.rest = b :: tail) : peekChecked bin = (.ok b, bin) := by
  obtain ⟨addr, addr_ok, seg, off⟩ := addr_eq fits
  have length : bin.rest.length = tail.length + 1 := by rw [rest, List.length_cons]
  have head : bin.mem[bin.off]? = some b := by
    rw [← List.head?_drop]
    show bin.rest.head? = _
    rw [rest, List.head?_cons]
  rw [length_rest, bytesRemaining] at length
  have same : addr.off.toNat - bin.baseOff.toNat = bin.off := by omega
  show (bin.addr >>= bin.getChecked, bin) = _
  rw [addr_ok]
  show (bin.getChecked addr, bin) = _
  simp only [getChecked, Outcome.check, seg, if_true, same, head, Outcome.unwrap,
    if_pos (show bin.baseOff.toNat ≤ addr.off.toNat by omega),
    if_pos (show addr.off.toNat < bin.baseOff.toNat + bin.mem.length by omega)]
  rfl

theorem peekChecked_nil {bin : RegionIter} (fits : bin.Fits) (rest : bin.rest = []) :
    peekChecked bin = (.err .beyondRegion, bin) := by
  obtain ⟨addr, addr_ok, seg, off⟩ := addr_eq fits
  have length : bin.rest.length = 0 := by rw [rest, List.length_nil]
  rw [length_rest, bytesRemaining] at length
  show (bin.addr >>= bin.getChecked, bin) = _
  rw [addr_ok]
  show (bin.getChecked addr, bin) = _
  simp only [getChecked, Outcome.check, seg, if_true,
    if_pos (show bin.baseOff.toNat ≤ addr.off.toNat by omega),
    if_neg (show ¬addr.off.toNat < bin.baseOff.toNat + bin.mem.length by omega)]
  rfl

theorem rest_advance_one {bin : RegionIter} {b : BitVec 8} {tail : Bytes}
    (rest : bin.rest = b :: tail) : (bin.advanceBy 1).rest = tail := by
  have moved : (bin.advanceBy 1).rest = bin.rest.drop 1 := cursor.rest_advance bin 1
  rw [moved, rest]
  rfl

theorem fetch_cons {bin : RegionIter} {b : BitVec 8} {tail : Bytes} (fits : bin.Fits)
    (rest : bin.rest = b :: tail) : fetch bin = (.ok b, bin.advanceBy 1) := by
  rw [fetch, Run.bind_ok (peekChecked_cons fits rest)]
  rfl

theorem fetch_nil {bin : RegionIter} (fits : bin.Fits) (rest : bin.rest = []) :
    fetch bin = (.err .beyondRegion, bin) := by
  have stopped := peekChecked_nil fits rest
  show Run.bind peekChecked _ bin = _
  rw [Run.bind, stopped]

theorem peekChecked_reads {bin : RegionIter} {b : BitVec 8} {tail : Bytes}
    (rest : bin.rest = b :: tail) : cursor.Reads peekChecked bin b 0 1 where
  used_le := Nat.zero_le 1
  inside := by
    show 1 ≤ bin.rest.length
    rw [rest, List.length_cons]
    omega
  same t fits starts := by
    obtain ⟨more, starts⟩ := starts
    have rest' : t.rest = b :: more := by
      show cursor.rest t = _
      rw [← starts]
      show bin.rest.take 1 ++ more = _
      rw [rest]
      rfl
    exact peekChecked_cons fits rest'

theorem fetch_reads {bin : RegionIter} {b : BitVec 8} {tail : Bytes}
    (rest : bin.rest = b :: tail) : cursor.Reads fetch bin b 1 1 where
  used_le := le_refl 1
  inside := (peekChecked_reads rest).inside
  same t fits starts := by
    have peeked := (peekChecked_reads rest).same t fits starts
    rw [fetch, Run.bind_ok peeked]
    rfl

theorem fetch_total : cursor.Total fetch where
  reads bin b bin' fits ran := by
    cases rest : bin.rest with
    | nil => simp [fetch_nil fits rest] at ran
    | cons head tail =>
        simp only [fetch_cons fits rest, Prod.mk.injEq, Outcome.ok.injEq] at ran
        exact ⟨1, ran.1 ▸ fetch_reads rest⟩
  fails bin e bin' fits ran := by
    cases rest : bin.rest with
    | nil =>
        simp only [fetch_nil fits rest, Prod.mk.injEq] at ran
        exact ⟨0, Nat.zero_le _, ran.2.symm⟩
    | cons head tail => simp [fetch_cons fits rest] at ran
  safe bin fits := by
    cases rest : bin.rest with
    | nil => simp [fetch_nil fits rest]
    | cons head tail => simp [fetch_cons fits rest]

theorem fetchSext_total : cursor.Total fetchSext := fetch_total.bind fun _ => .pure _

theorem fetchU16_total : cursor.Total fetchU16 :=
  fetch_total.bind fun _ => fetch_total.bind fun _ => .pure _

end RegionIter

open RegionIter (fetch_total fetchSext_total fetchU16_total)

/-- A field of three bits is at most seven. -/
theorem and_seven_le (b : BitVec 8) : (b &&& 7).toNat ≤ 7 := by
  rw [BitVec.toNat_and]
  exact Nat.and_le_right

theorem Reg.reg8_safe {num : BitVec 8} (le : num.toNat ≤ 7) : (Reg.reg8 num).Safe := by
  simp only [Outcome.Safe, Reg.reg8, Outcome.returns_bind, Outcome.returns_require,
    Outcome.returns_unwrap]
  exact ⟨le, _, List.getElem?_eq_getElem (by simpa using Nat.lt_succ_of_le le), trivial⟩

theorem Reg.reg16_safe {num : BitVec 8} (le : num.toNat ≤ 7) : (Reg.reg16 num).Safe := by
  simp only [Outcome.Safe, Reg.reg16, Outcome.returns_bind, Outcome.returns_require,
    Outcome.returns_unwrap]
  exact ⟨le, _, List.getElem?_eq_getElem (by simpa using Nat.lt_succ_of_le le), trivial⟩

theorem Reg.sreg16_panics_iff (num : BitVec 8) : Reg.sreg16 num = .panic ↔ 3 < num.toNat := by
  unfold Reg.sreg16 Outcome.require
  split
  · rename_i le
    show Outcome.unwrap _ = _ ↔ _
    rw [List.getElem?_eq_getElem (by simpa using Nat.lt_succ_of_le le)]
    simp only [Outcome.unwrap, reduceCtorEq, false_iff]
    omega
  · show Outcome.panic = _ ↔ _
    simp only [true_iff]
    omega

theorem operandReg_total (r : Reg) : cursor.Total (operandReg r) := .pure _

theorem operandRel_total (sz : Size) : cursor.Total (operandRel sz) := by
  unfold operandRel
  cases sz with
  | size8 => exact fetchSext_total.bind fun _ => .pure _
  | size16 => exact fetchU16_total.bind fun _ => .pure _
  | size32 => exact (Cursor.Total.fail _).bind fun _ => .pure _

theorem operandFar_total : cursor.Total operandFar :=
  fetchU16_total.bind fun _ => fetchU16_total.bind fun _ => .pure _

theorem operandMoff_total (sz : Size) (sreg : Option Reg) : cursor.Total (operandMoff sz sreg) :=
  fetchU16_total.bind fun _ => .pure _

theorem indirectRegs_safe {rm : BitVec 8} (le : rm.toNat ≤ 7) : (indirectRegs rm).Safe := by
  unfold indirectRegs
  generalize rm.toNat = num at le
  interval_cases num <;> exact trivial

theorem displacement_total {mode : BitVec 8} (le : mode.toNat ≤ 2) :
    cursor.Total (displacement mode) := by
  unfold displacement
  generalize mode.toNat = num at le
  interval_cases num
  · exact .pure _
  · exact fetchSext_total.bind fun _ => .pure _
  · exact fetchU16_total.bind fun _ => .pure _

theorem modrmMode_lt (modrm : BitVec 8) : (modrmMode modrm).toNat < 4 := by
  have small := modrm.isLt
  rw [modrmMode, BitVec.toNat_ushiftRight, Nat.shiftRight_eq_div_pow]
  omega

theorem operandRm_total (sz : Size) (modrm : BitVec 8) (sreg : Option Reg) :
    cursor.Total (operandRm sz modrm sreg) := by
  have rm_le : (modrmRm modrm).toNat ≤ 7 := and_seven_le modrm
  simp only [operandRm]
  split
  · cases sz with
    | size8 => exact (Cursor.Total.const (Reg.reg8_safe rm_le)).bind fun _ => operandReg_total _
    | size16 => exact (Cursor.Total.const (Reg.reg16_safe rm_le)).bind fun _ => operandReg_total _
    | size32 => exact .fail _
  · rename_i indirect
    have mode_lt := modrmMode_lt modrm
    have mode_ne : (modrmMode modrm).toNat ≠ 3 := fun same =>
      indirect (BitVec.eq_of_toNat_eq same)
    split
    · exact operandMoff_total sz sreg
    · refine (Cursor.Total.const (indirectRegs_safe rm_le)).bind fun regs => ?_
      exact (displacement_total (by omega)).bind fun _ => .pure _

theorem operandM_total (sz : Size) (modrm : BitVec 8) (sreg : Option Reg) :
    cursor.Total (operandM sz modrm sreg) := by
  refine (operandRm_total sz modrm sreg).bind fun oper => ?_
  cases oper with
  | mem mem => exact .pure _
  | reg | imm | rel | far => exact .fail _

/-- Only a segment register named by the ModRM byte can panic. -/
theorem decodeOperand_total {oper : Oper} {modrm : BitVec 8} {sreg : Option Reg}
    {decode : Decode Operand} (found : decodeOperand oper modrm sreg = some decode)
    (other : oper ≠ .SREG) : cursor.Total decode := by
  have reg_le : (modrmReg modrm).toNat ≤ 7 := and_seven_le (modrm >>> 3)
  cases oper with
  | NONE => simp [decodeOperand] at found
  | SREG => exact absurd rfl other
  | AX | CX | DX | BX | SP | BP | SI | DI | AL | CL | DL | BL | AH | CH | DH | BH | ES | CS | SS
  | DS | FLAGS | LIT1 | LIT3 | SRC8 | SRC16 | DST8 | DST16 =>
      obtain rfl := Option.some.inj found
      exact .pure _
  | R8 =>
      obtain rfl := Option.some.inj found
      exact (Cursor.Total.const (Reg.reg8_safe reg_le)).bind fun _ => operandReg_total _
  | R16 =>
      obtain rfl := Option.some.inj found
      exact (Cursor.Total.const (Reg.reg16_safe reg_le)).bind fun _ => operandReg_total _
  | M8 | M16 | M32 =>
      obtain rfl := Option.some.inj found
      exact operandM_total _ modrm sreg
  | RM8 | RM16 =>
      obtain rfl := Option.some.inj found
      exact operandRm_total _ modrm sreg
  | IMM8 =>
      obtain rfl := Option.some.inj found
      exact fetch_total.bind fun _ => .pure _
  | IMM8_EXT =>
      obtain rfl := Option.some.inj found
      exact fetchSext_total.bind fun _ => .pure _
  | IMM16 =>
      obtain rfl := Option.some.inj found
      exact fetchU16_total.bind fun _ => .pure _
  | FAR32 =>
      obtain rfl := Option.some.inj found
      exact operandFar_total
  | MOFF8 | MOFF16 =>
      obtain rfl := Option.some.inj found
      exact operandMoff_total _ sreg
  | REL8 | REL16 =>
      obtain rfl := Option.some.inj found
      exact operandRel_total _

theorem decodeOperand_exact {oper : Oper} {modrm : BitVec 8} {sreg : Option Reg}
    {decode : Decode Operand} (found : decodeOperand oper modrm sreg = some decode) :
    cursor.Exact decode := by
  by_cases segment : oper = .SREG
  · subst segment
    obtain rfl := Option.some.inj found
    exact (Cursor.Exact.const _).bind fun _ => .pure _
  · exact (decodeOperand_total found segment).toExact

theorem decodeOperands_exact (modrm : BitVec 8) (sreg : Option Reg) (opers : List Oper)
    (operands : List Operand) : cursor.Exact (decodeOperands modrm sreg opers operands) := by
  induction opers generalizing operands with
  | nil => exact .pure _
  | cons oper opers hypothesis =>
      unfold decodeOperands
      split
      · exact .pure _
      · rename_i decode found
        refine (decodeOperand_exact found).bind fun operand => ?_
        exact (Cursor.Exact.const _).bind fun _ => hypothesis _

/-- The array of operands has room for the three of a row. -/
theorem decodeOperands_total (modrm : BitVec 8) (sreg : Option Reg) {opers : List Oper}
    {operands : List Operand} (room : operands.length + opers.length ≤ 3)
    (other : Oper.SREG ∉ opers) : cursor.Total (decodeOperands modrm sreg opers operands) := by
  induction opers generalizing operands with
  | nil => exact .pure _
  | cons oper opers hypothesis =>
      rw [List.length_cons] at room
      rw [List.mem_cons, not_or] at other
      unfold decodeOperands
      split
      · exact .pure _
      · rename_i decode found
        refine (decodeOperand_total found (Ne.symm other.1)).bind fun operand => ?_
        refine (Cursor.Total.const ?_).bind fun _ => hypothesis ?_ other.2
        · simp only [Outcome.Safe, Outcome.returns_require, and_true]
          omega
        · rw [List.length_append, List.length_singleton]
          omega

end Dis86.Asm
