import Dis86.Asm.Instr
import Dis86.Asm.Linear

namespace Dis86.Asm
open Lib (Outcome Run)
open RegionIter (fetch fetchU16 cursor)

/-- The address of the code that an operand names. -/
def Instr.namedAddr (ins : Instr) : Operand → Option SegOff
  | .rel rel => some (ins.relAddr rel)
  | .far seg off => some ⟨.normal seg, off⟩
  | _ => none

/-- An operand that names an address comes from a column that describes one. -/
def Operand.Fits (oper : Oper) : Operand → Prop
  | .rel _ => oper = .REL8 ∨ oper = .REL16
  | .far _ _ => oper = .FAR32
  | _ => True

theorem operandReg_fits (oper : Oper) (r : Reg) : Run.Gives (operandReg r) (Operand.Fits oper) := .pure trivial

theorem operandMoff_fits (oper : Oper) (sz : Size) (sreg : Option Reg) :
    Run.Gives (operandMoff sz sreg) (Operand.Fits oper) :=
  (Run.Gives.any _).bind fun _ _ => .pure trivial

theorem operandRm_fits (oper : Oper) (sz : Size) (modrm : BitVec 8) (sreg : Option Reg) :
    Run.Gives (operandRm sz modrm sreg) (Operand.Fits oper) := by
  unfold operandRm
  simp only
  split
  · cases sz with
    | size8 | size16 => exact (Run.Gives.any _).bind fun _ _ => operandReg_fits oper _
    | size32 => exact .fail _
  · split
    · exact operandMoff_fits oper sz sreg
    · exact (Run.Gives.any _).bind fun _ _ => (Run.Gives.any _).bind fun _ _ => .pure trivial

theorem operandM_fits (oper : Oper) (sz : Size) (modrm : BitVec 8) (sreg : Option Reg) :
    Run.Gives (operandM sz modrm sreg) (Operand.Fits oper) := by
  refine (Run.Gives.any _).bind fun operand _ => ?_
  cases operand with
  | mem => exact .pure trivial
  | reg | imm | rel | far => exact .fail _

theorem decodeOperand_fits {oper : Oper} {modrm : BitVec 8} {sreg : Option Reg} {decode : Decode Operand}
    (found : decodeOperand oper modrm sreg = some decode) : Run.Gives decode (Operand.Fits oper) := by
  cases oper with
  | NONE => simp [decodeOperand] at found
  | AX | CX | DX | BX | SP | BP | SI | DI | AL | CL | DL | BL | AH | CH | DH | BH | ES | CS | SS
  | DS | FLAGS | LIT1 | LIT3 | SRC8 | SRC16 | DST8 | DST16 =>
      obtain rfl := Option.some.inj found
      exact .pure trivial
  | R8 | R16 | SREG | IMM8 | IMM8_EXT | IMM16 =>
      obtain rfl := Option.some.inj found
      exact (Run.Gives.any _).bind fun _ _ => .pure trivial
  | M8 | M16 | M32 =>
      obtain rfl := Option.some.inj found
      exact operandM_fits _ _ modrm sreg
  | RM8 | RM16 =>
      obtain rfl := Option.some.inj found
      exact operandRm_fits _ _ modrm sreg
  | MOFF8 | MOFF16 =>
      obtain rfl := Option.some.inj found
      exact operandMoff_fits _ _ sreg
  | FAR32 =>
      obtain rfl := Option.some.inj found
      exact (Run.Gives.any _).bind fun _ _ => (Run.Gives.any _).bind fun _ _ => .pure rfl
  | REL8 =>
      obtain rfl := Option.some.inj found
      exact (Run.Gives.any _).bind fun _ _ => .pure (.inl rfl)
  | REL16 =>
      obtain rfl := Option.some.inj found
      exact (Run.Gives.any _).bind fun _ _ => .pure (.inr rfl)

/-- The operands of an instruction stand in the columns of its row. -/
def Columns (opers : List Oper) (operands : List Operand) : Prop :=
  ∀ (i : Nat) (operand : Operand), operands[i]? = some operand → ∃ oper, opers[i]? = some oper ∧ operand.Fits oper

theorem decodeOperands_columns (modrm : BitVec 8) (sreg : Option Reg) (opers : List Oper) (operands : List Operand) :
    Run.Gives (decodeOperands modrm sreg opers operands) fun all =>
      ∃ later, all = operands ++ later ∧ Columns opers later := by
  induction opers generalizing operands with
  | nil => exact .pure ⟨[], (List.append_nil _).symm, fun i operand there => by cases there⟩
  | cons oper opers hypothesis =>
      unfold decodeOperands
      split
      · exact .pure ⟨[], (List.append_nil _).symm, fun i operand there => by cases there⟩
      · rename_i decode found
        refine (decodeOperand_fits found).bind fun operand fits => (Run.Gives.any _).bind fun _ _ => ?_
        intro s all s' ran
        obtain ⟨later, same, columns⟩ := hypothesis _ s all s' ran
        refine ⟨operand :: later, by rw [same, List.append_assoc]; rfl, fun i other there => ?_⟩
        cases i with
        | zero =>
            obtain rfl := Option.some.inj there
            exact ⟨oper, rfl, fits⟩
        | succ i => exact columns i other there

theorem unpackFmt_row (opcode1 : BitVec 8) (opcode2 : Option (BitVec 8)) (startAddr : SegOff) :
    Run.Gives (unpackFmt opcode1 opcode2 startAddr (lookup opcode1 opcode2)) (· ∈ instrTbl) := by
  cases found : lookup opcode1 opcode2 with
  | ok fmt => exact .pure (lookup_ok found).1
  | error e => exact .fail _

theorem findFmt_row (opcode1 : BitVec 8) (startAddr : SegOff) :
    Run.Gives (findFmt opcode1 startAddr) (· ∈ instrTbl) := by
  unfold findFmt
  split
  · exact (Run.Gives.any _).bind fun _ _ => unpackFmt_row _ _ _
  · exact (Run.Gives.any _).bind fun _ _ => (Run.Gives.any _).bind fun _ _ => unpackFmt_row _ _ _
  · exact unpackFmt_row _ _ _

theorem decodeParts_columns (startAddr : SegOff) : Run.Gives (decodeParts startAddr) fun parts =>
    parts.2.1 ∈ instrTbl ∧ Columns parts.2.1.opers parts.2.2 := by
  refine (Run.Gives.any _).bind fun p _ => (Run.Gives.any _).bind fun opcode1 _ => ?_
  have found : Run.Gives (decodeOpcode startAddr p opcode1) fun parts =>
      parts.1 ∈ instrTbl ∧ Columns parts.1.opers parts.2 := by
    refine (findFmt_row opcode1 startAddr).bind fun fmt row => ?_
    refine (Run.Gives.any _).bind fun _ _ => (Run.Gives.any _).bind fun modrm _ => ?_
    refine (decodeOperands_columns modrm p.sreg fmt.opers []).bind fun operands ⟨later, same, columns⟩ => ?_
    exact .pure ⟨row, same ▸ columns⟩
  exact found.bind fun parts holds => .pure holds

/-- A column that describes an address is the one in which the calls and the branches look. -/
theorem target_column : ∀ fmt ∈ instrTbl, ∀ i ∈ List.range 3, ∀ oper ∈ fmt.opers[i]?,
    oper = .REL8 ∨ oper = .REL16 ∨ oper = .FAR32 →
      (fmt.op = .CALL ∨ fmt.op = .CALLF) ∧ i = 0 ∨
        (fmt.op ≠ .CALL ∧ fmt.op ≠ .CALLF) ∧ (branchShape fmt.op).map BranchShape.operNum = some i ∧
          (oper = .FAR32 → fmt.op = .JMPF ∧ i = 0) := by
  decide +kernel

/-- The address that an operand of a decoded instruction names is its static target. -/
theorem Stands.directTarget_eq {bin : RegionIter} {ins : Instr} {raw : Bytes} (stands : Stands bin ins raw)
    (fits : bin.Fits) {operand : Operand} (held : operand ∈ ins.operands) {target : SegOff}
    (named : ins.namedAddr operand = some target) : directTarget ins = some target := by
  obtain ⟨p, fmt, operands, nBytes, shape, reads⟩ := stands.reads
  obtain ⟨row, columns⟩ := decodeParts_columns ins.addr _ _ _ (reads.run_eq fits)
  have op : ins.opcode = fmt.op := by rw [shape]
  have all : ins.operands = operands := by rw [shape]
  obtain ⟨i, there⟩ := List.getElem?_of_mem held
  rw [all] at there
  obtain ⟨oper, column, fit⟩ := columns i operand there
  have inside : i ∈ List.range 3 := by
    obtain ⟨less, _⟩ := List.getElem?_eq_some_iff.mp column
    exact List.mem_range.mpr less
  have describes : oper = .REL8 ∨ oper = .REL16 ∨ oper = .FAR32 := by
    cases operand with
    | rel rel => exact fit.elim .inl fun wide => .inr (.inl wide)
    | far seg off => exact .inr (.inr fit)
    | reg | mem | imm => cases named
  have place : ins.operand? i = some operand := by
    rw [Instr.operand?, all]
    exact there
  rcases target_column fmt row i inside oper column describes with ⟨call, rfl⟩ | ⟨⟨near, far⟩, branch, isFar⟩
  · have first : operandTarget ins = some target := by
      obtain ⟨rest, isCons⟩ : ∃ rest, operands = operand :: rest := by
        cases operands with
        | nil => cases there
        | cons head rest => exact ⟨rest, by rw [Option.some.inj there]⟩
      rw [operandTarget, all, isCons, List.findSome?_cons]
      cases operand with
      | rel rel => simpa only [Instr.namedAddr] using named
      | far seg off => simpa only [Instr.namedAddr] using named
      | reg | mem | imm => cases named
    rw [directTarget, op, if_pos (by rcases call with call | call <;> rw [call]), first, Option.some_or]
  · obtain ⟨shape', isBranch, number⟩ := Option.map_eq_some_iff.mp branch
    have direct : directTarget ins = branchDestination ins := by
      apply if_neg
      intro isCall
      rw [op] at isCall
      split at isCall
      · exact near (by assumption)
      · exact far (by assumption)
      · cases isCall
    rw [direct, branchDestination, branchTarget, op, isBranch,
      Option.map_some, number, place]
    cases operand with
    | rel rel => exact named
    | far seg off =>
        obtain ⟨jump, rfl⟩ := isFar fit
        simp only [unresolvedTransfer, op, jump, place]
        exact named
    | reg | mem | imm => cases named

end Dis86.Asm
