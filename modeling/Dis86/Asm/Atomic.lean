import Dis86.Asm.Parts

namespace Dis86.Asm
open Lib (Outcome Run Cursor)
open RegionIter (peekChecked advance fetch cursor fetch_total fetchSext_total fetchU16_total)

/-- What follows the second opcode, where there is one. -/
theorem findFmt_bind {A : Type} (opcode1 : BitVec 8) (startAddr : SegOff)
    (next : InstrFmt → Decode A) :
    findFmt opcode1 startAddr >>= next =
      match lookup opcode1 none with
      | .error .needOpcode2 => peekChecked >>= fun b =>
          unpackFmt opcode1 (some (modrmOp2 b)) startAddr
            (lookup opcode1 (some (modrmOp2 b))) >>= next
      | .error .needOpcode2Ext0F => fetch >>= fun b =>
          unpackFmt opcode1 (some b) startAddr (lookup opcode1 (some b)) >>= next
      | ret => unpackFmt opcode1 none startAddr ret >>= next := by
  unfold findFmt
  cases lookup opcode1 none with
  | ok fmt => rfl
  | error e =>
      cases e with
      | notFound => rfl
      | needOpcode2 => exact Run.bind_assoc _ _ _
      | needOpcode2Ext0F =>
          show (peekChecked >>= _) >>= next = (peekChecked >>= _) >>= _
          rw [Run.bind_assoc, Run.bind_assoc]
          rfl

theorem decodeOpcode_exact (startAddr : SegOff) (p : Prefixes) (opcode1 : BitVec 8) :
    cursor.Exact (decodeOpcode startAddr p opcode1) := by
  have unpacked : ∀ opcode2 ret, cursor.Exact
      (unpackFmt opcode1 opcode2 startAddr ret >>= decodeFmt startAddr p) := by
    intro opcode2 ret
    cases ret with
    | ok fmt => exact decodeFmt_exact startAddr p fmt
    | error e => exact .fail _
  unfold decodeOpcode
  rw [findFmt_bind]
  split
  · rename_i needed
    refine peekChecked_peeks.exact_bind (fun b => unpacked _ _) fun b => ?_
    cases found : lookup opcode1 (some (modrmOp2 b)) with
    | error e => exact fun s a s' _ _ ran => by cases ran
    | ok fmt =>
        obtain ⟨row, op1, op2⟩ := lookup_ok found
        exact decodeFmt_needsMore startAddr p
          (op2_requiresModrm fmt row (op2 rfl) (op1 ▸ lookup_needOpcode2 needed))
  · exact fetch_total.toExact.bind fun b => unpacked _ _
  · exact unpacked _ _

theorem decodeOpcode_safe (startAddr : SegOff) (p : Prefixes) {opcode1 : BitVec 8}
    (other : opcode1 ≠ 0x8c ∧ opcode1 ≠ 0x8e) : cursor.Safe (decodeOpcode startAddr p opcode1) := by
  have unpacked : ∀ opcode2, cursor.Safe (unpackFmt opcode1 opcode2 startAddr
      (lookup opcode1 opcode2) >>= decodeFmt startAddr p) := by
    intro opcode2
    cases found : lookup opcode1 opcode2 with
    | error e => exact .fail _
    | ok fmt =>
        obtain ⟨row, op1, _⟩ := lookup_ok found
        have plain : Oper.SREG ∉ fmt.opers := by
          intro segment
          have value := sreg_op1 fmt row segment
          have first : opcode1.toNat ≠ 0x8c := fun same => other.1 (BitVec.eq_of_toNat_eq same)
          have second : opcode1.toNat ≠ 0x8e := fun same => other.2 (BitVec.eq_of_toNat_eq same)
          omega
        exact (decodeFmt_total startAddr p plain).safe
  unfold decodeOpcode
  rw [findFmt_bind]
  split
  · exact peekChecked_peeks.safe_bind fun b => unpacked _
  · exact Cursor.Safe.bind fetch_total.toExact.moves fetch_total.safe fun b => unpacked _
  · exact unpacked none

/-- The bytes of the displacement after a ModRM byte. -/
def displacementBytes (modrm : BitVec 8) : Nat :=
  if modrmMode modrm = 3 then 0
  else if modrmMode modrm = 0 ∧ modrmRm modrm = 6 then 2
  else (modrmMode modrm).toNat

theorem fetch_takes : cursor.Takes fetch 1 where
  enough bin fits count := by
    cases rest : bin.rest with
    | nil =>
        have length : bin.rest.length = 0 := by rw [rest, List.length_nil]
        change 1 ≤ bin.rest.length at count
        omega
    | cons b tail => exact ⟨b, RegionIter.fetch_cons fits rest⟩
  short bin fits few := by
    have rest : bin.rest = [] := by
      change bin.rest.length < 1 at few
      exact List.eq_nil_of_length_eq_zero (by omega)
    exact ⟨_, _, RegionIter.fetch_nil fits rest⟩

theorem fetchSext_takes : cursor.Takes RegionIter.fetchSext 1 := fetch_takes.bind fun _ => .pure _

theorem fetchU16_takes : cursor.Takes RegionIter.fetchU16 2 :=
  fetch_takes.bind fun _ => fetch_takes.bind fun _ => .pure _

theorem displacement_takes {mode : BitVec 8} (le : mode.toNat ≤ 2) :
    cursor.Takes (displacement mode) mode.toNat := by
  unfold displacement
  generalize mode.toNat = num at le
  interval_cases num
  · exact .pure _
  · exact fetchSext_takes.bind fun _ => .pure _
  · exact fetchU16_takes.bind fun _ => .pure _

theorem operandRm_takes (modrm : BitVec 8) (sreg : Option Reg) :
    cursor.Takes (operandRm .size16 modrm sreg) (displacementBytes modrm) := by
  have rm_le : (modrmRm modrm).toNat ≤ 7 := and_seven_le modrm
  simp only [operandRm, displacementBytes]
  split
  · have named : ∃ r, Reg.reg16 (modrmRm modrm) = .ok r := by
      simp only [Reg.reg16, Outcome.require, if_pos rm_le]
      exact ⟨_, congrArg Outcome.unwrap (List.getElem?_eq_getElem (by simpa using Nat.lt_succ_of_le rm_le))⟩
    obtain ⟨r, named⟩ := named
    exact (Cursor.Takes.const named).bind fun _ => .pure _
  · rename_i indirect
    have mode_lt := modrmMode_lt modrm
    have mode_ne : (modrmMode modrm).toNat ≠ 3 := fun same =>
      indirect (BitVec.eq_of_toNat_eq same)
    split
    · exact fetchU16_takes.bind fun _ => .pure _
    · have named : ∃ regs, indirectRegs (modrmRm modrm) = .ok regs := by
        unfold indirectRegs
        generalize (modrmRm modrm).toNat = num at rm_le
        interval_cases num <;> exact ⟨_, rfl⟩
      obtain ⟨regs, named⟩ := named
      rw [← Nat.zero_add (modrmMode modrm).toNat]
      refine (Cursor.Takes.const named).bind fun regs => ?_
      exact (displacement_takes (by omega)).bind fun _ => .pure _

/-- The row of an instruction that reads a segment register. -/
def storeSegment : InstrFmt := ⟨.MOV, 0x8c, -1, (.RM16, .SREG, .NONE), 0⟩

/-- The row of an instruction that writes a segment register. -/
def loadSegment : InstrFmt := ⟨.MOV, 0x8e, -1, (.SREG, .RM16, .NONE), 0⟩

theorem lookup_storeSegment : lookup 0x8c none = .ok storeSegment := by decide +kernel

theorem lookup_loadSegment : lookup 0x8e none = .ok loadSegment := by decide +kernel

theorem sreg_panics_iff (modrm : BitVec 8) (bin : RegionIter) :
    ((do operandReg (← .ask fun _ => Reg.sreg16 (modrmReg modrm)) : Decode Operand) bin).1 = .panic ↔
      3 < (modrmReg modrm).toNat := by
  rw [Run.bind_panics, ← Reg.sreg16_panics_iff]
  constructor
  · rintro (panics | ⟨a, middle, _, panics⟩)
    · exact panics
    · cases panics
  · exact .inl

/-- With room for its operands, a list that starts with a segment register panics on that only. -/
theorem decodeOperands_sreg (modrm : BitVec 8) (sreg : Option Reg) {opers : List Oper}
    {operands : List Operand} {bin : RegionIter} (fits : bin.Fits)
    (room : operands.length + opers.length < 3) (other : Oper.SREG ∉ opers) :
    (decodeOperands modrm sreg (.SREG :: opers) operands bin).1 = .panic ↔
      3 < (modrmReg modrm).toNat := by
  rw [← sreg_panics_iff modrm bin]
  show ((_ >>= fun operand => _ : Decode (List Operand)) bin).1 = _ ↔ _
  rw [Run.bind_panics]
  constructor
  · rintro (panics | ⟨operand, middle, decoded, panics⟩)
    · exact panics
    · have exact : cursor.Exact (do operandReg (← .ask fun _ => Reg.sreg16 (modrmReg modrm))) :=
        (Cursor.Exact.const _).bind fun _ => .pure _
      obtain ⟨used, reads⟩ := exact.reads bin operand middle fits decoded
      have same := reads.run_eq fits
      rw [decoded, Prod.mk.injEq] at same
      have total : cursor.Total (do
          Run.ask fun _ => Outcome.require (operands.length < 3)
          decodeOperands modrm sreg opers (operands ++ [operand])) := by
        refine (Cursor.Total.const ?_).bind fun _ => decodeOperands_total modrm sreg ?_ other
        · simp only [Outcome.Safe, Outcome.returns_require, and_true]
          omega
        · rw [List.length_append, List.length_singleton]
          omega
      exact absurd panics (total.safe middle (same.2 ▸ reads.valid fits))
  · exact .inl

theorem decodeOperands_loadSegment (modrm : BitVec 8) (sreg : Option Reg) {bin : RegionIter}
    (fits : bin.Fits) : (decodeOperands modrm sreg loadSegment.opers [] bin).1 = .panic ↔
      3 < (modrmReg modrm).toNat :=
  decodeOperands_sreg modrm sreg fits (by decide) (by decide)

/-- The memory operand is read first, and fails when its displacement is cut off. -/
theorem decodeOperands_storeSegment (modrm : BitVec 8) (sreg : Option Reg) {bin : RegionIter}
    (fits : bin.Fits) : (decodeOperands modrm sreg storeSegment.opers [] bin).1 = .panic ↔
      3 < (modrmReg modrm).toNat ∧ displacementBytes modrm ≤ bin.rest.length := by
  have takes := operandRm_takes modrm sreg
  show ((operandRm .size16 modrm sreg >>= fun operand => do
    Run.ask fun _ => Outcome.require (([] : List Operand).length < 3)
    decodeOperands modrm sreg [.SREG, .NONE] [operand] : Decode (List Operand)) bin).1 = _ ↔ _
  by_cases enough : displacementBytes modrm ≤ bin.rest.length
  · obtain ⟨operand, ran⟩ := takes.enough bin fits enough
    rw [Run.bind_ok ran, and_iff_left enough]
    exact decodeOperands_sreg modrm sreg (cursor.valid_advance bin _ fits enough) (by simp) (by decide)
  · obtain ⟨e, stop, ran⟩ := takes.short bin fits (by
      show bin.rest.length < _
      omega)
    refine iff_of_false ?_ fun both => enough both.2
    rw [Run.bind_panics, ran]
    simp

/-- The operands of a move of a segment register panic on their ModRM byte and what follows it. -/
theorem decodeFmt_panics_iff (startAddr : SegOff) (p : Prefixes) {fmt : InstrFmt}
    {bin : RegionIter} (fits : bin.Fits) (move : fmt.op = .MOV)
    (modrm : fmt.requiresModrm = true) :
    (decodeFmt startAddr p fmt bin).1 = .panic ↔
      p.lock = false ∧ ∃ b tail, bin.rest = b :: tail ∧
        (decodeOperands b p.sreg fmt.opers [] (bin.advanceBy 1)).1 = .panic := by
  have valid : fmt.op ≠ .INVAL := by rw [move]; decide
  have plain : fmt.op ∉ lockIgnored := by rw [move]; decide
  unfold decodeFmt checkFmt fetchModrm
  simp only [Run.check, if_pos valid, Run.pure_bind, if_pos modrm]
  cases locked : p.lock with
  | true => simp [plain, Run.fail_bind, Run.fail]
  | false =>
      simp only [Bool.false_eq_true, false_imp_iff, if_true, Run.pure_bind, true_and]
      cases rest : bin.rest with
      | nil => simp [Run.bind_panics, RegionIter.fetch_nil fits rest]
      | cons b tail =>
          rw [Run.bind_ok (RegionIter.fetch_cons fits rest), Run.bind_panics]
          constructor
          · rintro (panics | ⟨operands, middle, decoded, panics⟩)
            · exact ⟨b, tail, rfl, panics⟩
            · cases panics
          · rintro ⟨b', tail', same, panics⟩
            obtain ⟨rfl, rfl⟩ := List.cons.inj same
            exact .inl panics

/-- A move of a segment register that does not exist: a ModRM byte whose register field is above
three, and with a memory operand also the bytes of its displacement. -/
def NamesNoSegment (opcode1 : BitVec 8) (bytes : Bytes) : Prop :=
  ∃ modrm tail, bytes = modrm :: tail ∧ 3 < (modrmReg modrm).toNat ∧
    (opcode1 = 0x8e ∨ opcode1 = 0x8c ∧ displacementBytes modrm ≤ tail.length)

theorem decodeOpcode_panics_iff (startAddr : SegOff) (p : Prefixes) (opcode1 : BitVec 8)
    {bin : RegionIter} (fits : bin.Fits) :
    (decodeOpcode startAddr p opcode1 bin).1 = .panic ↔
      p.lock = false ∧ NamesNoSegment opcode1 bin.rest := by
  by_cases load : opcode1 = 0x8e
  · subst load
    have row : decodeOpcode startAddr p 0x8e = decodeFmt startAddr p loadSegment := by
      rw [decodeOpcode, findFmt_bind, lookup_loadSegment]
      rfl
    rw [row, decodeFmt_panics_iff startAddr p fits rfl rfl]
    refine and_congr_right fun _ => ⟨?_, ?_⟩
    · rintro ⟨b, tail, rest, panics⟩
      have fits' := cursor.valid_advance bin 1 fits (by simp [show cursor.rest bin = _ from rest])
      exact ⟨b, tail, rest, (decodeOperands_loadSegment b p.sreg fits').mp panics, .inl rfl⟩
    · rintro ⟨b, tail, rest, big, _⟩
      have fits' := cursor.valid_advance bin 1 fits (by simp [show cursor.rest bin = _ from rest])
      exact ⟨b, tail, rest, (decodeOperands_loadSegment b p.sreg fits').mpr big⟩
  · by_cases store : opcode1 = 0x8c
    · subst store
      have row : decodeOpcode startAddr p 0x8c = decodeFmt startAddr p storeSegment := by
        rw [decodeOpcode, findFmt_bind, lookup_storeSegment]
        rfl
      rw [row, decodeFmt_panics_iff startAddr p fits rfl rfl]
      refine and_congr_right fun _ => ⟨?_, ?_⟩
      · rintro ⟨b, tail, rest, panics⟩
        have fits' := cursor.valid_advance bin 1 fits (by simp [show cursor.rest bin = _ from rest])
        have both := (decodeOperands_storeSegment b p.sreg fits').mp panics
        exact ⟨b, tail, rest, both.1, .inr ⟨rfl, RegionIter.rest_advance_one rest ▸ both.2⟩⟩
      · rintro ⟨b, tail, rest, big, load | ⟨_, enough⟩⟩
        · exact absurd load (by decide)
        · have fits' := cursor.valid_advance bin 1 fits (by simp [show cursor.rest bin = _ from rest])
          refine ⟨b, tail, rest, (decodeOperands_storeSegment b p.sreg fits').mpr ⟨big, ?_⟩⟩
          exact (RegionIter.rest_advance_one rest).symm ▸ enough
    · refine iff_of_false (decodeOpcode_safe startAddr p ⟨store, load⟩ bin fits) ?_
      rintro ⟨_, modrm, tail, _, _, same | ⟨same, _⟩⟩
      · exact load same
      · exact store same

end Dis86.Asm
