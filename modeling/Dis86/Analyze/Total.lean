import Dis86.Analyze.Bounds
import Dis86.Asm.Targets

namespace Dis86.Asm
open Lib (Outcome Run Cursor)
open RegionIter (cursor)

theorem decodeOperands_length (opers : List Oper) {modrm : BitVec 8} {sreg : Option Reg}
    {before operands : List Operand} {bin stop : RegionIter}
    (ran : decodeOperands modrm sreg opers before bin = (.ok operands, stop)) :
    before.length ≤ operands.length := by
  induction opers generalizing before bin with
  | nil =>
      obtain ⟨same, _⟩ := Prod.mk.inj ran
      exact (Outcome.ok.inj same) ▸ le_rfl
  | cons oper opers ih =>
      unfold decodeOperands at ran
      cases decode : decodeOperand oper modrm sreg with
      | none =>
          rw [decode] at ran
          obtain ⟨same, _⟩ := Prod.mk.inj ran
          obtain rfl := Outcome.ok.inj same
          exact le_rfl
      | some run =>
          rw [decode] at ran
          obtain ⟨operand, _, _, ran⟩ := Run.bind_eq_ok.mp ran
          obtain ⟨_, _, _, ran⟩ := Run.bind_eq_ok.mp ran
          have longer := ih ran
          rw [List.length_append, List.length_singleton] at longer
          omega

/-- A call has an operand in each of its encodings. -/
theorem call_opers : ∀ fmt ∈ instrTbl, fmt.op = .CALL ∨ fmt.op = .CALLF →
    fmt.oper.1 ≠ .NONE := by
  decide +kernel

theorem isSome_decodeOperand {oper : Oper} (present : oper ≠ .NONE) (modrm : BitVec 8)
    (sreg : Option Reg) : ∃ run, decodeOperand oper modrm sreg = some run := by
  cases oper with
  | NONE => exact absurd rfl present
  | _ => exact ⟨_, rfl⟩

theorem call_operand {bin stop : RegionIter} (fits : bin.Fits) {ins : Instr} {raw : Bytes}
    (ran : decodeOne bin = (.ok (some (ins, raw)), stop))
    (call : ins.opcode = .CALL ∨ ins.opcode = .CALLF) : ∃ operand, ins.operand? 0 = some operand := by
  obtain ⟨stands, _⟩ := decodeOne_stands fits ran
  obtain ⟨p, fmt, operands, nBytes, same, reads⟩ := stands.reads
  have parts := reads.run_eq fits
  obtain ⟨prefixes, _, _, parts⟩ := Run.bind_eq_ok.mp parts
  obtain ⟨opcode1, _, _, parts⟩ := Run.bind_eq_ok.mp parts
  obtain ⟨_, _, opcode, parts⟩ := Run.bind_eq_ok.mp parts
  obtain ⟨pair, _⟩ := Prod.mk.inj parts
  obtain rfl := (Prod.mk.inj (Outcome.ok.inj pair)).2
  obtain ⟨row, _, found, decoded⟩ := Run.bind_eq_ok.mp opcode
  obtain ⟨_, _, _, decoded⟩ := Run.bind_eq_ok.mp decoded
  obtain ⟨modrm, _, _, decoded⟩ := Run.bind_eq_ok.mp decoded
  obtain ⟨operands', _, read, decoded⟩ := Run.bind_eq_ok.mp decoded
  obtain ⟨pair, _⟩ := Prod.mk.inj decoded
  obtain ⟨rfl, rfl⟩ := Prod.mk.inj (Outcome.ok.inj pair)
  have op : ins.opcode = row.op := by rw [same]
  have values : ins.operands = operands' := by rw [same]
  obtain ⟨run, decode⟩ :=
    isSome_decodeOperand (call_opers row (findFmt_row _ _ _ _ _ found) (op ▸ call)) modrm prefixes.sreg
  have longer : 1 ≤ operands'.length := by
    rw [InstrFmt.opers, decodeOperands, decode] at read
    obtain ⟨operand, _, _, read⟩ := Run.bind_eq_ok.mp read
    obtain ⟨_, _, _, read⟩ := Run.bind_eq_ok.mp read
    exact decodeOperands_length [row.oper.2.1, row.oper.2.2] read
  rw [Instr.operand?, values]
  exact ⟨_, List.getElem?_eq_getElem longer⟩

end Dis86.Asm

namespace Dis86.Analyze
open Asm (Reg Seg SegOff decodeOne MovesNoSegment)
open Lib (Outcome)

namespace Input

variable {input : Input}

/-- The bytes of the segment can be read from every address in it. -/
theorem regionIter_ok {binary : Binary} {start stop addr last : SegOff}
    (contains : binary.containsRegion start stop = true) (seg : addr.seg = stop.seg)
    (lastSeg : last.seg = stop.seg) (le : addr.off.toNat ≤ last.off.toNat)
    (bound : last.off.toNat ≤ stop.off.toNat) :
    ∃ bin, binary.regionIter addr last = (.ok bin : Outcome AnalysisError _) := by
  have sliced (data : Asm.Bytes) (low high : Nat) (order : low ≤ high) (long : high ≤ data.length) :
      ∃ part, Asm.Binary.subslice data low high = (.ok part : Outcome AnalysisError _) := by
    rw [Asm.Binary.subslice, Outcome.require_pos order, Outcome.ok_bind, Outcome.require_pos long]
    exact ⟨_, rfl⟩
  simp only [Binary.containsRegion, Bool.and_eq_true, decide_eq_true_eq] at contains
  obtain ⟨⟨same, _⟩, present⟩ := contains
  have region : ∃ mem, binary.region addr last = (.ok mem : Outcome AnalysisError _) := by
    unfold Asm.Binary.region
    rw [Outcome.require_pos (seg.trans lastSeg.symm), Outcome.ok_bind, seg]
    rw [same] at present
    cases which : stop.seg with
    | normal num =>
        rw [which] at present
        have long : Asm.Binary.absNormal num stop.off ≤ binary.main.length := of_decide_eq_true present
        simp only [Asm.Binary.absNormal] at long
        exact sliced _ _ _ (by simp only [Asm.Binary.absNormal]; omega)
          (by simp only [Asm.Binary.absNormal]; omega)
    | overlay num =>
        rw [which] at present
        obtain ⟨data, found, long⟩ := (Option.any_eq_true _ _).mp present
        simp only [decide_eq_true_eq] at long
        simp only [found]
        exact sliced _ _ _ le (by omega)
  obtain ⟨mem, made⟩ := region
  exact ⟨_, Outcome.bind_eq_ok.mpr ⟨mem, made, rfl⟩⟩

theorem decodeOneInstr_ran {loc stop : SegOff} {ins : Asm.Instr}
    (decoded : input.decodeOneInstr loc stop = .ok ins) :
    ∃ bin, bin.Fits ∧ ∃ raw rest, decodeOne bin = (.ok (some (ins, raw)), rest) := by
  obtain ⟨bin, made, decoded⟩ := Outcome.bind_eq_ok.mp decoded
  refine ⟨bin, Asm.regionIter_fits made, ?_⟩
  split at decoded
  · rename_i ins' raw ran
    obtain rfl := Outcome.ok.inj decoded
    exact ⟨raw, _, Prod.ext ran rfl⟩
  · cases decoded
  · cases decoded
  · cases decoded

/-- The decoder panics at an address only on a move to a segment register that does not exist. -/
theorem decodeOneInstr_panic {loc stop : SegOff}
    (readable : ∃ bin, input.binary.regionIter loc stop = (.ok bin : Outcome AnalysisError _))
    (panics : input.decodeOneInstr loc stop = .panic) :
    ∃ bin, input.binary.regionIter loc stop = (.ok bin : Outcome AnalysisError _) ∧
      MovesNoSegment bin.rest := by
  obtain ⟨bin, made⟩ := readable
  refine ⟨bin, made, ?_⟩
  by_contra harmless
  have atomic := (Asm.atomic_iff (Asm.regionIter_fits made)).mpr harmless
  unfold decodeOneInstr at panics
  rw [made, Outcome.ok_bind] at panics
  split at panics
  · cases panics
  · cases panics
  · cases panics
  · rename_i stopped
    exact atomic.safe stopped

theorem le_codeBound {addr : SegOff} {region : Option FuncRegion} (good : Good input addr)
    (current : input.currentRegion addr = .ok region) :
    rankOf addr ≤ rankOf (input.codeBound region) := by
  have inside := (rankOf_le_iff good.seg).mpr good.stop
  cases region with
  | none => exact inside
  | some r =>
      unfold codeBound
      simp only
      split
      · rename_i inner
        have place := (r.contains_iff addr).mp ((currentRegion_eq_ok current).2 r rfl).2
        exact (rankOf_le_iff (good.seg.trans inner.1.symm)).mpr place.2.2.le
      · exact inside

theorem decodeEnd_seg {addr : SegOff} (region : Option FuncRegion) (good : Good input addr) :
    (input.decodeEnd region addr).seg = input.segStop.seg := by
  rw [decodeEnd_eq, nextDataStart]
  cases found : lowest _ with
  | none => exact codeBound_seg region
  | some low =>
      simp only
      split
      · obtain ⟨data, kept, rfl⟩ := List.mem_map.mp (lowest_eq_some found).1
        have kept := (List.mem_filter.mp kept).2
        simp only [Bool.and_eq_true, decide_eq_true_eq] at kept
        exact kept.1.1.trans good.seg
      · exact codeBound_seg region

/-- Where the walk panics: the decoder does, or a far call of an overlay names no segment. -/
inductive Fault (input : Input) (addr : SegOff) : Prop where
  | decoder (region : Option FuncRegion) (bin : Asm.RegionIter)
      (made : input.binary.regionIter addr (input.decodeEnd region addr) =
        (.ok bin : Outcome AnalysisError _))
      (moves : MovesNoSegment bin.rest)
  | segmentTable (region : Option FuncRegion) (ins : Asm.Instr) (seg off : BitVec 16)
      (decoded : input.decodeAt addr = .ok (region, ins)) (callf : ins.opcode = .CALLF)
      (operand : ins.operand? 0 = some (.far seg off)) (overlay : ∃ num, addr.seg = .overlay num)
      (missing : input.binary.remapToSegment seg = (.panic : Outcome AnalysisError _))

theorem decodeAt_panic {addr : SegOff}
    (contains : input.binary.containsRegion input.segStart input.segStop = true)
    (good : Good input addr) (panics : input.decodeAt addr = .panic) : Fault input addr := by
  unfold decodeAt at panics
  cases current : input.currentRegion addr with
  | err e =>
      rw [current] at panics
      cases panics
  | panic =>
      unfold currentRegion at current
      split at current
      · cases current
      · split at current <;> cases current
  | ok region =>
      rw [current, Outcome.ok_bind] at panics
      cases declared : input.dataRegionContaining addr with
      | some data =>
          rw [declared] at panics
          cases panics
      | none =>
          rw [declared] at panics
          have seg := decodeEnd_seg region good
          have below := lt_decodeEnd (le_codeBound good current)
          have above : rankOf (input.decodeEnd region addr) ≤ rankOf input.segStop :=
            (decodeEnd_le region addr).trans (codeBound_le region)
          have readable := regionIter_ok contains good.seg seg
            ((rankOf_le_iff (good.seg.trans seg.symm)).mp below) ((rankOf_le_iff seg).mp above)
          have stopped : input.decodeOneInstr addr (input.decodeEnd region addr) = .panic := by
            simp only at panics
            cases decoded : input.decodeOneInstr addr (input.decodeEnd region addr) with
            | ok ins =>
                rw [decoded] at panics
                cases panics
            | err e =>
                rw [decoded] at panics
                cases panics
            | panic => rfl
          obtain ⟨bin, made, moves⟩ := decodeOneInstr_panic readable stopped
          exact .decoder region bin made moves

theorem instrDetails_panic {ins : Asm.Instr} {binary : Binary} {seg : Seg}
    (operand : ins.opcode = .CALL ∨ ins.opcode = .CALLF → ∃ operand, ins.operand? 0 = some operand)
    (panics : instrDetails ins binary seg = .panic) :
    ins.opcode = .CALLF ∧ ∃ num off overlay, ins.operand? 0 = some (.far num off) ∧
      ins.addr.seg = .overlay overlay ∧
      binary.remapToSegment num = (.panic : Outcome AnalysisError _) := by
  unfold instrDetails at panics
  cases jumps : jumpTargets ins seg with
  | some next =>
      rw [jumps] at panics
      cases panics
  | none =>
      rw [jumps] at panics
      simp only at panics
      split at panics
      · rename_i call
        obtain ⟨value, found⟩ := operand (.inl call)
        rw [determineCalln, found] at panics
        cases value <;> cases panics
      · rename_i callf
        obtain ⟨value, found⟩ := operand (.inr callf)
        rw [determineCallf, found] at panics
        simp only [Outcome.unwrap, Outcome.ok_bind] at panics
        cases value with
        | far num off =>
            cases which : ins.addr.seg with
            | normal _ =>
                rw [which] at panics
                cases panics
            | overlay overlay =>
                rw [which] at panics
                refine ⟨callf, num, off, overlay, found, rfl, ?_⟩
                cases remapped : (binary.remapToSegment num : Outcome AnalysisError _) with
                | ok target =>
                    simp only [remapped] at panics
                    cases panics
                | err e =>
                    simp only [remapped] at panics
                    cases panics
                | panic => rfl
        | _ => cases panics
      all_goals cases panics

theorem look_panic {addr : SegOff} (one : input.segStart.seg = input.segStop.seg)
    (contains : input.binary.containsRegion input.segStart input.segStop = true)
    (good : Good input addr) (panics : input.look addr = .panic) : Fault input addr := by
  unfold look at panics
  cases decoded : input.decodeAt addr with
  | err e =>
      rw [decoded] at panics
      cases panics
  | panic => exact decodeAt_panic contains good decoded
  | ok pair =>
      obtain ⟨region, ins⟩ := pair
      rw [decoded, Outcome.ok_bind] at panics
      have detailed : instrDetails ins input.binary input.segStart.seg = .panic := by
        cases details : instrDetails ins input.binary input.segStart.seg with
        | ok found =>
            simp only [details] at panics
            cases panics
        | err e =>
            simp only [details] at panics
            cases panics
        | panic => rfl
      have place := (decodeAt_inside one (good.above one) decoded).place
      obtain ⟨bin, fits, raw, stop, ran⟩ := decodeOneInstr_ran (decodeAt_eq_ok.mp decoded).2.2
      obtain ⟨callf, num, off, overlay, operand, which, missing⟩ :=
        instrDetails_panic (Asm.call_operand fits ran) detailed
      exact .segmentTable region ins num off decoded callf operand
        ⟨overlay, place ▸ which⟩ missing

end Input

end Dis86.Analyze
