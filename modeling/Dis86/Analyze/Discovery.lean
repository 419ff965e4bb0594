import Dis86.Analyze.Total

namespace Dis86.Analyze
open Asm (Reg Seg SegOff)
open Lib (Outcome)

namespace Found

theorem length_queueInsert (addr : SegOff) (queued : List SegOff) :
    (queueInsert addr queued).length = queued.length + 1 := by
  induction queued with
  | nil => rfl
  | cons next rest ih =>
      unfold queueInsert
      split
      · rfl
      · rw [List.length_cons, ih, List.length_cons]

theorem length_insert (found : Found) (addr : SegOff) :
    (found.insert addr).discovered.length + found.queued.length =
      found.discovered.length + (found.insert addr).queued.length := by
  unfold insert
  split
  · rfl
  · simp only [List.length_cons, length_queueInsert]
    omega

theorem length_inserts (found : Found) (addrs : List SegOff) :
    (addrs.foldl Found.insert found).discovered.length + found.queued.length =
      found.discovered.length + (addrs.foldl Found.insert found).queued.length := by
  induction addrs generalizing found with
  | nil => rfl
  | cons addr addrs ih =>
      have later := ih (found.insert addr)
      have first := length_insert found addr
      rw [List.foldl_cons]
      omega

/-- Queueing changes the two lists only. -/
theorem inserts_eq (found : Found) (addrs : List SegOff) :
    ∃ discovered queued, addrs.foldl Found.insert found = { found with discovered, queued } := by
  induction addrs generalizing found with
  | nil => exact ⟨_, _, rfl⟩
  | cons addr addrs ih =>
      obtain ⟨discovered, queued, same⟩ := ih (found.insert addr)
      refine ⟨discovered, queued, same.trans ?_⟩
      unfold insert
      split <;> rfl

@[simp] theorem addReturn_endAddr (found : Found) (kind : ReturnKind) :
    (found.addReturn kind).endAddrInferred = found.endAddrInferred := by
  unfold addReturn
  split
  · rfl
  · split <;> rfl

theorem extend_endAddr (found : Found) (endAddr : SegOff) :
    (found.extend endAddr).endAddrInferred = found.endAddrInferred ∨
      (found.extend endAddr).endAddrInferred = endAddr := by
  unfold extend
  split
  · exact .inr rfl
  · exact .inl rfl

end Found

namespace Input

variable {input : Input}

/-- A block that panics comes to an address that does; its instructions have increasing offsets. -/
theorem walkBlock_panic {fuel : Nat} {found : Found} {block addr : SegOff} {pending : Bool}
    (one : input.segStart.seg = input.segStop.seg) (good : Good input addr)
    (runs : RunsTo input block addr pending) (enough : 65536 < addr.off.toNat + fuel)
    (panics : input.walkBlock fuel found addr pending = .panic) :
    ∃ addr pending, RunsTo input block addr pending ∧ input.look addr = .panic := by
  induction fuel generalizing found addr pending with
  | zero =>
      have := addr.off.isLt
      omega
  | succ fuel ih =>
      rw [walkBlock_succ] at panics
      cases looked : input.look addr with
      | panic => exact ⟨addr, pending, runs, looked⟩
      | err e =>
          rw [looked] at panics
          cases panics
      | ok seen =>
          rw [looked, Outcome.ok_bind] at panics
          cases goes : input.goesOn seen with
          | none =>
              rw [goes] at panics
              cases panics
          | some next =>
              obtain ⟨target, pending'⟩ := next
              rw [goes] at panics
              have inside := decodeAt_inside one (good.above one) (look_eq_ok.mp looked).1
              have forward := inside.forward
              have target_eq := goesOn_target looked goes
              have later := runs.next looked goes
              subst target_eq
              exact ih (good.endAddr one (look_eq_ok.mp looked).1) later (by omega) panics

/-- Every address that is discovered is queued once. -/
theorem length_recordAll (input : Input) (found : Found) (visits : List Visit) :
    (input.recordAll found visits).discovered.length + found.queued.length =
      found.discovered.length + (input.recordAll found visits).queued.length := by
  induction visits generalizing found with
  | nil => rfl
  | cons visit visits ih =>
      have later := ih (input.record found visit.pushCsPending visit.seen)
      have first := Found.length_inserts (note found visit.pushCsPending visit.seen)
        (input.exits visit.seen)
      rw [← record_eq, note_discovered, note_queued] at first
      show (input.recordAll (input.record found _ _) visits).discovered.length + _ =
        _ + (input.recordAll (input.record found _ _) visits).queued.length
      omega

/-- A segment has no more than 65536 addresses. -/
theorem length_le_of_good {addrs : List SegOff} (unique : addrs.Nodup)
    (good : ∀ addr ∈ addrs, Good input addr) : addrs.length ≤ 65536 := by
  have offs : (addrs.map fun addr => addr.off.toNat).Nodup := by
    refine unique.map_on fun a inside b inside' same => ?_
    exact Asm.SegOff.ext_toNat ((good a inside).seg.trans (good b inside').seg.symm) same
  have subset : (addrs.map fun addr => addr.off.toNat) ⊆ List.range 65536 := by
    intro off inside
    obtain ⟨addr, _, rfl⟩ := List.mem_map.mp inside
    exact List.mem_range.mpr addr.off.isLt
  have fits := (List.subperm_of_subset offs subset).length_le
  rwa [List.length_map, List.length_range] at fits

theorem walkQueue_panic {fuel : Nat} {found : Found} {start : SegOff}
    (one : input.segStart.seg = input.segStop.seg) (first : Good input start)
    (tidy : found.Tidy) (entries : ∀ block ∈ found.discovered, Entry input start block)
    (enough : 65536 + found.queued.length < fuel + found.discovered.length)
    (panics : input.walkQueue fuel found = .panic) :
    ∃ block addr pending, Entry input start block ∧ RunsTo input block addr pending ∧
      input.look addr = .panic := by
  induction fuel generalizing found with
  | zero =>
      have := length_le_of_good tidy.discovered fun block inside =>
        (entries block inside).good one first
      omega
  | succ fuel ih =>
      unfold walkQueue at panics
      split at panics
      · cases panics
      · rename_i loc queued shape
        have entry := entries loc (tidy.subset (shape ▸ List.mem_cons_self))
        cases walked : input.walkBlock blockFuel { found with queued } loc false with
        | err e =>
            rw [walked] at panics
            cases panics
        | panic =>
            obtain ⟨addr, pending, runs, stopped⟩ := walkBlock_panic one (entry.good one first)
              .start (by unfold blockFuel; omega) walked
            exact ⟨loc, addr, pending, entry, runs, stopped⟩
        | ok found' =>
            rw [walked, Outcome.ok_bind] at panics
            obtain ⟨visits, run, rfl⟩ := walkBlock_eq_ok walked
            have lengths := length_recordAll input { found with queued } visits
            have popped : found.queued.length = queued.length + 1 := by rw [shape]; rfl
            simp only at lengths
            refine ih (tidy_recordAll (tidy_pop tidy shape) visits) ?_ (by omega) panics
            intro block inside
            rcases mem_discovered_recordAll.mp inside with old | left
            · exact entries block old
            · exact leaves_entry entry run left

theorem note_endAddr (found : Found) (pending : Bool) (seen : Seen) :
    (note found pending seen).endAddrInferred =
      (found.extend seen.ins.endAddr).endAddrInferred := by
  have called : ∀ call, ((found.extend seen.ins.endAddr).addCall seen.ins pending
      call).endAddrInferred = (found.extend seen.ins.endAddr).endAddrInferred := by
    intro call
    rcases call with _ | _ | _ <;> rfl
  unfold note
  split
  · exact (Found.addReturn_endAddr _ _).trans (called _)
  · exact called _

/-- The inferred end is the end of an instruction that was decoded, if it moved. -/
theorem recordAll_endAddr (input : Input) (found : Found) (visits : List Visit) :
    (input.recordAll found visits).endAddrInferred = found.endAddrInferred ∨
      ∃ visit ∈ visits,
        (input.recordAll found visits).endAddrInferred = visit.seen.ins.endAddr := by
  induction visits generalizing found with
  | nil => exact .inl rfl
  | cons visit visits ih =>
      have first : (input.record found visit.pushCsPending visit.seen).endAddrInferred =
          (found.extend visit.seen.ins.endAddr).endAddrInferred := by
        obtain ⟨_, _, same⟩ := Found.inserts_eq (note found visit.pushCsPending visit.seen)
          (input.exits visit.seen)
        rw [record_eq, same]
        exact note_endAddr _ _ _
      rcases ih (input.record found visit.pushCsPending visit.seen) with same | ⟨later, inside, same⟩
      · rcases found.extend_endAddr visit.seen.ins.endAddr with kept | moved
        · exact .inl (same.trans (first.trans kept))
        · exact .inr ⟨visit, List.mem_cons_self, same.trans (first.trans moved)⟩
      · exact .inr ⟨later, List.mem_cons_of_mem _ inside, same⟩

theorem walkQueue_endAddr {fuel : Nat} {found found' : Found} {start : SegOff}
    (entries : ∀ block ∈ found.queued, Entry input start block)
    (walked : input.walkQueue fuel found = .ok found') :
    found'.endAddrInferred = found.endAddrInferred ∨
      ∃ block addr pending seen, Entry input start block ∧ RunsTo input block addr pending ∧
        input.look addr = .ok seen ∧ found'.endAddrInferred = seen.ins.endAddr := by
  induction fuel generalizing found with
  | zero => cases walked
  | succ fuel ih =>
      unfold walkQueue at walked
      split at walked
      · obtain rfl := Outcome.ok.inj walked
        exact .inl rfl
      · rename_i loc queued shape
        have entry := entries loc (shape ▸ List.mem_cons_self)
        obtain ⟨middle, block, walked⟩ := Outcome.bind_eq_ok.mp walked
        obtain ⟨visits, run, rfl⟩ := walkBlock_eq_ok block
        have later : ∀ block ∈ (input.recordAll { found with queued } visits).queued,
            Entry input start block := by
          intro block inside
          rcases mem_queued_recordAll.mp inside with old | ⟨left, _⟩
          · exact entries block (shape ▸ List.mem_cons_of_mem loc old)
          · exact leaves_entry entry run left
        rcases ih later walked with same | reached
        · rcases recordAll_endAddr input { found with queued } visits with
            kept | ⟨visit, visited, moved⟩
          · exact .inl (same.trans kept)
          · have reached := run.runsTo .start visited
            exact .inr ⟨loc, _, _, _, entry, reached.1, reached.2, same.trans moved⟩
        · exact .inr reached

/-- A walk that returns has looked at its first block. -/
theorem walkQueue_first {fuel : Nat} {found found' : Found} {loc : SegOff} {queued : List SegOff}
    (shape : found.queued = loc :: queued) (walked : input.walkQueue fuel found = .ok found') :
    ∃ seen, input.look loc = .ok seen := by
  cases fuel with
  | zero => cases walked
  | succ fuel =>
      unfold walkQueue at walked
      rw [shape] at walked
      obtain ⟨_, block, _⟩ := Outcome.bind_eq_ok.mp walked
      obtain ⟨visits, run, _⟩ := walkBlock_eq_ok block
      cases run with
      | last looked _ => exact ⟨_, looked⟩
      | more looked _ _ => exact ⟨_, looked⟩

end Input

/-- The state in which a walk starts. -/
def initial (funcStart : SegOff) : Found :=
  ⟨[funcStart], [funcStart], funcStart, [], 0, none, []⟩

section
variable (funcStart : SegOff) (stop : Option SegOff) (regions : List FuncRegion)
  (codeSeg : Mz.CodeSegment) (binary : Binary) (data : List TextSectionRegion)

def inputOf (segStop : SegOff) : Input := ⟨binary, stop, regions, codeSeg.start, segStop, data⟩

/-- The start passes the checks before the walk. -/
def Starts (input : Input) : Prop :=
  ¬ funcStart.lt codeSeg.start ∧ (regions = [] ∨ (input.regionFor funcStart).isSome) ∧
    input.dataRegionContaining funcStart = none

instance (input : Input) : Decidable (Starts funcStart regions codeSeg input) := by
  unfold Starts
  infer_instance

/-- The blocks of an analysis, each with the instructions that are decoded there. -/
def visited : List (SegOff × List Asm.Instr) :=
  match codeSeg.stop with
  | .ok segStop =>
      let input := inputOf stop regions codeSeg binary data segStop
      if Starts funcStart regions codeSeg input then
        input.queueTrace queueFuel (initial funcStart)
      else []
  | _ => []

theorem buildWithRegionsAndData_eq {segStop : SegOff} (ends : codeSeg.stop = .ok segStop) :
    (∃ e, buildWithRegionsAndData funcStart stop regions codeSeg binary data = .err e ∧
      ¬ Starts funcStart regions codeSeg (inputOf stop regions codeSeg binary data segStop)) ∨
    Starts funcStart regions codeSeg (inputOf stop regions codeSeg binary data segStop) ∧
      buildWithRegionsAndData funcStart stop regions codeSeg binary data =
        (inputOf stop regions codeSeg binary data segStop).walkQueue queueFuel
          (initial funcStart) := by
  unfold buildWithRegionsAndData Starts
  simp only [ends, Outcome.check]
  by_cases early : funcStart.lt codeSeg.start = true
  · exact .inl ⟨.startBeforeSegment funcStart codeSeg.start, by simp [early]; rfl, by simp [early]⟩
  by_cases within : regions = [] ∨ ((inputOf stop regions codeSeg binary data segStop).regionFor
      funcStart).isSome = true
  · cases declared : (inputOf stop regions codeSeg binary data segStop).dataRegionContaining
        funcStart with
    | some hole =>
        refine .inl ⟨.startInData funcStart hole, ?_, by simp⟩
        rw [inputOf] at within declared
        simp [early, within, declared, Outcome.ok_bind]
    | none =>
        refine .inr ⟨⟨early, within, rfl⟩, ?_⟩
        rw [inputOf] at within declared
        simp [early, within, declared, Outcome.ok_bind]
        rfl
  · refine .inl ⟨.startOutsideRegions funcStart, ?_, by simp [within]⟩
    rw [inputOf] at within
    simp [early, within, Outcome.ok_bind]
    rfl

/-- The assertions that a panicking analysis has run into. -/
inductive Refused : Prop where
  | segmentEnd (wraps : codeSeg.stop = .panic)
  | start (segStop : SegOff) (ends : codeSeg.stop = .ok segStop)
      (outside : ¬ (funcStart.seg = segStop.seg ∧ funcStart.off.toNat ≤ segStop.off.toNat))
  | image (segStop : SegOff) (ends : codeSeg.stop = .ok segStop)
      (missing : ¬ binary.containsRegion codeSeg.start segStop = true)
  | fault (segStop : SegOff) (ends : codeSeg.stop = .ok segStop) (block addr : SegOff)
      (pending : Bool)
      (entry : (inputOf stop regions codeSeg binary data segStop).Entry funcStart block)
      (runs : (inputOf stop regions codeSeg binary data segStop).RunsTo block addr pending)
      (fault : (inputOf stop regions codeSeg binary data segStop).Fault addr)

end

/-- An instruction lies in the segment, in one region when there are some, and in no data. -/
structure Within (regions : List FuncRegion) (data : List TextSectionRegion)
    (segStart segStop : SegOff) (ins : Asm.Instr) : Prop where
  seg : ins.addr.seg = segStart.seg
  start : segStart.off.toNat ≤ ins.addr.off.toNat
  stop : ins.addr.off.toNat + ins.nBytes.toNat ≤ segStop.off.toNat
  region : regions ≠ [] → ∃ r ∈ regions, r.start.seg = ins.addr.seg ∧
    r.start.off.toNat ≤ ins.addr.off.toNat ∧
    (r.start.seg = r.stop.seg → ins.addr.off.toNat + ins.nBytes.toNat ≤ r.stop.off.toNat)
  data : ∀ d ∈ data, d.start.seg = d.stop.seg → ∀ i < ins.nBytes.toNat,
    d.contains (ins.addr.addOffset (.ofNat 16 i)) = false

/-- An end that moves forward does not wrap. -/
theorem endAddr_off {ins : Asm.Instr} (forward : ins.addr.off.toNat < ins.endAddr.off.toNat) :
    ins.endAddr.off.toNat = ins.addr.off.toNat + ins.nBytes.toNat := by
  have first := ins.addr.off.isLt
  have second := ins.nBytes.isLt
  rw [Asm.Instr.endAddr, Asm.SegOff.addOffset, BitVec.toNat_add] at forward ⊢
  omega

theorem Input.Inside.within {input : Input} {addr : SegOff} {region : Option FuncRegion}
    {ins : Asm.Instr} (one : input.segStart.seg = input.segStop.seg)
    (above : rankOf input.segStart ≤ rankOf addr) (inside : input.Inside addr region ins) :
    Within input.regions input.data input.segStart input.segStop ins := by
  obtain ⟨rfl, seg, forward, stop, regions, contained, data⟩ := inside
  have off := endAddr_off forward
  have segStart : ins.addr.seg = input.segStart.seg := seg.trans one.symm
  rw [off] at stop
  refine ⟨segStart, (rankOf_le_iff segStart.symm).mp above, stop, ?_, ?_⟩
  · intro some_
    obtain ⟨r, is_r⟩ := regions some_
    obtain ⟨member, contains, bound⟩ := contained r is_r
    have place := (r.contains_iff _).mp contains
    exact ⟨r, member, place.1.symm, place.2.1, off ▸ bound⟩
  · intro d member formed i low
    have small := input.segStop.off.isLt
    have value : (ins.addr.off + BitVec.ofNat 16 i).toNat = ins.addr.off.toNat + i := by
      rw [BitVec.toNat_add, BitVec.toNat_ofNat]
      omega
    exact data d member formed _ (by omega) (by omega)

/-- An end stays below the end of the segment and of a region. -/
def EndsWithin (input : Input) (addr : SegOff) : Prop :=
  addr.seg = input.segStart.seg ∧ addr.off.toNat ≤ input.segStop.off.toNat ∧
    (input.regions ≠ [] → (∀ r ∈ input.regions, r.start.seg = r.stop.seg) →
      ∃ r ∈ input.regions, addr.off.toNat ≤ r.stop.off.toNat)

theorem Input.Inside.end_bound {input : Input} {addr : SegOff} {region : Option FuncRegion}
    {ins : Asm.Instr} (one : input.segStart.seg = input.segStop.seg)
    (inside : input.Inside addr region ins) : EndsWithin input ins.endAddr := by
  have seg : ins.endAddr.seg = addr.seg := by
    rw [← inside.place]
    rfl
  refine ⟨seg.trans (inside.seg.trans one.symm), inside.stop, fun some_ formed => ?_⟩
  obtain ⟨r, is_r⟩ := inside.regions some_
  obtain ⟨member, _, bound⟩ := inside.region r is_r
  exact ⟨r, member, bound (formed r member)⟩

theorem Input.Inside.start_bound {input : Input} {addr : SegOff} {region : Option FuncRegion}
    {ins : Asm.Instr} (one : input.segStart.seg = input.segStop.seg)
    (inside : input.Inside addr region ins) : EndsWithin input addr := by
  refine ⟨inside.seg.trans one.symm, inside.forward.le.trans inside.stop, fun some_ _ => ?_⟩
  obtain ⟨r, is_r⟩ := inside.regions some_
  obtain ⟨member, contains, _⟩ := inside.region r is_r
  exact ⟨r, member, ((r.contains_iff addr).mp contains).2.2.le⟩

section
variable (funcStart : SegOff) (stop : Option SegOff) (regions : List FuncRegion)
  (codeSeg : Mz.CodeSegment) (binary : Binary) (data : List TextSectionRegion)

theorem stop_seg {codeSeg : Mz.CodeSegment} {segStop : SegOff} (ends : codeSeg.stop = .ok segStop) :
    codeSeg.start.seg = segStop.seg := by
  obtain ⟨_, _, same⟩ := Outcome.bind_eq_ok.mp ends
  obtain rfl := Outcome.ok.inj same
  rfl

/-- A start that passes the checks is not before the segment. -/
theorem Starts.above {funcStart : SegOff} {regions : List FuncRegion} {codeSeg : Mz.CodeSegment}
    {input : Input} (starts : Starts funcStart regions codeSeg input) :
    rankOf codeSeg.start ≤ rankOf funcStart := by
  have early := starts.1
  rw [lt_iff_rankOf] at early
  omega

end

end Dis86.Analyze
