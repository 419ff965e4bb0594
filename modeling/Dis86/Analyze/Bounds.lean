import Dis86.Analyze.Walk

namespace Dis86.Analyze
open Asm (Reg Seg SegOff decodeOne MovesNoSegment)
open Lib (Outcome)

/-- The best of the addresses so far is replaced by a lower one only. -/
theorem lowest_foldl (addrs : List SegOff) (best : SegOff) :
    ∃ low, addrs.foldl (fun best addr =>
        match best with
        | some other => if addr.lt other then some addr else best
        | none => some addr) (some best) = some low ∧ low ∈ best :: addrs ∧
      ∀ addr ∈ best :: addrs, rankOf low ≤ rankOf addr := by
  induction addrs generalizing best with
  | nil => exact ⟨best, rfl, List.mem_cons_self, by simp⟩
  | cons addr addrs ih =>
      rw [List.foldl_cons]
      by_cases less : addr.lt best
      · obtain ⟨low, same, member, least⟩ := ih addr
        have under := (lt_iff_rankOf _ _).mp less
        refine ⟨low, by simpa [less] using same, List.mem_cons_of_mem _ member, ?_⟩
        intro other inside
        rcases List.mem_cons.mp inside with rfl | inside
        · exact (least addr List.mem_cons_self).trans under.le
        · exact least other inside
      · obtain ⟨low, same, member, least⟩ := ih best
        have above : ¬ rankOf addr < rankOf best :=
          fun under => less ((lt_iff_rankOf _ _).mpr under)
        refine ⟨low, by simpa [less] using same, ?_, ?_⟩
        · rcases List.mem_cons.mp member with rfl | member
          · exact List.mem_cons_self
          · exact List.mem_cons_of_mem _ (List.mem_cons_of_mem _ member)
        · intro other inside
          have first := least best List.mem_cons_self
          rcases List.mem_cons.mp inside with rfl | inside
          · exact first
          · rcases List.mem_cons.mp inside with rfl | inside
            · omega
            · exact least other (List.mem_cons_of_mem _ inside)

/-- The lowest address is one of them. -/
theorem lowest_eq_some {addrs : List SegOff} {low : SegOff} (found : lowest addrs = some low) :
    low ∈ addrs ∧ ∀ addr ∈ addrs, rankOf low ≤ rankOf addr := by
  cases addrs with
  | nil => cases found
  | cons addr addrs =>
      obtain ⟨low', same, member, least⟩ := lowest_foldl addrs addr
      obtain rfl := Option.some.inj (same.symm.trans found)
      exact ⟨member, least⟩

theorem lowest_eq_none {addrs : List SegOff} (found : lowest addrs = none) : addrs = [] := by
  cases addrs with
  | nil => rfl
  | cons addr addrs =>
      obtain ⟨low, same, _⟩ := lowest_foldl addrs addr
      cases same.symm.trans found

/-- A segment is an interval of the order. -/
theorem seg_of_between {low addr high : SegOff} (seg : low.seg = high.seg)
    (below : rankOf low ≤ rankOf addr) (above : rankOf addr ≤ rankOf high) :
    addr.seg = high.seg := by
  obtain ⟨seg₁, off₁⟩ := low
  obtain ⟨seg₂, off₂⟩ := addr
  obtain ⟨seg₃, off₃⟩ := high
  obtain rfl : seg₁ = seg₃ := seg
  have small₁ := off₁.isLt
  have small₂ := off₂.isLt
  have small₃ := off₃.isLt
  cases seg₁ with
  | normal n =>
      cases seg₂ with
      | normal n' =>
          simp only [rankOf] at below above
          rw [BitVec.eq_of_toNat_eq (show n'.toNat = n.toNat by omega)]
      | overlay n' =>
          have := n.isLt
          simp only [rankOf] at below above
          omega
  | overlay n =>
      cases seg₂ with
      | normal n' =>
          have := n'.isLt
          simp only [rankOf] at below above
          omega
      | overlay n' =>
          simp only [rankOf] at below above
          rw [BitVec.eq_of_toNat_eq (show n'.toNat = n.toNat by omega)]

namespace Input

variable {input : Input}

/-- The bound of the segment or of a region that ends inside it. -/
def codeBound (input : Input) (region : Option FuncRegion) : SegOff :=
  match region with
  | some region =>
      if region.stop.seg = input.segStop.seg ∧ region.stop.lt input.segStop then region.stop
      else input.segStop
  | none => input.segStop

theorem codeBound_seg (region : Option FuncRegion) :
    (input.codeBound region).seg = input.segStop.seg := by
  cases region with
  | none => rfl
  | some region =>
      unfold codeBound
      simp only
      split
      · rename_i inner
        exact inner.1
      · rfl

theorem codeBound_le (region : Option FuncRegion) :
    rankOf (input.codeBound region) ≤ rankOf input.segStop := by
  cases region with
  | none => exact le_rfl
  | some region =>
      unfold codeBound
      simp only
      split
      · rename_i inner
        exact ((lt_iff_rankOf _ _).mp inner.2).le
      · exact le_rfl

theorem codeBound_region {region : FuncRegion} (seg : region.stop.seg = input.segStop.seg) :
    rankOf (input.codeBound (some region)) ≤ rankOf region.stop := by
  unfold codeBound
  simp only
  split
  · exact le_rfl
  · rename_i outer
    have apart : ¬ rankOf region.stop < rankOf input.segStop :=
      fun less => outer ⟨seg, (lt_iff_rankOf _ _).mpr less⟩
    omega

theorem decodeEnd_eq (region : Option FuncRegion) (addr : SegOff) :
    input.decodeEnd region addr =
      match nextDataStart input.data addr with
      | some dataStart =>
          if dataStart.lt (input.codeBound region) then dataStart else input.codeBound region
      | none => input.codeBound region := by
  cases region <;> rfl

theorem decodeEnd_le (region : Option FuncRegion) (addr : SegOff) :
    rankOf (input.decodeEnd region addr) ≤ rankOf (input.codeBound region) := by
  rw [decodeEnd_eq]
  cases nextDataStart input.data addr with
  | none => exact le_rfl
  | some dataStart =>
      simp only
      split
      · rename_i less
        exact ((lt_iff_rankOf _ _).mp less).le
      · exact le_rfl

/-- Data that starts behind an address ends what is decoded there. -/
theorem decodeEnd_data (region : Option FuncRegion) {addr : SegOff} {data : TextSectionRegion}
    (declared : data ∈ input.data) (seg : data.start.seg = addr.seg)
    (start : addr.lt data.start) (stop : addr.lt data.stop) :
    rankOf (input.decodeEnd region addr) ≤ rankOf data.start := by
  have candidate : data.start ∈ (input.data.filter fun region =>
      region.start.seg = addr.seg && addr.lt region.start && addr.lt region.stop).map
        TextSectionRegion.start :=
    List.mem_map_of_mem (List.mem_filter.mpr ⟨declared, by simp [seg, start, stop]⟩)
  rw [decodeEnd_eq, nextDataStart]
  cases found : lowest _ with
  | none =>
      rw [lowest_eq_none found] at candidate
      cases candidate
  | some low =>
      have least := (lowest_eq_some found).2 _ candidate
      simp only
      split
      · exact least
      · rename_i apart
        have : ¬ rankOf low < rankOf (input.codeBound region) :=
          fun less => apart ((lt_iff_rankOf _ _).mpr less)
        omega

theorem lt_decodeEnd {region : Option FuncRegion} {addr : SegOff}
    (inside : rankOf addr ≤ rankOf (input.codeBound region)) :
    rankOf addr ≤ rankOf (input.decodeEnd region addr) := by
  rw [decodeEnd_eq, nextDataStart]
  cases found : lowest _ with
  | none => exact inside
  | some low =>
      simp only
      split
      · obtain ⟨data, kept, rfl⟩ := List.mem_map.mp (lowest_eq_some found).1
        have kept := (List.mem_filter.mp kept).2
        simp only [Bool.and_eq_true] at kept
        exact ((lt_iff_rankOf _ _).mp kept.1.2).le
      · exact inside

/-- A decoded instruction stands at its address and ends before the bound. -/
theorem decodeOneInstr_ok {loc stop : SegOff} {ins : Asm.Instr}
    (decoded : input.decodeOneInstr loc stop = .ok ins) :
    ins.addr = loc ∧ loc.seg = stop.seg ∧ loc.off.toNat < ins.endAddr.off.toNat ∧
      ins.endAddr.off.toNat ≤ stop.off.toNat := by
  obtain ⟨bin, made, decoded⟩ := Outcome.bind_eq_ok.mp decoded
  have fits := Asm.regionIter_fits made
  obtain ⟨mem, region, same⟩ := Outcome.bind_eq_ok.mp made
  obtain rfl := Outcome.ok.inj same
  have length := Asm.region_length region
  have seg : loc.seg = stop.seg := by
    obtain ⟨_, seg, _⟩ := Outcome.bind_eq_ok.mp region
    exact Outcome.require_eq_ok.mp seg
  cases ran : decodeOne (Asm.RegionIter.new mem loc) with
  | mk outcome rest =>
      rw [ran] at decoded
      cases outcome with
      | err e => cases decoded
      | panic => cases decoded
      | ok next =>
          cases next with
          | none => cases decoded
          | some pair =>
              obtain ⟨ins', raw⟩ := pair
              obtain rfl := Outcome.ok.inj decoded
              obtain ⟨stands, _⟩ := Asm.decodeOne_stands fits ran
              have inside : ins'.nBytes.toNat ≤ mem.length := stands.inside
              have positive := stands.used_pos
              obtain ⟨addr, start, addrSeg, addrOff⟩ := Asm.RegionIter.addr_eq fits
              have at_loc : ins'.addr = loc := by
                obtain rfl := Outcome.ok.inj (start.symm.trans stands.addr)
                exact Asm.SegOff.ext_toNat addrSeg addrOff
              have bound := stop.off.isLt
              have offset : ins'.endAddr.off.toNat = loc.off.toNat + ins'.nBytes.toNat := by
                rw [Asm.Instr.endAddr, at_loc, Asm.SegOff.addOffset, BitVec.toNat_add]
                omega
              exact ⟨at_loc, seg, by omega, by omega⟩

/-- An instruction lies inside the segment and its region, and outside the declared data. -/
structure Inside (input : Input) (addr : SegOff) (region : Option FuncRegion) (ins : Asm.Instr) :
    Prop where
  place : ins.addr = addr
  seg : addr.seg = input.segStop.seg
  forward : addr.off.toNat < ins.endAddr.off.toNat
  stop : ins.endAddr.off.toNat ≤ input.segStop.off.toNat
  regions : input.regions ≠ [] → ∃ r, region = some r
  region : ∀ r, region = some r → r ∈ input.regions ∧ r.contains addr = true ∧
    (r.start.seg = r.stop.seg → ins.endAddr.off.toNat ≤ r.stop.off.toNat)
  data : ∀ d ∈ input.data, d.start.seg = d.stop.seg →
    ∀ off : BitVec 16, addr.off.toNat ≤ off.toNat → off.toNat < ins.endAddr.off.toNat →
      d.contains ⟨addr.seg, off⟩ = false

theorem decodeAt_eq_ok {addr : SegOff} {region : Option FuncRegion} {ins : Asm.Instr} :
    input.decodeAt addr = .ok (region, ins) ↔
      input.currentRegion addr = .ok region ∧ input.dataRegionContaining addr = none ∧
        input.decodeOneInstr addr (input.decodeEnd region addr) = .ok ins := by
  unfold decodeAt
  rw [Outcome.bind_eq_ok]
  constructor
  · rintro ⟨region', current, decoded⟩
    cases declared : input.dataRegionContaining addr with
    | some data =>
        rw [declared] at decoded
        cases decoded
    | none =>
        rw [declared] at decoded
        simp only [Outcome.bind_eq_ok] at decoded
        obtain ⟨ins', decoded, same⟩ := decoded
        obtain ⟨rfl, rfl⟩ := Prod.mk.inj (Outcome.ok.inj same)
        exact ⟨current, rfl, decoded⟩
  · rintro ⟨current, declared, decoded⟩
    refine ⟨region, current, ?_⟩
    rw [declared]
    exact Outcome.bind_eq_ok.mpr ⟨ins, decoded, rfl⟩

theorem currentRegion_eq_ok {addr : SegOff} {region : Option FuncRegion}
    (current : input.currentRegion addr = .ok region) :
    (input.regions ≠ [] → ∃ r, region = some r) ∧
      ∀ r, region = some r → r ∈ input.regions ∧ r.contains addr = true := by
  unfold currentRegion at current
  split at current
  · rename_i empty
    obtain rfl := Outcome.ok.inj current
    exact ⟨fun some_ => absurd (List.isEmpty_iff.mp empty) some_, nofun⟩
  · cases found : input.regionFor addr with
    | none =>
        rw [found] at current
        cases current
    | some r =>
        rw [found] at current
        obtain rfl := Outcome.ok.inj current
        refine ⟨fun _ => ⟨r, rfl⟩, fun r' same => ?_⟩
        obtain rfl := Option.some.inj same
        exact ⟨List.mem_of_find?_eq_some found, List.find?_some (p := fun r : FuncRegion => r.contains addr) found⟩

theorem decodeAt_inside {addr : SegOff} {region : Option FuncRegion} {ins : Asm.Instr}
    (one : input.segStart.seg = input.segStop.seg)
    (above : rankOf input.segStart ≤ rankOf addr)
    (decoded : input.decodeAt addr = .ok (region, ins)) : Inside input addr region ins := by
  obtain ⟨current, declared, decoded⟩ := decodeAt_eq_ok.mp decoded
  obtain ⟨at_addr, seg, forward, stop⟩ := decodeOneInstr_ok decoded
  obtain ⟨regions, contained⟩ := currentRegion_eq_ok current
  have endAddrSeg : ins.endAddr.seg = addr.seg := by rw [← at_addr]; rfl
  have end_le : rankOf ins.endAddr ≤ rankOf (input.decodeEnd region addr) :=
    (rankOf_le_iff (endAddrSeg.trans seg)).mpr stop
  have bound := end_le.trans (decodeEnd_le region addr)
  have addr_le : rankOf addr ≤ rankOf ins.endAddr :=
    (rankOf_le_iff endAddrSeg.symm).mpr forward.le
  have within := bound.trans (codeBound_le region)
  have same : addr.seg = input.segStop.seg := seg_of_between one above (addr_le.trans within)
  refine ⟨at_addr, same, forward, ?_, regions, ?_, ?_⟩
  · exact (rankOf_le_iff (endAddrSeg.trans same)).mp within
  · intro r is_r
    obtain ⟨member, contains⟩ := contained r is_r
    refine ⟨member, contains, fun formed => ?_⟩
    subst is_r
    have place := (r.contains_iff addr).mp contains
    have stopSeg : r.stop.seg = input.segStop.seg := by rw [← formed, ← place.1, same]
    exact (rankOf_le_iff (endAddrSeg.trans (same.trans stopSeg.symm))).mp
      (bound.trans (codeBound_region stopSeg))
  · intro d member formed off low high
    by_contra contains
    have place := (d.contains_iff _).mp (Bool.not_eq_false _ ▸ contains)
    have outside : d.contains addr = false := by
      simpa using List.find?_eq_none.mp declared d member
    have start : addr.off.toNat < d.start.off.toNat := by
      by_contra early
      have here : d.contains addr = true :=
        (d.contains_iff addr).mpr ⟨place.1, by omega, lt_of_le_of_lt low place.2.2⟩
      rw [outside] at here
      cases here
    have less (other : SegOff) (otherSeg : addr.seg = other.seg)
        (after : addr.off.toNat < other.off.toNat) : addr.lt other = true := by
      rw [lt_iff_rankOf]
      by_contra more
      have := (rankOf_le_iff otherSeg.symm).mp (Nat.le_of_not_lt more)
      omega
    have startSeg : addr.seg = d.start.seg := place.1
    have limit := end_le.trans (decodeEnd_data region member startSeg.symm
      (less d.start startSeg start)
      (less d.stop (startSeg.trans formed) (lt_of_le_of_lt low place.2.2)))
    have := (rankOf_le_iff (endAddrSeg.trans startSeg)).mp limit
    have first : d.start.off.toNat ≤ off.toNat := place.2.1
    omega

theorem look_eq_ok {addr : SegOff} {seen : Seen} :
    input.look addr = .ok seen ↔ input.decodeAt addr = .ok (seen.region, seen.ins) ∧
      instrDetails seen.ins input.binary input.segStart.seg = .ok seen.details := by
  unfold look
  rw [Outcome.bind_eq_ok]
  constructor
  · rintro ⟨⟨region, ins⟩, decoded, looked⟩
    obtain ⟨details, detailed, same⟩ := Outcome.bind_eq_ok.mp looked
    obtain rfl := Outcome.ok.inj same
    exact ⟨decoded, detailed⟩
  · rintro ⟨decoded, detailed⟩
    exact ⟨_, decoded, Outcome.bind_eq_ok.mpr ⟨_, detailed, rfl⟩⟩

end Input

theorem unresolvedNext_cases (kind : Asm.UnresolvedTransfer) (seg : Seg) :
    unresolvedNext kind seg = .transfer ∨
      ∃ off, unresolvedNext kind seg = .jump [⟨seg, off⟩] none := by
  unfold unresolvedNext
  split
  · split
    · exact .inr ⟨_, rfl⟩
    · exact .inl rfl
  · exact .inl rfl

/-- Only the address behind an instruction falls through. -/
theorem instrDetails_next {ins : Asm.Instr} {binary : Binary} {seg : Seg} {details : InstrDetails}
    (detailed : instrDetails ins binary seg = .ok details) :
    (∀ target, details.next = .fallthrough target → target = ins.endAddr) ∧
      ∀ targets target, details.next = .jump targets (some target) → target = ins.endAddr := by
  unfold instrDetails at detailed
  cases jumps : jumpTargets ins seg with
  | some next =>
      rw [jumps] at detailed
      obtain rfl := Outcome.ok.inj detailed
      obtain ⟨branch, found, rfl⟩ := Option.map_eq_some_iff.mp jumps
      cases branch with
      | unresolved kind =>
          rcases unresolvedNext_cases kind seg with same | ⟨off, same⟩ <;> simp [same]
      | relative target fallthrough =>
          obtain ⟨shape, _, same⟩ := Option.map_eq_some_iff.mp found
          refine ⟨fun _ next => by simp at next, fun targets target next => ?_⟩
          simp only [Next.jump.injEq] at next
          split at same
          · simp only [Asm.BranchTarget.relative.injEq] at same
            rw [← same.2] at next
            split at next
            · exact (Option.some.inj next.2).symm
            · cases next.2
          · cases same
  | none =>
      rw [jumps] at detailed
      simp only at detailed
      split at detailed
      · obtain ⟨call, _, same⟩ := Outcome.bind_eq_ok.mp detailed
        obtain rfl := Outcome.ok.inj same
        exact ⟨fun target same => (Next.fallthrough.inj same).symm, nofun⟩
      · obtain ⟨call, _, same⟩ := Outcome.bind_eq_ok.mp detailed
        obtain rfl := Outcome.ok.inj same
        exact ⟨fun target same => (Next.fallthrough.inj same).symm, nofun⟩
      · obtain rfl := Outcome.ok.inj detailed
        simp
      · obtain rfl := Outcome.ok.inj detailed
        simp
      · obtain rfl := Outcome.ok.inj detailed
        simp
      · cases detailed
      · cases detailed
      · cases detailed
      · obtain rfl := Outcome.ok.inj detailed
        exact ⟨fun target same => (Next.fallthrough.inj same).symm, nofun⟩

namespace Input

variable {input : Input}

theorem goesOn_target {addr target : SegOff} {seen : Seen} {pending : Bool}
    (looked : input.look addr = .ok seen) (goes : input.goesOn seen = some (target, pending)) :
    target = seen.ins.endAddr := by
  have detailed := (look_eq_ok.mp looked).2
  unfold goesOn at goes
  split at goes
  · rename_i target' next
    split at goes
    · obtain ⟨rfl, rfl⟩ := Prod.mk.inj (Option.some.inj goes)
      exact (instrDetails_next detailed).1 _ next
    · cases goes
  · cases goes

theorem mem_exits {addr target : SegOff} {seen : Seen} (looked : input.look addr = .ok seen)
    (leaves : target ∈ input.exits seen) :
    input.segContains target = true ∨ target = seen.ins.endAddr := by
  have detailed := (look_eq_ok.mp looked).2
  unfold exits at leaves
  split at leaves
  · rename_i targets fallthrough next
    rcases List.mem_append.mp leaves with branch | through
    · have followed := (List.mem_filter.mp branch).2
      simp only [follows, Bool.and_eq_true] at followed
      exact .inl followed.1.2
    · have member := (List.mem_filter.mp through).1
      obtain rfl := Option.mem_toList.mp member
      exact .inr ((instrDetails_next detailed).2 _ _ next)
  · cases leaves

/-- The walk stays behind the start of the segment. -/
theorem RunsTo.above {block addr : SegOff} {pending : Bool}
    (one : input.segStart.seg = input.segStop.seg)
    (start : rankOf input.segStart ≤ rankOf block) (runs : RunsTo input block addr pending) :
    rankOf input.segStart ≤ rankOf addr := by
  induction runs with
  | start => exact start
  | @next addr target _ _ seen _ looked goes ih =>
      have inside := decodeAt_inside one ih (look_eq_ok.mp looked).1
      obtain rfl := goesOn_target looked goes
      have seg : addr.seg = seen.ins.endAddr.seg := by
        rw [← inside.place]
        rfl
      exact ih.trans ((rankOf_le_iff seg).mpr inside.forward.le)

theorem Entry.above {start block : SegOff} (one : input.segStart.seg = input.segStop.seg)
    (first : rankOf input.segStart ≤ rankOf start) (entry : Entry input start block) :
    rankOf input.segStart ≤ rankOf block := by
  induction entry with
  | start => exact first
  | @exit block addr target _ seen _ runs looked leaves ih =>
      have above := runs.above one ih
      have inside := decodeAt_inside one above (look_eq_ok.mp looked).1
      rcases mem_exits looked leaves with contained | rfl
      · simp only [segContains, Bool.and_eq_true, decide_eq_true_eq, BitVec.le_def] at contained
        exact (rankOf_le_iff contained.1.1.symm).mpr contained.1.2
      · have seg : addr.seg = seen.ins.endAddr.seg := by
          rw [← inside.place]
          rfl
        exact above.trans ((rankOf_le_iff seg).mpr inside.forward.le)

/-- An address from which the bytes up to the end of the segment can be read. -/
structure Good (input : Input) (addr : SegOff) : Prop where
  seg : addr.seg = input.segStop.seg
  start : input.segStart.off.toNat ≤ addr.off.toNat
  stop : addr.off.toNat ≤ input.segStop.off.toNat

theorem Good.above {addr : SegOff} (one : input.segStart.seg = input.segStop.seg)
    (good : Good input addr) : rankOf input.segStart ≤ rankOf addr :=
  (rankOf_le_iff (one.trans good.seg.symm)).mpr good.start

theorem Good.endAddr {addr : SegOff} {region : Option FuncRegion} {ins : Asm.Instr}
    (one : input.segStart.seg = input.segStop.seg) (good : Good input addr)
    (decoded : input.decodeAt addr = .ok (region, ins)) : Good input ins.endAddr := by
  have inside := decodeAt_inside one (good.above one) decoded
  have seg : ins.endAddr.seg = addr.seg := by
    rw [← inside.place]
    rfl
  exact ⟨seg.trans inside.seg, good.start.trans inside.forward.le, inside.stop⟩

theorem RunsTo.good {block addr : SegOff} {pending : Bool}
    (one : input.segStart.seg = input.segStop.seg) (start : Good input block)
    (runs : RunsTo input block addr pending) : Good input addr := by
  induction runs with
  | start => exact start
  | next _ looked goes ih =>
      obtain rfl := goesOn_target looked goes
      exact ih.endAddr one (look_eq_ok.mp looked).1

theorem Entry.good {start block : SegOff} (one : input.segStart.seg = input.segStop.seg)
    (first : Good input start) (entry : Entry input start block) : Good input block := by
  induction entry with
  | start => exact first
  | exit _ runs looked leaves ih =>
      rcases mem_exits looked leaves with contained | rfl
      · simp only [segContains, Bool.and_eq_true, decide_eq_true_eq, BitVec.le_def,
          BitVec.lt_def] at contained
        exact ⟨contained.1.1.trans one, contained.1.2, contained.2.le⟩
      · exact (runs.good one ih).endAddr one (look_eq_ok.mp looked).1

end Input

end Dis86.Analyze
