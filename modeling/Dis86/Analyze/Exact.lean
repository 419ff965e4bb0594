import Dis86.Analyze.Facts

namespace Dis86.Analyze
open Asm (Reg Seg SegOff)
open Lib (Outcome)

/-- The mode of a direct call. -/
def callMode (ins : Asm.Instr) (pushCsPending : Bool) : CallMode :=
  if ins.opcode = .CALLF ∨ ins.opcode = .CALL ∧ pushCsPending = true then .far else .near

theorem mem_insertMode {mode other : CallMode} {modes : List CallMode} :
    other ∈ insertMode mode modes ↔ other = mode ∨ other ∈ modes := by
  unfold insertMode
  split
  · rename_i old
    constructor
    · exact .inr
    · rintro (rfl | inside)
      · exact old
      · exact inside
  · cases mode with
    | near => exact List.mem_cons
    | far => rw [List.mem_append, List.mem_singleton, or_comm]

theorem mem_insertCall_fst {target other : SegOff} {mode : CallMode}
    {kinds : List (SegOff × List CallMode)} :
    other ∈ (insertCall target mode kinds).map Prod.fst ↔
      other = target ∨ other ∈ kinds.map Prod.fst := by
  induction kinds with
  | nil => simp [insertCall]
  | cons first kinds ih =>
      obtain ⟨key, modes⟩ := first
      unfold insertCall
      split
      · rename_i same
        subst same
        simp
      · split
        · simp
        · rw [List.map_cons, List.mem_cons, ih, List.map_cons, List.mem_cons]
          tauto

theorem mem_insertCall {target other : SegOff} {mode mode' : CallMode}
    {kinds : List (SegOff × List CallMode)} :
    (∃ modes, (other, modes) ∈ insertCall target mode kinds ∧ mode' ∈ modes) ↔
      (other = target ∧ mode' = mode) ∨ ∃ modes, (other, modes) ∈ kinds ∧ mode' ∈ modes := by
  induction kinds with
  | nil => simp [insertCall]
  | cons first kinds ih =>
      obtain ⟨key, modes⟩ := first
      unfold insertCall
      split
      · rename_i same
        subst same
        simp only [List.mem_cons, Prod.mk.injEq, or_and_right, exists_or, and_assoc,
          exists_and_left, exists_eq_left, mem_insertMode, and_or_left, or_assoc]
      · split
        · simp only [List.mem_cons, Prod.mk.injEq, or_and_right, exists_or, and_assoc,
            exists_and_left, exists_eq_left, List.not_mem_nil, or_false]
        · simp only [List.mem_cons, Prod.mk.injEq, or_and_right, exists_or, ih]
          exact or_left_comm

namespace Found

def directCalls (found : Found) : List SegOff := found.directCallKinds.map Prod.fst

/-- A direct call of the target, in the mode, has been found. -/
def CallsIn (found : Found) (target : SegOff) (mode : CallMode) : Prop :=
  ∃ modes, (target, modes) ∈ found.directCallKinds ∧ mode ∈ modes

/-- The return that decides and the ones that differ from it. -/
def returns (found : Found) : List ReturnKind := found.returnKind.toList ++ found.ignoredReturnKinds

theorem mem_returns_addReturn {found : Found} {kind other : ReturnKind} :
    other ∈ (found.addReturn kind).returns ↔ other = kind ∨ other ∈ found.returns := by
  unfold addReturn returns
  split
  · rename_i none_
    simp [none_]
  · rename_i winning some_
    split
    · simp only [some_, Option.toList_some, List.mem_append, List.mem_singleton]
      tauto
    · rename_i known
      simp only [some_, Option.toList_some, List.mem_append, List.mem_singleton]
      constructor
      · exact .inr
      · rintro (rfl | old)
        · by_cases same : winning = other
          · exact .inl same.symm
          · exact .inr (not_not.mp fun fresh => known ⟨same, fresh⟩)
        · exact old

end Found

namespace Input

variable {input : Input}

theorem note_directCallKinds (found : Found) (pending : Bool) (seen : Seen) :
    (note found pending seen).directCallKinds =
      match seen.details.call with
      | some (.direct target) =>
          insertCall target (callMode seen.ins pending) found.directCallKinds
      | _ => found.directCallKinds := by
  have returned (found : Found) (kind : ReturnKind) :
      (found.addReturn kind).directCallKinds = found.directCallKinds := by
    unfold Found.addReturn
    split
    · rfl
    · split <;> rfl
  have extended : (found.extend seen.ins.endAddr).directCallKinds = found.directCallKinds := by
    unfold Found.extend
    split <;> rfl
  unfold note
  rw [← extended]
  cases seen.details.next with
  | ret kind =>
      rw [returned]
      rcases seen.details.call with _ | _ | _ <;> rfl
  | _ => rcases seen.details.call with _ | _ | _ <;> rfl

theorem note_indirectCalls (found : Found) (pending : Bool) (seen : Seen) :
    (note found pending seen).indirectCalls =
      found.indirectCalls + if seen.details.call = some .indirect then 1 else 0 := by
  have returned (found : Found) (kind : ReturnKind) :
      (found.addReturn kind).indirectCalls = found.indirectCalls := by
    unfold Found.addReturn
    split
    · rfl
    · split <;> rfl
  have extended : (found.extend seen.ins.endAddr).indirectCalls = found.indirectCalls := by
    unfold Found.extend
    split <;> rfl
  unfold note
  rw [← extended]
  cases seen.details.next with
  | ret kind =>
      rw [returned]
      rcases seen.details.call with _ | _ | _ <;> rfl
  | _ => rcases seen.details.call with _ | _ | _ <;> rfl

theorem note_returns (found : Found) (pending : Bool) (seen : Seen) (kind : ReturnKind) :
    kind ∈ (note found pending seen).returns ↔
      seen.details.next = .ret kind ∨ kind ∈ found.returns := by
  have called : ((found.extend seen.ins.endAddr).addCall seen.ins pending
      seen.details.call).returns = found.returns := by
    have extended : (found.extend seen.ins.endAddr).returns = found.returns := by
      unfold Found.extend
      split <;> rfl
    rw [← extended]
    rcases seen.details.call with _ | _ | _ <;> rfl
  unfold note
  cases next : seen.details.next with
  | ret kind' =>
      rw [Found.mem_returns_addReturn, called, Next.ret.injEq, eq_comm]
  | _ => simp [called]

/-- What holds after an instruction if it held before or comes from the instruction holds after many
if it comes from one of them. -/
theorem noteAll_iff {p : Found → Prop} {q : Visit → Prop}
    (step : ∀ found visit, p (note found visit.pushCsPending visit.seen) ↔ q visit ∨ p found)
    (found : Found) (visits : List Visit) :
    p (noteAll found visits) ↔ (∃ visit ∈ visits, q visit) ∨ p found := by
  induction visits generalizing found with
  | nil => simp [noteAll]
  | cons visit visits ih =>
      show p (noteAll (note found _ _) visits) ↔ _
      rw [ih, step, List.exists_mem_cons_iff]
      exact or_left_comm.trans or_assoc.symm

section
variable (found : Found) (visits : List Visit)

theorem noteAll_directCalls (target : SegOff) :
    target ∈ (noteAll found visits).directCalls ↔
      (∃ visit ∈ visits, visit.seen.details.call = some (.direct target)) ∨
        target ∈ found.directCalls := by
  refine noteAll_iff (p := fun found => target ∈ found.directCalls) (fun found visit => ?_) _ _
  unfold Found.directCalls
  rw [note_directCallKinds]
  split
  · rename_i other call
    rw [mem_insertCall_fst, call, Option.some.injEq, Call.direct.injEq, eq_comm]
  · rename_i other
    constructor
    · exact .inr
    · rintro (call | old)
      · exact absurd call (other target)
      · exact old

theorem noteAll_callsIn (target : SegOff) (mode : CallMode) :
    (noteAll found visits).CallsIn target mode ↔
      (∃ visit ∈ visits, visit.seen.details.call = some (.direct target) ∧
        mode = callMode visit.seen.ins visit.pushCsPending) ∨ found.CallsIn target mode := by
  refine noteAll_iff (p := fun found => found.CallsIn target mode) (fun found visit => ?_) _ _
  unfold Found.CallsIn
  rw [note_directCallKinds]
  split
  · rename_i other call
    rw [mem_insertCall, call, Option.some.injEq, Call.direct.injEq, eq_comm]
  · rename_i other
    constructor
    · exact .inr
    · rintro (⟨call, _⟩ | old)
      · exact absurd call (other target)
      · exact old

theorem noteAll_returns (kind : ReturnKind) :
    kind ∈ (noteAll found visits).returns ↔
      (∃ visit ∈ visits, visit.seen.details.next = .ret kind) ∨ kind ∈ found.returns :=
  noteAll_iff (p := fun found => kind ∈ found.returns)
    (fun found visit => note_returns found visit.pushCsPending visit.seen kind) found visits

/-- An indirect call is counted at every visit. -/
theorem noteAll_indirectCalls :
    (noteAll found visits).indirectCalls =
      found.indirectCalls + visits.countP fun visit => visit.seen.details.call = some .indirect := by
  induction visits generalizing found with
  | nil => rfl
  | cons visit visits ih =>
      show (noteAll (note found _ _) visits).indirectCalls = _
      rw [ih, note_indirectCalls, List.countP_cons]
      simp only [decide_eq_true_eq]
      omega

end

/-- The offsets of a block rise. -/
theorem BlockRun.rises {addr : SegOff} {pending : Bool} {visits : List Visit}
    (one : input.segStart.seg = input.segStop.seg) (above : rankOf input.segStart ≤ rankOf addr)
    (run : BlockRun input addr pending visits) :
    (∀ visit ∈ visits, addr.off.toNat ≤ visit.addr.off.toNat) ∧
      (visits.map Visit.addr).Nodup := by
  induction run with
  | last looked ends => simp
  | @more addr target _ _ seen visits looked goes rest ih =>
      have forward := (decodeAt_inside one above (look_eq_ok.mp looked).1).forward
      obtain rfl := goesOn_target looked goes
      obtain ⟨later, unique⟩ := ih ((RunsTo.start.next looked goes).above one above)
      refine ⟨?_, List.nodup_cons.mpr ⟨fun again => ?_, unique⟩⟩
      · intro visit inside
        rcases List.mem_cons.mp inside with rfl | inside
        · exact le_refl _
        · exact forward.le.trans (later visit inside)
      · obtain ⟨visit, inside, same⟩ := List.mem_map.mp again
        have after := later visit inside
        rw [same] at after
        exact absurd (forward.trans_le after) (Nat.lt_irrefl _)

/-- No indirect call is run to from two blocks. -/
def CalledFromOneBlock (input : Input) (start : SegOff) : Prop :=
  ∀ (addr block block' : SegOff) (pending pending' : Bool) (seen : Seen),
    Entry input start block → Entry input start block' → RunsTo input block addr pending →
    RunsTo input block' addr pending' → input.look addr = .ok seen →
    seen.details.call = some .indirect → block = block'

/-- The addresses of the indirect calls that the start reaches. -/
def indirectCallsFrom (input : Input) (start : SegOff) : Set SegOff :=
  {addr | ∃ pending seen, Reached input start addr pending ∧ input.look addr = .ok seen ∧
    seen.details.call = some .indirect}

/-- The indirect calls of a walk have different addresses when none is run to from two blocks. -/
theorem WalkedFrom.nodup_iff {start : SegOff} {found' : Found}
    {blocks : List (SegOff × List Visit)} (one : input.segStart.seg = input.segStop.seg)
    (above : rankOf input.segStart ≤ rankOf start)
    (walked : WalkedFrom input start (initial start) found' blocks) :
    (((blocks.flatMap Prod.snd).filter fun visit =>
      visit.seen.details.call = some .indirect).map Visit.addr).Nodup ↔
        CalledFromOneBlock input start := by
  rw [List.filter_flatMap, List.map_flatMap, List.nodup_flatMap]
  have visited {pair : SegOff × List Visit} (inside : pair ∈ blocks) (addr : SegOff) :
      addr ∈ (pair.2.filter fun visit => visit.seen.details.call = some .indirect).map
        Visit.addr ↔ ∃ pending seen, RunsTo input pair.1 addr pending ∧
          input.look addr = .ok seen ∧ seen.details.call = some .indirect := by
    simp only [List.mem_map, List.mem_filter, (walked.runs pair inside).mem_iff, decide_eq_true_eq]
    constructor
    · rintro ⟨visit, ⟨⟨runs, looked⟩, call⟩, rfl⟩
      exact ⟨_, _, runs, looked, call⟩
    · rintro ⟨pending, seen, runs, looked, call⟩
      exact ⟨⟨addr, pending, seen⟩, ⟨⟨runs, looked⟩, call⟩, rfl⟩
  constructor
  · rintro ⟨_, apart⟩ addr block block' pending pending' seen entry entry' runs runs' looked call
    obtain ⟨pair, inside, rfl⟩ := List.mem_map.mp ((walked.mem_iff block).mpr entry)
    obtain ⟨pair', inside', rfl⟩ := List.mem_map.mp ((walked.mem_iff block').mpr entry')
    by_contra differ
    have disjoint := @List.Pairwise.forall _ _ _ ⟨fun _ _ apart => List.Disjoint.symm apart⟩ apart
      _ inside _ inside' (fun same => differ (congrArg Prod.fst same))
    refine @disjoint addr ?_ ?_
    · exact (visited inside addr).mpr ⟨pending, seen, runs, looked, call⟩
    · exact (visited inside' addr).mpr ⟨pending', seen, runs', looked, call⟩
  · intro single
    refine ⟨fun pair inside => ?_, ?_⟩
    · have start_above := (walked.entries pair.1 (List.mem_map_of_mem inside)).above one above
      exact ((walked.runs pair inside).rises one start_above).2.sublist
        (List.filter_sublist.map Visit.addr)
    · refine (List.pairwise_map.mp walked.unique).imp_of_mem ?_
      intro pair pair' inside inside' differ addr called called'
      obtain ⟨pending, seen, runs, looked, call⟩ := (visited inside addr).mp called
      obtain ⟨pending', _, runs', _, _⟩ := (visited inside' addr).mp called'
      exact differ (single addr _ _ pending pending' seen
        (walked.entries pair.1 (List.mem_map_of_mem inside))
        (walked.entries pair'.1 (List.mem_map_of_mem inside')) runs runs' looked call)

/-- The indirect calls that a walk counts. -/
theorem WalkedFrom.indirectCalls_iff {start : SegOff} {found' : Found}
    {blocks : List (SegOff × List Visit)} (one : input.segStart.seg = input.segStop.seg)
    (above : rankOf input.segStart ≤ rankOf start)
    (walked : WalkedFrom input start (initial start) found' blocks) :
    found'.indirectCalls = (indirectCallsFrom input start).ncard ↔
      CalledFromOneBlock input start := by
  rw [← walked.nodup_iff one above]
  let calls := ((blocks.flatMap Prod.snd).filter fun visit =>
    visit.seen.details.call = some .indirect).map Visit.addr
  have counted : found'.indirectCalls = calls.length := by
    have facts := congrArg Found.indirectCalls walked.facts
    rw [noteAll_indirectCalls, List.countP_eq_length_filter] at facts
    rw [List.length_map]
    exact facts.trans (Nat.zero_add _)
  have called : indirectCallsFrom input start = (calls.toFinset : Set SegOff) := by
    ext addr
    simp only [calls, indirectCallsFrom, Set.mem_ofPred_eq, List.coe_toFinset, List.mem_map,
      List.mem_filter, walked.visited_iff, decide_eq_true_eq]
    constructor
    · rintro ⟨pending, seen, reached, looked, call⟩
      exact ⟨⟨addr, pending, seen⟩, ⟨⟨reached, looked⟩, call⟩, rfl⟩
    · rintro ⟨visit, ⟨⟨reached, looked⟩, call⟩, rfl⟩
      exact ⟨_, _, reached, looked, call⟩
  rw [counted, called, Set.ncard_coe_finset, eq_comm, ← Multiset.coe_nodup,
    ← Multiset.toFinset_card_eq_card_iff_nodup]
  rfl

end Input

/-- The facts are those of the instructions that the start reaches, each counted once. -/
structure FactsExact (input : Input) (start : SegOff) (found : Found) : Prop where
  directCalls : ∀ target, target ∈ found.directCalls ↔ ∃ addr pending seen,
    input.Reached start addr pending ∧ input.look addr = .ok seen ∧
      seen.details.call = some (.direct target)
  directCallKinds : ∀ target mode, found.CallsIn target mode ↔ ∃ addr pending seen,
    input.Reached start addr pending ∧ input.look addr = .ok seen ∧
      seen.details.call = some (.direct target) ∧ mode = callMode seen.ins pending
  returns : ∀ kind, kind ∈ found.returns ↔ ∃ addr pending seen,
    input.Reached start addr pending ∧ input.look addr = .ok seen ∧
      seen.details.next = .ret kind
  indirectCalls : found.indirectCalls = (input.indirectCallsFrom start).ncard

section
variable {funcStart : SegOff} {stop : Option SegOff} {regions : List FuncRegion}
  {codeSeg : Mz.CodeSegment} {binary : Binary} {data : List TextSectionRegion}
  {segStop : SegOff} {found : Found}

/-- An analysis that succeeds has walked the blocks that its start reaches. -/
theorem walked_of_built (ends : codeSeg.stop = .ok segStop)
    (built : buildWithRegionsAndData funcStart stop regions codeSeg binary data = .ok found) :
    rankOf codeSeg.start ≤ rankOf funcStart ∧ ∃ blocks,
      (inputOf stop regions codeSeg binary data segStop).WalkedFrom funcStart (initial funcStart)
        found blocks := by
  obtain ⟨e, failed, _⟩ | ⟨starts, walk⟩ :=
    buildWithRegionsAndData_eq funcStart stop regions codeSeg binary data ends
  · rw [failed] at built
    cases built
  rw [walk] at built
  have tidy : (initial funcStart).Tidy :=
    ⟨List.nodup_singleton _, List.nodup_singleton _, List.Subset.refl _⟩
  exact ⟨starts.above, Input.walkQueue_eq_ok tidy
    (fun block waiting => List.mem_singleton.mp waiting ▸ .start) built⟩

theorem indirectCalls_exact_iff (ends : codeSeg.stop = .ok segStop)
    (built : buildWithRegionsAndData funcStart stop regions codeSeg binary data = .ok found) :
    found.indirectCalls =
        ((inputOf stop regions codeSeg binary data segStop).indirectCallsFrom funcStart).ncard ↔
      (inputOf stop regions codeSeg binary data segStop).CalledFromOneBlock funcStart := by
  obtain ⟨above, _, walked⟩ := walked_of_built ends built
  exact walked.indirectCalls_iff (stop_seg ends) above

/-- The facts are exact if and only if no indirect call is run to from two blocks. -/
theorem facts_exact_iff (ends : codeSeg.stop = .ok segStop)
    (built : buildWithRegionsAndData funcStart stop regions codeSeg binary data = .ok found) :
    FactsExact (inputOf stop regions codeSeg binary data segStop) funcStart found ↔
      (inputOf stop regions codeSeg binary data segStop).CalledFromOneBlock funcStart := by
  have counted := indirectCalls_exact_iff ends built
  obtain ⟨above, blocks, walked⟩ := walked_of_built ends built
  constructor
  · intro exact_
    exact counted.mp exact_.indirectCalls
  · intro single
    have visits (q : Input.Visit → Prop) : (∃ visit ∈ blocks.flatMap Prod.snd, q visit) ↔
        ∃ addr pending seen,
          (inputOf stop regions codeSeg binary data segStop).Reached funcStart addr pending ∧
          (inputOf stop regions codeSeg binary data segStop).look addr = .ok seen ∧
          q ⟨addr, pending, seen⟩ := by
      constructor
      · rintro ⟨visit, visited, holds⟩
        obtain ⟨reached, looked⟩ := (walked.visited_iff visit).mp visited
        exact ⟨_, _, _, reached, looked, holds⟩
      · rintro ⟨addr, pending, seen, reached, looked, holds⟩
        exact ⟨_, (walked.visited_iff _).mpr ⟨reached, looked⟩, holds⟩
    have from_visits {p q : Prop} (empty : ¬ p) : q ∨ p ↔ q := or_iff_left empty
    refine ⟨fun target => ?_, fun target mode => ?_, fun kind => ?_, counted.mpr single⟩
    · show target ∈ found.facts.directCalls ↔ _
      rw [walked.facts, Input.noteAll_directCalls, visits, from_visits]
      exact List.not_mem_nil
    · show found.facts.CallsIn target mode ↔ _
      rw [walked.facts, Input.noteAll_callsIn, visits, from_visits]
      rintro ⟨_, inside, _⟩
      exact List.not_mem_nil inside
    · show kind ∈ found.facts.returns ↔ _
      rw [walked.facts, Input.noteAll_returns, visits, from_visits]
      exact List.not_mem_nil

end

/-- A code image that is a whole segment. -/
def wholeSegment (code : List (BitVec 8)) : Mz.CodeSegment := ⟨⟨.normal 0, 0, code.length⟩, none⟩

def wholeBinary (code : List (BitVec 8)) : Binary := ⟨⟨code, []⟩, none, none⟩

def wholeInput (code : List (BitVec 8)) : Input :=
  inputOf none [] (wholeSegment code) (wholeBinary code) [] ⟨.normal 0, .ofNat 16 code.length⟩

theorem facts_exact_iff_call : ∃ found,
    buildWithRegionsAndData ⟨.normal 0, 0⟩ none [] (wholeSegment [0xff, 0x13, 0xc3])
      (wholeBinary [0xff, 0x13, 0xc3]) [] = .ok found ∧
    (FactsExact (wholeInput [0xff, 0x13, 0xc3]) ⟨.normal 0, 0⟩ found ↔
      (wholeInput [0xff, 0x13, 0xc3]).CalledFromOneBlock ⟨.normal 0, 0⟩) := by
  obtain ⟨found, built, _⟩ := Outcome.yields_iff.mp
    (show (buildWithRegionsAndData ⟨.normal 0, 0⟩ none [] (wholeSegment [0xff, 0x13, 0xc3])
      (wholeBinary [0xff, 0x13, 0xc3]) []).yields (fun _ => true) = true by decide +kernel)
  exact ⟨found, built, facts_exact_iff (by decide +kernel) built⟩

/-- A branch over a NOP to an indirect call. -/
def branchToCall : List (BitVec 8) := [0x74, 0x01, 0x90, 0xff, 0x13, 0xc3]

/-- The branch and its fallthrough run into the same call, which is counted twice. -/
theorem facts_counted_twice : ∃ found,
    buildWithRegionsAndData ⟨.normal 0, 0⟩ none [] (wholeSegment branchToCall)
      (wholeBinary branchToCall) [] = .ok found ∧ found.indirectCalls = 2 ∧
    ¬ FactsExact (wholeInput branchToCall) ⟨.normal 0, 0⟩ found := by
  obtain ⟨found, built, twice⟩ := Outcome.yields_iff.mp
    (show (buildWithRegionsAndData ⟨.normal 0, 0⟩ none [] (wholeSegment branchToCall)
      (wholeBinary branchToCall) []).yields (fun found => found.indirectCalls = 2) = true by
        decide +kernel)
  refine ⟨found, built, of_decide_eq_true twice, fun exact_ => ?_⟩
  have single : (wholeInput branchToCall).CalledFromOneBlock ⟨.normal 0, 0⟩ :=
    (indirectCalls_exact_iff (by decide +kernel) built).mp exact_.indirectCalls
  obtain ⟨branch, branched, leaves⟩ := Outcome.yields_iff.mp
    (show ((wholeInput branchToCall).look ⟨.normal 0, 0⟩).yields (fun seen =>
      (wholeInput branchToCall).exits seen = [⟨.normal 0, 3⟩, ⟨.normal 0, 2⟩]) = true by
        decide +kernel)
  obtain ⟨nop, passed, goes⟩ := Outcome.yields_iff.mp
    (show ((wholeInput branchToCall).look ⟨.normal 0, 2⟩).yields (fun seen =>
      (wholeInput branchToCall).goesOn seen = some (⟨.normal 0, 3⟩, false)) = true by
        decide +kernel)
  obtain ⟨called, looked, indirect⟩ := Outcome.yields_iff.mp
    (show ((wholeInput branchToCall).look ⟨.normal 0, 3⟩).yields (fun seen =>
      seen.details.call = some .indirect) = true by decide +kernel)
  have exits := of_decide_eq_true leaves
  have same := single ⟨.normal 0, 3⟩ ⟨.normal 0, 2⟩ ⟨.normal 0, 3⟩ false false called
    (.exit .start .start branched (by rw [exits]; simp))
    (.exit .start .start branched (by rw [exits]; simp))
    (.next .start passed (of_decide_eq_true goes)) .start looked (of_decide_eq_true indirect)
  exact absurd same (by decide)

end Dis86.Analyze
