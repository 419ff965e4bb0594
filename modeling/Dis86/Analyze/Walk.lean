import Dis86.Analyze.FuncDetails

namespace Dis86.Analyze
open Asm (Reg Seg SegOff decodeOne)
open Lib (Outcome)

/-- An instruction of the walk, with the region in which it lies. -/
structure Seen where
  region : Option FuncRegion
  ins : Asm.Instr
  details : InstrDetails

def Found.extend (found : Found) (endAddr : SegOff) : Found :=
  if found.endAddrInferred.lt endAddr then { found with endAddrInferred := endAddr } else found

namespace Input

/-- The instruction of an address, under the bounds of the walk. -/
def decodeAt (input : Input) (addr : SegOff) :
    Outcome AnalysisError (Option FuncRegion × Asm.Instr) := do
  let region ← input.currentRegion addr
  match input.dataRegionContaining addr with
  | some data => .err (.insideData addr data)
  | none => return (region, ← input.decodeOneInstr addr (input.decodeEnd region addr))

def look (input : Input) (addr : SegOff) : Outcome AnalysisError Seen := do
  let (region, ins) ← input.decodeAt addr
  return ⟨region, ins, ← instrDetails ins input.binary input.segStart.seg⟩

/-- The address at which the block goes on, and whether a push of CS comes right before it. -/
def goesOn (input : Input) (seen : Seen) : Option (SegOff × Bool) :=
  match seen.details.next with
  | .fallthrough target =>
      if input.fallsThrough seen.region target then some (target, pushesCs seen.ins) else none
  | _ => none

/-- The blocks that follow a branch. -/
def exits (input : Input) (seen : Seen) : List SegOff :=
  match seen.details.next with
  | .jump targets fallthrough =>
      targets.filter input.follows ++ fallthrough.toList.filter input.followsFallthrough
  | _ => []

/-- What an instruction adds to what has been found. -/
def record (input : Input) (found : Found) (pushCsPending : Bool) (seen : Seen) : Found :=
  let found := (found.extend seen.ins.endAddr).addCall seen.ins pushCsPending seen.details.call
  let found := match seen.details.next with
    | .ret kind => found.addReturn kind
    | _ => found
  (input.exits seen).foldl Found.insert found

/-- An instruction is looked at without regard to what has been found. -/
theorem walkInstr_eq (input : Input) (found : Found) (addr : SegOff) (pushCsPending : Bool) :
    input.walkInstr found addr pushCsPending =
      input.look addr >>= fun seen =>
        return (input.record found pushCsPending seen, input.goesOn seen) := by
  unfold walkInstr look decodeAt
  cases input.currentRegion addr with
  | err e => rfl
  | panic => rfl
  | ok region =>
      simp only [Outcome.ok_bind]
      cases input.dataRegionContaining addr with
      | some data => rfl
      | none =>
          cases input.decodeOneInstr addr (input.decodeEnd region addr) with
          | err e => rfl
          | panic => rfl
          | ok ins =>
              cases detailed : instrDetails ins input.binary input.segStart.seg with
              | err e => simp only [detailed, Outcome.ok_bind, pure]; rfl
              | panic => simp only [detailed, Outcome.ok_bind, pure]; rfl
              | ok details =>
                  obtain ⟨next, call⟩ := details
                  simp only [detailed, Outcome.ok_bind, pure, record, goesOn, exits]
                  cases next with
                  | fallthrough target =>
                      simp only
                      split <;> rfl
                  | ret kind => rfl
                  | jump targets fallthrough =>
                      simp only [List.foldl_append]
                      rfl
                  | transfer => rfl

/-- A walk from a block comes to an address, with or without a push of CS right before it. -/
inductive RunsTo (input : Input) (block : SegOff) : SegOff → Bool → Prop where
  | start : RunsTo input block block false
  | next {addr target : SegOff} {pending pending' : Bool} {seen : Seen}
      (runs : RunsTo input block addr pending) (looked : input.look addr = .ok seen)
      (goes : input.goesOn seen = some (target, pending')) : RunsTo input block target pending'

/-- The blocks that a function reaches from its start. -/
inductive Entry (input : Input) (start : SegOff) : SegOff → Prop where
  | start : Entry input start start
  | exit {block addr target : SegOff} {pending : Bool} {seen : Seen}
      (entry : Entry input start block) (runs : RunsTo input block addr pending)
      (looked : input.look addr = .ok seen) (leaves : target ∈ input.exits seen) :
      Entry input start target

/-- An instruction at which the walk comes by. -/
structure Visit where
  addr : SegOff
  pushCsPending : Bool
  seen : Seen

/-- The instructions of a block, up to the one that ends it. -/
inductive BlockRun (input : Input) : SegOff → Bool → List Visit → Prop where
  | last {addr : SegOff} {pending : Bool} {seen : Seen} (looked : input.look addr = .ok seen)
      (ends : input.goesOn seen = none) : BlockRun input addr pending [⟨addr, pending, seen⟩]
  | more {addr target : SegOff} {pending pending' : Bool} {seen : Seen} {visits : List Visit}
      (looked : input.look addr = .ok seen)
      (goes : input.goesOn seen = some (target, pending'))
      (rest : BlockRun input target pending' visits) :
      BlockRun input addr pending (⟨addr, pending, seen⟩ :: visits)

def recordAll (input : Input) (found : Found) (visits : List Visit) : Found :=
  visits.foldl (fun found visit => input.record found visit.pushCsPending visit.seen) found

variable {input : Input}

theorem walkBlock_succ (fuel : Nat) (found : Found) (addr : SegOff) (pending : Bool) :
    input.walkBlock (fuel + 1) found addr pending =
      input.look addr >>= fun seen =>
        match input.goesOn seen with
        | some (target, pending') =>
            input.walkBlock fuel (input.record found pending seen) target pending'
        | none => return input.record found pending seen := by
  rw [walkBlock, walkInstr_eq]
  cases input.look addr with
  | err e => rfl
  | panic => rfl
  | ok seen => rfl

theorem walkBlock_eq_ok {fuel : Nat} {found found' : Found} {addr : SegOff} {pending : Bool}
    (walked : input.walkBlock fuel found addr pending = .ok found') :
    ∃ visits, BlockRun input addr pending visits ∧ found' = input.recordAll found visits := by
  induction fuel generalizing found addr pending with
  | zero => cases walked
  | succ fuel ih =>
      rw [walkBlock_succ] at walked
      obtain ⟨seen, looked, walked⟩ := Outcome.bind_eq_ok.mp walked
      cases goes : input.goesOn seen with
      | none =>
          rw [goes] at walked
          exact ⟨_, .last looked goes, (Outcome.ok.inj walked).symm⟩
      | some next =>
          obtain ⟨target, pending'⟩ := next
          rw [goes] at walked
          obtain ⟨visits, run, rfl⟩ := ih walked
          exact ⟨_, .more looked goes run, rfl⟩

namespace BlockRun

/-- Every instruction of a block is one to which the block runs. -/
theorem runsTo {block addr : SegOff} {pending : Bool} {visits : List Visit}
    (run : BlockRun input addr pending visits) (runs : RunsTo input block addr pending)
    {visit : Visit} (inside : visit ∈ visits) :
    RunsTo input block visit.addr visit.pushCsPending ∧
      input.look visit.addr = .ok visit.seen := by
  induction run with
  | last looked ends =>
      obtain rfl := List.mem_singleton.mp inside
      exact ⟨runs, looked⟩
  | more looked goes rest ih =>
      rcases List.mem_cons.mp inside with rfl | later
      · exact ⟨runs, looked⟩
      · exact ih (runs.next looked goes) later

end BlockRun

end Input

namespace Found

theorem mem_queueInsert {addr other : SegOff} {queued : List SegOff} :
    other ∈ queueInsert addr queued ↔ other = addr ∨ other ∈ queued := by
  induction queued with
  | nil => simp [queueInsert]
  | cons next rest ih =>
      unfold queueInsert
      split
      · simp
      · rw [List.mem_cons, ih, List.mem_cons]
        tauto

theorem nodup_queueInsert {addr : SegOff} {queued : List SegOff} (unique : queued.Nodup)
    (fresh : addr ∉ queued) : (queueInsert addr queued).Nodup := by
  induction queued with
  | nil => simp [queueInsert]
  | cons next rest ih =>
      unfold queueInsert
      split
      · exact unique.cons fresh
      · rw [List.mem_cons, not_or] at fresh
        have apart := List.nodup_cons.mp unique
        refine (ih apart.2 fresh.2).cons ?_
        rw [mem_queueInsert, not_or]
        exact ⟨Ne.symm fresh.1, apart.1⟩

/-- The queue holds no address twice, and only addresses that have been discovered. -/
structure Tidy (found : Found) : Prop where
  discovered : found.discovered.Nodup
  queued : found.queued.Nodup
  subset : found.queued ⊆ found.discovered

theorem mem_discovered_insert {found : Found} {addr other : SegOff} :
    other ∈ (found.insert addr).discovered ↔ other = addr ∨ other ∈ found.discovered := by
  unfold insert
  split
  · rename_i old
    constructor
    · exact .inr
    · rintro (rfl | inside)
      · exact old
      · exact inside
  · exact List.mem_cons

theorem mem_queued_insert {found : Found} {addr other : SegOff} :
    other ∈ (found.insert addr).queued ↔
      other ∈ found.queued ∨ other = addr ∧ addr ∉ found.discovered := by
  unfold insert
  split
  · rename_i old
    simp [old]
  · rename_i fresh
    simp [mem_queueInsert, fresh, or_comm]

theorem Tidy.insert {found : Found} (tidy : found.Tidy) (addr : SegOff) :
    (found.insert addr).Tidy := by
  unfold Found.insert
  split
  · exact tidy
  · rename_i fresh
    refine ⟨tidy.discovered.cons fresh, ?_, ?_⟩
    · exact nodup_queueInsert tidy.queued fun inside => fresh (tidy.subset inside)
    · intro other inside
      rcases mem_queueInsert.mp inside with rfl | old
      · exact List.mem_cons_self
      · exact List.mem_cons_of_mem _ (tidy.subset old)

theorem mem_discovered_inserts {found : Found} {addrs : List SegOff} {other : SegOff} :
    other ∈ (addrs.foldl Found.insert found).discovered ↔
      other ∈ found.discovered ∨ other ∈ addrs := by
  induction addrs generalizing found with
  | nil => simp
  | cons addr addrs ih =>
      rw [List.foldl_cons, ih, mem_discovered_insert, List.mem_cons]
      tauto

theorem mem_queued_inserts {found : Found} {addrs : List SegOff} {other : SegOff} :
    other ∈ (addrs.foldl Found.insert found).queued ↔
      other ∈ found.queued ∨ other ∈ addrs ∧ other ∉ found.discovered := by
  induction addrs generalizing found with
  | nil => simp
  | cons addr addrs ih =>
      rw [List.foldl_cons, ih, mem_queued_insert, mem_discovered_insert, List.mem_cons]
      by_cases same : other = addr
      · subst same
        tauto
      · tauto

theorem Tidy.inserts {found : Found} (tidy : found.Tidy) (addrs : List SegOff) :
    (addrs.foldl Found.insert found).Tidy := by
  induction addrs generalizing found with
  | nil => exact tidy
  | cons addr addrs ih => exact ih (tidy.insert addr)

section
variable (found : Found) (endAddr : SegOff) (ins : Asm.Instr) (pending : Bool) (call : Option Call)
  (kind : ReturnKind)

@[simp] theorem extend_discovered : (found.extend endAddr).discovered = found.discovered := by
  unfold extend
  split <;> rfl

@[simp] theorem extend_queued : (found.extend endAddr).queued = found.queued := by
  unfold extend
  split <;> rfl

@[simp] theorem addCall_discovered :
    (found.addCall ins pending call).discovered = found.discovered := by
  rcases call with _ | _ | _ <;> rfl

@[simp] theorem addCall_queued : (found.addCall ins pending call).queued = found.queued := by
  rcases call with _ | _ | _ <;> rfl

@[simp] theorem addReturn_discovered : (found.addReturn kind).discovered = found.discovered := by
  unfold addReturn
  split
  · rfl
  · split <;> rfl

@[simp] theorem addReturn_queued : (found.addReturn kind).queued = found.queued := by
  unfold addReturn
  split
  · rfl
  · split <;> rfl

end

end Found

namespace Input

variable {input : Input}

/-- What an instruction adds, before its exits are queued. -/
def note (found : Found) (pushCsPending : Bool) (seen : Seen) : Found :=
  let found := (found.extend seen.ins.endAddr).addCall seen.ins pushCsPending seen.details.call
  match seen.details.next with
  | .ret kind => found.addReturn kind
  | _ => found

theorem record_eq (found : Found) (pending : Bool) (seen : Seen) :
    input.record found pending seen =
      (input.exits seen).foldl Found.insert (note found pending seen) := rfl

@[simp] theorem note_discovered (found : Found) (pending : Bool) (seen : Seen) :
    (note found pending seen).discovered = found.discovered := by
  unfold note
  cases seen.details.next <;> simp

@[simp] theorem note_queued (found : Found) (pending : Bool) (seen : Seen) :
    (note found pending seen).queued = found.queued := by
  unfold note
  cases seen.details.next <;> simp

/-- The blocks that the instructions lead to. -/
def leaves (input : Input) (visits : List Visit) : List SegOff :=
  visits.flatMap fun visit => input.exits visit.seen

theorem leaves_entry {start loc : SegOff} {visits : List Visit} (entry : Entry input start loc)
    (run : BlockRun input loc false visits) {block : SegOff} (left : block ∈ input.leaves visits) :
    Entry input start block := by
  obtain ⟨visit, visited, leaves⟩ := List.mem_flatMap.mp left
  have reached := run.runsTo .start visited
  exact entry.exit reached.1 reached.2 leaves

theorem mem_discovered_recordAll {found : Found} {visits : List Visit} {other : SegOff} :
    other ∈ (input.recordAll found visits).discovered ↔
      other ∈ found.discovered ∨ other ∈ input.leaves visits := by
  induction visits generalizing found with
  | nil => simp [recordAll, leaves]
  | cons visit visits ih =>
      show other ∈ (input.recordAll (input.record found _ _) visits).discovered ↔ _
      rw [ih, record_eq, Found.mem_discovered_inserts, note_discovered, leaves, leaves,
        List.flatMap_cons, List.mem_append, or_assoc]

theorem mem_queued_recordAll {found : Found} {visits : List Visit} {other : SegOff} :
    other ∈ (input.recordAll found visits).queued ↔
      other ∈ found.queued ∨ other ∈ input.leaves visits ∧ other ∉ found.discovered := by
  induction visits generalizing found with
  | nil => simp [recordAll, leaves]
  | cons visit visits ih =>
      show other ∈ (input.recordAll (input.record found _ _) visits).queued ↔ _
      rw [ih, record_eq, Found.mem_queued_inserts, Found.mem_discovered_inserts, note_queued,
        note_discovered, leaves, leaves, List.flatMap_cons, List.mem_append]
      tauto

theorem tidy_recordAll {found : Found} (tidy : found.Tidy) (visits : List Visit) :
    (input.recordAll found visits).Tidy := by
  induction visits generalizing found with
  | nil => exact tidy
  | cons visit visits ih =>
      apply ih
      show (input.record found visit.pushCsPending visit.seen).Tidy
      rw [record_eq]
      apply Found.Tidy.inserts
      exact ⟨by rw [note_discovered]; exact tidy.discovered, by rw [note_queued]; exact tidy.queued,
        by rw [note_queued, note_discovered]; exact tidy.subset⟩

/-- A block is taken off the queue. -/
theorem tidy_pop {found : Found} {loc : SegOff} {queued : List SegOff} (tidy : found.Tidy)
    (first : found.queued = loc :: queued) : ({ found with queued } : Found).Tidy := by
  have unique := tidy.queued
  have subset := tidy.subset
  rw [first] at unique subset
  exact ⟨tidy.discovered, (List.nodup_cons.mp unique).2,
    fun other inside => subset (List.mem_cons_of_mem loc inside)⟩

/-- The instructions that a walk from an address decodes. -/
def blockTrace (input : Input) : Nat → SegOff → List Asm.Instr
  | 0, _ => []
  | fuel + 1, addr =>
      match input.decodeAt addr with
      | .ok (_, ins) =>
          ins :: match input.look addr with
            | .ok seen =>
                match input.goesOn seen with
                | some (target, _) => blockTrace input fuel target
                | none => []
            | _ => []
      | _ => []

/-- The blocks that a walk pops, each with the instructions that it decodes there. -/
def queueTrace (input : Input) : Nat → Found → List (SegOff × List Asm.Instr)
  | 0, _ => []
  | fuel + 1, found =>
      match found.queued with
      | [] => []
      | loc :: queued =>
          (loc, input.blockTrace blockFuel loc) ::
            match input.walkBlock blockFuel { found with queued } loc false with
            | .ok found => queueTrace input fuel found
            | _ => []

theorem blockTrace_runsTo {fuel : Nat} {block addr : SegOff} {pending : Bool} {ins : Asm.Instr}
    (runs : RunsTo input block addr pending) (inside : ins ∈ input.blockTrace fuel addr) :
    ∃ addr pending region, RunsTo input block addr pending ∧
      input.decodeAt addr = .ok (region, ins) := by
  induction fuel generalizing addr pending with
  | zero => cases inside
  | succ fuel ih =>
      unfold blockTrace at inside
      split at inside
      · rename_i region found decoded
        rcases List.mem_cons.mp inside with rfl | later
        · exact ⟨addr, pending, region, runs, decoded⟩
        · split at later
          · rename_i seen looked
            split at later
            · rename_i target _ goes
              exact ih (runs.next looked goes) later
            · cases later
          · cases later
      · cases inside

/-- No block is popped twice, and what is popped is in the queue or still to be discovered. -/
theorem queueTrace_unique {fuel : Nat} {found : Found} (tidy : found.Tidy) :
    ((input.queueTrace fuel found).map Prod.fst).Nodup ∧
      ∀ block ∈ (input.queueTrace fuel found).map Prod.fst,
        block ∈ found.queued ∨ block ∉ found.discovered := by
  induction fuel generalizing found with
  | zero => simp [queueTrace]
  | succ fuel ih =>
      unfold queueTrace
      split
      · simp
      · rename_i loc queued first
        have unique := tidy.queued
        have waiting : loc ∈ found.queued := first ▸ List.mem_cons_self
        have known : loc ∈ found.discovered := tidy.subset waiting
        rw [first] at unique
        cases walked : input.walkBlock blockFuel { found with queued } loc false with
        | err e => simp [waiting]
        | panic => simp [waiting]
        | ok found' =>
            obtain ⟨visits, _, rfl⟩ := walkBlock_eq_ok walked
            obtain ⟨nodup, origin⟩ := ih (tidy_recordAll (tidy_pop tidy first) visits)
            have later (block : SegOff)
                (inside : block ∈ (input.queueTrace fuel
                  (input.recordAll { found with queued } visits)).map Prod.fst) :
                block ∈ queued ∨ block ∉ found.discovered := by
              have place := origin block inside
              rw [mem_queued_recordAll, mem_discovered_recordAll] at place
              tauto
            simp only [List.map_cons, List.nodup_cons, List.mem_cons]
            refine ⟨⟨fun again => ?_, nodup⟩, ?_⟩
            · exact (later loc again).elim (List.nodup_cons.mp unique).1 fun fresh => fresh known
            · rintro block (rfl | inside)
              · exact .inl waiting
              · exact (later block inside).imp_left fun old => first ▸ List.mem_cons_of_mem loc old

/-- The walk decodes only what the start reaches. -/
theorem queueTrace_entry {fuel : Nat} {found : Found} {start : SegOff}
    (entries : ∀ block ∈ found.queued, Entry input start block) :
    ∀ pair ∈ input.queueTrace fuel found, Entry input start pair.1 ∧
      ∀ ins ∈ pair.2, ∃ addr pending region, RunsTo input pair.1 addr pending ∧
        input.decodeAt addr = .ok (region, ins) := by
  induction fuel generalizing found with
  | zero => simp [queueTrace]
  | succ fuel ih =>
      unfold queueTrace
      split
      · simp
      · rename_i loc queued first
        have entry : Entry input start loc := entries loc (first ▸ List.mem_cons_self)
        intro pair inside
        rcases List.mem_cons.mp inside with rfl | later
        · exact ⟨entry, fun ins decoded => blockTrace_runsTo .start decoded⟩
        · split at later
          · rename_i found' walked
            obtain ⟨visits, run, rfl⟩ := walkBlock_eq_ok walked
            refine ih (fun block waiting => ?_) pair later
            rcases mem_queued_recordAll.mp waiting with old | ⟨left, _⟩
            · exact entries block (first ▸ List.mem_cons_of_mem loc old)
            · exact leaves_entry entry run left
          · cases later

end Input

end Dis86.Analyze
