import Dis86.Analyze.Discovery
import Mathlib.Data.Set.Card

namespace Dis86.Analyze
open Asm (Reg Seg SegOff)
open Lib (Outcome)

namespace Input

variable {input : Input}

/-- An address with its state is reached from the start, without regard to blocks. -/
inductive Reached (input : Input) (start : SegOff) : SegOff → Bool → Prop where
  | start : Reached input start start false
  | next {addr target : SegOff} {pending pending' : Bool} {seen : Seen}
      (reached : Reached input start addr pending) (looked : input.look addr = .ok seen)
      (goes : input.goesOn seen = some (target, pending')) : Reached input start target pending'
  | exit {addr target : SegOff} {pending : Bool} {seen : Seen}
      (reached : Reached input start addr pending) (looked : input.look addr = .ok seen)
      (leaves : target ∈ input.exits seen) : Reached input start target false

theorem reached_iff {start addr : SegOff} {pending : Bool} :
    Reached input start addr pending ↔
      ∃ block, Entry input start block ∧ RunsTo input block addr pending := by
  constructor
  · intro reached
    induction reached with
    | start => exact ⟨start, .start, .start⟩
    | next _ looked goes ih =>
        obtain ⟨block, entry, runs⟩ := ih
        exact ⟨block, entry, runs.next looked goes⟩
    | exit _ looked leaves ih =>
        obtain ⟨block, entry, runs⟩ := ih
        exact ⟨_, entry.exit runs looked leaves, .start⟩
  · rintro ⟨block, entry, runs⟩
    have from_block {block addr : SegOff} {pending : Bool}
        (first : Reached input start block false) (runs : RunsTo input block addr pending) :
        Reached input start addr pending := by
      induction runs with
      | start => exact first
      | next _ looked goes ih => exact ih.next looked goes
    have blocks {block : SegOff} (entry : Entry input start block) :
        Reached input start block false := by
      induction entry with
      | start => exact .start
      | exit _ runs looked leaves ih => exact (from_block ih runs).exit looked leaves
    exact from_block (blocks entry) runs

/-- The facts that all instructions together add. -/
def noteAll (found : Found) (visits : List Visit) : Found :=
  visits.foldl (fun found visit => note found visit.pushCsPending visit.seen) found

end Input

namespace Found

/-- What has been found, without the addresses that wait. -/
def facts (found : Found) : Found := { found with discovered := [], queued := [] }

theorem facts_extend (found : Found) (endAddr : SegOff) :
    (found.extend endAddr).facts = found.facts.extend endAddr := by
  unfold extend
  exact apply_ite facts (found.endAddrInferred.lt endAddr = true) _ _

theorem facts_addCall (found : Found) (ins : Asm.Instr) (pending : Bool) (call : Option Call) :
    (found.addCall ins pending call).facts = found.facts.addCall ins pending call := by
  rcases call with _ | _ | _ <;> rfl

theorem facts_addReturn (found : Found) (kind : ReturnKind) :
    (found.addReturn kind).facts = found.facts.addReturn kind := by
  unfold addReturn
  cases winning : found.returnKind with
  | none => simp only [facts, winning]
  | some winning' =>
      simp only [facts, winning]
      split
      · rfl
      · exact congrArg (fun kind => { found.facts with returnKind := kind }) winning

end Found

namespace Input

variable {input : Input}

theorem facts_note (found : Found) (pending : Bool) (seen : Seen) :
    (note found pending seen).facts = note found.facts pending seen := by
  unfold note
  cases seen.details.next with
  | ret kind =>
      simp only [Found.facts_addReturn, Found.facts_addCall, Found.facts_extend]
  | _ => simp only [Found.facts_addCall, Found.facts_extend]

theorem facts_recordAll (found : Found) (visits : List Visit) :
    (input.recordAll found visits).facts = noteAll found.facts visits := by
  induction visits generalizing found with
  | nil => rfl
  | cons visit visits ih =>
      have first : (input.record found visit.pushCsPending visit.seen).facts =
          note found.facts visit.pushCsPending visit.seen := by
        obtain ⟨_, _, same⟩ := Found.inserts_eq (note found visit.pushCsPending visit.seen)
          (input.exits visit.seen)
        rw [record_eq, same, ← facts_note]
        rfl
      show (input.recordAll (input.record found _ _) visits).facts = _
      rw [ih, first]
      rfl

namespace BlockRun

/-- A block has all the instructions to which it runs. -/
theorem complete {block addr : SegOff} {pending : Bool} {visits : List Visit}
    (run : BlockRun input block false visits) (runs : RunsTo input block addr pending) :
    ∃ before later, visits = before ++ later ∧ BlockRun input addr pending later := by
  induction runs with
  | start => exact ⟨[], visits, rfl, run⟩
  | @next addr target pending pending' seen _ looked goes ih =>
      obtain ⟨before, later, rfl, rest⟩ := ih
      cases rest with
      | last looked' ends =>
          obtain rfl := Outcome.ok.inj (looked.symm.trans looked')
          rw [goes] at ends
          cases ends
      | @more _ target' _ _ seen' visits looked' goes' rest =>
          obtain rfl := Outcome.ok.inj (looked.symm.trans looked')
          obtain ⟨rfl, rfl⟩ := Prod.mk.inj (Option.some.inj (goes.symm.trans goes'))
          exact ⟨before ++ [_], visits, by rw [List.append_assoc]; rfl, rest⟩

theorem mem_iff {block : SegOff} {visits : List Visit} (run : BlockRun input block false visits)
    (visit : Visit) : visit ∈ visits ↔
      RunsTo input block visit.addr visit.pushCsPending ∧ input.look visit.addr = .ok visit.seen := by
  constructor
  · exact run.runsTo .start
  · rintro ⟨runs, looked⟩
    obtain ⟨before, later, rfl, rest⟩ := run.complete runs
    apply List.mem_append_right
    obtain ⟨addr, pending, seen⟩ := visit
    cases rest with
    | last looked' _ =>
        obtain rfl := Outcome.ok.inj (looked.symm.trans looked')
        exact List.mem_cons_self
    | more looked' _ _ =>
        obtain rfl := Outcome.ok.inj (looked.symm.trans looked')
        exact List.mem_cons_self

end BlockRun

/-- What a walk of the queue does: its blocks, none walked twice, and all that they lead to. -/
structure WalkedFrom (input : Input) (start : SegOff) (found found' : Found)
    (blocks : List (SegOff × List Visit)) : Prop where
  runs : ∀ pair ∈ blocks, BlockRun input pair.1 false pair.2
  unique : (blocks.map Prod.fst).Nodup
  entries : ∀ block ∈ blocks.map Prod.fst, Entry input start block
  waiting : ∀ block ∈ found.queued, block ∈ blocks.map Prod.fst
  origin : ∀ block ∈ blocks.map Prod.fst, block ∈ found.queued ∨ block ∉ found.discovered
  closed : ∀ pair ∈ blocks, ∀ block ∈ input.leaves pair.2,
    block ∈ blocks.map Prod.fst ∨ block ∈ found.discovered
  facts : found'.facts = noteAll found.facts (blocks.flatMap Prod.snd)

/-- One block is walked before the others. -/
theorem WalkedFrom.cons {start loc : SegOff} {found found' : Found} {queued : List SegOff}
    {visits : List Visit} {blocks : List (SegOff × List Visit)} (tidy : found.Tidy)
    (shape : found.queued = loc :: queued) (entry : Entry input start loc)
    (run : BlockRun input loc false visits)
    (later : WalkedFrom input start (input.recordAll { found with queued } visits) found' blocks) :
    WalkedFrom input start found found' ((loc, visits) :: blocks) := by
  have unique := tidy.queued
  have known : loc ∈ found.discovered := tidy.subset (shape ▸ List.mem_cons_self)
  rw [shape] at unique
  have from_queue (block : SegOff) (inside : block ∈ blocks.map Prod.fst) :
      block ∈ queued ∨ block ∉ found.discovered := by
    have place := later.origin block inside
    rw [mem_queued_recordAll, mem_discovered_recordAll] at place
    tauto
  have left (block : SegOff) (leaves : block ∈ input.leaves visits) :
      block ∈ blocks.map Prod.fst ∨ block ∈ found.discovered := by
    by_cases old : block ∈ found.discovered
    · exact .inr old
    · exact .inl (later.waiting block (mem_queued_recordAll.mpr (.inr ⟨leaves, old⟩)))
  constructor
  case runs =>
    intro pair inside
    rcases List.mem_cons.mp inside with rfl | inside
    · exact run
    · exact later.runs pair inside
  case unique =>
    refine List.nodup_cons.mpr ⟨fun again => ?_, later.unique⟩
    exact (from_queue loc again).elim (List.nodup_cons.mp unique).1 fun fresh => fresh known
  case entries =>
    intro block inside
    rcases List.mem_cons.mp inside with rfl | inside
    · exact entry
    · exact later.entries block inside
  case waiting =>
    intro block inside
    rw [shape] at inside
    rcases List.mem_cons.mp inside with rfl | inside
    · exact List.mem_cons_self
    · exact List.mem_cons_of_mem loc
        (later.waiting block (mem_queued_recordAll.mpr (.inl inside)))
  case origin =>
    intro block inside
    rcases List.mem_cons.mp inside with rfl | inside
    · exact .inl (shape ▸ List.mem_cons_self)
    · exact (from_queue block inside).imp_left fun old => shape ▸ List.mem_cons_of_mem loc old
  case closed =>
    intro pair inside block leaves
    rcases List.mem_cons.mp inside with rfl | inside
    · exact (left block leaves).imp_left (List.mem_cons_of_mem loc)
    · rcases later.closed pair inside block leaves with walked | old
      · exact .inl (List.mem_cons_of_mem loc walked)
      · rcases mem_discovered_recordAll.mp old with old | leaves
        · exact .inr old
        · exact (left block leaves).imp_left (List.mem_cons_of_mem loc)
  case facts =>
    rw [later.facts, facts_recordAll, List.flatMap_cons, noteAll, noteAll, noteAll,
      List.foldl_append]
    rfl

theorem walkQueue_eq_ok {fuel : Nat} {found found' : Found} {start : SegOff} (tidy : found.Tidy)
    (entries : ∀ block ∈ found.queued, Entry input start block)
    (walked : input.walkQueue fuel found = .ok found') :
    ∃ blocks, WalkedFrom input start found found' blocks := by
  induction fuel generalizing found with
  | zero => cases walked
  | succ fuel ih =>
      unfold walkQueue at walked
      split at walked
      · rename_i empty
        obtain rfl := Outcome.ok.inj walked
        exact ⟨[], by simp, by simp, by simp, by simp [empty], by simp, by simp, rfl⟩
      · rename_i loc queued shape
        obtain ⟨middle, block, walked⟩ := Outcome.bind_eq_ok.mp walked
        obtain ⟨visits, run, rfl⟩ := walkBlock_eq_ok block
        have entry := entries loc (shape ▸ List.mem_cons_self)
        have later : ∀ block ∈ (input.recordAll { found with queued } visits).queued,
            Entry input start block := by
          intro block inside
          rcases mem_queued_recordAll.mp inside with old | ⟨left, _⟩
          · exact entries block (shape ▸ List.mem_cons_of_mem loc old)
          · exact leaves_entry entry run left
        obtain ⟨blocks, rest⟩ := ih (tidy_recordAll (tidy_pop tidy shape) visits) later walked
        exact ⟨_, rest.cons tidy shape entry run⟩

/-- A walk from the start has walked every block that the start reaches. -/
theorem WalkedFrom.mem_iff {start : SegOff} {found' : Found} {blocks : List (SegOff × List Visit)}
    (walked : WalkedFrom input start (initial start) found' blocks) (block : SegOff) :
    block ∈ blocks.map Prod.fst ↔ Entry input start block := by
  have first : start ∈ blocks.map Prod.fst := walked.waiting start (List.mem_singleton_self start)
  constructor
  · exact walked.entries block
  · intro entry
    induction entry with
    | start => exact first
    | exit _ runs looked leaves ih =>
        obtain ⟨pair, inside, rfl⟩ := List.mem_map.mp ih
        have visited := ((walked.runs pair inside).mem_iff ⟨_, _, _⟩).mpr ⟨runs, looked⟩
        rcases walked.closed pair inside _ (List.mem_flatMap.mpr ⟨_, visited, leaves⟩) with
          later | again
        · exact later
        · exact List.mem_singleton.mp again ▸ first

/-- The instructions that a walk records are those that the start reaches. -/
theorem WalkedFrom.visited_iff {start : SegOff} {found' : Found}
    {blocks : List (SegOff × List Visit)}
    (walked : WalkedFrom input start (initial start) found' blocks) (visit : Visit) :
    visit ∈ blocks.flatMap Prod.snd ↔
      Reached input start visit.addr visit.pushCsPending ∧
        input.look visit.addr = .ok visit.seen := by
  rw [List.mem_flatMap, reached_iff]
  constructor
  · rintro ⟨pair, inside, visited⟩
    obtain ⟨runs, looked⟩ := ((walked.runs pair inside).mem_iff visit).mp visited
    exact ⟨⟨pair.1, walked.entries pair.1 (List.mem_map_of_mem inside), runs⟩, looked⟩
  · rintro ⟨⟨block, entry, runs⟩, looked⟩
    obtain ⟨pair, inside, rfl⟩ := List.mem_map.mp ((walked.mem_iff block).mpr entry)
    exact ⟨pair, inside, ((walked.runs pair inside).mem_iff visit).mpr ⟨runs, looked⟩⟩

end Input

end Dis86.Analyze
