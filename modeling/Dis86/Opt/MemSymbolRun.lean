import Dis86.Opt.MemSymbolLift
import Mathlib.Data.List.Induction

namespace Dis86.Opt
open Lib IR

variable {Value : Type}

/-- Each local slot has its memory and, as ghost state, the value last written to it. -/
structure Slots (Value : Type) where
  mem : Nat → Option Value
  last : Nat → Option Value

/-- An access in memory form was left alone by the pass. -/
def inMemory (next : IR) (r : Ref) : Bool :=
  (next.instr? r).any fun instr => instr.opcode = .writeVar16

/-- A write updates the last value, and in memory form it also updates the memory. -/
def runAccess (next : IR) (env : Ref → Option Value) (slots : Slots Value) : Access → Slots Value
  | .write slot r => {
      mem := if inMemory next r then Function.update slots.mem slot (env r) else slots.mem
      last := Function.update slots.last slot (env r) }
  | .read _ _ => slots

def runAccesses (next : IR) (env : Ref → Option Value) (slots : Slots Value)
    (accesses : List Access) : Slots Value :=
  accesses.foldl (runAccess next env) slots

/-- A read in reference form has its operand's value, and one in memory form reads the memory. -/
def readValue (next : IR) (env : Ref → Option Value) (slots : Slots Value) (slot : Nat) (r : Ref) :
    Option Value :=
  match next.instr? r with
  | some instr =>
      match instr.opcode with
      | .ref => instr.operands[0]?.bind env
      | .readVar16 => slots.mem slot
      | _ => none
  | none => none

/-- Every write of the block stores a value. -/
def Writes (ir : IR) (b : BlockRef) (env : Ref → Option Value) : Prop :=
  ∀ slot r, .write slot r ∈ accesses ir b → (env r).isSome

/-- A run of the rewritten function over the accesses of the original one. The execution supplies
the value that each write stores. -/
inductive SlotRun (ir next : IR) (entry : BlockRef) (constants : Ref → Option Value)
    (memory : Nat → Option Value) : BlockRef → (Ref → Option Value) → Slots Value → Prop where
  | start (fresh : Ref → Option Value)
      (writes : Writes ir entry
        (next.values.visit entry none fresh (next.values.initial constants))) :
      SlotRun ir next entry constants memory entry
        (next.values.visit entry none fresh (next.values.initial constants)) ⟨memory, fun _ => none⟩
  | step {env slots b} (node : BlockRef) (i : Nat) (fresh : Ref → Option Value)
      (before : SlotRun ir next entry constants memory node env slots)
      (edge : (ir.preds b)[i]? = some node)
      (writes : Writes ir b (next.values.visit b (some i) fresh env)) :
      SlotRun ir next entry constants memory b (next.values.visit b (some i) fresh env)
        (runAccesses next env slots (accesses ir node))

/-- Each read of a block yields the value last written to its slot. -/
def ReadsLast (next : IR) (env : Ref → Option Value) (slots : Slots Value)
    (accesses : List Access) : Prop :=
  ∀ before slot r after, accesses = before ++ .read slot r :: after →
    ∀ v, (runAccesses next env slots before).last slot = some v →
      readValue next env (runAccesses next env slots before) slot r = some v

/-- The block of the last write to a slot on some path that arrives at a block. -/
inductive LastWriter (ir : IR) (entry : BlockRef) (slot : Nat) : BlockRef → Option BlockRef → Prop where
  | start : LastWriter ir entry slot entry none
  | step {w b} (node : BlockRef) (i : Nat) (before : LastWriter ir entry slot node w)
      (edge : (ir.preds b)[i]? = some node) :
      LastWriter ir entry slot b (if (lastWrite slot (accesses ir node)).isSome then some node else w)

/-- The block reads the slot before it writes it. -/
def ExposedRead (ir : IR) (slot : Nat) (b : BlockRef) : Prop :=
  ∃ before r after, accesses ir b = before ++ .read slot r :: after ∧ lastWrite slot before = none

/-- No write reaches a read when only one of the two blocks keeps its accesses in memory. -/
def Separated (ir : IR) (entry : BlockRef) : Prop :=
  ∀ slot b w, LastWriter ir entry slot b (some w) → ExposedRead ir slot b →
    clobbers ir w = clobbers ir b

section Accesses

variable {ir next : IR} {env : Ref → Option Value} {slots : Slots Value}

theorem runAccesses_append (before : List Access) (access : Access) :
    runAccesses next env slots (before ++ [access]) =
      runAccess next env (runAccesses next env slots before) access := by
  simp [runAccesses]

/-- After some accesses the last value of a slot is the one of its last write. -/
theorem runAccesses_last (accesses : List Access) (slot : Nat) :
    (runAccesses next env slots accesses).last slot =
      match lastWrite slot accesses with
      | some r => env r
      | none => slots.last slot := by
  induction accesses using List.reverseRecOn with
  | nil => rfl
  | append_singleton before access ih =>
      rw [runAccesses_append, lastWrite_append]
      cases access with
      | read other r => exact ih
      | write other r =>
          by_cases same : other = slot
          · subst same
            simp [runAccess, Access.writes]
          · have away : slot ≠ other := fun h => same h.symm
            simpa [runAccess, Access.writes, same, Function.update_of_ne away] using ih

/-- Accesses in memory form leave the last written value in the memory. -/
theorem runAccesses_mem (accesses : List Access) (slot : Nat)
    (memory : ∀ r, .write slot r ∈ accesses → inMemory next r = true) :
    (runAccesses next env slots accesses).mem slot =
      match lastWrite slot accesses with
      | some r => env r
      | none => slots.mem slot := by
  induction accesses using List.reverseRecOn with
  | nil => rfl
  | append_singleton before access ih =>
      have ih := ih fun r inside => memory r (List.mem_append_left _ inside)
      rw [runAccesses_append, lastWrite_append]
      cases access with
      | read other r => exact ih
      | write other r =>
          by_cases same : other = slot
          · subst same
            simp [runAccess, Access.writes, memory r (by simp)]
          · have away : slot ≠ other := fun h => same h.symm
            have kept : (runAccess next env (runAccesses next env slots before) (.write other r)).mem
                slot = (runAccesses next env slots before).mem slot := by
              simp only [runAccess]
              split
              · rw [Function.update_of_ne away]
              · rfl
            simpa [kept, Access.writes, same] using ih

/-- Accesses that are all lifted leave the memory alone. -/
theorem runAccesses_mem_lifted (accesses : List Access) (slot : Nat)
    (lifted : ∀ r, .write slot r ∈ accesses → inMemory next r = false) :
    (runAccesses next env slots accesses).mem slot = slots.mem slot := by
  induction accesses using List.reverseRecOn with
  | nil => rfl
  | append_singleton before access ih =>
      have ih := ih fun r inside => lifted r (List.mem_append_left _ inside)
      rw [runAccesses_append, ← ih]
      cases access with
      | read other r => rfl
      | write other r =>
          by_cases same : other = slot
          · subst same
            simp [runAccess, lifted r (by simp)]
          · have away : slot ≠ other := fun h => same h.symm
            simp only [runAccess]
            split
            · rw [Function.update_of_ne away]
            · rfl

theorem lastWrite_mem {slot : Nat} {accesses : List Access} {r : Ref}
    (last : lastWrite slot accesses = some r) : .write slot r ∈ accesses := by
  simp only [lastWrite] at last
  obtain ⟨access, inside, writes⟩ := List.exists_of_findSome?_eq_some last
  cases access with
  | read other s => simp [Access.writes] at writes
  | write other s =>
      simp only [Access.writes] at writes
      split at writes
      · rename_i same
        rw [Option.some.injEq] at writes
        subst same writes
        exact List.mem_reverse.mp inside
      · simp at writes

theorem mem_accesses {b : BlockRef} {access : Access} (inside : access ∈ accesses ir b) :
    access.ref ∈ ir.iterInstrs b ∧ access? ir access.ref = some access := by
  obtain ⟨r, listed, found⟩ := List.mem_filterMap.mp inside
  obtain ⟨same, _⟩ := access?_eq found
  rw [same]
  exact ⟨listed, found⟩

end Accesses

section Preservation

variable {ir next : IR} {store : Name → BlockRef → Option Ref} {owner : Ref → Option Name}
  {entry : BlockRef} {constants : Ref → Option Value} {memory : Nat → Option Value}

theorem access_slot_lt {b : BlockRef} {slot : Nat} {r : Ref}
    (inside : .write slot r ∈ accesses ir b ∨ .read slot r ∈ accesses ir b) :
    slot < ir.symbols.locals.length := by
  rcases inside with inside | inside <;>
    obtain ⟨_, _, other, _, _, slotIn, _, ⟨same, _⟩ | ⟨same, _⟩⟩ := access?_eq (mem_accesses inside).2
  · simp only [Access.write.injEq] at same
    rwa [same.1]
  · simp at same
  · simp at same
  · simp only [Access.read.injEq] at same
    rwa [same.1]

theorem Lifted.inMemory_clobbers (lifted : Lifted ir next store owner) {b : BlockRef} {slot : Nat}
    {r : Ref} (clobbering : clobbers ir b = true) (inside : .write slot r ∈ accesses ir b) :
    inMemory next r = true := by
  obtain ⟨listed, found⟩ := mem_accesses inside
  obtain ⟨_, instr, _, present, _, _, _, ⟨_, isWrite⟩ | ⟨same, _⟩⟩ := access?_eq found
  · have kept := lifted.kept b _ clobbering listed
    rw [present] at kept
    change next.instr? r = some instr at kept
    simp [inMemory, kept, isWrite]
  · simp at same

theorem Lifted.inMemory_lifted (lifted : Lifted ir next store owner) {b : BlockRef} {slot : Nat}
    {r : Ref} (quiet : clobbers ir b = false) (inside : .write slot r ∈ accesses ir b) :
    inMemory next r = false := by
  obtain ⟨before, after, split⟩ := List.append_of_mem inside
  obtain ⟨instr, found, isRef⟩ := lifted.rendered b before _ after quiet split
  simp [inMemory, found, isRef]

/-- A write is no phi, so a visit of its block computes it afresh. -/
theorem Lifted.write_plain (lifted : Lifted ir next store owner) {b : BlockRef} {slot : Nat}
    {r : Ref} (inside : .write slot r ∈ accesses ir b) :
    next.values.home r = some b ∧ next.values.operands r = none := by
  obtain ⟨listed, found⟩ := mem_accesses inside
  refine ⟨mem_iterInstrs listed, ?_⟩
  cases status : clobbers ir b with
  | true =>
      obtain ⟨_, instr, _, present, _, _, _, ⟨_, isWrite⟩ | ⟨same, _⟩⟩ := access?_eq found
      · have kept := lifted.kept b _ status listed
        rw [present] at kept
        change next.instr? r = some instr at kept
        simp [values, kept, isWrite]
      · simp at same
  | false =>
      obtain ⟨before, after, split⟩ := List.append_of_mem inside
      obtain ⟨instr, here, isRef⟩ := lifted.rendered b before _ after status split
      simp [values, here, isRef]

theorem Lifted.sound (lifted : Lifted ir next store owner) (slot : Nat) :
    (next.program store (localName ir slot)).Sound
      fun b r => owner r = some (localName ir slot) ∧ home r = some b :=
  lifted.ssa.program_sound lifted.allSealed (localName ir slot)

/-- Each block stores only its own lifted writes. -/
theorem Lifted.own (lifted : Lifted ir next store owner) {slot : Nat}
    (slotIn : slot < ir.symbols.locals.length) (b : BlockRef) (r : Ref)
    (stored : store (localName ir slot) b = some r) :
    clobbers ir b = false ∧ .write slot r ∈ accesses ir b ∧ home r = some b := by
  rw [lifted.stores slot b slotIn] at stored
  split at stored
  · simp at stored
  · rename_i quiet
    have inside := lastWrite_mem stored
    exact ⟨by simpa using quiet, inside, mem_iterInstrs (mem_accesses inside).1⟩

/-- After a block the memory of a slot changes only when the block keeps its accesses in memory. -/
theorem Lifted.block_mem (lifted : Lifted ir next store owner) (b : BlockRef) (slot : Nat)
    (env : Ref → Option Value) (slots : Slots Value) (part : List Access)
    (inside : ∀ access ∈ part, access ∈ accesses ir b) :
    (runAccesses next env slots part).mem slot =
      if clobbers ir b then
        match lastWrite slot part with
        | some r => env r
        | none => slots.mem slot
      else slots.mem slot := by
  split
  · rename_i clobbering
    exact runAccesses_mem part slot fun r present =>
      lifted.inMemory_clobbers clobbering (inside _ present)
  · rename_i quiet
    exact runAccesses_mem_lifted part slot fun r present =>
      lifted.inMemory_lifted (by simpa using quiet) (inside _ present)

/-- The last written value is in the memory or in the SSA variable, as its block decides. -/
structure Tracks (ir next : IR) (store : Name → BlockRef → Option Ref) (entry : BlockRef)
    (constants : Ref → Option Value) (slot : Nat) (b : BlockRef) (env : Ref → Option Value)
    (slots : Slots Value) (incoming : Option Value) (w : Option BlockRef) : Prop where
  writer : LastWriter ir entry slot b w
  execution : (next.program store (localName ir slot)).Execution entry constants b env incoming
  unwritten : w = none → slots.last slot = none
  lifted : ∀ c, w = some c → clobbers ir c = false → slots.last slot = incoming
  memory : ∀ c, w = some c → clobbers ir c = true → slots.last slot = slots.mem slot

theorem Lifted.program_stores (lifted : Lifted ir next store owner) {slot : Nat}
    (slotIn : slot < ir.symbols.locals.length) {b : BlockRef} {env : Ref → Option Value}
    (writes : Writes ir b env) :
    (next.program store (localName ir slot)).Stores b env := by
  intro r stored
  exact writes slot r (lifted.own slotIn b r stored).2.1

theorem SlotRun.tracks (lifted : Lifted ir next store owner) {slot : Nat}
    (slotIn : slot < ir.symbols.locals.length) {b : BlockRef} {env : Ref → Option Value}
    {slots : Slots Value} (run : SlotRun ir next entry constants memory b env slots) :
    ∃ incoming w, Tracks ir next store entry constants slot b env slots incoming w := by
  induction run with
  | start fresh writes =>
      refine ⟨none, none, .start, .start fresh (lifted.program_stores slotIn writes), fun _ => rfl,
        ?_, ?_⟩ <;> simp
  | @step env slots b node i fresh before edge writes ih =>
      obtain ⟨incoming, w, tracks⟩ := ih
      have edge' : ((next.program store (localName ir slot)).preds b)[i]? = some node := by
        change ((next.flow (localName ir slot)).preds b)[i]? = some node
        rw [lifted.preds]
        exact edge
      have last : (runAccesses next env slots (accesses ir node)).last slot = _ :=
        runAccesses_last (accesses ir node) slot
      have mem := lifted.block_mem node slot env slots (accesses ir node) fun _ inside => inside
      have stores := lifted.stores slot node slotIn
      refine ⟨_, _, .step node i tracks.writer edge,
        .step node i fresh tracks.execution edge' (lifted.program_stores slotIn writes), ?_, ?_, ?_⟩
      · intro nobody
        cases written : lastWrite slot (accesses ir node) with
        | none =>
            simp only [written, Option.isSome_none, Bool.false_eq_true, if_false] at nobody last
            rw [last, tracks.unwritten nobody]
        | some r => simp [written] at nobody
      · intro c writer quiet
        cases written : lastWrite slot (accesses ir node) with
        | none =>
            simp only [written, Option.isSome_none, Bool.false_eq_true, if_false] at writer last stores
            have free : store (localName ir slot) node = none := by
              rw [stores]
              split <;> rfl
            rw [last, tracks.lifted c writer quiet]
            simp [FlowProgram.outgoing, program, free]
        | some r =>
            simp only [written, Option.isSome_some, if_true, Option.some.injEq] at writer last stores
            subst writer
            simp only [quiet, Bool.false_eq_true, if_false] at stores
            rw [last]
            simp [FlowProgram.outgoing, program, stores]
      · intro c writer clobbering
        cases written : lastWrite slot (accesses ir node) with
        | none =>
            simp only [written, Option.isSome_none, Bool.false_eq_true, if_false, ite_self] at writer last mem
            rw [last, mem, tracks.memory c writer clobbering]
        | some r =>
            simp only [written, Option.isSome_some, if_true, Option.some.injEq] at writer last mem
            subst writer
            rw [last, mem, if_pos clobbering]

/-- Every read yields the last written value when no write reaches a read across the two forms. -/
theorem Lifted.readsLast (lifted : Lifted ir next store owner) (separated : Separated ir entry)
    {b : BlockRef} {env : Ref → Option Value} {slots : Slots Value}
    (run : SlotRun ir next entry constants memory b env slots) :
    ReadsLast next env slots (accesses ir b) := by
  intro before slot r after split v last
  have inside : .read slot r ∈ accesses ir b := by simp [split]
  have slotIn := access_slot_lt (.inr inside)
  obtain ⟨incoming, w, tracks⟩ := run.tracks lifted slotIn
  rw [runAccesses_last] at last
  -- A read after a write of its own block sees that write; any other read is exposed.
  have exposed : ∀ c, lastWrite slot before = none → w = some c → clobbers ir c = clobbers ir b := by
    intro c free writer
    exact separated slot b c (writer ▸ tracks.writer) ⟨before, r, after, split, free⟩
  cases status : clobbers ir b with
  | false =>
      obtain ⟨instr, vref, found, isRef, operands, answer⟩ :=
        lifted.rendered b before (.read slot r) after status split
      have value : readValue next env (runAccesses next env slots before) slot r = env vref := by
        simp [readValue, found, isRef, operands]
      rw [value]
      cases written : lastWrite slot before with
      | some s =>
          simp only [written] at last answer
          rw [answer]
          exact last
      | none =>
          simp only [written] at last answer
          cases writer : w with
          | none =>
              rw [tracks.unwritten writer] at last
              simp at last
          | some c =>
              rw [tracks.lifted c writer (by rw [exposed c written writer, status])] at last
              have own : ∀ node s, (next.program store (localName ir slot)).store node = some s →
                  (next.program store (localName ir slot)).home s = some node :=
                fun node s stored => (lifted.own slotIn node s stored).2.2
              exact ((lifted.sound slot).carries_own own tracks.execution).1 vref answer v last
  | true =>
      obtain ⟨listed, found⟩ := mem_accesses inside
      obtain ⟨_, instr, _, present, _, _, _, ⟨same, _⟩ | ⟨_, isRead⟩⟩ := access?_eq found
      · simp at same
      · have kept := lifted.kept b _ status listed
        rw [present] at kept
        change next.instr? r = some instr at kept
        have value : readValue next env (runAccesses next env slots before) slot r =
            (runAccesses next env slots before).mem slot := by
          simp [readValue, kept, isRead]
        rw [value, lifted.block_mem b slot env slots before (fun _ early => by simp [split, early]),
          if_pos status]
        cases written : lastWrite slot before with
        | some s =>
            simp only [written] at last ⊢
            exact last
        | none =>
            simp only [written] at last ⊢
            cases writer : w with
            | none =>
                rw [tracks.unwritten writer] at last
                simp at last
            | some c =>
                rw [← tracks.memory c writer (by rw [exposed c written writer, status])]
                exact last

/-- Every visit of a block writes, whatever constant its instructions compute. -/
theorem Lifted.writes_constant (lifted : Lifted ir next store owner) (b : BlockRef)
    (arrival : Option Nat) (value : Value) (env : Ref → Option Value) :
    Writes ir b (next.values.visit b arrival (fun _ => some value) env) := by
  intro slot r inside
  obtain ⟨place, plain⟩ := lifted.write_plain inside
  rw [Values.visit_fresh arrival _ env place plain]
  rfl

/-- No value and no slot holds the mark. -/
structure Unmarked (env : Ref → Option Bool) (slots : Slots Bool) : Prop where
  env : ∀ r, env r ≠ some true
  mem : ∀ slot, slots.mem slot ≠ some true

/-- Unmarked values stay unmarked through the accesses of a block. -/
theorem runAccesses_unmarked {env : Ref → Option Bool} {slots : Slots Bool}
    (unmarked : Unmarked env slots) (accesses : List Access) :
    ∀ slot, (runAccesses next env slots accesses).mem slot ≠ some true := by
  induction accesses using List.reverseRecOn with
  | nil => exact unmarked.mem
  | append_singleton before access ih =>
      rw [runAccesses_append]
      cases access with
      | read other r => exact ih
      | write other r =>
          intro slot
          simp only [runAccess]
          split
          · by_cases same : slot = other
            · rw [same, Function.update_self]
              exact unmarked.env r
            · rw [Function.update_of_ne same]
              exact ih slot
          · exact ih slot

/-- A merge and every value of another block stay unmarked while one block is visited. -/
theorem visit_unmarked {env : Ref → Option Bool} (unmarked : ∀ r, env r ≠ some true) (b : BlockRef)
    (arrival : Option Nat) (value : Bool) (r : Ref)
    (older : next.values.home r ≠ some b ∨ (next.values.operands r).isSome) :
    next.values.visit b arrival (fun _ => some value) env r ≠ some true := by
  by_cases here : next.values.home r = some b
  · obtain ⟨operands, merge⟩ := Option.isSome_iff_exists.mp (older.resolve_left fun away => away here)
    simp only [Values.visit, here, if_true, merge]
    cases arrival.bind fun i => operands[i]? with
    | none => simp
    | some s => exact unmarked s
  · rw [Values.visit_away arrival _ env here]
    exact unmarked r

/-- Every path has a run that computes one constant in its last block and no mark before. -/
theorem Lifted.quiet_run (lifted : Lifted ir next store owner) {slot : Nat} {b : BlockRef}
    {w : Option BlockRef} (path : LastWriter ir entry slot b w) (value : Bool) :
    ∃ env slots, SlotRun ir next entry (fun _ => none) (fun _ => none) b env slots ∧
      (∀ r, next.values.home r ≠ some b ∨ (next.values.operands r).isSome → env r ≠ some true) ∧
      (∀ r, next.values.home r = some b → next.values.operands r = none → env r = some value) ∧
      ∀ slot, slots.mem slot ≠ some true := by
  induction path generalizing value with
  | start =>
      refine ⟨_, _, .start (fun _ => some value) (lifted.writes_constant _ none value _), ?_, ?_, ?_⟩
      · refine visit_unmarked (fun r => ?_) entry none value
        simp [Values.initial]
      · intro r place plain
        exact Values.visit_fresh none _ _ place plain
      · simp
  | @step w b node i before edge ih =>
      obtain ⟨env, slots, run, older, fresh, mem⟩ := ih false
      have unmarked : ∀ r, env r ≠ some true := by
        intro r
        by_cases here : next.values.home r = some node ∧ next.values.operands r = none
        · simp [fresh r here.1 here.2]
        · refine older r ?_
          rw [not_and_or] at here
          exact here.imp_right Option.isSome_iff_ne_none.mpr
      refine ⟨_, _, .step node i (fun _ => some value) run edge (lifted.writes_constant b _ value _),
        visit_unmarked unmarked b (some i) value, ?_, runAccesses_unmarked ⟨unmarked, mem⟩ _⟩
      intro r place plain
      exact Values.visit_fresh (some i) _ _ place plain

/-- The values that can answer for the variable of a slot. -/
def Tracked (ir : IR) (store : Name → BlockRef → Option Ref) (owner : Ref → Option Name) (slot : Nat)
    (r : Ref) : Prop :=
  owner r = some (localName ir slot) ∨ ∃ b, store (localName ir slot) b = some r

theorem Lifted.owned_merge (lifted : Lifted ir next store owner) {sym : Name} {r : Ref}
    (owned : owner r = some sym) : (next.values.operands r).isSome := by
  obtain ⟨instr, found, isPhi⟩ := lifted.ssa.phi sym r owned
  simp [values, found, isPhi]

/-- An unmarked visit keeps the tracked values unmarked. -/
theorem Lifted.visit_tracked (lifted : Lifted ir next store owner) {slot : Nat} {b node : BlockRef}
    {i : Nat} {env : Ref → Option Bool} (slotIn : slot < ir.symbols.locals.length)
    (edge : (ir.preds b)[i]? = some node) (unmarked : ∀ r, Tracked ir store owner slot r → env r ≠ some true) (r : Ref)
    (tracked : Tracked ir store owner slot r) :
    next.values.visit b (some i) (fun _ => some false) env r ≠ some true := by
  by_cases here : next.values.home r = some b
  · cases merge : next.values.operands r with
    | none => simp [Values.visit_fresh (some i) _ env here merge]
    | some operands =>
        simp only [Values.visit, here, if_true, merge, Option.bind_some]
        cases taken : operands[i]? with
        | none => simp
        | some s =>
            have owned : owner r = some (localName ir slot) := by
              rcases tracked with owned | ⟨c, stored⟩
              · exact owned
              · have plain := (lifted.write_plain (lifted.own slotIn c r stored).2.1).2
                simp [plain] at merge
            obtain ⟨operands', t, merge', taken', resolved⟩ :=
              (lifted.sound slot).operand ⟨owned, here⟩ (by
                change ((next.flow _).preds b)[i]? = some node
                rw [lifted.preds]
                exact edge)
            have sameOperands : operands' = operands := by
              have := merge'.symm.trans merge
              simpa using this
            subst sameOperands
            rw [taken, Option.some.injEq] at taken'
            subst taken'
            obtain ⟨source, _, kind⟩ := (lifted.sound slot).resolved_source resolved
            rcases kind with stored | ⟨_, owned, _⟩
            · exact unmarked s (.inr ⟨source, stored⟩)
            · exact unmarked s (.inl owned)
  · rw [Values.visit_away (some i) _ env here]
    exact unmarked r tracked

/-- Every path with a write has a run in which only the last write stores the mark, so the mark is
in the memory or in the tracked values, but not in both. -/
theorem Lifted.marked_run (lifted : Lifted ir next store owner) {slot : Nat}
    (slotIn : slot < ir.symbols.locals.length) {b : BlockRef} {w : Option BlockRef}
    (path : LastWriter ir entry slot b w) {c : BlockRef} (writer : w = some c) :
    ∃ env slots, SlotRun ir next entry (fun _ => none) (fun _ => none) b env slots ∧
      slots.last slot = some true ∧ (clobbers ir c = false → slots.mem slot ≠ some true) ∧
      (clobbers ir c = true → ∀ r, Tracked ir store owner slot r → env r ≠ some true) := by
  induction path with
  | start => simp at writer
  | @step w b node i before edge ih =>
      cases written : lastWrite slot (accesses ir node) with
      | none =>
          simp only [written, Option.isSome_none, Bool.false_eq_true, if_false] at writer
          obtain ⟨env, slots, run, last, mem, tracked⟩ := ih writer
          refine ⟨_, _, .step node i (fun _ => some false) run edge
            (lifted.writes_constant b _ false _), ?_, ?_, ?_⟩
          · rw [runAccesses_last]
            simpa [written] using last
          · intro quiet
            rw [lifted.block_mem node slot env slots (accesses ir node) fun _ inside => inside]
            simpa [written] using mem quiet
          · intro clobbering
            exact lifted.visit_tracked slotIn edge (tracked clobbering)
      | some r =>
          simp only [written, Option.isSome_some, if_true, Option.some.injEq] at writer
          subst writer
          have inside := lastWrite_mem written
          obtain ⟨place, plain⟩ := lifted.write_plain inside
          obtain ⟨env, slots, run, older, fresh, mem⟩ := lifted.quiet_run before true
          refine ⟨_, _, .step node i (fun _ => some false) run edge
            (lifted.writes_constant b _ false _), ?_, ?_, ?_⟩
          · rw [runAccesses_last]
            simpa [written] using fresh r place plain
          · intro quiet
            rw [lifted.block_mem node slot env slots (accesses ir node) fun _ inside => inside]
            simpa [quiet] using mem slot
          · intro clobbering
            refine lifted.visit_tracked slotIn edge fun s tracked => older s ?_
            rcases tracked with owned | ⟨d, stored⟩
            · exact .inr (lifted.owned_merge owned)
            · obtain ⟨quiet, _, at'⟩ := lifted.own slotIn d s stored
              left
              change home s ≠ some node
              rw [at']
              intro same
              rw [Option.some.injEq] at same
              subst same
              simp [clobbering] at quiet

/-- A write that reaches a read across the two forms is lost in some run. -/
theorem Lifted.separated (lifted : Lifted ir next store owner)
    (preserved : ∀ b (env : Ref → Option Bool) slots,
      SlotRun ir next entry (fun _ => none) (fun _ => none) b env slots →
        ReadsLast next env slots (accesses ir b)) : Separated ir entry := by
  intro slot b w path exposed
  obtain ⟨before, r, after, split, free⟩ := exposed
  have inside : .read slot r ∈ accesses ir b := by simp [split]
  have slotIn := access_slot_lt (.inr inside)
  obtain ⟨env, slots, run, last, mem, tracked⟩ := lifted.marked_run slotIn path rfl
  have value := preserved b env slots run before slot r after split true (by
    rw [runAccesses_last]
    simpa [free] using last)
  cases status : clobbers ir b with
  | false =>
      cases writer : clobbers ir w with
      | false => rfl
      | true =>
          obtain ⟨instr, vref, found, isRef, operands, answer⟩ :=
            lifted.rendered b before (.read slot r) after status split
          simp only [free] at answer
          have unmarked := tracked writer vref (.inl answer.1)
          simp [readValue, found, isRef, operands, unmarked] at value
  | true =>
      cases writer : clobbers ir w with
      | true => rfl
      | false =>
          obtain ⟨listed, found⟩ := mem_accesses inside
          obtain ⟨_, instr, _, present, _, _, _, ⟨same, _⟩ | ⟨_, isRead⟩⟩ := access?_eq found
          · simp at same
          · have kept := lifted.kept b _ status listed
            rw [present] at kept
            change next.instr? r = some instr at kept
            simp only [readValue, kept, isRead] at value
            rw [lifted.block_mem b slot env slots before (fun _ early => by simp [split, early]),
              if_pos status] at value
            simp only [free] at value
            exact absurd value (mem writer)

end Preservation

/-- The pass preserves every read exactly when no write reaches a read of its slot from a block of
the other form. -/
theorem memSymbolToRef_preserves_iff {ir next : IR} (slots : LocalSlots ir)
    (result : memSymbolToRef ir = some next) (entry : BlockRef) :
    (∀ (Value : Type) (constants : Ref → Option Value) (memory : Nat → Option Value) (b : BlockRef)
      (env : Ref → Option Value) (state : Slots Value),
      SlotRun ir next entry constants memory b env state → ReadsLast next env state (accesses ir b)) ↔
      Separated ir entry := by
  obtain ⟨store, owner, lifted⟩ := memSymbolToRef_lifted slots result
  constructor
  · intro preserved
    exact lifted.separated fun b env state run => preserved Bool _ _ b env state run
  · intro separated Value constants memory b env state run
    exact lifted.readsLast separated run

/-- The instructions of a straight block execute in the order in which they were pushed. -/
def straightBlock (name : String) (preds : List BlockRef) (instrs : List Instr) : Block where
  name := name
  defs := fun _ => none
  preds := preds
  data := {
    instrs := instrs
    order := List.range instrs.length
    bounded := bounded_range instrs
    distinct := distinct_range instrs }
  sealed := true
  incompletePhis := []

def wholeLocal : Ref := .symbol ⟨⟨.local, 0⟩, ⟨0, 2⟩⟩

/-- One block writes a local, and the next one calls before it reads the local. -/
def crossCallIr : IR where
  consts := [5]
  symbols := { SymbolMap.new with locals := [⟨"_local_0004", .u16, -6, 2⟩] }
  funcs := []
  names := fun _ => none
  nameNext := fun _ => none
  blocks := [
    some (straightBlock "entry" [] [
      ⟨.u16, none, Attribute.NONE, .writeVar16, [wholeLocal, .const 0]⟩,
      ⟨.u16, none, Attribute.NONE, .jmp, [.block 1]⟩]),
    some (straightBlock "next" [0] [
      ⟨.u16, none, Attribute.NONE, .callNear, []⟩,
      ⟨.u16, none, Attribute.NONE, .readVar16, [wholeLocal]⟩,
      ⟨.u16, none, Attribute.NONE, .retNear, []⟩])]

def crossCallLifted : IR := (memSymbolToRef crossCallIr).getD crossCallIr

theorem crossCall_localSlots : LocalSlots crossCallIr where
  whole := by
    intro r instr symref present opcode first isLocal
    cases r with
    | instr b idx =>
        rcases b with _ | _ | b <;> rcases idx with _ | _ | _ | idx <;>
          simp [crossCallIr, IR.instr?, block?, straightBlock, InstrData.lookup] at present <;>
          subst present <;> simp_all [wholeLocal, Attribute.MAY_ESCAPE, Attribute.NONE]
        all_goals
          subst first
          exact ⟨rfl, _, rfl, rfl⟩
    | _ => simp [IR.instr?] at present
  names := by simp [crossCallIr]
  unnamed := by
    intro slot b
    rcases b with _ | _ | b <;> simp [crossCallIr, flow, block?, straightBlock]
  settled := by
    intro b
    rcases b with _ | _ | b <;> simp [crossCallIr, incompletePhis, block?, straightBlock]

theorem writes_of_all {ir : IR} {b : BlockRef} {env : Ref → Option Value}
    (all : (accesses ir b).all fun access => (env access.ref).isSome) : Writes ir b env := by
  intro slot r inside
  exact List.all_eq_true.mp all _ inside

/-- The lifted write never reaches the memory that the block with the call still reads. -/
theorem memSymbolToRef_reads_stale : memSymbolToRef crossCallIr = some crossCallLifted ∧
    ∃ env slots, SlotRun crossCallIr crossCallLifted 0 (fun _ => none) (fun _ => some 9) 1 env slots ∧
      slots.last 0 = some 7 ∧ readValue crossCallLifted env slots 0 (.instr 1 1) = some 9 := by
  refine ⟨rfl, _, _, .step 0 0 (fun _ => some 7) (.start (fun _ => some 7) ?_) rfl ?_, rfl, rfl⟩
  · exact writes_of_all rfl
  · exact writes_of_all rfl

theorem memSymbolToRef_crossCall_iff :
    (∀ (Value : Type) (constants : Ref → Option Value) (memory : Nat → Option Value) (b : BlockRef)
      (env : Ref → Option Value) (state : Slots Value),
      SlotRun crossCallIr crossCallLifted 0 constants memory b env state →
        ReadsLast crossCallLifted env state (accesses crossCallIr b)) ↔ Separated crossCallIr 0 :=
  memSymbolToRef_preserves_iff crossCall_localSlots rfl 0

end Dis86.Opt
