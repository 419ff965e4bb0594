import Dis86.IR.Ssa
import Mathlib.Data.Option.Basic

namespace Dis86.IR
open Lib

/-- The calls with which a client builds a function. -/
inductive Call where
  | addBlock (name : String)
  | setPreds (b : BlockRef) (preds : List BlockRef)
  | appendInstr (b : BlockRef) (instr : Instr)
  | setVar (sym : Name) (b : BlockRef) (r : Ref)
  | getVar (sym : Name) (b : BlockRef)
  | sealBlock (b : BlockRef)

/-- The log remembers each store and each answered read. -/
inductive Event where
  | stored (sym : Name) (b : BlockRef) (r : Ref)
  | read (sym : Name) (b : BlockRef) (r : Ref)
deriving DecidableEq, Repr

def Event.reads (sym : Name) : Event → Bool
  | .read other _ _ => other = sym
  | .stored _ _ _ => false

/-- A session is a function under construction with its log, latest event first. -/
structure Session where
  ir : IR
  log : List Event

namespace Session

def new : Session := ⟨.new, []⟩

/-- A call fails where the source panics or where predecessors change after sealing. -/
def call (session : Session) : Call → Option Session
  | .addBlock name => some { session with ir := (session.ir.addBlock name).2 }
  | .setPreds b preds => do
      let block ← session.ir.block? b
      guard (!block.sealed)
      return { session with ir := session.ir.setPreds b preds }
  | .appendInstr b instr => do
      let (_, ir) ← session.ir.blockInstrAppend b instr
      return { session with ir }
  | .setVar sym b r => do
      let ir ← session.ir.setVar sym b r
      return ⟨ir, .stored sym b r :: session.log⟩
  | .getVar sym b => do
      let (r, ir) ← session.ir.getVar sym b
      return ⟨ir, .read sym b r :: session.log⟩
  | .sealBlock b => do
      let ir ← session.ir.sealBlock b
      return { session with ir }

def run (session : Session) : List Call → Option Session
  | [] => some session
  | call :: rest => do run (← session.call call) rest

/-- A variable is stored in a block only while no sealed block names that block as a predecessor,
or before the variable is first read. -/
def Allows (session : Session) : Call → Prop
  | .setVar sym b _ =>
      (∀ c ∈ session.ir.iterBlocks, (session.ir.flow sym).closed c = true →
        b ∉ (session.ir.flow sym).preds c) ∨ ∀ event ∈ session.log, event.reads sym = false
  | _ => True

instance (session : Session) : (call : Call) → Decidable (session.Allows call)
  | .setVar _ _ _ => inferInstanceAs (Decidable (_ ∨ _))
  | .addBlock _ => inferInstanceAs (Decidable True)
  | .setPreds _ _ => inferInstanceAs (Decidable True)
  | .appendInstr _ _ => inferInstanceAs (Decidable True)
  | .getVar _ _ => inferInstanceAs (Decidable True)
  | .sealBlock _ => inferInstanceAs (Decidable True)

/-- Every call of the sequence is allowed when it is made. -/
def Disciplined (session : Session) : List Call → Prop
  | [] => True
  | call :: rest => session.Allows call ∧
      match session.call call with
      | some next => next.Disciplined rest
      | none => True

def decideDisciplined : (session : Session) → (calls : List Call) →
    Decidable (session.Disciplined calls)
  | _, [] => inferInstanceAs (Decidable True)
  | session, call :: rest =>
      match found : session.call call with
      | some next =>
          have := decideDisciplined next rest
          decidable_of_iff (session.Allows call ∧ next.Disciplined rest) (by simp [Disciplined, found])
      | none => decidable_of_iff (session.Allows call) (by simp [Disciplined, found])

instance (session : Session) (calls : List Call) : Decidable (session.Disciplined calls) :=
  decideDisciplined session calls

end Session

/-- The latest store of a variable in a block. -/
def lastStore (log : List Event) (sym : Name) (b : BlockRef) : Option Ref :=
  log.findSome? fun
    | .stored other c r => if other = sym ∧ c = b then some r else none
    | .read _ _ _ => none

@[simp] theorem lastStore_read (log : List Event) (other : Name) (c : BlockRef) (r : Ref) :
    lastStore (.read other c r :: log) = lastStore log := rfl

theorem lastStore_stored (log : List Event) (other : Name) (c : BlockRef) (r : Ref) (sym : Name)
    (b : BlockRef) : lastStore (.stored other c r :: log) sym b =
      if other = sym ∧ c = b then some r else lastStore log sym b := by
  simp only [lastStore, List.findSome?_cons]
  split <;> simp_all

/-- An owned phi answers in its own block, and the only predecessor answers for a sealed block. -/
inductive Answers (ir : IR) (owner : Ref → Option Name) (sym : Name) (b : BlockRef) (r : Ref) :
    Prop where
  | merge (owned : owner r = some sym) (place : home r = some b)
  | pass (parent : BlockRef) (isSealed : (ir.flow sym).closed b = true)
      (single : (ir.flow sym).preds b = [parent]) (above : (ir.flow sym).Resolves parent r)

/-- A read returned the earlier store of its own block or an answer for the block's entry. -/
def ReadAnswered (ir : IR) (owner : Ref → Option Name) (earlier : List Event) (sym : Name)
    (b : BlockRef) (r : Ref) : Prop :=
  match lastStore earlier sym b with
  | some s => s = r
  | none => ir.Answers owner sym b r

/-- The invariant of a session. -/
structure SessionInv (session : Session) (owner : Ref → Option Name) : Prop where
  ssa : SsaInv session.ir (lastStore session.log) owner []
  reads : ∀ later earlier sym b r, session.log = later ++ .read sym b r :: earlier →
    session.ir.ReadAnswered owner earlier sym b r
  quiet : ∀ sym r, owner r = some sym → ∃ b s, Event.read sym b s ∈ session.log

section Preservation

variable {ir next : IR} {store : Name → BlockRef → Option Ref} {owner owner' : Ref → Option Name}
  {pending : List (Name × Ref)}

/-- An answer stays an answer while sealed edges and resolved values stay. -/
theorem Answers.mono {sym : Name} {b : BlockRef} {r : Ref} (answers : ir.Answers owner sym b r)
    (owned : ∀ r, owner r = some sym → owner' r = some sym)
    (closed : (ir.flow sym).closed b = true → (next.flow sym).closed b = true)
    (preds : (ir.flow sym).closed b = true → (next.flow sym).preds b = (ir.flow sym).preds b)
    (resolved : ∀ parent r, (ir.flow sym).preds b = [parent] → (ir.flow sym).closed b = true →
      (ir.flow sym).Resolves parent r → (next.flow sym).Resolves parent r) :
    next.Answers owner' sym b r := by
  cases answers with
  | merge owns place => exact .merge (owned r owns) place
  | pass parent isSealed single above =>
      exact .pass parent (closed isSealed) (by rw [preds isSealed, single])
        (resolved parent r single isSealed above)

theorem ReadAnswered.mono {earlier : List Event} {sym : Name} {b : BlockRef} {r : Ref}
    (answered : ir.ReadAnswered owner earlier sym b r)
    (answers : ir.Answers owner sym b r → next.Answers owner' sym b r) :
    next.ReadAnswered owner' earlier sym b r := by
  simp only [ReadAnswered] at answered ⊢
  split at answered
  · exact answered
  · exact answers answered

theorem flow_addBlock (ir : IR) (name : String) (sym : Name) :
    (ir.addBlock name).2.flow sym = ir.flow sym := by
  simp only [flow, VarFlow.mk.injEq]
  refine ⟨?_, ?_, ?_⟩ <;> funext b <;> rcases block?_addBlock ir name b with same | ⟨before, after⟩
  · rw [same]
  · simp [before, after]
  · rw [same]
  · simp [before, after]
  · rw [same]
  · simp [before, after]

theorem flow_setPreds {b : BlockRef} {block : Block} (present : ir.block? b = some block)
    (preds : List BlockRef) (sym : Name) :
    (ir.setPreds b preds).flow sym = (ir.flow sym).reconnect b preds := by
  simp only [flow, setPreds, VarFlow.reconnect, VarFlow.mk.injEq]
  refine ⟨?_, ?_, ?_⟩ <;> funext c <;> rw [block?_modifyBlock] <;> by_cases same : c = b
  · subst same
    simp [present]
  · simp [same]
  · subst same
    simp [present]
  · simp [same]
  · subst same
    simp [present]
  · simp [same]

/-- A call that logs nothing keeps the answers of all earlier reads. -/
theorem SessionInv.silent {session : Session} (inv : SessionInv session owner)
    (ssa : SsaInv next (lastStore session.log) owner' [])
    (owned : ∀ sym r, owner r = some sym → owner' r = some sym)
    (origin : ∀ sym r, owner' r = some sym → ∃ s, owner s = some sym)
    (closed : ∀ sym b, (session.ir.flow sym).closed b = true → (next.flow sym).closed b = true)
    (preds : ∀ sym b, (session.ir.flow sym).closed b = true →
      (next.flow sym).preds b = (session.ir.flow sym).preds b)
    (resolved : ∀ sym, (session.ir.flow sym).Extends (next.flow sym)) :
    SessionInv { session with ir := next } owner' where
  ssa := ssa
  reads := fun later earlier sym b r split =>
    (inv.reads later earlier sym b r split).mono fun answers =>
      answers.mono (owned sym) (closed sym b) (preds sym b)
        fun parent r _ _ above => resolved sym parent r above
  quiet := fun sym r owns => by
    obtain ⟨s, before⟩ := origin sym r owns
    exact inv.quiet sym s before

theorem SessionInv.addBlock {session : Session} (inv : SessionInv session owner) (name : String) :
    SessionInv { session with ir := (session.ir.addBlock name).2 } owner := by
  have flows := flow_addBlock session.ir name
  have ssa : SsaInv (session.ir.addBlock name).2 (lastStore session.log) owner [] := by
    refine inv.ssa.of_views flows ?_ ?_
    · funext b
      simp only [incompletePhis]
      rcases block?_addBlock session.ir name b with same | ⟨before, after⟩
      · rw [same]
      · simp [before, after]
    · intro r instr found _
      cases r with
      | instr b idx =>
          simp only [instr?] at found ⊢
          rcases block?_addBlock session.ir name b with same | ⟨before, _⟩
          · rwa [same]
          · simp [before] at found
      | _ => simp [instr?] at found
  refine inv.silent ssa (fun _ _ h => h) (fun _ r h => ⟨r, h⟩) ?_ ?_ ?_
  · intro sym b isSealed
    rwa [flows]
  · intro sym b _
    rw [flows]
  · intro sym
    rw [flows]
    exact VarFlow.Extends.refl _

theorem SessionInv.setPreds {session : Session} (inv : SessionInv session owner) {b : BlockRef}
    {block : Block} (present : session.ir.block? b = some block) (isOpen : block.sealed = false)
    (preds : List BlockRef) :
    SessionInv { session with ir := session.ir.setPreds b preds } owner := by
  have opened : ∀ sym, (session.ir.flow sym).closed b = false := by
    intro sym
    simp [flow, present, isOpen]
  have flows := flow_setPreds present preds
  have ssa : SsaInv (session.ir.setPreds b preds) (lastStore session.log) owner [] := by
    refine inv.ssa.reconnect opened flows ?_ ?_
    · funext c
      apply incompletePhis_modifyBlock_same
      exact fun _ => rfl
    · intro r
      apply instr?_modifyBlock_same
      exact fun _ => rfl
  refine inv.silent ssa (fun _ _ h => h) (fun _ r h => ⟨r, h⟩) ?_ ?_ ?_
  · intro sym c isSealed
    rw [flows]
    exact isSealed
  · intro sym c isSealed
    have different : c ≠ b := by
      rintro rfl
      simp [opened] at isSealed
    rw [flows]
    simp [VarFlow.reconnect, different]
  · intro sym
    rw [flows]
    exact VarFlow.extends_reconnect _ preds (opened sym)

theorem SessionInv.appendInstr {session : Session} (inv : SessionInv session owner) {b : BlockRef}
    {instr : Instr} {r : Ref} (appended : session.ir.blockInstrAppend b instr = some (r, next)) :
    SessionInv { session with ir := next } owner := by
  obtain ⟨_, fresh, instrs, flows, waiting⟩ := blockInstrInsert_view appended
  have ssa : SsaInv next (lastStore session.log) owner [] := by
    refine inv.ssa.of_views flows waiting ?_
    intro s old found _
    have different : s ≠ r := by
      rintro rfl
      simp [fresh] at found
    rw [instrs, if_neg different, found]
  refine inv.silent ssa (fun _ _ h => h) (fun _ r h => ⟨r, h⟩) ?_ ?_ ?_
  · intro sym c isSealed
    rwa [flows]
  · intro sym c _
    rw [flows]
  · intro sym
    rw [flows]
    exact VarFlow.Extends.refl _

theorem SessionInv.sealBlock {session : Session} (inv : SessionInv session owner) {b : BlockRef}
    (result : session.ir.sealBlock b = some next) :
    ∃ owner', SessionInv { session with ir := next } owner' := by
  obtain ⟨owner', ssa, seals⟩ := sealBlock_sound inv.ssa result
  refine ⟨owner', inv.silent ssa seals.owned seals.origin ?_ ?_ seals.resolved⟩
  · intro sym c isSealed
    rw [seals.closed]
    by_cases same : c = b
    · simp [same]
    · rwa [Function.update_of_ne same]
  · intro sym c _
    rw [seals.preds]

/-- A store keeps the answers of earlier reads of its variable. -/
theorem SessionInv.setVar {session : Session} (inv : SessionInv session owner) {sym : Name}
    {b : BlockRef} {s : Ref} (allowed : session.Allows (.setVar sym b s))
    (result : session.ir.setVar sym b s = some next) :
    SessionInv ⟨next, .stored sym b s :: session.log⟩ owner := by
  obtain ⟨flowSelf, flowOther, instrs, waiting⟩ := setVar_view result
  have apart : (∀ c, (session.ir.flow sym).closed c = true → b ∉ (session.ir.flow sym).preds c) ∨
      ∀ r, owner r ≠ some sym := by
    rcases allowed with apart | never
    · exact .inl fun c isSealed => apart c (closed_mem_iterBlocks isSealed) isSealed
    · right
      intro r owned
      obtain ⟨c, t, present⟩ := inv.quiet sym r owned
      simpa [Event.reads] using never _ present
  refine ⟨?_, ?_, ?_⟩
  · exact inv.ssa.define apart (fun other c => lastStore_stored _ _ _ _ _ _) flowSelf flowOther
      waiting instrs
  · intro later earlier other c r split
    cases later with
    | nil => simp at split
    | cons first later =>
        simp only [List.cons_append, List.cons.injEq] at split
        obtain ⟨_, split⟩ := split
        have answered := inv.reads later earlier other c r split
        by_cases same : other = sym
        · subst same
          have present : Event.read other c r ∈ session.log := by simp [split]
          have apart : ∀ c, (session.ir.flow other).closed c = true →
              b ∉ (session.ir.flow other).preds c := by
            rcases allowed with apart | never
            · exact fun c isSealed => apart c (closed_mem_iterBlocks isSealed) isSealed
            · simpa [Event.reads] using never _ present
          refine answered.mono fun answers => answers.mono (fun _ h => h) ?_ ?_ ?_
          · intro isSealed
            rw [flowSelf]
            exact isSealed
          · intro _
            rw [flowSelf]
            rfl
          · intro parent t single isSealed above
            have named := apart c isSealed
            rw [flowSelf]
            refine above.define_apart s apart ?_
            rintro rfl
            exact named (by simp [single])
        · refine answered.mono fun answers => answers.mono (fun _ h => h) ?_ ?_ ?_
          · intro isSealed
            rwa [flowOther other same]
          · intro _
            rw [flowOther other same]
          · intro parent t _ _ above
            rwa [flowOther other same]
  · intro other r owned
    obtain ⟨c, t, present⟩ := inv.quiet other r owned
    exact ⟨c, t, List.mem_cons_of_mem _ present⟩

/-- A read answers for its block and keeps the answers of earlier reads. -/
theorem SessionInv.getVar {session : Session} (inv : SessionInv session owner) {sym : Name}
    {b : BlockRef} {r : Ref} (result : session.ir.getVar sym b = some (r, next)) :
    ∃ owner', SessionInv ⟨next, .read sym b r :: session.log⟩ owner' := by
  obtain ⟨owner', ssa, evolves, resolved⟩ := getVar_sound inv.ssa result
  refine ⟨owner', ?_, ?_, ?_⟩
  · rw [lastStore_read]
    exact ssa
  · intro later earlier other c t split
    cases later with
    | nil =>
        simp only [List.nil_append, List.cons.injEq, Event.read.injEq] at split
        obtain ⟨⟨rfl, rfl, rfl⟩, rfl⟩ := split
        simp only [ReadAnswered]
        split
        · rename_i s stored
          exact (VarFlow.Resolves.here (ssa.stored sym b s stored)).unique resolved
        · rename_i free
          cases resolved with
          | here found =>
              obtain ⟨owned, place⟩ := ssa.merged sym b r free found
              exact .merge owned place
          | up climb above => exact .pass _ climb.isClosed climb.single above
    | cons first later =>
        simp only [List.cons_append, List.cons.injEq] at split
        obtain ⟨_, split⟩ := split
        refine (inv.reads later earlier other c t split).mono fun answers =>
          answers.mono (evolves.owned other) ?_ ?_ ?_
        · intro isSealed
          rwa [evolves.closed]
        · intro _
          rw [evolves.preds]
        · intro parent u _ _ above
          exact evolves.resolved other parent u above
  · intro other t owned
    rcases evolves.origin other t owned with ⟨s, before⟩ | same
    · obtain ⟨c, u, present⟩ := inv.quiet other s before
      exact ⟨c, u, List.mem_cons_of_mem _ present⟩
    · simp only [Option.some.injEq] at same
      subst same
      exact ⟨b, r, List.mem_cons_self⟩

/-- Every allowed call keeps the invariant. -/
theorem SessionInv.call {session after : Session} {call : Call} (inv : SessionInv session owner)
    (allowed : session.Allows call) (result : session.call call = some after) :
    ∃ owner', SessionInv after owner' := by
  cases call with
  | addBlock name =>
      simp only [Session.call, Option.some.injEq] at result
      subst result
      exact ⟨owner, inv.addBlock name⟩
  | setPreds b preds =>
      simp only [Session.call, Option.bind_eq_bind, Option.bind_eq_some_iff, Option.pure_def,
        Option.some.injEq] at result
      obtain ⟨block, present, _, isOpen, rfl⟩ := result
      rw [Option.guard_eq_some'] at isOpen
      have isOpen : block.sealed = false := by simpa using isOpen
      exact ⟨owner, inv.setPreds present isOpen preds⟩
  | appendInstr b instr =>
      simp only [Session.call, Option.bind_eq_bind, Option.bind_eq_some_iff, Option.pure_def,
        Option.some.injEq, Prod.exists] at result
      obtain ⟨r, ir, appended, rfl⟩ := result
      exact ⟨owner, inv.appendInstr appended⟩
  | setVar sym b r =>
      simp only [Session.call, Option.bind_eq_bind, Option.bind_eq_some_iff, Option.pure_def,
        Option.some.injEq] at result
      obtain ⟨ir, stored, rfl⟩ := result
      exact ⟨owner, inv.setVar allowed stored⟩
  | getVar sym b =>
      simp only [Session.call, Option.bind_eq_bind, Option.bind_eq_some_iff, Option.pure_def,
        Option.some.injEq, Prod.exists] at result
      obtain ⟨r, ir, found, rfl⟩ := result
      exact inv.getVar found
  | sealBlock b =>
      simp only [Session.call, Option.bind_eq_bind, Option.bind_eq_some_iff, Option.pure_def,
        Option.some.injEq] at result
      obtain ⟨ir, done, rfl⟩ := result
      exact inv.sealBlock done

theorem SessionInv.new : SessionInv Session.new fun _ => none where
  ssa := {
    stored := fun _ _ _ found => by simp [Session.new, lastStore] at found
    merged := fun _ _ _ _ found => by simp [Session.new, IR.new, flow, block?] at found
    phi := fun _ _ owned => by simp at owned
    waiting := fun _ _ _ entry => by
      simp [Session.new, IR.new, incompletePhis, block?] at entry
    queued := fun _ _ entry => by simp at entry
    covered := fun _ _ _ owned => by simp at owned }
  reads := fun later earlier sym b r split => by simp [Session.new] at split
  quiet := fun _ _ owned => by simp at owned

/-- Every disciplined sequence of calls keeps the invariant. -/
theorem SessionInv.run {session after : Session} {calls : List Call} (inv : SessionInv session owner)
    (disciplined : session.Disciplined calls) (result : session.run calls = some after) :
    ∃ owner', SessionInv after owner' := by
  induction calls generalizing session owner with
  | nil =>
      simp only [Session.run, Option.some.injEq] at result
      subst result
      exact ⟨owner, inv⟩
  | cons call rest ih =>
      simp only [Session.run, Option.bind_eq_bind, Option.bind_eq_some_iff] at result
      obtain ⟨middle, first, others⟩ := result
      obtain ⟨owner', inv'⟩ := inv.call disciplined.1 first
      have later : middle.Disciplined rest := by simpa [Session.Disciplined, first] using disciplined.2
      exact ih inv' later others

theorem Answers.enters {sym : Name} {b : BlockRef} {r : Ref} (answers : ir.Answers owner sym b r) :
    (ir.program store sym).Enters (fun b r => owner r = some sym ∧ home r = some b) b r := by
  cases answers with
  | merge owned place => exact .merge ⟨owned, place⟩
  | pass parent _ single above => exact .pass single above

end Preservation

/-- The last value stored along a path before a read of its final block. -/
def storedBefore {Value : Type} (earlier : List Event) (sym : Name) (b : BlockRef)
    (env : Ref → Option Value) (incoming : Option Value) : Option Value :=
  match lastStore earlier sym b with
  | some s => env s
  | none => incoming

/-- Every read denotes the last value stored along every execution path to its block. -/
theorem getVar_denotes_last_store {Value : Type} (calls : List Call) (later earlier : List Event)
    {session : Session} {sym : Name} {b entry : BlockRef} {r : Ref} {constants env : Ref → Option Value}
    {incoming : Option Value} (disciplined : Session.new.Disciplined calls)
    (result : Session.new.run calls = some session) (allSealed : session.ir.AllSealed)
    (isRead : session.log = later ++ .read sym b r :: earlier)
    (entryPreds : ((session.ir.flow sym).preds entry).length ≠ 1)
    (execution : (session.ir.program (lastStore session.log) sym).Execution entry constants b env
      incoming) :
    FlowProgram.Carries (storedBefore earlier sym b env incoming) env r := by
  obtain ⟨owner, inv⟩ := SessionInv.new.run disciplined result
  have sound := inv.ssa.program_sound allSealed sym
  have answered := inv.reads later earlier sym b r isRead
  simp only [ReadAnswered] at answered
  intro v last
  simp only [storedBefore] at last
  split at answered
  · rename_i s stored
    subst answered
    simpa [stored] using last
  · rename_i free
    simp only [free] at last
    exact sound.carries_entering entryPreds execution r answered.enters v last

/-- A read of a port has no operands and an unknown value. -/
def portRead : Instr := ⟨.u16, none, Attribute.NONE, .in16, []⟩

/-- Each instruction of a visit gets the same fresh value. -/
def freshValue (value : Nat) : Ref → Option Nat := fun
  | .instr _ _ => some value
  | _ => none

/-- Each instruction of a visit gets its own position as value. -/
def indexValue : Ref → Option Nat := fun
  | .instr _ idx => some idx
  | _ => none

/-- The header of a loop is read before its latch is known. -/
def loopCalls : List Call := [
  .addBlock "entry", .addBlock "header", .addBlock "latch", .sealBlock 0,
  .appendInstr 0 portRead, .setVar (.reg .AX) 0 (.instr 0 0), .setPreds 1 [0], .getVar (.reg .AX) 1,
  .setPreds 2 [1], .sealBlock 2, .appendInstr 2 portRead, .setVar (.reg .AX) 2 (.instr 2 0),
  .setPreds 1 [0, 2], .sealBlock 1]

def loopSession : Session := (Session.new.run loopCalls).getD .new

/-- After one turn of the loop the header reads the value of the latch. -/
theorem getVar_denotes_latch_store : ∃ env : Ref → Option Nat,
    (loopSession.ir.program (lastStore loopSession.log) (.reg .AX)).Execution 0 (fun _ => none) 1 env
      (some 8) ∧ FlowProgram.Carries (some 8) env (.instr 1 0) := by
  obtain ⟨env, turn⟩ : ∃ env : Ref → Option Nat,
      (loopSession.ir.program (lastStore loopSession.log) (.reg .AX)).Execution 0 (fun _ => none) 1 env
        (some 8) := by
    refine ⟨_, .step 2 1 (freshValue 9) (.step 1 0 (freshValue 8) (.step 0 0 (freshValue 7)
      (.start (freshValue 6) ?_) rfl ?_) rfl ?_) rfl ?_⟩
    · exact FlowProgram.stores_of_some (s := .instr 0 0) rfl rfl
    · exact FlowProgram.stores_of_none rfl
    · exact FlowProgram.stores_of_some (s := .instr 2 0) rfl rfl
    · exact FlowProgram.stores_of_none rfl
  exact ⟨env, turn, getVar_denotes_last_store loopCalls [.stored (.reg .AX) 2 (.instr 2 0)]
    [.stored (.reg .AX) 0 (.instr 0 0)] (by decide) rfl (allSealed_of_all rfl) rfl (by decide) turn⟩

/-- The second store of the first block comes after its successor was sealed and read. -/
def lateStoreCalls : List Call := [
  .addBlock "first", .addBlock "second", .setPreds 1 [0], .sealBlock 0, .sealBlock 1,
  .appendInstr 0 portRead, .appendInstr 0 portRead, .setVar (.reg .AX) 0 (.instr 0 0),
  .getVar (.reg .AX) 1, .setVar (.reg .AX) 0 (.instr 0 1)]

/-- The entry is the header of a loop with one latch, and the latch stores a value of the header. -/
def entryLoopCalls : List Call := [
  .addBlock "header", .addBlock "latch", .setPreds 0 [1], .setPreds 1 [0], .sealBlock 0, .sealBlock 1,
  .appendInstr 0 portRead, .setVar (.reg .AX) 1 (.instr 0 0), .getVar (.reg .AX) 0]

def lateStoreSession : Session := (Session.new.run lateStoreCalls).getD .new

def entryLoopSession : Session := (Session.new.run entryLoopCalls).getD .new

/-- The two excluded cases are real: a late store and an entry with one predecessor. -/
theorem getVar_denotes_stale_store :
    (Session.new.run lateStoreCalls = some lateStoreSession ∧ lateStoreSession.ir.AllSealed ∧
      lateStoreSession.log = [.stored (.reg .AX) 0 (.instr 0 1)] ++
        .read (.reg .AX) 1 (.instr 0 0) :: [.stored (.reg .AX) 0 (.instr 0 0)] ∧
      ∃ env, (lateStoreSession.ir.program (lastStore lateStoreSession.log) (.reg .AX)).Execution 0
          (fun _ => none) 1 env (some 1) ∧
        storedBefore [.stored (.reg .AX) 0 (.instr 0 0)] (.reg .AX) 1 env (some 1) = some 1 ∧
        env (.instr 0 0) = some 0) ∧
    Session.new.run entryLoopCalls = some entryLoopSession ∧ entryLoopSession.ir.AllSealed ∧
      entryLoopSession.log = [] ++
        .read (.reg .AX) 0 (.instr 0 0) :: [.stored (.reg .AX) 1 (.instr 0 0)] ∧
      ∃ env, (entryLoopSession.ir.program (lastStore entryLoopSession.log) (.reg .AX)).Execution 0
          (fun _ => none) 0 env (some 5) ∧
        storedBefore [.stored (.reg .AX) 1 (.instr 0 0)] (.reg .AX) 0 env (some 5) = some 5 ∧
        env (.instr 0 0) = some 6 := by
  constructor
  · refine ⟨rfl, allSealed_of_all rfl, rfl, _, .step 0 0 (fun _ => none)
      (.start indexValue ?_) rfl ?_, rfl, rfl⟩
    · exact FlowProgram.stores_of_some (s := .instr 0 1) rfl rfl
    · exact FlowProgram.stores_of_none rfl
  · refine ⟨rfl, allSealed_of_all rfl, rfl, _, .step 1 0 (freshValue 6)
      (.step 0 0 (freshValue 0) (.start (freshValue 5) ?_) rfl ?_) rfl ?_, rfl, rfl⟩
    · exact FlowProgram.stores_of_none rfl
    · exact FlowProgram.stores_of_some (s := .instr 0 0) rfl rfl
    · exact FlowProgram.stores_of_none rfl

end Dis86.IR
