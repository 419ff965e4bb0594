import Dis86.Hydra.Exec
import Dis86.Lib.Fuel

namespace Dis86.Hydra
open Dis86.Hydra.Runtime
open Lib (runSteps EachStep)

/-- The two assertions of the tracker and the fatal error of its address arithmetic. -/
inductive Stop.Tracker : Stop → Prop where
  | triggerEnter : Tracker .triggerEnter
  | callstackRet : Tracker .callstackRet
  | relativeSegment (expected got : U16) : Tracker (.relativeSegment expected got)

/-- The result with which an action hands control back. -/
def Action.result : Action → Result
  | .callFar seg off => .call seg off
  | .callNearOff off _ => .callNear off
  | .finish result => result

/-- A result that the tracker is told of. -/
def Result.IsBoundary : Result → Prop
  | .call .. | .callNear _ | .retNear | .retFar => True
  | _ => False

def Result.IsReturn : Result → Prop
  | .retNear | .retFar => True
  | _ => False

/-- The code segment in which the guest continues after a result. -/
def Result.segment (load : U16) (mem : Lowmem) (regs : Registers) : Result → U16
  | .jump newCs _ | .call newCs _ => newCs + load
  | .retFar => mem.read16 (linear regs.ss regs.sp + 2)
  | _ => regs.cs

/-- The registers that a hook finds when it begins or resumes at a stop. -/
def hookSees (s : Runtime) (regs : Registers) : Option Registers :=
  match s.resumeId regs with
  | some id => some (wakeRegisters (s.executions id) regs)
  | none =>
      match hookFind s.load s.overlays s.hooks (.make regs.cs regs.ip) with
      | some hook =>
          if hook.overlay then
            if Unpaged s.mem regs then none else some (followStub s.mem regs)
          else some regs
      | none => none

/-- What the hook of a stop hands back. -/
def handed (s : Runtime) (r : Round) : Option (Registers × Lowmem × Action) :=
  if s.mode = .normal then
    (hookSees (s.arrive r) r.registers).map fun regs => r.move regs r.mem
  else none

/-- The event that the guest code at a stop announces to the tracker. -/
def announcement (s : Runtime) (r : Round) : CallEvent :=
  let c := { s.callstack with callEvent := .none }
  if r.registers.cs = 0xffff#16 ∨ 0xc000#16 ≤ r.registers.cs ∨
      (c.confFind r.load r.registers .ignoreAddr).isSome then .none
  else c.announced r.load r.mem r.registers

/-- A return is announced by the guest code or performed by a hook. -/
def Leaves (s : Runtime) (r : Round) : Prop :=
  announcement s r = .ret ∨ announcement s r = .jmpRet ∨
    ∃ regs mem action, handed s r = some (regs, mem, action) ∧ action.result.IsReturn

/-- The last code position lies before the stop when the tracker skips the stop. -/
def lastSegment (s : Runtime) (r : Round) : U16 :=
  if r.registers.cs = 0xffff#16 then s.callstack.lastCode.seg else r.registers.cs

/-- The caller segment of the innermost call. The entry of a handler adds a call first. -/
def topSource (s : Runtime) (r : Round) : Option U16 :=
  if r.registers.cs ≠ 0xffff#16 ∧ (s.callstack.confFind r.load r.registers .handler).isSome then
    some (Callstack.stackedAddr r.mem r.registers).seg
  else s.callstack.callStack.val.head?.map fun call => call.src.seg

/-- The load segment and the code segment with which the guest continues. -/
def continuation (s : Runtime) (r : Round) : U16 × U16 :=
  match s.mode with
  | .normal =>
      (r.load, match handed s r with
        | some (regs, mem, action) => action.result.segment r.load mem regs
        | none => r.registers.cs)
  | .capture _ => (r.load, r.registers.cs)
  | .restore entry =>
      if Addr.make r.registers.cs r.registers.ip = (s.arrive r).hookEntryAddr entry then
        (r.restored.load, r.restored.registers.cs)
      else (r.load, r.registers.cs)

/-- The hook of a stop calls or returns only where the guest code announces no event, and a return
stays at or above the load segment on both sides and in the frame that it leaves. -/
structure Harmless (s : Runtime) (r : Round) : Prop where
  boundary : ∀ regs mem action, handed s r = some (regs, mem, action) →
    action.result.IsBoundary → announcement s r = .none
  last : Leaves s r → (continuation s r).1 ≤ lastSegment s r
  next : Leaves s r → (continuation s r).1 ≤ (continuation s r).2
  source : Leaves s r → ∀ src, topSource s r = some src → (continuation s r).1 ≤ src

/-- Between two stops no event is pending, and the drivers report no interrupts. -/
def Quiet (s : Runtime) : Prop :=
  s.callstack.callEvent = .none ∧ s.callstack.lastInterruptCount = 0

namespace Callstack

/-- A pending return can be resolved at the code segment. -/
def CanLeave (c : Callstack) (load cs : U16) : Prop :=
  c.callEvent = .ret ∨ c.callEvent = .jmpRet →
    load ≤ c.lastCode.seg ∧ load ≤ cs ∧ ∀ call ∈ c.callStack.val.head?, load ≤ call.src.seg

theorem push_ends (c : Callstack) (src dst : Addr) :
    Ends (c.push src dst) (fun c' => c'.callEvent = c.callEvent ∧ c'.confs = c.confs ∧
      c'.lastInterruptCount = c.lastInterruptCount ∧ c'.lastCode = c.lastCode ∧
      c'.callStack.val.head? = some ⟨src, dst⟩) (¬ ·.Tracker) := by
  unfold push
  split
  · simp
  · exact nofun

theorem relativeToSegment_ends (addr : Addr) (load : U16) {post : Addr → Prop}
    (above : load ≤ addr.seg) (holds : ∀ addr, post addr) :
    Ends (addr.relativeToSegment load) post (¬ ·.Tracker) := by
  simp [Addr.relativeToSegment, above, holds]

theorem pop_fst (c : Callstack) : c.pop.1 = c.callStack.val.head? := by
  unfold pop
  split <;> simp [*]

theorem pop_lastInterruptCount (c : Callstack) :
    c.pop.2.lastInterruptCount = c.lastInterruptCount := by
  unfold pop
  split <;> rfl

theorem leave_ends {c : Callstack} {load : U16} {regs : Registers}
    (last : load ≤ c.lastCode.seg) (next : load ≤ regs.cs)
    (source : ∀ call ∈ c.callStack.val.head?, load ≤ call.src.seg) :
    Ends (c.leave load regs) (fun c' => c'.lastInterruptCount = c.lastInterruptCount)
      (¬ ·.Tracker) := by
  unfold leave
  rw [ends_bind]
  refine relativeToSegment_ends _ _ last fun _ => ?_
  rw [ends_bind]
  refine relativeToSegment_ends _ _ next fun _ => ?_
  have kept := c.pop_lastInterruptCount
  rw [← pop_fst] at source
  cases popped : c.pop.1 with
  | none => simpa using kept
  | some call =>
      rw [popped] at source
      simp only [ends_bind, ends_discard, ends_pure]
      exact relativeToSegment_ends _ _ (source call rfl) fun _ => kept

theorem notify_ends {c : Callstack} {load : U16} {regs : Registers}
    (can : c.CanLeave load regs.cs) :
    Ends (c.notify load regs) (fun c' => c'.callEvent = .none ∧
      c'.lastInterruptCount = c.lastInterruptCount) (¬ ·.Tracker) := by
  unfold notify drain
  rw [ends_bind]
  cases event : c.callEvent with
  | none => exact ⟨rfl, rfl⟩
  | call => exact (push_ends c c.lastCode _).imp fun _ pushed => ⟨rfl, pushed.2.2.1⟩
  | ret =>
      obtain ⟨last, next, source⟩ := can (.inl event)
      exact (leave_ends last next source).imp fun _ kept => ⟨rfl, kept⟩
  | jmpRet =>
      obtain ⟨last, next, source⟩ := can (.inr event)
      exact (leave_ends last next source).imp fun _ kept => ⟨rfl, kept⟩

end Callstack

/-- The tracker has noted what the code at a stop announces. -/
structure Tracked (s : Runtime) (r : Round) (c : Callstack) : Prop where
  event : c.callEvent = announcement s r
  last : c.lastCode.seg = lastSegment s r
  source : c.callStack.val.head?.map (fun call => call.src.seg) = topSource s r
  interrupts : c.lastInterruptCount = 0

theorem confFind_congr {c c' : Callstack} (same : c'.confs = c.confs) (load : U16)
    (regs : Registers) (type : ConfType) :
    c'.confFind load regs type = c.confFind load regs type := by
  rw [Callstack.confFind, Callstack.confFind, same]

theorem enterHandler_ends (c : Callstack) (load : U16) (mem : Lowmem) (regs : Registers) :
    Ends (c.enterHandler load mem regs) (fun c' => c'.callEvent = c.callEvent ∧
      c'.confs = c.confs ∧ c'.lastInterruptCount = c.lastInterruptCount ∧
      c'.callStack.val.head?.map (fun call => call.src.seg) =
        if (c.confFind load regs .handler).isSome then some (Callstack.stackedAddr mem regs).seg
        else c.callStack.val.head?.map fun call => call.src.seg) (¬ ·.Tracker) := by
  unfold Callstack.enterHandler
  cases found : c.confFind load regs .handler with
  | none => simp
  | some conf =>
      refine (Callstack.push_ends c (Callstack.stackedAddr mem regs) _).imp fun c' pushed => ?_
      obtain ⟨event, confs, interrupts, _, top⟩ := pushed
      exact ⟨event, confs, interrupts, by simp [top]⟩

/-- The noted event depends on the description and the position only. -/
theorem noteEvent_callEvent {c c' : Callstack} {load : U16} {mem : Lowmem} {regs : Registers}
    (silent : c'.callEvent = .none) (same : c'.confs = c.confs) :
    (c'.noteEvent load mem regs).callEvent =
      if 0xc000#16 ≤ regs.cs ∨ (c.confFind load regs .ignoreAddr).isSome then .none
      else { c with callEvent := .none }.announced load mem regs := by
  unfold Callstack.noteEvent
  rw [confFind_congr same]
  by_cases reserved : 0xc000#16 ≤ regs.cs
  · rw [if_pos reserved, if_pos (.inl reserved), silent]
  · by_cases ignored : (c.confFind load regs .ignoreAddr).isSome
    · rw [if_neg reserved, if_pos ignored, if_pos (.inr ignored), silent]
    · rw [if_neg reserved, if_neg ignored, if_neg (not_or.mpr ⟨reserved, ignored⟩)]
      unfold Callstack.announced
      rw [confFind_congr (c := { c with callEvent := .none }) same]
      simp only [silent]

theorem noteEvent_keeps (c : Callstack) (load : U16) (mem : Lowmem) (regs : Registers) :
    (c.noteEvent load mem regs).callStack = c.callStack ∧
      (c.noteEvent load mem regs).lastInterruptCount = c.lastInterruptCount := by
  unfold Callstack.noteEvent
  split
  · exact ⟨rfl, rfl⟩
  · split <;> exact ⟨rfl, rfl⟩

theorem reportInterrupts_zero {c : Callstack} (zero : c.lastInterruptCount = 0) (load : U16)
    (mem : Lowmem) (regs : Registers) : c.reportInterrupts load mem regs 0 = .ok c := by
  rw [Callstack.reportInterrupts, zero, if_pos rfl]

/-- The tracking before the dispatch stops at an overflow only. -/
theorem track_ends {s : Runtime} (r : Round) (quiet : Quiet s) :
    Ends ((s.arrive r).trackStop r.registers 0) (Tracked s r) (¬ ·.Tracker) := by
  unfold trackStop
  obtain ⟨silent, zero⟩ := quiet
  by_cases skipped : r.registers.cs = 0xffff#16
  · rw [if_neg (not_not.mpr skipped)]
    refine ⟨?_, ?_, ?_, zero⟩
    · simp [announcement, skipped, silent]
    · simp [lastSegment, skipped]
    · simp [topSource, skipped]
  · rw [if_pos skipped]
    unfold Callstack.track Callstack.update
    simp only [ends_bind, ends_pure, arrive_callstack, arrive_load, arrive_mem]
    rw [reportInterrupts_zero zero, ends_ok]
    refine (enterHandler_ends s.callstack r.load r.mem r.registers).imp fun c entered => ?_
    obtain ⟨event, confs, interrupts, top⟩ := entered
    have kept := noteEvent_keeps c r.load r.mem r.registers
    refine ⟨?_, ?_, ?_, ?_⟩
    · refine (noteEvent_callEvent (event.trans silent) confs).trans ?_
      simp only [announcement, skipped, false_or]
      rfl
    · simp [lastSegment, skipped]
    · simp [kept.1, top, topSource, skipped]
    · exact kept.2.trans (interrupts.trans zero)

/-- What the dispatch hands over, and what it leaves alone. -/
structure Dispatched (s : Runtime) (regs : Registers) (move : Move)
    (after : Runtime × Registers × Result) : Prop where
  callstack : after.1.callstack = s.callstack
  load : after.1.load = s.load
  mode : after.1.mode = s.mode
  result : after.2.2 = match hookSees s regs with
    | some seen => (move seen s.mem).2.2.result
    | none => .resume
  segment : after.2.2.segment s.load after.1.mem after.2.1 = match hookSees s regs with
    | some seen => (move seen s.mem).2.2.result.segment s.load (move seen s.mem).2.1
        (move seen s.mem).1
    | none => regs.cs

theorem thread_ends (load : U16) (id : ExecId) (ctx : Context) (mem : Lowmem) (move : Move) :
    Ends (thread load id ctx mem move) (fun after =>
      after.1.result = (move ctx.machine mem).2.2.result ∧
      after.1.result.segment load after.2 after.1.machine =
        (move ctx.machine mem).2.2.result.segment load (move ctx.machine mem).2.1
          (move ctx.machine mem).1) (¬ ·.Tracker) := by
  unfold thread
  split
  rename_i acted mem' action same
  rw [same]
  cases action with
  | callFar seg off => exact ⟨rfl, rfl⟩
  | callNearOff off maybeReloc =>
      simp only [callNearOff, ends_bind, ends_require, ends_pure]
      exact ⟨fun _ => ⟨fun _ => ⟨rfl, rfl⟩, fun _ tracker => (by cases tracker)⟩,
        fun _ tracker => (by cases tracker)⟩
  | finish result => exact ⟨rfl, rfl⟩

/-- The host gets the machine and the result of the thread, and the rest of the runtime keeps. -/
theorem runWait_eq (s : Runtime) (id : ExecId) (ctx : Context) (mem : Lowmem) :
    (s.runWait id ctx mem).1.callstack = s.callstack ∧ (s.runWait id ctx mem).1.load = s.load ∧
      (s.runWait id ctx mem).1.mode = s.mode ∧ (s.runWait id ctx mem).1.mem = mem ∧
      (s.runWait id ctx mem).2 = (ctx.machine, ctx.result) :=
  ⟨rfl, rfl, rfl, rfl, rfl⟩

theorem runContinue_ends {s : Runtime} {id : ExecId} {regs : Registers} (move : Move)
    (resumes : s.resumeId regs = some id) :
    Ends (s.runContinue id regs move) (Dispatched s regs move) (¬ ·.Tracker) := by
  unfold runContinue wake
  simp only [ends_bind, ends_require, ends_pure]
  refine ⟨fun _ => ⟨fun _ => ?_, fun _ tracker => (by cases tracker)⟩, fun _ tracker => (by cases tracker)⟩
  refine (thread_ends _ _ _ _ _).imp fun after ran => ?_
  obtain ⟨result, segment⟩ := ran
  refine ⟨rfl, rfl, rfl, ?_, ?_⟩
  · simp only [hookSees, resumes]
    exact result
  · simp only [hookSees, resumes]
    exact segment

/-- The entry of an overlay changes the registers and the table of printed addresses only. -/
theorem enterOverlay_ends (s : Runtime) (regs : Registers) :
    Ends (s.enterOverlay regs) (fun entered =>
      (Unpaged s.mem regs ∧ entered = none) ∨ ∃ tracking, ¬ Unpaged s.mem regs ∧
        entered = some ({ s with overlayTracking := tracking }, followStub s.mem regs))
      (¬ ·.Tracker) := by
  unfold enterOverlay
  split
  · rename_i unpaged
    exact .inl ⟨unpaged, rfl⟩
  · rename_i paged
    simp only [ends_bind, ends_require, ends_pure]
    exact ⟨fun _ => ⟨fun _ => .inr ⟨_, paged, rfl⟩, fun _ tracker => (by cases tracker)⟩,
      fun _ tracker => (by cases tracker)⟩

theorem executionAcquire_ends (s : Runtime) :
    Ends s.executionAcquire (fun _ => True) (¬ ·.Tracker) := by
  unfold executionAcquire
  split
  · trivial
  · exact nofun

/-- A new context runs the hook from the registers at its entry. -/
theorem start_ends (s : Runtime) (regs : Registers) (move : Move) :
    Ends (s.start regs move) (fun after => after.1.callstack = s.callstack ∧
        after.1.load = s.load ∧ after.1.mode = s.mode ∧
        after.2.2 = (move regs s.mem).2.2.result ∧
        after.2.2.segment s.load after.1.mem after.2.1 =
          (move regs s.mem).2.2.result.segment s.load (move regs s.mem).2.1 (move regs s.mem).1)
      (¬ ·.Tracker) := by
  unfold start
  refine Ends.bind (executionAcquire_ends s) fun id _ => ?_
  refine Ends.bind (thread_ends _ _ _ _ _) fun after ran => ?_
  exact ⟨rfl, rfl, rfl, ran.1, ran.2⟩

theorem runBegin_ends {s : Runtime} {regs : Registers} {hook : Hook} (move : Move)
    (free : s.resumeId regs = none)
    (found : hookFind s.load s.overlays s.hooks (.make regs.cs regs.ip) = some hook) :
    Ends (s.runBegin hook regs move) (Dispatched s regs move) (¬ ·.Tracker) := by
  unfold runBegin entry
  by_cases overlay : hook.overlay
  · simp only [overlay, if_true]
    refine Ends.bind (enterOverlay_ends s regs) fun entered shape => ?_
    obtain ⟨unpaged, rfl⟩ | ⟨tracking, paged, rfl⟩ := shape
    · have sees : hookSees s regs = none := by simp [hookSees, free, found, overlay, unpaged]
      exact ⟨rfl, rfl, rfl, by rw [sees], by rw [sees]; rfl⟩
    · have sees : hookSees s regs = some (followStub s.mem regs) := by
        simp [hookSees, free, found, overlay, paged]
      refine (start_ends _ _ _).imp fun after began => ?_
      obtain ⟨callstack, load, mode, result, segment⟩ := began
      exact ⟨callstack, load, mode, by rw [sees]; exact result, by rw [sees]; exact segment⟩
  · have sees : hookSees s regs = some regs := by simp [hookSees, free, found, overlay]
    simp only [overlay, Bool.false_eq_true, if_false]
    refine (start_ends _ _ _).imp fun after began => ?_
    obtain ⟨callstack, load, mode, result, segment⟩ := began
    exact ⟨callstack, load, mode, by rw [sees]; exact result, by rw [sees]; exact segment⟩

theorem dispatch_ends (s : Runtime) (regs : Registers) (move : Move) :
    Ends (s.dispatch regs move) (Dispatched s regs move) (¬ ·.Tracker) := by
  unfold dispatch tryResume
  rw [ends_bind]
  cases resumes : s.resumeId regs with
  | some id =>
      simp only [ends_map, ends_pure, bind_pure_comp]
      exact runContinue_ends move resumes
  | none =>
      simp only [ends_ok]
      cases found : hookFind s.load s.overlays s.hooks (.make regs.cs regs.ip) with
      | some hook => exact runBegin_ends move resumes found
      | none =>
          have sees : hookSees s regs = none := by simp [hookSees, resumes, found]
          exact ⟨rfl, rfl, rfl, by rw [sees], by rw [sees]; rfl⟩

/-- After the redirection the event of the guest code or of the hook is pending. -/
structure Redirected (s : Runtime) (regs : Registers) (result : Result)
    (after : Runtime × Registers × ExecReturn) : Prop where
  load : after.1.load = s.load
  answer : after.2.2 ≠ .restore
  segment : after.2.1.cs = result.segment s.load s.mem regs
  interrupts : after.1.callstack.lastInterruptCount = s.callstack.lastInterruptCount
  calls : after.1.callstack.callStack = s.callstack.callStack
  event : after.1.callstack.callEvent = s.callstack.callEvent ∨
    after.1.callstack.callEvent = .call ∨ (after.1.callstack.callEvent = .ret ∧ result.IsReturn)
  last : after.1.callstack.callEvent = .call ∨
    after.1.callstack.lastCode = s.callstack.lastCode

theorem redirect_ends {s : Runtime} {regs : Registers} {result : Result}
    (silent : result.IsBoundary → s.callstack.callEvent = .none) :
    Ends (s.redirect regs result) (Redirected s regs result) (¬ ·.Tracker) := by
  unfold redirect Callstack.triggerEnter Callstack.ret
  cases result with
  | resume | jump | jumpNear | terminate =>
      exact ⟨rfl, fun no => (by cases no), rfl, rfl, rfl, .inl rfl, .inr rfl⟩
  | call | callNear =>
      simp only [ends_bind, ends_require, ends_pure, silent trivial, not_true_eq_false,
        false_implies, forall_const, and_true]
      exact ⟨rfl, fun no => (by cases no), rfl, rfl, rfl, .inr (.inl rfl), .inl rfl⟩
  | retNear | retFar =>
      simp only [ends_bind, ends_require, ends_pure, silent trivial, not_true_eq_false,
        false_implies, forall_const, and_true]
      exact ⟨rfl, fun no => (by cases no), rfl, rfl, rfl, .inr (.inr ⟨rfl, trivial⟩), .inr rfl⟩

/-- A return that is pending after a harmless stop can be resolved where the guest continues. -/
theorem Tracked.canLeave {s : Runtime} {r : Round} {c c' : Callstack} (tracked : Tracked s r c)
    (harmless : Harmless s r)
    (event : c'.callEvent = .ret ∨ c'.callEvent = .jmpRet →
      Leaves s r ∧ c'.lastCode = c.lastCode)
    (calls : c'.callStack = c.callStack) :
    c'.CanLeave (continuation s r).1 (continuation s r).2 := by
  intro pending
  obtain ⟨leaves, last⟩ := event pending
  refine ⟨?_, harmless.next leaves, fun call top => ?_⟩
  · rw [last, tracked.last]
    exact harmless.last leaves
  · refine harmless.source leaves _ ?_
    rw [← tracked.source, ← calls, Option.mem_def.mp top]
    rfl

/-- The pending event can be resolved at the notified position. -/
def Resolvable (r : Round) (after : Runtime × Registers × ExecReturn) : Prop :=
  after.1.callstack.CanLeave after.1.load
      (if after.2.2 = .restore then r.restored.registers else after.2.1).cs ∧
    after.1.callstack.lastInterruptCount = 0

theorem handed_normal {s : Runtime} (r : Round) (normal : s.mode = .normal) :
    handed s r = (hookSees (s.arrive r) r.registers).map fun regs => r.move regs r.mem :=
  if_pos normal

/-- The dispatch of a stop yields the result of its hook and the segment of the continuation. -/
theorem Dispatched.handed {s : Runtime} {r : Round} {c : Callstack}
    {after : Runtime × Registers × Result} (normal : s.mode = .normal)
    (dispatched : Dispatched ((s.arrive r).withCallstack c) r.registers r.move after) :
    (after.2.2.IsBoundary → ∃ regs mem action, handed s r = some (regs, mem, action) ∧
      action.result = after.2.2) ∧
    continuation s r = (r.load, after.2.2.segment r.load after.1.mem after.2.1) := by
  obtain ⟨_, _, _, result, segment⟩ := dispatched
  have saw := handed_normal r normal
  have same : hookSees ((s.arrive r).withCallstack c) r.registers =
      hookSees (s.arrive r) r.registers := rfl
  rw [same] at result segment
  unfold continuation
  rw [normal]
  cases sees : hookSees (s.arrive r) r.registers with
  | none =>
      rw [sees] at saw result segment
      simp only [Option.map_none] at saw
      refine ⟨fun boundary => ?_, ?_⟩
      · rw [result] at boundary
        exact boundary.elim
      · simp only [saw]
        exact Prod.ext rfl segment.symm
  | some seen =>
      rw [sees] at saw result segment
      simp only [Option.map_some] at saw
      refine ⟨fun _ => ⟨_, _, _, saw, result.symm⟩, ?_⟩
      simp only [saw]
      exact Prod.ext rfl segment.symm

theorem Result.IsReturn.isBoundary {result : Result} (returns : result.IsReturn) :
    result.IsBoundary := by
  cases result <;> trivial

/-- In the normal mode the hook of the stop decides how the guest continues. -/
theorem normal_ends {s : Runtime} {r : Round} {c : Callstack} (normal : s.mode = .normal)
    (tracked : Tracked s r c) (harmless : Harmless s r) :
    Ends (do
      let (t, regs, result) ← ((s.arrive r).withCallstack c).dispatch r.registers r.move
      t.redirect regs result) (Resolvable r) (¬ ·.Tracker) := by
  refine Ends.bind (dispatch_ends _ _ _) fun out dispatched => ?_
  obtain ⟨acts, continued⟩ := dispatched.handed normal
  obtain ⟨t, regs, result⟩ := out
  obtain ⟨callstack, load, -, -, -⟩ := dispatched
  have silent : result.IsBoundary → t.callstack.callEvent = .none := by
    intro boundary
    obtain ⟨regs, mem, action, handed, same⟩ := acts boundary
    rw [callstack]
    exact tracked.event.trans (harmless.boundary _ _ _ handed (same ▸ boundary))
  refine (redirect_ends silent).imp fun after redirected => ?_
  have can : after.1.callstack.CanLeave (continuation s r).1 (continuation s r).2 := by
    refine tracked.canLeave harmless (fun pending => ⟨?_, ?_⟩)
      (redirected.calls.trans (congrArg _ callstack))
    · obtain kept | call | ⟨-, returns⟩ := redirected.event
      · rw [kept, callstack, withCallstack_callstack, tracked.event] at pending
        exact pending.imp_right .inl
      · simp [call] at pending
      · obtain ⟨regs, mem, action, handed, same⟩ := acts returns.isBoundary
        exact .inr (.inr ⟨regs, mem, action, handed, same ▸ returns⟩)
    · obtain call | kept := redirected.last
      · simp [call] at pending
      · exact kept.trans (congrArg _ callstack)
  refine ⟨?_, redirected.interrupts.trans (callstack ▸ tracked.interrupts)⟩
  rw [if_neg redirected.answer, redirected.segment, redirected.load, load]
  rw [continued] at can
  exact can

theorem execRun_ends {s : Runtime} {r : Round} {c : Callstack} (tracked : Tracked s r c)
    (harmless : Harmless s r) :
    Ends (((s.arrive r).withCallstack c).execRun r.registers r.move r.restored)
      (Resolvable r) (¬ ·.Tracker) := by
  have announced : c.callEvent = .ret ∨ c.callEvent = .jmpRet →
      Leaves s r ∧ c.lastCode = c.lastCode := by
    rw [tracked.event]
    exact fun pending => ⟨pending.imp_right .inl, rfl⟩
  have can := tracked.canLeave harmless announced rfl
  unfold execRun
  cases mode : s.mode with
  | normal =>
      have none := runSpecialModes_normal (s := (s.arrive r).withCallstack c) mode r.registers
        r.restored
      rw [none]
      exact normal_ends mode tracked harmless
  | capture addr =>
      have mode' : ((s.arrive r).withCallstack c).mode = .capture addr := mode
      rw [continuation, mode] at can
      rw [runSpecialModes, mode']
      dsimp only
      split
      · intro tracker
        cases tracker
      · exact ⟨can, tracked.interrupts⟩
  | restore entry =>
      have mode' : ((s.arrive r).withCallstack c).mode = .restore entry := mode
      rw [continuation, mode] at can
      dsimp only at can
      by_cases atEntry : .make r.registers.cs r.registers.ip = (s.arrive r).hookEntryAddr entry
      · rw [if_pos atEntry] at can
        rw [runSpecialModes_entry mode' atEntry]
        exact ⟨can, tracked.interrupts⟩
      · rw [if_neg atEntry] at can
        rw [runSpecialModes_elsewhere mode' atEntry]
        exact ⟨can, tracked.interrupts⟩

/-- A harmless stop raises no alarm of the tracker and leaves no event pending. -/
theorem round_ends {s : Runtime} {r : Round} (quiet : Quiet s) (harmless : Harmless s r) :
    Ends (s.round r) (fun after => Quiet after.1) (¬ ·.Tracker) := by
  unfold Runtime.round machineExec
  refine Ends.bind (Ends.bind (track_ends r quiet) fun c tracked =>
    execRun_ends tracked harmless) fun after resolvable => ?_
  obtain ⟨can, zero⟩ := resolvable
  unfold machineNotify
  simp only [ends_bind, ends_pure]
  refine (Callstack.notify_ends can).imp fun c notified => ?_
  exact ⟨notified.1, notified.2.trans zero⟩

/-- A run of stops ends at the first one that fails. -/
def run (s : Runtime) (rounds : List Round) : Fallible Runtime :=
  runSteps (fun s r => Prod.fst <$> s.round r) s rounds

def HarmlessRun (s : Runtime) (rounds : List Round) : Prop :=
  EachStep (fun s r => Prod.fst <$> s.round r) Harmless s rounds

/-- No run of harmless stops raises an alarm of the tracker. -/
theorem callstack_passive {s : Runtime} {confs : List Conf} {rounds : List Round}
    (started : s.callstack = .init confs) (harmless : HarmlessRun s rounds) :
    Ends (run s rounds) (fun _ => True) (¬ ·.Tracker) := by
  have quiet : Quiet s := by rw [Quiet, started]; exact ⟨rfl, rfl⟩
  have step : ∀ s r, Quiet s → Harmless s r →
      Ends (Prod.fst <$> s.round r) Quiet (¬ ·.Tracker) :=
    fun s r quiet harmless => ends_map.mpr (round_ends quiet harmless)
  cases ran : run s rounds with
  | ok t => trivial
  | error stop =>
      refine Lib.runSteps_error Quiet Stop.Tracker ?_ ?_ quiet harmless ran
      · intro s r t quiet harmless stepped
        have ends := step s r quiet harmless
        rwa [stepped] at ends
      · intro s r stop quiet harmless stepped
        have ends := step s r quiet harmless
        rwa [stepped] at ends

section
variable (b : U8) (result : Result)

/-- A guest whose first byte is given, and a hook at this byte. -/
private def firstByte : Lowmem := ⟨16, by decide, fun addr => if addr = 0 then b else 0⟩

private def hookAtZero : Hook := ⟨none, .make 0 0, false⟩

private def roundAtZero : Round where
  registers := .zero
  mem := firstByte b
  load := 0
  overlays := .empty
  move regs mem := (regs, mem, .finish result)
  restored := ⟨0, firstByte b, .zero⟩

end

/-- A guest that returns at load segment zero runs without an alarm. -/
theorem callstack_passive_return : Ends
    (run (.init 0 [] [] (firstByte 0xc3)) [roundAtZero 0xc3 .resume]) (fun _ => True)
    (¬ ·.Tracker) := by
  have started : (Runtime.init 0 [] [] (firstByte 0xc3)).callstack = .init [] := rfl
  refine callstack_passive started ⟨⟨?_, ?_, ?_, ?_⟩, fun _ _ => trivial⟩
  · intro regs mem action handed
    have none : Hydra.handed (.init 0 [] [] (firstByte 0xc3)) (roundAtZero 0xc3 .resume) = none :=
      rfl
    rw [none] at handed
    cases handed
  · exact fun _ => Nat.zero_le _
  · exact fun _ => Nat.zero_le _
  · exact fun _ _ _ => Nat.zero_le _

/-- A hooked function that starts with a return raises the alarm when the hook returns. -/
theorem callstack_alarm : ∃ stop,
    run (.init 0 [hookAtZero] [] (firstByte 0xc3)) [roundAtZero 0xc3 .retNear] = .error stop ∧
      stop.Tracker :=
  ⟨.callstackRet, stopOf_eq_some.mp (by decide +kernel), .callstackRet⟩

end Dis86.Hydra
