import Dis86.Hydra.Passive

namespace Dis86.Hydra
open Dis86.Hydra.Runtime
open Lib (runSteps)

def Suspended (s : Runtime) (id : ExecId) : Prop := (s.executions id).state = .active

instance (s : Runtime) (id : ExecId) : Decidable (Suspended s id) :=
  inferInstanceAs (Decidable (_ = _))

/-- A context that is not suspended has no thread. -/
def Context.Free (ctx : Context) : Prop := ctx.state = .uninit ∨ ctx.state = .idle

/-- The thread of a suspended context waits in a call, and a near call has a small identifier. -/
def Context.Waits (ctx : Context) (id : ExecId) : Prop :=
  ctx.state = .active ∧
    (ctx.waiting = some .far ∧ ctx.maybeReloc = false ∨ ctx.waiting = some .near ∧ id.val ≤ 255)

/-- Between two stops each context is free or waits in a call. -/
def Settled (s : Runtime) : Prop :=
  ∀ id, (s.executions id).Free ∨ (s.executions id).Waits id

/-- The magic address that the pending call of a context pushed. -/
def returnAddress (id : ExecId) (ctx : Context) : U16 × U16 :=
  match ctx.waiting with
  | some .near => (ctx.savedCs, 0xff00#16 + id.word)
  | _ => (0xffff#16, id.word)

/-- A near call from the segments of the ROM and of the far magic addresses gets no resumption. -/
def Context.Returnable (ctx : Context) : Prop :=
  ctx.waiting = some .near → ctx.savedCs ≠ 0xffff#16 ∧ ctx.savedCs ≠ 0xf000#16

/-- The positions that may resume a context. The segment of a relocatable call is not checked. -/
def InMagicWindow (id : ExecId) (ctx : Context) (cs ip : U16) : Prop :=
  (cs = 0xffff#16 ∧ ip = id.word) ∨
    (ip = 0xff00#16 + id.word ∧ id.val ≤ 255 ∧ cs ≠ 0xffff#16 ∧ cs ≠ 0xf000#16 ∧
      (ctx.maybeReloc ∨ cs = ctx.savedCs))

theorem ExecId.word_toNat (id : ExecId) : id.word.toNat = id.val := by
  rw [ExecId.word, BitVec.toNat_ofNat, Nat.mod_eq_of_lt (by omega)]

theorem nearId_val (ip : U16) : (nearId ip).val = ip.toNat % 256 := by
  show (ip &&& 0xff).toNat = _
  rw [BitVec.toNat_and]
  exact Nat.and_two_pow_sub_one_eq_mod ip.toNat 8

/-- The near window holds one offset for each small identifier. -/
theorem nearId_eq {id : ExecId} {ip : U16} (above : 0xff00#16 ≤ ip) :
    nearId ip = id ↔ ip = 0xff00#16 + id.word ∧ id.val ≤ 255 := by
  have bound := ip.isLt
  have word := id.word_toNat
  rw [BitVec.le_def] at above
  rw [Fin.ext_iff, nearId_val, ← BitVec.toNat_inj, BitVec.toNat_add, word]
  simp only [BitVec.toNat_ofNat] at above ⊢
  omega

/-- A suspended context is resumed at the address that its pending call pushed. -/
theorem resumeId_returnAddress {s : Runtime} {id : ExecId} {regs : Registers}
    (waits : (s.executions id).Waits id) (returnable : (s.executions id).Returnable)
    (reached : (regs.cs, regs.ip) = returnAddress id (s.executions id)) :
    s.resumeId regs = some id := by
  obtain ⟨active, ⟨waiting, -⟩ | ⟨waiting, small⟩⟩ := waits
  · obtain ⟨cs, ip⟩ := Prod.mk.inj (by simpa [returnAddress, waiting] using reached)
    have inTable : regs.ip.toNat < 1024 := by
      rw [ip, id.word_toNat]
      exact id.isLt
    have same : (⟨regs.ip.toNat, inTable⟩ : ExecId) = id := by
      apply Fin.ext
      rw [← id.word_toNat, ← ip]
    simp only [resumeId, cs, if_true, inTable, dite_true, same, active]
  · obtain ⟨cs, ip⟩ := Prod.mk.inj (by simpa [returnAddress, waiting] using reached)
    obtain ⟨notFar, notRom⟩ := returnable waiting
    rw [← cs] at notFar notRom
    have above : 0xff00#16 ≤ regs.ip := by
      rw [BitVec.le_def, ip, BitVec.toNat_add, id.word_toNat, BitVec.toNat_ofNat]
      omega
    have same : nearId regs.ip = id := (nearId_eq above).mpr ⟨ip, small⟩
    unfold resumeId
    rw [if_neg notFar, if_pos ⟨notRom, above⟩, same, if_pos ⟨active, .inr cs⟩]

/-- A context is resumed in its window only. -/
theorem resumeId_window {s : Runtime} {id : ExecId} {regs : Registers}
    (resumes : s.resumeId regs = some id) :
    Suspended s id ∧ InMagicWindow id (s.executions id) regs.cs regs.ip := by
  unfold resumeId at resumes
  by_cases far : regs.cs = 0xffff#16
  · rw [if_pos far] at resumes
    split at resumes
    · rename_i inTable
      dsimp only at resumes
      split at resumes
      · rename_i active
        obtain rfl := Option.some.inj resumes
        refine ⟨active, .inl ⟨far, ?_⟩⟩
        apply BitVec.eq_of_toNat_eq
        rw [ExecId.word_toNat]
      · cases resumes
    · cases resumes
  · rw [if_neg far] at resumes
    split at resumes
    · rename_i window
      dsimp only at resumes
      split at resumes
      · rename_i live
        obtain same := Option.some.inj resumes
        obtain ⟨ip, small⟩ := (nearId_eq window.2).mp same
        rw [same] at live
        exact ⟨live.1, .inr ⟨ip, small, far, window.1, live.2⟩⟩
      · cases resumes
    · cases resumes

/-- A thread hands back a context that is done or waits in its call. -/
theorem thread_waits {load : U16} {id : ExecId} {ctx after : Context} {mem mem' : Lowmem}
    {move : Move} (active : ctx.state = .active)
    (ran : thread load id ctx mem move = .ok (after, mem')) :
    after.state = .done ∨ after.Waits id := by
  unfold thread at ran
  split at ran
  rename_i acted mem'' action same
  cases action with
  | callFar seg off =>
      obtain ⟨rfl, -⟩ := Prod.mk.inj (Except.ok.inj ran)
      exact .inr ⟨active, .inl ⟨rfl, rfl⟩⟩
  | callNearOff off maybeReloc =>
      simp only [callNearOff, bind_eq_ok, require_eq_ok, pure, Except.pure, Except.ok.injEq,
        Prod.mk.injEq] at ran
      obtain ⟨_, small, _, _, rfl, -⟩ := ran
      exact .inr ⟨active, .inr ⟨rfl, small⟩⟩
  | finish result =>
      obtain ⟨rfl, -⟩ := Prod.mk.inj (Except.ok.inj ran)
      exact .inl rfl

/-- In mapped memory the guest pops the far return address at its stack pointer. -/
theorem callFar_pushes {ctx : Context} {mem : Lowmem} {id : ExecId} {seg off : U16}
    (mapped : (linear ctx.machine.ss 0xffff#16).toNat + 2 ≤ mem.size) :
    let (after, mem') := callFar ctx mem id seg off
    (mem'.read16 (linear after.machine.ss (after.machine.sp + 2)),
      mem'.read16 (linear after.machine.ss after.machine.sp)) = returnAddress id after := by
  have between : ctx.machine.sp - 4 + 2 = ctx.machine.sp - 2 := by bv_omega
  rw [linear_toNat] at mapped
  simp only [callFar, returnAddress, between, Prod.mk.injEq]
  constructor
  · rw [Lowmem.read16_write16_apart, Lowmem.read16_write16]
    · rw [linear_toNat]
      simp only [BitVec.toNat_ofNat] at mapped
      have := (ctx.machine.sp - 2).isLt
      omega
    · simp only [linear_toNat]
      bv_omega
  · rw [Lowmem.read16_write16]
    rw [Lowmem.write16_size, linear_toNat]
    simp only [BitVec.toNat_ofNat] at mapped
    have := (ctx.machine.sp - 4).isLt
    omega

/-- The near return offset is at the stack pointer when the stack has room for it. -/
theorem callNearOff_pushes {load : U16} {ctx after : Context} {mem mem' : Lowmem} {id : ExecId}
    {off : U16} {maybeReloc : Bool} (room : 2 ≤ ctx.machine.sp.toNat)
    (mapped : (linear ctx.machine.ss 0xffff#16).toNat + 2 ≤ mem.size)
    (called : callNearOff load ctx mem id off maybeReloc = .ok (after, mem')) :
    (after.savedCs, mem'.read16 (linear after.machine.ss after.machine.sp)) =
      returnAddress id after := by
  simp only [callNearOff, bind_eq_ok, pure, Except.pure, Except.ok.injEq, Prod.mk.injEq] at called
  obtain ⟨_, _, _, _, rfl, rfl⟩ := called
  have same : linear ctx.machine.ss ctx.machine.sp - 2 =
      linear ctx.machine.ss (ctx.machine.sp - 2) := by
    unfold linear
    bv_omega
  rw [linear_toNat] at mapped
  simp only [BitVec.toNat_ofNat] at mapped
  have below := (ctx.machine.sp - 2).isLt
  rw [same]
  simp only [returnAddress, Prod.mk.injEq, true_and]
  rw [Lowmem.read16_write16]
  rw [linear_toNat]
  omega

/-- One context has run and is free or waits, and the others are as before. -/
structure RanIn (s t : Runtime) (id : ExecId) : Prop where
  ended : (t.executions id).Free ∨ (t.executions id).Waits id
  others : ∀ other, other ≠ id → t.executions other = s.executions other

theorem runWait_ranIn {s : Runtime} {id : ExecId} {ctx : Context} (mem : Lowmem)
    (handed : ctx.state = .done ∨ ctx.Waits id) : RanIn s (s.runWait id ctx mem).1 id where
  ended := by
    have stored : (s.runWait id ctx mem).1.executions id =
        if ctx.state = .done then { ctx with state := .idle } else ctx :=
      Function.update_self ..
    rw [stored]
    obtain done | waits := handed
    · rw [if_pos done]
      exact .inl (.inr rfl)
    · rw [if_neg (by rw [waits.1]; exact nofun)]
      exact .inr waits
  others other differs := Function.update_of_ne differs _ _

theorem runContinue_ranIn {s t : Runtime} {id : ExecId} {regs regs' : Registers} {move : Move}
    {result : Result} (ran : s.runContinue id regs move = .ok (t, regs', result)) :
    RanIn s t id := by
  simp only [runContinue, wake, bind_eq_ok, require_eq_ok, pure, Except.pure, Except.ok.injEq]
    at ran
  obtain ⟨_, active, ctx, ⟨_, _, rfl⟩, ⟨after, mem⟩, threaded, same⟩ := ran
  have handed := thread_waits (by exact active) threaded
  have waited := runWait_ranIn (s := s) mem handed
  rwa [same] at waited

theorem executionAcquire_free {s : Runtime} {id : ExecId} (acquired : s.executionAcquire = .ok id) :
    (s.executions id).Free := by
  unfold executionAcquire at acquired
  split at acquired
  · rename_i found
    obtain rfl := Except.ok.inj acquired
    have matched := Fin.eq_true_of_find?_eq_some found
    rwa [decide_eq_true_iff] at matched
  · cases acquired

theorem start_ranIn {s t : Runtime} {regs regs' : Registers} {move : Move} {result : Result}
    (ran : s.start regs move = .ok (t, regs', result)) :
    ∃ id, (s.executions id).Free ∧ RanIn s t id := by
  simp only [start, bind_eq_ok, pure, Except.pure, Except.ok.injEq] at ran
  obtain ⟨id, acquired, ⟨after, mem⟩, threaded, same⟩ := ran
  have waited := runWait_ranIn (s := s) mem (thread_waits rfl threaded)
  rw [same] at waited
  exact ⟨id, executionAcquire_free acquired, waited⟩

/-- The entry of a hook leaves the contexts alone. -/
theorem entry_executions {s t : Runtime} {hook : Hook} {regs regs' : Registers}
    (entered : s.entry hook regs = .ok (some (t, regs'))) : t.executions = s.executions := by
  unfold entry at entered
  split at entered
  · have ends := enterOverlay_ends s regs
    rw [entered] at ends
    obtain ⟨_, impossible⟩ | ⟨tracking, _, same⟩ := ends
    · cases impossible
    · obtain ⟨rfl, -⟩ := Prod.mk.inj (Option.some.inj same)
      rfl
  · obtain ⟨rfl, -⟩ := Prod.mk.inj (Option.some.inj (Except.ok.inj entered))
    rfl

/-- At a stop nothing runs, or one context runs that was resumed or free. -/
def RunsOne (s t : Runtime) (resumed : Option ExecId) : Prop :=
  (resumed = none ∧ t.executions = s.executions) ∨
    ∃ id, (resumed = some id ∨ resumed = none ∧ (s.executions id).Free) ∧ RanIn s t id

/-- Only the contexts of the two states count. -/
theorem RunsOne.congr {s s' t t' : Runtime} {resumed : Option ExecId} (one : RunsOne s t resumed)
    (before : s'.executions = s.executions) (after : t'.executions = t.executions) :
    RunsOne s' t' resumed := by
  obtain ⟨idle, same⟩ | ⟨id, source, runner⟩ := one
  · exact .inl ⟨idle, after.trans (same.trans before.symm)⟩
  · refine .inr ⟨id, by rwa [before], by rw [after]; exact runner.ended, fun other differs => ?_⟩
    rw [after, before, runner.others other differs]

theorem runBegin_runsOne {s t : Runtime} {hook : Hook} {regs regs' : Registers} {move : Move}
    {result : Result} (ran : s.runBegin hook regs move = .ok (t, regs', result)) :
    RunsOne s t none := by
  unfold runBegin at ran
  obtain ⟨entered, entry, ran⟩ := bind_eq_ok.mp ran
  cases entered with
  | none =>
      obtain ⟨rfl, -⟩ := Prod.mk.inj (Except.ok.inj ran)
      exact .inl ⟨rfl, rfl⟩
  | some entered =>
      obtain ⟨id, free, runner⟩ := start_ranIn ran
      have one : RunsOne _ t none := .inr ⟨id, .inr ⟨rfl, free⟩, runner⟩
      exact one.congr (entry_executions entry).symm rfl

theorem dispatch_runsOne {s t : Runtime} {regs regs' : Registers} {move : Move} {result : Result}
    (ran : s.dispatch regs move = .ok (t, regs', result)) : RunsOne s t (s.resumeId regs) := by
  unfold dispatch tryResume at ran
  cases resumes : s.resumeId regs with
  | some id =>
      rw [resumes] at ran
      simp only [bind_eq_ok, pure, Except.pure, Except.ok.injEq] at ran
      obtain ⟨_, ⟨after, continued, rfl⟩, same⟩ := ran
      simp only [Except.ok.injEq] at same
      subst same
      exact .inr ⟨id, .inl rfl, runContinue_ranIn continued⟩
  | none =>
      rw [resumes] at ran
      obtain ⟨_, nothing, ran⟩ := bind_eq_ok.mp ran
      obtain rfl := Except.ok.inj nothing
      dsimp only at ran
      split at ran
      · exact runBegin_runsOne ran
      · obtain ⟨rfl, -⟩ := Prod.mk.inj (Except.ok.inj ran)
        exact .inl ⟨rfl, rfl⟩

theorem redirect_executions {s t : Runtime} {regs regs' : Registers} {result : Result}
    {answer : ExecReturn} (moved : s.redirect regs result = .ok (t, regs', answer)) :
    t.executions = s.executions := by
  unfold redirect at moved
  cases result with
  | resume | jump | jumpNear | terminate =>
      obtain ⟨rfl, -⟩ := Prod.mk.inj (Except.ok.inj moved)
      rfl
  | call | callNear | retNear | retFar =>
      obtain ⟨_, _, moved⟩ := bind_eq_ok.mp moved
      obtain ⟨rfl, -⟩ := Prod.mk.inj (Except.ok.inj moved)
      rfl

/-- The context that a stop resumes. In the special modes nothing is resumed. -/
def resumed (s : Runtime) (r : Round) : Option ExecId :=
  if s.mode = .normal then s.resumeId r.registers else none

theorem execRun_runsOne {s t : Runtime} {regs regs' : Registers} {move : Move}
    {restored : Restored} {answer : ExecReturn}
    (ran : s.execRun regs move restored = .ok (t, regs', answer)) :
    RunsOne s t (if s.mode = .normal then s.resumeId regs else none) := by
  unfold execRun at ran
  obtain ⟨special, modes, ran⟩ := bind_eq_ok.mp ran
  unfold runSpecialModes at modes
  cases mode : s.mode with
  | normal =>
      rw [mode] at modes
      obtain rfl := Except.ok.inj modes
      obtain ⟨⟨u, regs'', result⟩, dispatched, moved⟩ := bind_eq_ok.mp ran
      have one := dispatch_runsOne dispatched
      exact one.congr rfl (redirect_executions moved)
  | capture addr =>
      rw [mode] at modes
      dsimp only at modes
      split at modes
      · cases modes
      · obtain rfl := Except.ok.inj modes
        obtain ⟨rfl, -⟩ := Prod.mk.inj (Except.ok.inj ran)
        exact .inl ⟨rfl, rfl⟩
  | restore entry =>
      rw [mode] at modes
      dsimp only at modes
      split at modes
      · obtain rfl := Except.ok.inj modes
        obtain ⟨rfl, -⟩ := Prod.mk.inj (Except.ok.inj ran)
        exact .inl ⟨rfl, rfl⟩
      · obtain rfl := Except.ok.inj modes
        obtain ⟨rfl, -⟩ := Prod.mk.inj (Except.ok.inj ran)
        exact .inl ⟨rfl, rfl⟩

/-- A stop runs at most one context, with the tracking and the notification around it. -/
theorem round_runsOne {s t : Runtime} {r : Round} {regs : Registers}
    (ran : s.round r = .ok (t, regs)) : RunsOne s t (resumed s r) := by
  unfold Runtime.round machineExec machineNotify at ran
  obtain ⟨⟨u, regs', answer⟩, execd, ran⟩ := bind_eq_ok.mp ran
  obtain ⟨c, -, execd⟩ := bind_eq_ok.mp execd
  obtain ⟨v, notified, ran⟩ := bind_eq_ok.mp ran
  obtain ⟨c', -, notified⟩ := bind_eq_ok.mp notified
  obtain ⟨rfl, -⟩ := Prod.mk.inj (Except.ok.inj ran)
  obtain rfl := Except.ok.inj notified
  exact (execRun_runsOne execd).congr rfl rfl

theorem RunsOne.settled {s t : Runtime} {resumed : Option ExecId} (one : RunsOne s t resumed)
    (settled : Settled s) : Settled t := by
  obtain ⟨-, same⟩ | ⟨id, -, runner⟩ := one
  · intro other
    rw [same]
    exact settled other
  · intro other
    by_cases same : other = id
    · subst same
      exact runner.ended
    · rw [runner.others other same]
      exact settled other

theorem Context.Free.not_active {ctx : Context} (free : ctx.Free) : ctx.state ≠ .active := by
  rintro active
  obtain uninit | idle := free
  · rw [active] at uninit
    cases uninit
  · rw [active] at idle
    cases idle

/-- The resumed context leaves the stack. -/
def keptStack (s : Runtime) (r : Round) (stack : List ExecId) : List ExecId :=
  match resumed s r with
  | some id => stack.erase id
  | none => stack

/-- A context that is suspended now and was not before comes first. -/
def nextStack (t : Runtime) (kept : List ExecId) : List ExecId :=
  match Fin.find? fun id => decide (Suspended t id ∧ id ∉ kept) with
  | some id => id :: kept
  | none => kept

/-- A stop of the runtime, with the suspended contexts from the innermost one outwards. -/
def stackedRound (s : Runtime × List ExecId) (r : Round) : Fallible (Runtime × List ExecId) := do
  let (t, _) ← s.1.round r
  return (t, nextStack t (keptStack s.1 r s.2))

/-- The list holds the suspended contexts once each. -/
def Stacked (s : Runtime) (stack : List ExecId) : Prop :=
  stack.Nodup ∧ ∀ id, Suspended s id ↔ id ∈ stack

theorem nextStack_same {t : Runtime} {kept : List ExecId} (stacked : Stacked t kept) :
    nextStack t kept = kept := by
  have absent : Fin.find? (fun id => decide (Suspended t id ∧ id ∉ kept)) = none := by
    rw [Fin.find?_eq_none_iff]
    intro id
    have := stacked.2 id
    simp only [decide_eq_false_iff_not]
    tauto
  unfold nextStack
  rw [absent]

theorem nextStack_new {t : Runtime} {kept : List ExecId} {id : ExecId}
    (suspended : Suspended t id) (fresh : id ∉ kept)
    (others : ∀ other, other ≠ id → (Suspended t other ↔ other ∈ kept)) :
    nextStack t kept = id :: kept := by
  have found : Fin.find? (fun id => decide (Suspended t id ∧ id ∉ kept)) = some id := by
    rw [Fin.find?_eq_some_iff]
    refine ⟨decide_eq_true ⟨suspended, fresh⟩, fun other below => ?_⟩
    have := others other (Fin.ne_of_lt below)
    simp only [decide_eq_false_iff_not]
    tauto
  unfold nextStack
  rw [found]

/-- The context that runs is not among the ones that stay suspended. -/
theorem keptStack_runner {s : Runtime} {r : Round} {stack : List ExecId} {id : ExecId}
    (stacked : Stacked s stack)
    (source : resumed s r = some id ∨ resumed s r = none ∧ (s.executions id).Free) :
    (keptStack s r stack).Nodup ∧ id ∉ keptStack s r stack ∧
      ∀ other, other ≠ id → (other ∈ keptStack s r stack ↔ other ∈ stack) := by
  unfold keptStack
  obtain resumes | ⟨nothing, free⟩ := source
  · rw [resumes]
    exact ⟨stacked.1.erase id, stacked.1.not_mem_erase,
      fun other differs => List.mem_erase_of_ne differs⟩
  · rw [nothing]
    refine ⟨stacked.1, fun member => ?_, fun _ _ => Iff.rfl⟩
    exact free.not_active ((stacked.2 id).mpr member)

/-- The stack gains the context that waits anew, if one does. -/
theorem RunsOne.stacked {s t : Runtime} {r : Round} {stack : List ExecId}
    (one : RunsOne s t (resumed s r)) (stacked : Stacked s stack) :
    Stacked t (nextStack t (keptStack s r stack)) ∧
      (nextStack t (keptStack s r stack) = keptStack s r stack ∨
        ∃ id, id ∉ keptStack s r stack ∧ (∀ other, resumed s r = some other → id = other) ∧
          nextStack t (keptStack s r stack) = id :: keptStack s r stack) := by
  obtain ⟨nothing, same⟩ | ⟨id, source, runner⟩ := one
  · have kept : keptStack s r stack = stack := by rw [keptStack, nothing]
    have stacked' : Stacked t stack := by
      refine ⟨stacked.1, fun id => ?_⟩
      rw [← stacked.2 id, Suspended, Suspended, same]
    rw [kept, nextStack_same stacked']
    exact ⟨stacked', .inl rfl⟩
  · obtain ⟨nodup, fresh, members⟩ := keptStack_runner stacked source
    have others : ∀ other, other ≠ id → (Suspended t other ↔ other ∈ keptStack s r stack) := by
      intro other differs
      rw [members other differs, ← stacked.2 other, Suspended, Suspended,
        runner.others other differs]
    have source' : ∀ other, resumed s r = some other → id = other := by
      intro other resumes
      obtain same | ⟨nothing, -⟩ := source
      · exact Option.some.inj (same.symm.trans resumes)
      · rw [nothing] at resumes
        cases resumes
    by_cases suspended : Suspended t id
    · rw [nextStack_new suspended fresh others]
      refine ⟨⟨List.nodup_cons.mpr ⟨fresh, nodup⟩, fun other => ?_⟩,
        .inr ⟨id, fresh, source', rfl⟩⟩
      by_cases same : other = id
      · simp [same, suspended]
      · rw [others other same, List.mem_cons, or_iff_right same]
    · have stacked' : Stacked t (keptStack s r stack) := by
        refine ⟨nodup, fun other => ?_⟩
        by_cases same : other = id
        · subst same
          exact iff_of_false suspended fresh
        · exact others other same
      rw [nextStack_same stacked']
      exact ⟨stacked', .inl rfl⟩

/-- What holds of the contexts between two stops. -/
structure ContextsKept (s : Runtime) (stack : List ExecId) : Prop where
  stacked : Stacked s stack
  idle : ∀ id, id ∉ stack → (s.executions id).Free
  resumes : ∀ id ∈ stack, (s.executions id).Returnable → ∀ regs : Registers,
    (regs.cs, regs.ip) = returnAddress id (s.executions id) → s.resumeId regs = some id
  only : ∀ regs : Registers, ∀ id, s.resumeId regs = some id →
    id ∈ stack ∧ InMagicWindow id (s.executions id) regs.cs regs.ip

/-- What one more stop does with the contexts. -/
structure StopKept (s : Runtime) (stack : List ExecId) (r : Round) (t : Runtime)
    (stack' : List ExecId) : Prop where
  /-- A suspended context that is not resumed stays as it is. -/
  waiting : ∀ id ∈ stack, resumed s r ≠ some id →
    t.executions id = s.executions id ∧ id ∈ stack'
  /-- A resumed hook finds the values that its callee left. -/
  values : ∀ id, resumed s r = some id → ∃ seen, hookSees (s.arrive r) r.registers = some seen ∧
    seen.ax = r.registers.ax ∧ seen.dx = r.registers.dx ∧ seen.sp = r.registers.sp
  /-- A resumption ends the pending call, and the hook can only call anew. -/
  pops : ∀ id, resumed s r = some id →
    stack' = stack.erase id ∨ stack' = id :: stack.erase id
  /-- Resumptions of the innermost context alone are last in, first out. -/
  lifo : ∀ id rest, stack = id :: rest → resumed s r = some id →
    stack' = rest ∨ stack' = id :: rest
  calls : resumed s r = none → stack' = stack ∨ ∃ id, id ∉ stack ∧ stack' = id :: stack
  /-- The return of a hook that is innermost and outermost leaves no context in use. -/
  outermost : ∀ id, stack.head? = some id → stack.getLast? = some id →
    resumed s r = some id → id ∉ stack' → ∀ other, (t.executions other).Free

theorem Settled.contextsKept {s : Runtime} {stack : List ExecId} (settled : Settled s)
    (stacked : Stacked s stack) : ContextsKept s stack where
  stacked := stacked
  idle id absent := by
    obtain free | waits := settled id
    · exact free
    · exact absurd ((stacked.2 id).mp waits.1) absent
  resumes id member returnable regs reached := by
    obtain free | waits := settled id
    · exact absurd ((stacked.2 id).mpr member) free.not_active
    · exact resumeId_returnAddress waits returnable reached
  only regs id resumes := by
    obtain ⟨suspended, window⟩ := resumeId_window resumes
    exact ⟨(stacked.2 id).mp suspended, window⟩

/-- The registers of a resumed hook differ from the ones at the stop in the position only. -/
theorem hookSees_values {s : Runtime} {regs : Registers} {id : ExecId}
    (resumes : s.resumeId regs = some id) :
    ∃ seen, hookSees s regs = some seen ∧
      seen.ax = regs.ax ∧ seen.dx = regs.dx ∧ seen.sp = regs.sp := by
  refine ⟨wakeRegisters (s.executions id) regs, by rw [hookSees, resumes], ?_⟩
  unfold wakeRegisters
  split <;> exact ⟨rfl, rfl, rfl⟩

theorem resumed_eq_some {s : Runtime} {r : Round} {id : ExecId} (resumes : resumed s r = some id) :
    s.resumeId r.registers = some id := by
  unfold resumed at resumes
  split at resumes
  · exact resumes
  · cases resumes

theorem stopKept {s t : Runtime} {r : Round} {stack stack' : List ExecId} (settled : Settled s)
    (stacked : Stacked s stack) (ran : stackedRound (s, stack) r = .ok (t, stack')) :
    StopKept s stack r t stack' := by
  obtain ⟨⟨u, regs⟩, round, same⟩ := bind_eq_ok.mp ran
  obtain ⟨rfl, rfl⟩ := Prod.mk.inj (Except.ok.inj same)
  have one := round_runsOne round
  obtain ⟨stacked', grown⟩ := one.stacked stacked
  have settled' := one.settled settled
  have pops : ∀ id, resumed s r = some id →
      nextStack u (keptStack s r stack) = stack.erase id ∨
        nextStack u (keptStack s r stack) = id :: stack.erase id := by
    intro id resumes
    have kept : keptStack s r stack = stack.erase id := by rw [keptStack, resumes]
    obtain same | ⟨other, -, source, same⟩ := grown
    · exact .inl (same.trans kept)
    · rw [source id resumes] at same
      exact .inr (same.trans (congrArg _ kept))
  have lifo : ∀ id rest, stack = id :: rest → resumed s r = some id →
      nextStack u (keptStack s r stack) = rest ∨
        nextStack u (keptStack s r stack) = id :: rest := by
    intro id rest shape resumes
    have erased : stack.erase id = rest := by rw [shape, List.erase_cons_head]
    rw [← erased]
    exact pops id resumes
  refine ⟨?_, fun id resumes => hookSees_values (resumed_eq_some resumes), pops, lifo, ?_, ?_⟩
  · intro id member notResumed
    have suspended := (stacked.2 id).mpr member
    have frame : u.executions id = s.executions id := by
      obtain ⟨-, same⟩ | ⟨runner, source, ranIn⟩ := one
      · rw [same]
      · refine ranIn.others id fun isRunner => ?_
        subst isRunner
        obtain resumes | ⟨-, free⟩ := source
        · exact notResumed resumes
        · exact free.not_active suspended
    refine ⟨frame, (stacked'.2 id).mp ?_⟩
    rw [Suspended, frame]
    exact suspended
  · intro nothing
    have kept : keptStack s r stack = stack := by rw [keptStack, nothing]
    obtain same | ⟨id, fresh, -, same⟩ := grown
    · exact .inl (same.trans kept)
    · exact .inr ⟨id, kept ▸ fresh, same.trans (congrArg _ kept)⟩
  · intro id first last resumes returned other
    obtain ⟨rest, shape⟩ : ∃ rest, stack = id :: rest := by
      cases stack with
      | nil => cases first
      | cons head rest => exact ⟨rest, by rw [Option.some.inj first]⟩
    have empty : rest = [] := by
      by_contra nonempty
      have nodup := stacked.1
      rw [shape] at last nodup
      rw [List.getLast?_cons_of_ne_nil nonempty] at last
      exact (List.nodup_cons.mp nodup).1 (List.mem_of_getLast? last)
    obtain same | same := lifo id rest shape resumes
    · have absent : other ∉ nextStack u (keptStack s r stack) := by
        rw [same, empty]
        exact List.not_mem_nil
      exact (settled'.contextsKept stacked').idle other absent
    · rw [same] at returned
      exact absurd List.mem_cons_self returned

theorem stackedRound_keeps {s t : Runtime} {r : Round} {stack stack' : List ExecId}
    (before : Settled s ∧ Stacked s stack)
    (ran : stackedRound (s, stack) r = .ok (t, stack')) : Settled t ∧ Stacked t stack' := by
  obtain ⟨⟨u, regs⟩, round, same⟩ := bind_eq_ok.mp ran
  obtain ⟨rfl, rfl⟩ := Prod.mk.inj (Except.ok.inj same)
  have one := round_runsOne round
  exact ⟨one.settled before.1, (one.stacked before.2).1⟩

section
variable (action : Action)

/-- A hook at the start of the image. -/
private def imageStart : Runtime := .init 0 [⟨none, .make 0 0, false⟩] [] .empty

private def stopAtStart : Round where
  registers := .zero
  mem := .empty
  load := 0
  overlays := .empty
  move regs mem := (regs, mem, action)
  restored := ⟨0, .empty, .zero⟩

private def stackAfter (result : Fallible (Runtime × List ExecId)) : Option (List ExecId) :=
  match result with
  | .ok (_, stack) => some stack
  | .error _ => none

private theorem of_stackAfter {result : Fallible (Runtime × List ExecId)} {stack : List ExecId}
    (after : stackAfter result = some stack) : ∃ t, result = .ok (t, stack) := by
  unfold stackAfter at after
  split at after
  · exact ⟨_, by rw [Option.some.inj after]⟩
  · cases after

end

private def resumesAway (regs : Registers) (result : Fallible (Runtime × List ExecId)) : Bool :=
  match result with
  | .ok (t, _) => (t.resumeId regs).any fun id =>
      (regs.cs, regs.ip) ≠ returnAddress id (t.executions id)
  | .error _ => false

end Dis86.Hydra
