import Dis86.Hydra.Callstack
import Dis86.Hydra.Overlay

namespace Dis86.Hydra

/-- A result tells the host how the guest continues. -/
inductive Result where
  | resume
  | jump (newCs newIp : U16)
  | jumpNear (newIp : U16)
  | call (newCs newIp : U16)
  | callNear (newIp : U16)
  | retNear
  | retFar
  | terminate (exitCode : Int)
deriving DecidableEq, Repr

inductive ExecState where
  | uninit | idle | active | done
deriving DecidableEq, Repr

/-- The call in which the thread of a context waits for its resumption. -/
inductive NativeCall where
  | far | near
deriving DecidableEq, Repr

structure Context where
  state : ExecState
  machine : Registers
  result : Result
  savedCs : U16
  savedIp : U16
  maybeReloc : Bool
  waiting : Option NativeCall
deriving DecidableEq

/-- A context identifier is an index of the table. -/
abbrev ExecId := Fin 1024

def ExecId.word (id : ExecId) : U16 := .ofNat 16 id

inductive Mode where
  | normal
  | capture (addr : Addr)
  | restore (entry : Option Addr)
deriving DecidableEq, Repr

structure Runtime where
  /-- The source calls it `CODE_START_SEG`. -/
  load : U16
  mode : Mode
  hooks : List Hook
  overlays : Overlays
  overlayTracking : List (Addr × Addr)
  executions : ExecId → Context
  threadActive : Option ExecId
  callstack : Callstack
  mem : Lowmem

/-- What the code of a hook does next: it calls the guest or it returns. -/
inductive Action where
  | callFar (seg off : U16)
  | callNearOff (off : U16) (maybeReloc : Bool)
  | finish (result : Result)
deriving DecidableEq, Repr

/-- A hook computes from the registers and the memory up to its next action. -/
abbrev Move := Registers → Lowmem → Registers × Lowmem × Action

namespace Runtime

/-- The static tables start out as zeroes. -/
def init (load : U16) (hooks : List Hook) (confs : List Conf) (mem : Lowmem) : Runtime where
  load := load
  mode := .normal
  hooks := hooks
  overlays := .empty
  overlayTracking := []
  executions _ := {
    state := .uninit
    machine := .zero
    result := .resume
    savedCs := 0
    savedIp := 0
    maybeReloc := false
    waiting := none }
  threadActive := none
  callstack := .init confs
  mem := mem

def withCallstack (s : Runtime) (callstack : Callstack) : Runtime :=
  { s with callstack := callstack }

@[simp] theorem withCallstack_callstack (s : Runtime) (c : Callstack) :
    (s.withCallstack c).callstack = c := rfl

@[simp] theorem withCallstack_load (s : Runtime) (c : Callstack) :
    (s.withCallstack c).load = s.load := rfl

@[simp] theorem withCallstack_mem (s : Runtime) (c : Callstack) :
    (s.withCallstack c).mem = s.mem := rfl

@[simp] theorem withCallstack_mode (s : Runtime) (c : Callstack) :
    (s.withCallstack c).mode = s.mode := rfl

def setContext (s : Runtime) (id : ExecId) (ctx : Context) : Runtime :=
  { s with executions := Function.update s.executions id ctx }

@[simp] theorem setContext_same (s : Runtime) (id : ExecId) (ctx : Context) :
    (s.setContext id ctx).executions id = ctx := by
  simp [setContext]

theorem setContext_other {s : Runtime} {id other : ExecId} (ctx : Context) (differs : other ≠ id) :
    (s.setContext id ctx).executions other = s.executions other := by
  simp [setContext, differs]

@[simp] theorem setContext_load (s : Runtime) (id : ExecId) (ctx : Context) :
    (s.setContext id ctx).load = s.load := rfl

/-- The return address `0xffff:id` is pushed, and the context waits. -/
def callFar (ctx : Context) (mem : Lowmem) (id : ExecId) (seg off : U16) : Context × Lowmem :=
  let regs := ctx.machine
  let mem := mem.write16 (linear regs.ss (regs.sp - 2)) 0xffff#16
  let mem := mem.write16 (linear regs.ss (regs.sp - 4)) id.word
  ({ ctx with
      machine := { regs with sp := regs.sp - 4 }
      savedCs := regs.cs
      savedIp := regs.ip
      maybeReloc := false
      result := .call seg off
      waiting := some .far }, mem)

/-- The return offset `0xff00 + id` is pushed. Its address does not wrap around with the stack
pointer. -/
def callNearOff (load : U16) (ctx : Context) (mem : Lowmem) (id : ExecId) (off : U16)
    (maybeReloc : Bool) : Fallible (Context × Lowmem) := do
  require (id.val ≤ 255) (.contextId id.word)
  let regs := ctx.machine
  let mem := mem.write16 (linear regs.ss regs.sp - 2) (0xff00#16 + id.word)
  require (load ≤ regs.cs) (.callerSegment regs.cs)
  return ({ ctx with
      machine := { regs with sp := regs.sp - 2 }
      savedCs := regs.cs
      savedIp := regs.ip
      maybeReloc := maybeReloc
      result := .callNear off
      waiting := some .near }, mem)

/-- The thread of a context runs until it hands control back. -/
def thread (load : U16) (id : ExecId) (ctx : Context) (mem : Lowmem) (move : Move) :
    Fallible (Context × Lowmem) :=
  let (regs, mem, action) := move ctx.machine mem
  let ctx := { ctx with machine := regs, waiting := none }
  match action with
  | .callFar seg off => .ok (callFar ctx mem id seg off)
  | .callNearOff off maybeReloc => callNearOff load ctx mem id off maybeReloc
  | .finish result => .ok ({ ctx with result := result, state := .done }, mem)

/-- A far call gets its code position back, and a near call its offset. -/
def wakeRegisters (ctx : Context) (regs : Registers) : Registers :=
  match ctx.waiting with
  | some .far => { regs with cs := ctx.savedCs, ip := ctx.savedIp }
  | some .near => { regs with ip := ctx.savedIp }
  | none => regs

/-- The thread returns from the call in which it waits. -/
def wake (ctx : Context) : Fallible Context := do
  require (ctx.waiting = some .near → ctx.maybeReloc ∨ ctx.machine.cs = ctx.savedCs)
    (.returnSegment ctx.machine.cs ctx.savedCs)
  return { ctx with machine := wakeRegisters ctx ctx.machine }

/-- The host takes the result over, and a context that is done becomes idle. -/
def runWait (s : Runtime) (id : ExecId) (ctx : Context) (mem : Lowmem) :
    Runtime × Registers × Result :=
  let released := if ctx.state = .done then { ctx with state := .idle } else ctx
  ({ s.setContext id released with threadActive := some id, mem := mem }, ctx.machine, ctx.result)

/-- The first context that is not in use is taken. -/
@[irreducible] def executionAcquire (s : Runtime) : Fallible ExecId :=
  match Fin.find? fun id =>
    decide ((s.executions id).state = .uninit ∨ (s.executions id).state = .idle) with
  | some id => .ok id
  | none => .error .maxExec

/-- The stub of an overlay function is not paged in. -/
def Unpaged (mem : Lowmem) (regs : Registers) : Prop :=
  mem.read8 (linear regs.cs regs.ip) = 0xcd ∧ mem.read8 (linear regs.cs regs.ip + 1) = 0x3f

instance (mem : Lowmem) (regs : Registers) : Decidable (Unpaged mem regs) :=
  inferInstanceAs (Decidable (_ ∧ _))

/-- The far jump of a stub leads to the body. -/
def followStub (mem : Lowmem) (regs : Registers) : Registers :=
  { regs with
    cs := mem.read16 (linear regs.cs regs.ip + 3)
    ip := mem.read16 (linear regs.cs regs.ip + 1) }

/-- An overlay entry that is not paged in goes on in the guest, and another one jumps to the
body. -/
def enterOverlay (s : Runtime) (regs : Registers) : Fallible (Option (Runtime × Registers)) :=
  if Unpaged s.mem regs then .ok none
  else do
    let found := s.mem.read8 (linear regs.cs regs.ip)
    require (found = 0xea) (.expectedJumpFar found)
    let body := followStub s.mem regs
    let stub := Addr.make (regs.cs - s.load) regs.ip
    let others := s.overlayTracking.filter fun entry => entry.1 ≠ stub
    require (others.length < 1024) .overlayTracking
    return some ({ s with overlayTracking := (stub, .make body.cs body.ip) :: others }, body)

def entry (s : Runtime) (hook : Hook) (regs : Registers) :
    Fallible (Option (Runtime × Registers)) :=
  if hook.overlay then s.enterOverlay regs else .ok (some (s, regs))

/-- A fresh context runs the hook on its own thread. -/
def start (s : Runtime) (regs : Registers) (move : Move) :
    Fallible (Runtime × Registers × Result) := do
  let id ← s.executionAcquire
  let ctx := { s.executions id with state := .active, machine := regs, waiting := none }
  let (ctx, mem) ← thread s.load id ctx s.mem move
  return s.runWait id ctx mem

def runBegin (s : Runtime) (hook : Hook) (regs : Registers) (move : Move) :
    Fallible (Runtime × Registers × Result) := do
  match ← s.entry hook regs with
  | none => return (s, regs, .resume)
  | some (s, regs) => s.start regs move

def runContinue (s : Runtime) (id : ExecId) (regs : Registers) (move : Move) :
    Fallible (Runtime × Registers × Result) := do
  let ctx := s.executions id
  require (ctx.state = .active) .contextState
  let ctx ← wake { ctx with machine := regs }
  let (ctx, mem) ← thread s.load id ctx s.mem move
  return s.runWait id ctx mem

theorem nearId_bound (ip : U16) : (ip &&& 0xff).toNat < 1024 := by
  rw [BitVec.toNat_and]
  exact Nat.lt_of_le_of_lt Nat.and_le_right (by decide)

/-- A near return offset holds the identifier in its low byte. -/
def nearId (ip : U16) : ExecId := ⟨(ip &&& 0xff).toNat, nearId_bound ip⟩

/-- The context that the guest position resumes, if any. -/
def resumeId (s : Runtime) (regs : Registers) : Option ExecId :=
  if regs.cs = 0xffff#16 then
    if inTable : regs.ip.toNat < 1024 then
      let id : ExecId := ⟨regs.ip.toNat, inTable⟩
      if (s.executions id).state = .active then some id else none
    else none
  else if regs.cs ≠ 0xf000#16 ∧ 0xff00#16 ≤ regs.ip then
    let ctx := s.executions (nearId regs.ip)
    if ctx.state = .active ∧ (ctx.maybeReloc ∨ regs.cs = ctx.savedCs) then
      some (nearId regs.ip)
    else none
  else none

def tryResume (s : Runtime) (regs : Registers) (move : Move) :
    Fallible (Option (Runtime × Registers × Result)) :=
  match s.resumeId regs with
  | some id => do return some (← s.runContinue id regs move)
  | none => .ok none

/-- The answer to the host driver. -/
inductive ExecReturn where
  | resume | redirect | restore | terminated
deriving DecidableEq, Repr

/-- The machine that a restored snapshot leaves. -/
structure Restored where
  load : U16
  mem : Lowmem
  registers : Registers

def hookEntryAddr (s : Runtime) (entry : Option Addr) : Addr :=
  match entry with
  | some entry => .make (s.load + entry.seg) entry.off
  | none => .make (0x02e0 + s.load) 0x000f

@[simp] theorem withCallstack_hookEntryAddr (s : Runtime) (c : Callstack) (entry : Option Addr) :
    (s.withCallstack c).hookEntryAddr entry = s.hookEntryAddr entry := rfl

/-- In the special modes no hook runs. -/
def runSpecialModes (s : Runtime) (regs : Registers) (restored : Restored) :
    Fallible (Option (Runtime × ExecReturn)) :=
  match s.mode with
  | .normal => .ok none
  | .capture addr =>
      if regs.cs.toNat = addr.seg.toNat + s.load.toNat ∧ regs.ip = addr.off then .error .captured
      else .ok (some (s, .resume))
  | .restore entry =>
      if Addr.make regs.cs regs.ip = s.hookEntryAddr entry then
        .ok (some ({ s with mode := .normal, load := restored.load, mem := restored.mem }, .restore))
      else .ok (some (s, .resume))

theorem runSpecialModes_normal {s : Runtime} (normal : s.mode = .normal) (regs : Registers)
    (restored : Restored) : s.runSpecialModes regs restored = .ok none := by
  rw [runSpecialModes, normal]

theorem runSpecialModes_entry {s : Runtime} {regs : Registers} {entry : Option Addr}
    (mode : s.mode = .restore entry) (atEntry : .make regs.cs regs.ip = s.hookEntryAddr entry)
    (restored : Restored) : s.runSpecialModes regs restored = .ok (some
      ({ s with mode := .normal, load := restored.load, mem := restored.mem }, .restore)) := by
  simp only [runSpecialModes, mode, if_pos atEntry]

theorem runSpecialModes_elsewhere {s : Runtime} {regs : Registers} {entry : Option Addr}
    (mode : s.mode = .restore entry) (elsewhere : .make regs.cs regs.ip ≠ s.hookEntryAddr entry)
    (restored : Restored) : s.runSpecialModes regs restored = .ok (some (s, .resume)) := by
  simp only [runSpecialModes, mode, if_neg elsewhere]

/-- The position of the guest is updated by the result. -/
def redirect (s : Runtime) (regs : Registers) (result : Result) :
    Fallible (Runtime × Registers × ExecReturn) :=
  let addr := linear regs.ss regs.sp
  match result with
  | .resume => .ok (s, regs, .resume)
  | .jump newCs newIp => .ok (s, { regs with cs := newCs + s.load, ip := newIp }, .redirect)
  | .jumpNear newIp => .ok (s, { regs with ip := newIp }, .redirect)
  | .call newCs newIp => do
      let callstack ← s.callstack.triggerEnter (s.mem.read16 (addr + 2)) (s.mem.read16 addr)
      return (s.withCallstack callstack,
        { regs with cs := newCs + s.load, ip := newIp }, .redirect)
  | .callNear newIp => do
      let callstack ← s.callstack.triggerEnter regs.cs (s.mem.read16 addr)
      return (s.withCallstack callstack, { regs with ip := newIp }, .redirect)
  | .retNear => do
      let callstack ← s.callstack.ret
      return (s.withCallstack callstack,
        { regs with ip := s.mem.read16 addr, sp := regs.sp + 2 }, .redirect)
  | .retFar => do
      let callstack ← s.callstack.ret
      return (s.withCallstack callstack,
        { regs with ip := s.mem.read16 addr, cs := s.mem.read16 (addr + 2), sp := regs.sp + 4 },
        .redirect)
  | .terminate _ => .ok (s, regs, .terminated)

/-- A waiting context is resumed, or a hook begins, or nothing happens. -/
def dispatch (s : Runtime) (regs : Registers) (move : Move) :
    Fallible (Runtime × Registers × Result) := do
  match ← s.tryResume regs move with
  | some resumed => return resumed
  | none =>
      match hookFind s.load s.overlays s.hooks (.make regs.cs regs.ip) with
      | some hook => s.runBegin hook regs move
      | none => return (s, regs, .resume)

def execRun (s : Runtime) (regs : Registers) (move : Move) (restored : Restored) :
    Fallible (Runtime × Registers × ExecReturn) := do
  match ← s.runSpecialModes regs restored with
  | some (s, answer) => return (s, regs, answer)
  | none => do
      let (s, regs, result) ← s.dispatch regs move
      s.redirect regs result

/-- The tracker skips the far magic segment. -/
def trackStop (s : Runtime) (regs : Registers) (interruptCount : Nat) : Fallible Callstack :=
  if regs.cs ≠ 0xffff#16 then s.callstack.track s.load s.mem regs interruptCount
  else .ok s.callstack

def machineExec (s : Runtime) (regs : Registers) (interruptCount : Nat) (move : Move)
    (restored : Restored) : Fallible (Runtime × Registers × ExecReturn) := do
  let callstack ← s.trackStop regs interruptCount
  (s.withCallstack callstack).execRun regs move restored

def machineNotify (s : Runtime) (regs : Registers) : Fallible Runtime := do
  return s.withCallstack (← s.callstack.notify s.load regs)

/-- Between two stops the guest has run, and the host has updated its configuration. -/
structure Round where
  registers : Registers
  mem : Lowmem
  load : U16
  overlays : Overlays
  move : Move
  restored : Restored

/-- The runtime at a stop of the guest. -/
def arrive (s : Runtime) (round : Round) : Runtime :=
  { s with mem := round.mem, load := round.load, overlays := round.overlays }

@[simp] theorem arrive_callstack (s : Runtime) (r : Round) :
    (s.arrive r).callstack = s.callstack := rfl

@[simp] theorem arrive_load (s : Runtime) (r : Round) : (s.arrive r).load = r.load := rfl

@[simp] theorem arrive_mem (s : Runtime) (r : Round) : (s.arrive r).mem = r.mem := rfl

/-- A driver passes no interrupts and notifies the position at which the guest continues. -/
def round (s : Runtime) (r : Round) : Fallible (Runtime × Registers) := do
  let (s, regs, answer) ← (s.arrive r).machineExec r.registers 0 r.move r.restored
  let regs := if answer = .restore then r.restored.registers else regs
  return (← s.machineNotify regs, regs)

end Runtime

end Dis86.Hydra
