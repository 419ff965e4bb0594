import Dis86.Hydra.Machine

namespace Dis86.Hydra

structure Call where
  src : Addr
  dst : Addr
deriving DecidableEq, Repr

inductive CallEvent where
  | none | call | ret | jmpRet
deriving DecidableEq, Repr

inductive ConfType where
  | handler | ignoreAddr | ignoreAbove | jumpret
deriving DecidableEq, Repr

/-- A special address of the user's callstack description. -/
structure Conf where
  type : ConfType
  addr : Addr
deriving DecidableEq, Repr

/-- The innermost call comes first, and the table has 1024 entries. -/
abbrev CallTable := { calls : List Call // calls.length ≤ 1024 }

structure Callstack where
  lastInterruptCount : Nat
  lastCode : Addr
  callStack : CallTable
  callEvent : CallEvent
  confs : List Conf
deriving DecidableEq

namespace Callstack

def init (confs : List Conf) : Callstack where
  lastInterruptCount := 0
  lastCode := .make 0 0
  callStack := ⟨[], Nat.zero_le _⟩
  callEvent := .none
  confs := confs

def triggerEnter (c : Callstack) (seg off : U16) : Fallible Callstack := do
  require (c.callEvent = .none) .triggerEnter
  return { c with lastCode := .make seg off, callEvent := .call }

/-- A return by a hook is noted for the next notification. -/
def ret (c : Callstack) : Fallible Callstack := do
  require (c.callEvent = .none) .callstackRet
  return { c with callEvent := .ret }

def push (c : Callstack) (src dst : Addr) : Fallible Callstack :=
  if room : c.callStack.val.length < 1024 then
    .ok { c with callStack := ⟨⟨src, dst⟩ :: c.callStack.val, room⟩ }
  else .error .callstackOverflow

/-- An underflow leaves the empty table alone. -/
def pop (c : Callstack) : Option Call × Callstack :=
  match shape : c.callStack.val with
  | [] => (none, c)
  | call :: rest =>
      (some call, { c with callStack := ⟨rest, by
        have := c.callStack.property
        rw [shape, List.length_cons] at this
        omega⟩ })

def enter (c : Callstack) (regs : Registers) (src : Addr) : Fallible Callstack :=
  c.push src (.make regs.cs regs.ip)

/-- The addresses become image-relative before the warning about an unexpected return. -/
def leave (c : Callstack) (load : U16) (regs : Registers) : Fallible Callstack := do
  let (call, popped) := c.pop
  let _ ← c.lastCode.relativeToSegment load
  let _ ← (Addr.make regs.cs regs.ip).relativeToSegment load
  match call with
  | some call => discard (call.src.relativeToSegment load)
  | none => pure ()
  return popped

end Callstack

def IsPrefix (b : U8) : Prop :=
  b = 0x26 ∨ b = 0x2e ∨ b = 0x36 ∨ b = 0x3e ∨ b = 0xf2 ∨ b = 0xf3 ∨ b = 0xf0

instance (b : U8) : Decidable (IsPrefix b) := inferInstanceAs (Decidable (_ ∨ _))

/-- The loop leaves the memory window at the latest, where reads return no more bytes of it. -/
def skipPrefixesFrom (mem : Lowmem) : Nat → U32 → U32
  | 0, addr => addr
  | fuel + 1, addr =>
      if IsPrefix (mem.read8 addr) then skipPrefixesFrom mem fuel (addr + 1) else addr

def skipPrefixes (mem : Lowmem) (regs : Registers) : U32 :=
  skipPrefixesFrom mem mem.size (linear regs.cs regs.ip)

/-- The operation field of the second opcode byte. -/
def op2 (mem : Lowmem) (addr : U32) : U8 := (mem.read8 (addr + 1) >>> 3) &&& 7

def isInstrCall (mem : Lowmem) (regs : Registers) : Bool :=
  let addr := skipPrefixes mem regs
  let op := mem.read8 addr
  op = 0xe8 || op = 0x9a || (op = 0xff && op2 mem addr = 2) || (op = 0xff && op2 mem addr = 3)

def isInstrRet (mem : Lowmem) (regs : Registers) : Bool :=
  let op := mem.read8 (skipPrefixes mem regs)
  op = 0xc2 || op = 0xc3 || op = 0xca || op = 0xcb || op = 0xcf

namespace Callstack

/-- The segments are compared as integers, so the load segment does not wrap around. -/
def confFind (c : Callstack) (load : U16) (regs : Registers) (type : ConfType) : Option Conf :=
  c.confs.find? fun conf =>
    conf.type = type && regs.cs.toNat = conf.addr.seg.toNat + load.toNat && regs.ip = conf.addr.off

/-- The far address that the stack pointer points to. -/
def stackedAddr (mem : Lowmem) (regs : Registers) : Addr :=
  .make (mem.read16 (linear regs.ss regs.sp + 2)) (mem.read16 (linear regs.ss regs.sp))

/-- An interrupt cancels the pending event. -/
def reportInterrupts (c : Callstack) (load : U16) (mem : Lowmem) (regs : Registers)
    (interruptCount : Nat) : Fallible Callstack :=
  if interruptCount = c.lastInterruptCount then .ok c
  else do
    if regs.cs ≠ 0xc000#16 ∧ regs.cs ≠ 0xf000#16 then
      discard ((stackedAddr mem regs).relativeToSegment load)
    return { c with lastInterruptCount := interruptCount, callEvent := .none }

/-- The event that the code at the current position announces. -/
def announced (c : Callstack) (load : U16) (mem : Lowmem) (regs : Registers) : CallEvent :=
  if isInstrRet mem regs then .ret
  else if isInstrCall mem regs then .call
  else if (c.confFind load regs .jumpret).isSome then .jmpRet
  else c.callEvent

/-- The entry of a handler is a call from the stacked address. -/
def enterHandler (c : Callstack) (load : U16) (mem : Lowmem) (regs : Registers) :
    Fallible Callstack :=
  match c.confFind load regs .handler with
  | some _ => c.enter regs (stackedAddr mem regs)
  | none => .ok c

/-- Code in the reserved memory and at ignored addresses announces nothing. -/
def noteEvent (c : Callstack) (load : U16) (mem : Lowmem) (regs : Registers) : Callstack :=
  if 0xc000#16 ≤ regs.cs then c
  else if (c.confFind load regs .ignoreAddr).isSome then c
  else { c with callEvent := c.announced load mem regs }

def update (c : Callstack) (load : U16) (mem : Lowmem) (regs : Registers)
    (interruptCount : Nat) : Fallible Callstack := do
  let c ← c.reportInterrupts load mem regs interruptCount
  let c ← c.enterHandler load mem regs
  return c.noteEvent load mem regs

def track (c : Callstack) (load : U16) (mem : Lowmem) (regs : Registers)
    (interruptCount : Nat) : Fallible Callstack := do
  let c ← c.update load mem regs interruptCount
  return { c with lastCode := .make regs.cs regs.ip }

/-- An event is handled by the kind of its boundary. -/
def drain (c : Callstack) (load : U16) (regs : Registers) : Fallible Callstack :=
  match c.callEvent with
  | .none => .ok c
  | .call => c.enter regs c.lastCode
  | .ret => c.leave load regs
  | .jmpRet => c.leave load regs

/-- The event of the previous position is handled once the new position is known. -/
def notify (c : Callstack) (load : U16) (regs : Registers) : Fallible Callstack := do
  let c ← c.drain load regs
  return { c with callEvent := .none, lastCode := .make regs.cs regs.ip }

end Callstack

end Dis86.Hydra
