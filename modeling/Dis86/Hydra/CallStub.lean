import Dis86.Hydra.OverlayAddresses

namespace Dis86.Hydra
open Dis86.Hydra.Runtime

/-- The stub leaves its arguments to the callee. -/
def dontPopArgs (flags : BitVec 32) : Bool := flags &&& 1 ≠ 0

/-- The stub calls near. -/
def isNear (flags : BitVec 32) : Bool := flags &&& 2 ≠ 0

def push (regs : Registers) (mem : Lowmem) (val : U16) : Registers × Lowmem :=
  let regs := { regs with sp := regs.sp - 2 }
  (regs, mem.write16 (linear regs.ss regs.sp) val)

/-- The words are pushed from the last one to the first. -/
def pushWords (words : List U16) (regs : Registers) (mem : Lowmem) : Registers × Lowmem :=
  words.foldr (fun word (regs, mem) => push regs mem word) (regs, mem)

/-- A call stub pushes its arguments and calls the guest. The stubs of the source differ in their number of
arguments, which is at most seven. -/
def callstub (s : Runtime) (id : ExecId) (ctx : Context) (mem : Lowmem) (addr : Addr) (flags : BitVec 32)
    (args : List U16) : Fallible (Context × Lowmem) := do
  let action ← nativeCall s ctx.machine addr (isNear flags)
  thread s.load id ctx mem fun regs mem =>
    let (regs, mem) := pushWords args regs mem
    (regs, mem, action)

/-- After the call the stub drops its arguments and returns the value in `DX:AX`. -/
def callstubReturn (ctx : Context) (flags : BitVec 32) (nargs : Nat) : Fallible (Registers × U32) := do
  let ctx ← wake ctx
  let regs := ctx.machine
  let regs := if dontPopArgs flags then regs else { regs with sp := regs.sp + .ofNat 16 (2 * nargs) }
  return (regs, regs.dx ++ regs.ax)

/-- The return address that the guest pops, its offset first. -/
def returnWords (id : ExecId) (flags : BitVec 32) : List U16 :=
  if isNear flags then [0xff00 + id.word] else [id.word, 0xffff]

/-- The address of a word on the stack, counted from the top. Offsets wrap around in the segment. -/
def stackSlot (regs : Registers) (i : Nat) : U32 := linear regs.ss (regs.sp + .ofNat 16 (2 * i))

/-- The guest pops the return address. A callee that drops its own arguments pops them as well. -/
structure Returned (id : ExecId) (flags : BitVec 32) (nargs : Nat) (entry exit : Registers) : Prop where
  sp : exit.sp = entry.sp + .ofNat 16 (2 * (returnWords id flags).length) +
    if dontPopArgs flags then .ofNat 16 (2 * nargs) else 0
  cs : isNear flags → exit.cs = entry.cs

/-- The stack holds the return address and the arguments, nothing else has been written, and a callee that returns
leaves the position and the stack pointer as they were before the stub. -/
structure StackDiscipline (id : ExecId) (flags : BitVec 32) (args : List U16) (ctx ctx' : Context)
    (mem mem' : Lowmem) : Prop where
  words : ∀ i (inside : i < (returnWords id flags ++ args).length),
    mem'.read16 (stackSlot ctx'.machine i) = (returnWords id flags ++ args).get ⟨i, inside⟩
  frame : ∀ pos, (∀ i < (returnWords id flags ++ args).length, pos ≠ (stackSlot ctx'.machine i).toNat ∧
    pos ≠ (stackSlot ctx'.machine i).toNat + 1) → mem'.byte pos = mem.byte pos
  restored : ∀ exit, Returned id flags args.length ctx'.machine exit →
    callstubReturn { ctx' with machine := exit } flags args.length = .ok
      ({ exit with sp := ctx.machine.sp, cs := ctx.machine.cs, ip := ctx.machine.ip }, exit.dx ++ exit.ax)

section Pushes

variable {regs : Registers} {mem : Lowmem}

theorem pushWords_nil : pushWords [] regs mem = (regs, mem) := rfl

theorem pushWords_cons (word : U16) (words : List U16) : pushWords (word :: words) regs mem =
    push (pushWords words regs mem).1 (pushWords words regs mem).2 word := rfl

theorem pushWords_append (top words : List U16) : pushWords (top ++ words) regs mem =
    pushWords top (pushWords words regs mem).1 (pushWords words regs mem).2 := by
  rw [pushWords, List.foldr_append]
  rfl

/-- Pushes move the stack pointer only. -/
theorem pushWords_registers (words : List U16) :
    (pushWords words regs mem).1 = { regs with sp := regs.sp - .ofNat 16 (2 * words.length) } := by
  induction words with
  | nil => simp [pushWords]
  | cons word rest ih =>
      have next : regs.sp - .ofNat 16 (2 * rest.length) - 2 = regs.sp - .ofNat 16 (2 * (rest.length + 1)) := by
        bv_omega
      rw [pushWords_cons, push, ih, List.length_cons, ← next]

@[simp] theorem pushWords_size (words : List U16) : (pushWords words regs mem).2.size = mem.size := by
  induction words with
  | nil => rfl
  | cons word rest ih => rw [pushWords_cons, push, Lowmem.write16_size, ih]

theorem stackSlot_toNat (regs : Registers) (i : Nat) :
    (stackSlot regs i).toNat = 16 * regs.ss.toNat + (regs.sp.toNat + 2 * i) % 2 ^ 16 := by
  rw [stackSlot, linear_toNat, BitVec.toNat_add, BitVec.toNat_ofNat, Nat.add_mod_mod]

/-- After a push each word has moved down by one. -/
theorem stackSlot_push (regs : Registers) (i : Nat) :
    stackSlot { regs with sp := regs.sp - 2 } (i + 1) = stackSlot regs i := by
  rw [stackSlot, stackSlot, Nat.mul_succ, BitVec.ofNat_add]
  congr 1
  bv_omega

/-- Different words of a stack that does not wrap onto itself do not overlap. -/
theorem stackSlot_apart (regs : Registers) {i j : Nat} (less : i < j) (room : 2 * j < 2 ^ 16) :
    (stackSlot regs i).toNat + 2 ≤ (stackSlot regs j).toNat ∨
      (stackSlot regs j).toNat + 2 ≤ (stackSlot regs i).toNat := by
  rw [stackSlot_toNat, stackSlot_toNat]
  omega

theorem stackSlot_inside (regs : Registers) (i : Nat) (covers : 0x110000 ≤ mem.size) :
    (stackSlot regs i).toNat + 2 ≤ mem.size := by
  have seg := regs.ss.isLt
  rw [stackSlot_toNat]
  omega

/-- Every pushed word can be read back at its place. -/
theorem read16_pushWords (covers : 0x110000 ≤ mem.size) {words : List U16} (few : 2 * words.length < 2 ^ 16)
    {i : Nat} (inside : i < words.length) :
    (pushWords words regs mem).2.read16 (stackSlot (pushWords words regs mem).1 i) = words.get ⟨i, inside⟩ := by
  induction words generalizing i with
  | nil => exact absurd inside (Nat.not_lt_zero i)
  | cons word rest ih =>
      rw [List.length_cons] at few
      have top : linear (pushWords rest regs mem).1.ss ((pushWords rest regs mem).1.sp - 2) =
          stackSlot { (pushWords rest regs mem).1 with sp := (pushWords rest regs mem).1.sp - 2 } 0 := by
        simp [stackSlot]
      rw [pushWords_cons, push]
      simp only [top]
      cases i with
      | zero =>
          exact Lowmem.read16_write16 word (stackSlot_inside _ 0 (by rwa [pushWords_size]))
      | succ i =>
          have apart := stackSlot_apart
            { (pushWords rest regs mem).1 with sp := (pushWords rest regs mem).1.sp - 2 }
            (show 0 < i + 1 by omega) (by rw [List.length_cons] at inside; omega)
          rw [Lowmem.read16_write16_apart word apart.symm, stackSlot_push]
          exact ih (by omega) (Nat.lt_of_succ_lt_succ inside)

theorem byte_write16 {addr : U32} {value : U16} {pos : Nat} (low : pos ≠ addr.toNat) (high : pos ≠ addr.toNat + 1) :
    (mem.write16 addr value).byte pos = mem.byte pos := by
  unfold Lowmem.write16
  split
  · simp only
    rw [Function.update_of_ne high, Function.update_of_ne low]
  · rfl

/-- Pushes write the pushed words only. -/
theorem byte_pushWords {words : List U16} {pos : Nat} (away : ∀ i < words.length,
    pos ≠ (stackSlot (pushWords words regs mem).1 i).toNat ∧
      pos ≠ (stackSlot (pushWords words regs mem).1 i).toNat + 1) :
    (pushWords words regs mem).2.byte pos = mem.byte pos := by
  induction words with
  | nil => rfl
  | cons word rest ih =>
      have top : linear (pushWords rest regs mem).1.ss ((pushWords rest regs mem).1.sp - 2) =
          stackSlot (pushWords (word :: rest) regs mem).1 0 := by
        simp [pushWords_cons, push, stackSlot]
      have here := away 0 (by simp)
      rw [← top] at here
      have others : ∀ i < rest.length, pos ≠ (stackSlot (pushWords rest regs mem).1 i).toNat ∧
          pos ≠ (stackSlot (pushWords rest regs mem).1 i).toNat + 1 := by
        intro i inside
        have next := away (i + 1) (by simpa using inside)
        rwa [pushWords_cons, push, stackSlot_push] at next
      rw [pushWords_cons, push]
      exact (byte_write16 here.1 here.2).trans (ih others)

end Pushes

section Calls

variable {s : Runtime} {id : ExecId} {ctx : Context} {mem : Lowmem} {addr : Addr} {flags : BitVec 32}
  {args : List U16} {action : Action}

/-- The context of a call waits with the stack pointer below the return address and with the saved position. -/
structure Waiting (id : ExecId) (flags : BitVec 32) (args : List U16) (mem : Lowmem) (ctx ctx' : Context) : Prop where
  machine : ctx'.machine = (pushWords (returnWords id flags ++ args) ctx.machine mem).1
  savedCs : ctx'.savedCs = ctx.machine.cs
  savedIp : ctx'.savedIp = ctx.machine.ip
  waiting : ctx'.waiting = some (if isNear flags then .near else .far)

/-- The flags of a stub decide about the kind of its call. -/
theorem nativeCall_action {regs : Registers} {near : Bool} (found : nativeCall s regs addr near = .ok action) :
    ∃ seg, action = if near then
      .callNearOff ((linear seg addr.off).setWidth 16 - 16 * (regs.cs - s.load)) false
    else .callFar seg addr.off := by
  unfold nativeCall at found
  cases near with
  | true =>
      simp only [if_true] at found
      split at found
      · obtain ⟨seg, -, ran⟩ := bind_eq_ok.mp found
        exact ⟨seg, (Except.ok.inj ran).symm⟩
      · obtain ⟨seg, -, ran⟩ := bind_eq_ok.mp found
        exact ⟨seg, (Except.ok.inj ran).symm⟩
  | false =>
      simp only [Bool.false_eq_true, if_false] at found
      split at found
      · obtain ⟨seg, -, ran⟩ := bind_eq_ok.mp found
        exact ⟨seg, (Except.ok.inj ran).symm⟩
      · obtain ⟨seg, -, ran⟩ := bind_eq_ok.mp found
        exact ⟨seg, (Except.ok.inj ran).symm⟩

theorem sub_two_two (sp : U16) : sp - 2 - 2 = sp - 4 := by bv_omega

/-- A far call pushes its return address. -/
theorem callstub_far (mem : Lowmem) (args : List U16) (far : isNear flags = false)
    (found : nativeCall s ctx.machine addr (isNear flags) = .ok action) :
    ∃ ctx', callstub s id ctx mem addr flags args =
        .ok (ctx', (pushWords (returnWords id flags ++ args) ctx.machine mem).2) ∧
      Waiting id flags args mem ctx ctx' := by
  obtain ⟨seg, acts⟩ := nativeCall_action found
  simp only [far, Bool.false_eq_true, if_false] at acts
  subst acts
  let pushed := pushWords args ctx.machine mem
  let entered : Context := { ctx with machine := pushed.1, waiting := none }
  have ran : callstub s id ctx mem addr flags args = .ok (callFar entered pushed.2 id seg addr.off) := by
    rw [callstub, found]
    rfl
  have both : ((callFar entered pushed.2 id seg addr.off).1.machine, (callFar entered pushed.2 id seg addr.off).2) =
      pushWords (returnWords id flags ++ args) ctx.machine mem := by
    simp only [returnWords, far, Bool.false_eq_true, if_false, pushWords_append, pushWords_cons, push, callFar,
      sub_two_two]
    rfl
  have saved : pushed.1.cs = ctx.machine.cs ∧ pushed.1.ip = ctx.machine.ip := by
    simp only [pushed, pushWords_registers, and_self]
  refine ⟨_, ran.trans (by rw [← both]), congrArg Prod.fst both, saved.1, saved.2, ?_⟩
  simp only [far, Bool.false_eq_true, if_false]
  rfl

/-- A near call that passes its assertions. -/
theorem callNearOff_eq {load off : U16} {maybeReloc : Bool} (small : id.val ≤ 255) (caller : load ≤ ctx.machine.cs) :
    callNearOff load ctx mem id off maybeReloc = .ok ({ ctx with
        machine := { ctx.machine with sp := ctx.machine.sp - 2 }
        savedCs := ctx.machine.cs
        savedIp := ctx.machine.ip
        maybeReloc := maybeReloc
        result := .callNear off
        waiting := some .near }, mem.write16 (linear ctx.machine.ss ctx.machine.sp - 2) (0xff00 + id.word)) := by
  simp only [callNearOff, require, if_pos small, if_pos caller]
  rfl

/-- A near call pushes its return offset, but computes the address without wrapping around. -/
theorem callstub_near (mem : Lowmem) (args : List U16) (near : isNear flags = true)
    (found : nativeCall s ctx.machine addr (isNear flags) = .ok action) (small : id.val ≤ 255)
    (caller : s.load ≤ ctx.machine.cs) :
    ∃ ctx', callstub s id ctx mem addr flags args =
        .ok (ctx', (pushWords args ctx.machine mem).2.write16
          (linear ctx.machine.ss (pushWords args ctx.machine mem).1.sp - 2) (0xff00 + id.word)) ∧
      Waiting id flags args mem ctx ctx' := by
  obtain ⟨seg, acts⟩ := nativeCall_action found
  simp only [near, if_true] at acts
  subst acts
  let pushed := pushWords args ctx.machine mem
  let entered : Context := { ctx with machine := pushed.1, waiting := none }
  have kept : pushed.1.ss = ctx.machine.ss ∧ pushed.1.cs = ctx.machine.cs ∧ pushed.1.ip = ctx.machine.ip := by
    simp only [pushed, pushWords_registers, and_self]
  have ran : callstub s id ctx mem addr flags args =
      callNearOff s.load entered pushed.2 id
        ((linear seg addr.off).setWidth 16 - 16 * (ctx.machine.cs - s.load)) false := by
    rw [callstub, found]
    rfl
  have machine : (pushWords (returnWords id flags ++ args) ctx.machine mem).1 =
      { pushed.1 with sp := pushed.1.sp - 2 } := by
    simp only [returnWords, near, if_true, pushWords_append, pushWords_cons, push]
    rfl
  have caller' : s.load ≤ entered.machine.cs := kept.2.1 ▸ caller
  rw [callNearOff_eq small caller'] at ran
  have memory : entered.machine.ss = ctx.machine.ss := kept.1
  rw [memory] at ran
  refine ⟨_, ran, machine.symm, kept.2.1, kept.2.2, ?_⟩
  simp only [near, if_true]

theorem restored_sp (sp : U16) (words nargs : Nat) (drops : Bool) :
    let top : U16 := sp - .ofNat 16 (2 * (words + nargs)) + .ofNat 16 (2 * words) +
      if drops then .ofNat 16 (2 * nargs) else 0
    (if drops then top else top + .ofNat 16 (2 * nargs)) = sp := by
  intro top
  have total : BitVec.ofNat 16 (2 * (words + nargs)) = .ofNat 16 (2 * words) + .ofNat 16 (2 * nargs) := by
    rw [Nat.mul_add, BitVec.ofNat_add]
  simp only [top, total]
  cases drops
  · simp only [Bool.false_eq_true, if_false]
    bv_omega
  · simp only [if_true]
    bv_omega

/-- A callee that returns gives the position and the stack pointer back. -/
theorem callstubReturn_waiting {ctx' : Context} (waiting : Waiting id flags args mem ctx ctx') {exit : Registers}
    (returned : Returned id flags args.length ctx'.machine exit) :
    callstubReturn { ctx' with machine := exit } flags args.length = .ok
      ({ exit with sp := ctx.machine.sp, cs := ctx.machine.cs, ip := ctx.machine.ip }, exit.dx ++ exit.ax) := by
  have entry : ctx'.machine.sp = ctx.machine.sp - .ofNat 16 (2 * ((returnWords id flags).length + args.length)) ∧
      ctx'.machine.cs = ctx.machine.cs := by
    rw [waiting.machine, pushWords_registers, List.length_append]
    exact ⟨rfl, rfl⟩
  have passes : ctx'.waiting = some .near → ctx'.maybeReloc ∨ exit.cs = ctx'.savedCs := by
    intro near
    rw [waiting.waiting] at near
    have called : isNear flags = true := by
      by_contra far
      simp [far] at near
    exact .inr (((returned.cs called).trans entry.2).trans waiting.savedCs.symm)
  have woken : wakeRegisters { ctx' with machine := exit } exit =
      { exit with cs := ctx.machine.cs, ip := ctx.machine.ip } := by
    simp only [wakeRegisters, waiting.waiting, waiting.savedCs, waiting.savedIp]
    cases called : isNear flags with
    | false => rfl
    | true =>
        have cs : exit.cs = ctx.machine.cs := (returned.cs called).trans entry.2
        simp only [if_true, ← cs]
  have sp := restored_sp ctx.machine.sp (returnWords id flags).length args.length (dontPopArgs flags)
  rw [← entry.1] at sp
  simp only [← returned.sp] at sp
  simp only [callstubReturn, wake, require, if_pos passes, woken]
  cases dropped : dontPopArgs flags with
  | false =>
      simp only [dropped, Bool.false_eq_true, if_false] at sp
      rw [← sp]
      rfl
  | true =>
      simp only [dropped, if_true] at sp
      rw [← sp]
      rfl

/-- A near call whose stack pointer wraps around stores its return offset elsewhere. -/
theorem near_wraps (near : isNear flags = true) (few : args.length ≤ 7)
    (wraps : (pushWords args ctx.machine mem).1.sp = 0 ∨ (pushWords args ctx.machine mem).1.sp = 1)
    (zeroes : ∀ pos, mem.byte pos = 0) :
    ((pushWords args ctx.machine mem).2.write16
      (linear ctx.machine.ss (pushWords args ctx.machine mem).1.sp - 2) (0xff00 + id.word)).read16
        (stackSlot (pushWords (returnWords id flags ++ args) ctx.machine mem).1 0) = 0 := by
  have machine : (pushWords args ctx.machine mem).1.ss = ctx.machine.ss := by rw [pushWords_registers]
  have slots : ∀ i, (stackSlot (pushWords args ctx.machine mem).1 i).toNat =
      16 * ctx.machine.ss.toNat + ((pushWords args ctx.machine mem).1.sp.toNat + 2 * i) % 2 ^ 16 := by
    intro i
    rw [stackSlot_toNat, machine]
  have top : (stackSlot (pushWords (returnWords id flags ++ args) ctx.machine mem).1 0).toNat =
      16 * ctx.machine.ss.toNat + ((pushWords args ctx.machine mem).1.sp - 2).toNat := by
    simp only [returnWords, near, if_true, pushWords_append, pushWords_cons, push]
    rw [stackSlot_toNat]
    simp only [pushWords, List.foldr_nil, Nat.mul_zero, Nat.add_zero]
    rw [Nat.mod_eq_of_lt (BitVec.isLt _)]
    exact congrArg (16 * BitVec.toNat · + _) machine
  generalize (pushWords args ctx.machine mem).1.sp = sp at *
  have bound := ctx.machine.ss.isLt
  have high : (sp - 2).toNat = 65534 + sp.toNat ∧ sp.toNat ≤ 1 := by
    rcases wraps with rfl | rfl
    · exact ⟨rfl, by decide⟩
    · exact ⟨rfl, by decide⟩
  have written : (linear ctx.machine.ss sp - 2).toNat =
      (16 * ctx.machine.ss.toNat + sp.toNat + (2 ^ 32 - 2)) % 2 ^ 32 := by
    rw [BitVec.toNat_sub, linear_toNat]
    simp
    omega
  rw [Lowmem.read16_write16_apart _ (by rw [top, written, high.1]; omega)]
  have untouched : ∀ pos, 16 * ctx.machine.ss.toNat + 65534 ≤ pos →
      (pushWords args ctx.machine mem).2.byte pos = 0 := by
    intro pos above
    refine (byte_pushWords fun i inside => ?_).trans (zeroes pos)
    rw [slots]
    omega
  unfold Lowmem.read16
  rw [untouched _ (by rw [top]; omega), untouched _ (by rw [top]; omega)]
  split <;> rfl

end Calls

end Dis86.Hydra
