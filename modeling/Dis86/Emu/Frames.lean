import Dis86.Emu.Stack

namespace Dis86.Emu
open Asm (Operand)
open Lib (Outcome)

variable {D : Type}

/-- How far an offset is below the base of a stack. -/
def depth (base p : BitVec 16) : Nat := (base - p).toNat

/-- A byte of a stack, from an offset up to the base. -/
def Held (base floor off : BitVec 16) : Prop := 0 < depth base off ∧ depth base off ≤ depth base floor

theorem depth_below {base p : BitVec 16} {k : Nat} (room : depth base p + k < 65536) :
    depth base (p - BitVec.ofNat 16 k) = depth base p + k := by
  unfold depth at *
  bv_omega

theorem depth_above {base p : BitVec 16} {k : Nat} (inside : k ≤ depth base p) :
    depth base (p + BitVec.ofNat 16 k) = depth base p - k := by
  unfold depth at *
  bv_omega

theorem Held.lower {base p q off : BitVec 16} (held : Held base p off) (lower : depth base p ≤ depth base q) :
    Held base q off := ⟨held.1, held.2.trans lower⟩

namespace Memory

/-- Words below an offset, the first at the lowest one. -/
def stacked (mem : Memory) (seg p : BitVec 16) : List (BitVec 16) → Memory
  | [] => mem
  | v :: rest => (mem.stacked seg p rest).setWord seg (p - BitVec.ofNat 16 (2 * (rest.length + 1))) v

variable {mem : Memory} {seg base p : BitVec 16}

theorem holdsAt_stacked {l : List (BitVec 16)} (fits : l.length ≤ 32768) :
    (mem.stacked seg p l).HoldsAt seg (p - BitVec.ofNat 16 (2 * l.length)) l := by
  induction l with
  | nil => trivial
  | cons v rest hypothesis =>
      rw [List.length_cons] at fits ⊢
      have next : p - BitVec.ofNat 16 (2 * (rest.length + 1)) = p - BitVec.ofNat 16 (2 * rest.length) - 2 := by
        bv_omega
      have start : p - BitVec.ofNat 16 (2 * rest.length) + BitVec.ofNat 16 (2 * 0) =
          p - BitVec.ofNat 16 (2 * rest.length) := by simp
      have below := holdsAt_below (v := v) (k := 0) (by omega) (start.symm ▸ hypothesis (by omega))
      rw [start] at below
      refine ⟨wordAt_setWord _ _ _ v, ?_⟩
      rw [stacked, next, BitVec.sub_add_cancel]
      exact below

/-- Words that are put below a stack leave its bytes. -/
theorem stacked_raw {l : List (BitVec 16)} {off : BitVec 16} (room : depth base p + 2 * l.length < 65536)
    (held : Held base p off) : (mem.stacked seg p l).raw (linear seg off) = mem.raw (linear seg off) := by
  induction l with
  | nil => rfl
  | cons v rest hypothesis =>
      rw [List.length_cons] at room
      have low : depth base (p - BitVec.ofNat 16 (2 * (rest.length + 1))) = _ := depth_below (by omega)
      have high : depth base (p - BitVec.ofNat 16 (2 * (rest.length + 1)) + BitVec.ofNat 16 1) = _ :=
        depth_above (by omega)
      have apartLow : off ≠ p - BitVec.ofNat 16 (2 * (rest.length + 1)) := by
        intro same
        have deep := held.2
        rw [same] at deep
        omega
      have apartHigh : off ≠ p - BitVec.ofNat 16 (2 * (rest.length + 1)) + 1 := by
        intro same
        have deep := held.2
        rw [same] at deep
        change depth base (_ + BitVec.ofNat 16 1) ≤ _ at deep
        omega
      rw [stacked, setWord, raw_set, if_neg fun same => apartHigh ((linear_inj seg).mp same), raw_set,
        if_neg fun same => apartLow ((linear_inj seg).mp same)]
      exact hypothesis (by omega)

/-- Words are held where their bytes are. -/
theorem HoldsAt.congr {mem' : Memory} {l : List (BitVec 16)} (holds : mem.HoldsAt seg p l)
    (inside : 2 * l.length ≤ depth base p)
    (same : ∀ off, Held base p off → mem'.raw (linear seg off) = mem.raw (linear seg off)) :
    mem'.HoldsAt seg p l := by
  induction l generalizing p with
  | nil => trivial
  | cons v rest hypothesis =>
      rw [List.length_cons] at inside
      have second : depth base (p + BitVec.ofNat 16 1) = _ := depth_above (by omega)
      have third : depth base (p + BitVec.ofNat 16 2) = _ := depth_above (by omega)
      have lowByte := same p ⟨by omega, le_refl _⟩
      have highByte := same (p + 1) ⟨by change 0 < depth base (p + BitVec.ofNat 16 1); omega,
        by change depth base (p + BitVec.ofNat 16 1) ≤ _; omega⟩
      obtain ⟨top, below⟩ := holds
      refine ⟨?_, hypothesis below ?_ fun off held => same off (held.lower ?_)⟩
      · rw [← top, wordAt, wordAt, lowByte, highByte]
      · change _ ≤ depth base (p + BitVec.ofNat 16 2)
        omega
      · change depth base (p + BitVec.ofNat 16 2) ≤ _
        omega

end Memory

namespace Machine

/-- The machine that executes an instruction. Its instruction pointer is behind it. -/
def fetched (m : Machine D) (ins : Asm.Instr) : Machine D := { m with cpu := m.cpu.put .IP ins.endAddr.off }

theorem stackPush_eq (m : Machine D) (idx : Fin 14) :
    m.stackPush (m.regRead (.word idx)) = .ok (m.pushed16 (m.cpu.get (.word idx))) :=
  m.stackPushU16_eq (m.cpu.get (.word idx))

theorem stackPop_eq (m : Machine D) :
    m.stackPop = .ok (.u16 (m.mem.wordAt (m.cpu.get .SS) (m.cpu.get .SP)), m.popped) := by
  rw [stackPop, stackPopU16_eq]
  rfl

end Machine

/-- The instruction at the program counter is executed. -/
structure Ran (dev : Devices D) (m : Machine D) (ins : Asm.Instr) (m' : Machine D) : Prop where
  decoded : Machine.decodeInstr m.mem ⟨.normal (m.cpu.get .CS), m.cpu.get .IP⟩ = .ok ins
  ran : m.step dev = .ok m'

theorem Ran.exec {dev : Devices D} {m m' : Machine D} {ins : Asm.Instr} (ran : Ran dev m ins m') :
    (m.fetched ins).exec dev ins = .ok m' := by
  rw [← ran.ran, Machine.step]
  change _ = (do
    let ins ← Machine.decodeInstr m.mem ⟨.normal (m.cpu.get .CS), m.cpu.get .IP⟩
    let m ← m.regSet .IP ins.endAddr.off
    m.exec dev ins)
  rw [ran.decoded]
  rfl

/-- How a subroutine is entered. -/
inductive FrameKind where
  | near | far | interrupt
deriving DecidableEq, Repr

namespace FrameKind

/-- The words that are saved, the top first. -/
def saved (kind : FrameKind) (m : Machine D) (call : Asm.Instr) : List (BitVec 16) :=
  match kind with
  | near => [call.endAddr.off]
  | far => [call.endAddr.off, m.cpu.get .CS]
  | interrupt => [call.endAddr.off, m.cpu.get .CS, m.cpu.get .FLAGS ||| 2]

/-- The registers that get them back. -/
def restored : FrameKind → List Register
  | near => [.IP]
  | far => [.IP, .CS]
  | interrupt => [.IP, .CS, .FLAGS]

/-- Only an interrupt that the program handles opens a frame. -/
def Opens (kind : FrameKind) (m : Machine D) (call : Asm.Instr) : Prop :=
  match kind with
  | near => call.opcode = .CALL
  | far => call.opcode = .CALLF
  | interrupt => call.opcode = .INT ∧ ∃ num addr,
      (m.fetched call).operandReadU8 call 0 = .ok num ∧ m.interruptVectors num = some addr

/-- A return may drop the arguments of its call. -/
def Closes (kind : FrameKind) (ret : Asm.Instr) (dropped : BitVec 16) : Prop :=
  match kind with
  | near => ret.opcode = .RET ∧ (ret.operands = [] ∧ dropped = 0 ∨ ret.operands = [.imm .size16 dropped])
  | far => ret.opcode = .RETF ∧ (ret.operands = [] ∧ dropped = 0 ∨ ret.operands = [.imm .size16 dropped])
  | interrupt => ret.opcode = .IRET ∧ dropped = 0

end FrameKind

section Opening

variable {dev : Devices D} {m m' : Machine D} {call : Asm.Instr}

/-- What the beginning of a frame does to the stack. -/
structure Opened (m : Machine D) (words : List (BitVec 16)) (m' : Machine D) : Prop where
  segment : m'.cpu.get .SS = m.cpu.get .SS
  pointer : m'.cpu.get .SP = m.cpu.get .SP - BitVec.ofNat 16 (2 * words.length)
  memory : m'.mem = m.mem.stacked (m.cpu.get .SS) (m.cpu.get .SP) words

theorem Opened.start (m : Machine D) : Opened m [] m := ⟨rfl, by simp, rfl⟩

theorem Opened.push {words : List (BitVec 16)} (opened : Opened m words m') (v : BitVec 16) :
    Opened m (v :: words) (m'.pushed16 v) where
  segment := by rw [m'.pushed16_get v (by decide), opened.segment]
  pointer := by
    rw [m'.pushed16_pointer, opened.pointer, List.length_cons]
    bv_omega
  memory := by
    have lower : m'.cpu.get .SP - 2 = m.cpu.get .SP - BitVec.ofNat 16 (2 * (words.length + 1)) := by
      rw [opened.pointer]
      bv_omega
    rw [Memory.stacked, ← opened.memory, ← opened.segment, ← lower]
    rfl

/-- The other registers are free. -/
theorem Opened.other {words : List (BitVec 16)} (opened : Opened m words m') {after : Machine D}
    (segment : after.cpu.get .SS = m'.cpu.get .SS) (pointer : after.cpu.get .SP = m'.cpu.get .SP)
    (memory : after.mem = m'.mem) : Opened m words after :=
  ⟨segment.trans opened.segment, pointer.trans opened.pointer, memory.trans opened.memory⟩

theorem Opened.fetched {words : List (BitVec 16)} (opened : Opened (m.fetched call) words m') :
    Opened m words m' := ⟨opened.segment, opened.pointer, opened.memory⟩

theorem opened_near (ran : (m.fetched call).opCall call = .ok m') : Opened m (FrameKind.near.saved m call) m' := by
  obtain ⟨val, _, ran⟩ := Outcome.bind_eq_ok.mp ran
  obtain ⟨off, _, ran⟩ := Outcome.bind_eq_ok.mp ran
  rw [Register.IP, Machine.stackPush_eq] at ran
  cases ran
  have pushed := (Opened.start (m.fetched call)).push call.endAddr.off
  exact pushed.fetched.other rfl rfl rfl

theorem opened_far (ran : (m.fetched call).opCallf call = .ok m') : Opened m (FrameKind.far.saved m call) m' := by
  obtain ⟨tgt, _, ran⟩ := Outcome.bind_eq_ok.mp ran
  rw [Register.CS, Machine.stackPush_eq, Outcome.ok_bind, Register.IP, Machine.stackPush_eq, Outcome.ok_bind] at ran
  obtain ⟨cpu, written, same⟩ := Outcome.bind_eq_ok.mp ran
  obtain ⟨seg, _, written⟩ := Outcome.bind_eq_ok.mp written
  cases same
  cases written
  have pushed := ((Opened.start (m.fetched call)).push (m.cpu.get .CS)).push call.endAddr.off
  exact pushed.fetched.other rfl rfl rfl

/-- The machine whose flags are saved for an interrupt. -/
def flagsSaved (m : Machine D) : Machine D :=
  ((m.pushed16 (m.cpu.get .FLAGS ||| 2)).flagWrite .IF false).flagWrite .TF false

theorem interruptSave_eq (m : Machine D) :
    m.interruptSave = .ok (((flagsSaved m).pushed16 (m.cpu.get .CS)).pushed16 (m.cpu.get .IP)) := by
  have flags : m.regReadU16 .FLAGS = .ok (m.cpu.get .FLAGS) := rfl
  rw [Machine.interruptSave, flags, Outcome.ok_bind, Machine.stackPushU16_eq, Outcome.ok_bind]
  change (do
    let m ← (flagsSaved m).stackPush ((flagsSaved m).regRead .CS)
    m.stackPush (m.regRead .IP)) = _
  rw [Register.CS, Machine.stackPush_eq, Outcome.ok_bind, Register.IP, Machine.stackPush_eq]
  rfl

theorem opened_interrupt {num : BitVec 8} {addr : Asm.SegOff} (handled : m.interruptVectors num = some addr)
    (ran : (m.fetched call).interrupt dev num = .ok m') : Opened m (FrameKind.interrupt.saved m call) m' := by
  have flags : Opened (m.fetched call) [m.cpu.get .FLAGS ||| 2] (flagsSaved (m.fetched call)) :=
    ((Opened.start (m.fetched call)).push (m.cpu.get .FLAGS ||| 2)).other rfl rfl rfl
  have pushed := (flags.push (m.cpu.get .CS)).push call.endAddr.off
  have handler : (((flagsSaved (m.fetched call)).pushed16 ((m.fetched call).cpu.get .CS)).pushed16
      ((m.fetched call).cpu.get .IP)).interruptVectors num = some addr := handled
  rw [Machine.interrupt, interruptSave_eq, Outcome.ok_bind, handler] at ran
  obtain ⟨cpu, written, same⟩ := Outcome.bind_eq_ok.mp ran
  obtain ⟨seg, _, written⟩ := Outcome.bind_eq_ok.mp written
  cases same
  cases written
  exact pushed.fetched.other rfl rfl rfl

theorem frame_opened {kind : FrameKind} (ran : Ran dev m call m') (opens : kind.Opens m call) :
    Opened m (kind.saved m call) m' := by
  have general : call.opcode ∉ Machine.stringOpcodes := by
    cases kind with
    | near | far =>
        rw [opens]
        decide
    | interrupt =>
        rw [opens.1]
        decide
  obtain ⟨_, after, executed, rfl⟩ := (Machine.exec_eq_ok general).mp ran.exec
  cases kind with
  | near =>
      rw [Machine.execute, opens] at executed
      exact (opened_near executed).other rfl rfl rfl
  | far =>
      rw [Machine.execute, opens] at executed
      exact (opened_far executed).other rfl rfl rfl
  | interrupt =>
      obtain ⟨named, num, addr, number, handled⟩ := opens
      rw [Machine.execute, named] at executed
      obtain ⟨num', read, executed⟩ := Outcome.bind_eq_ok.mp executed
      rw [number] at read
      cases read
      exact (opened_interrupt handled executed).other rfl rfl rfl

end Opening

section Closing

variable {dev : Devices D} {m m' : Machine D} {ret : Asm.Instr} {dropped : BitVec 16} {kind : FrameKind}

/-- What the end of a frame does to the stack, and which words it takes. -/
structure Closed (m : Machine D) (registers : List Register) (words : List (BitVec 16)) (dropped : BitVec 16)
    (m' : Machine D) : Prop where
  segment : m'.cpu.get .SS = m.cpu.get .SS
  pointer : m'.cpu.get .SP = m.cpu.get .SP + BitVec.ofNat 16 (2 * words.length) + dropped
  memory : m'.mem = m.mem
  restored : List.Forall₂ (fun r v => m'.cpu.get r = v) registers words

theorem dropArguments_eq {n : Machine D} (operands : ret.operands = [] ∧ dropped = 0 ∨
    ret.operands = [.imm .size16 dropped]) :
    n.dropArguments ret = .ok { n with cpu := n.cpu.put .SP (n.cpu.get .SP + dropped) } := by
  rw [Machine.dropArguments]
  rcases operands with ⟨none, rfl⟩ | one
  · have kept : n.cpu.get .SP + (0 : BitVec 16) = n.cpu.get .SP := BitVec.add_zero _
    rw [none, if_neg (by decide), kept, Cpu.put_get]
    rfl
  · rw [one, if_pos List.length_singleton, Machine.operandReadU16, Machine.operandRead, one]
    rfl

theorem closed_near {ip : BitVec 16} (operands : ret.operands = [] ∧ dropped = 0 ∨
    ret.operands = [.imm .size16 dropped]) (holds : m.mem.HoldsAt (m.cpu.get .SS) (m.cpu.get .SP) [ip])
    (ran : m.opRet ret = .ok m') : Closed m [.IP] [ip] dropped m' := by
  rw [Machine.opRet, Machine.stackPop_eq, holds.1, Outcome.ok_bind] at ran
  dsimp only at ran
  rw [dropArguments_eq operands] at ran
  cases ran
  exact ⟨rfl, rfl, rfl, .cons rfl .nil⟩

theorem closed_far {ip cs : BitVec 16} (operands : ret.operands = [] ∧ dropped = 0 ∨
    ret.operands = [.imm .size16 dropped]) (holds : m.mem.HoldsAt (m.cpu.get .SS) (m.cpu.get .SP) [ip, cs])
    (ran : m.opRetf ret = .ok m') : Closed m [.IP, .CS] [ip, cs] dropped m' := by
  have second : m.popped.mem.wordAt (m.popped.cpu.get .SS) (m.popped.cpu.get .SP) = cs := by
    rw [m.popped_pointer, m.popped_get (by decide)]
    exact holds.2.1
  rw [Machine.opRetf, Machine.stackPop_eq, holds.1, Outcome.ok_bind] at ran
  dsimp only at ran
  rw [Machine.stackPop_eq, second, Outcome.ok_bind] at ran
  dsimp only at ran
  rw [dropArguments_eq operands] at ran
  cases ran
  refine ⟨rfl, ?_, rfl, .cons rfl (.cons rfl .nil)⟩
  change m.popped.popped.cpu.get .SP + dropped = _
  rw [m.popped.popped_pointer, m.popped_pointer, BitVec.add_assoc (m.cpu.get .SP)]
  rfl

theorem closed_interrupt {ip cs flags : BitVec 16}
    (holds : m.mem.HoldsAt (m.cpu.get .SS) (m.cpu.get .SP) [ip, cs, flags])
    (ran : m.interruptRestore = .ok m') : Closed m [.IP, .CS, .FLAGS] [ip, cs, flags] 0 m' := by
  have second : m.popped.mem.wordAt (m.popped.cpu.get .SS) (m.popped.cpu.get .SP) = cs := by
    rw [m.popped_pointer, m.popped_get (by decide)]
    exact holds.2.1
  have third : m.popped.popped.mem.wordAt (m.popped.popped.cpu.get .SS) (m.popped.popped.cpu.get .SP) = flags := by
    rw [m.popped.popped_pointer, m.popped.popped_get (by decide), m.popped_pointer, m.popped_get (by decide)]
    exact holds.2.2.1
  rw [Machine.interruptRestore, Machine.stackPop_eq, holds.1, Outcome.ok_bind] at ran
  dsimp only at ran
  rw [Machine.stackPop_eq, second, Outcome.ok_bind] at ran
  dsimp only at ran
  rw [Machine.stackPopU16_eq, third] at ran
  cases ran
  refine ⟨rfl, ?_, rfl, .cons rfl (.cons rfl (.cons rfl .nil))⟩
  change m.popped.popped.popped.cpu.get .SP = _
  rw [m.popped.popped.popped_pointer, m.popped.popped_pointer, m.popped_pointer]
  simp only [BitVec.add_assoc]
  rfl

/-- A return takes the words that the beginning of its frame has saved. -/
theorem frame_closed {n : Machine D} {call : Asm.Instr} (closes : kind.Closes ret dropped)
    (holds : m.mem.HoldsAt (m.cpu.get .SS) (m.cpu.get .SP) (kind.saved n call)) (ran : Ran dev m ret m') :
    Closed m kind.restored (kind.saved n call) dropped m' := by
  have general : ret.opcode ∉ Machine.stringOpcodes := by
    cases kind with
    | near | far | interrupt =>
        rw [closes.1]
        decide
  obtain ⟨_, after, executed, rfl⟩ := (Machine.exec_eq_ok general).mp ran.exec
  have same (registers : List Register) (words : List (BitVec 16)) (closed : Closed (m.fetched ret) registers words
      dropped after) : Closed m registers words dropped { after with execCount := after.execCount + 1 } :=
    ⟨closed.segment, closed.pointer, closed.memory, closed.restored⟩
  apply same
  cases kind with
  | near =>
      rw [Machine.execute, closes.1] at executed
      exact closed_near closes.2 holds executed
  | far =>
      rw [Machine.execute, closes.1] at executed
      exact closed_far closes.2 holds executed
  | interrupt =>
      rw [Machine.execute, closes.1] at executed
      rw [closes.2]
      exact closed_interrupt holds executed

end Closing

/-- A run that keeps the stack from a floor up to the base. Its subroutines return with the stack pointer that they
began with, and each of them keeps the stack that it found. -/
inductive Nested (dev : Devices D) (base : BitVec 16) : BitVec 16 → Machine D → Machine D → Prop where
  | done (floor : BitVec 16) (m : Machine D) : Nested dev base floor m m
  | other {floor : BitVec 16} {m m₁ m' : Machine D} {ins : Asm.Instr} (ran : Ran dev m ins m₁)
      (segment : m₁.cpu.get .SS = m.cpu.get .SS) (pointer : depth base floor ≤ depth base (m₁.cpu.get .SP))
      (bytes : ∀ off, Held base floor off →
        m₁.mem.raw (Memory.linear (m.cpu.get .SS) off) = m.mem.raw (Memory.linear (m.cpu.get .SS) off))
      (rest : Nested dev base floor m₁ m') : Nested dev base floor m m'
  | frame {floor dropped : BitVec 16} {m m₁ m₂ m₃ m' : Machine D} {call ret : Asm.Instr} (kind : FrameKind)
      (opened : Ran dev m call m₁) (opens : kind.Opens m call)
      (room : depth base (m.cpu.get .SP) + 2 * (kind.saved m call).length < 65536)
      (body : Nested dev base (m₁.cpu.get .SP) m₁ m₂) (back : m₂.cpu.get .SP = m₁.cpu.get .SP)
      (closed : Ran dev m₂ ret m₃) (closes : kind.Closes ret dropped)
      (pointer : depth base floor ≤ depth base (m₃.cpu.get .SP))
      (rest : Nested dev base floor m₃ m') : Nested dev base floor m m'

/-- What a run keeps of the stack. -/
structure StackKept (base floor : BitVec 16) (m m' : Machine D) : Prop where
  segment : m'.cpu.get .SS = m.cpu.get .SS
  pointer : depth base floor ≤ depth base (m'.cpu.get .SP)
  bytes : ∀ off, Held base floor off →
    m'.mem.raw (Memory.linear (m.cpu.get .SS) off) = m.mem.raw (Memory.linear (m.cpu.get .SS) off)

section Frames

variable {dev : Devices D} {base floor dropped : BitVec 16} {m m₁ m₂ m₃ m' : Machine D} {call ret : Asm.Instr}
  {kind : FrameKind}

theorem StackKept.trans (first : StackKept base floor m m₁) (second : StackKept base floor m₁ m') :
    StackKept base floor m m' where
  segment := second.segment.trans first.segment
  pointer := second.pointer
  bytes off held := by
    rw [← first.bytes off held, ← first.segment]
    exact second.bytes off held

theorem opened_lower (opened : Opened m (kind.saved m call) m₁)
    (room : depth base (m.cpu.get .SP) + 2 * (kind.saved m call).length < 65536) :
    depth base (m₁.cpu.get .SP) = depth base (m.cpu.get .SP) + 2 * (kind.saved m call).length := by
  rw [opened.pointer]
  exact depth_below room

/-- A body that keeps the stack has the saved words on it at its end. -/
theorem body_holds (opened : Opened m (kind.saved m call) m₁)
    (room : depth base (m.cpu.get .SP) + 2 * (kind.saved m call).length < 65536)
    (kept : StackKept base (m₁.cpu.get .SP) m₁ m₂) (back : m₂.cpu.get .SP = m₁.cpu.get .SP) :
    m₂.mem.HoldsAt (m₂.cpu.get .SS) (m₂.cpu.get .SP) (kind.saved m call) := by
  have lower := opened_lower opened room
  have saved : m₁.mem.HoldsAt (m₁.cpu.get .SS) (m₁.cpu.get .SP) (kind.saved m call) := by
    rw [opened.memory, opened.segment, opened.pointer]
    exact Memory.holdsAt_stacked (by omega)
  rw [kept.segment, back]
  exact saved.congr (by omega) kept.bytes

/-- Whatever runs in a frame that is closed where it was opened, the frame leaves the stack as it was. -/
theorem frame_kept (opened : Opened m (kind.saved m call) m₁)
    (room : depth base (m.cpu.get .SP) + 2 * (kind.saved m call).length < 65536)
    (kept : StackKept base (m₁.cpu.get .SP) m₁ m₂)
    (closed : Closed m₂ kind.restored (kind.saved m call) dropped m₃) :
    m₃.cpu.get .SS = m.cpu.get .SS ∧ ∀ off, Held base (m.cpu.get .SP) off →
      m₃.mem.raw (Memory.linear (m.cpu.get .SS) off) = m.mem.raw (Memory.linear (m.cpu.get .SS) off) := by
  refine ⟨closed.segment.trans (kept.segment.trans opened.segment), ?_⟩
  intro off held
  have below := kept.bytes off (held.lower (by rw [opened_lower opened room]; omega))
  rw [opened.segment] at below
  rw [closed.memory, below, opened.memory]
  exact Memory.stacked_raw room held

theorem Nested.kept (run : Nested dev base floor m m')
    (below : depth base floor ≤ depth base (m.cpu.get .SP)) : StackKept base floor m m' := by
  induction run with
  | done floor m => exact ⟨rfl, below, fun _ _ => rfl⟩
  | other ran segment pointer bytes rest hypothesis =>
      have first : StackKept base _ _ _ := ⟨segment, pointer, bytes⟩
      exact first.trans (hypothesis pointer)
  | frame kind opened opens room body back closed closes pointer rest inside after =>
      have start := frame_opened opened opens
      have kept := inside (le_refl _)
      have finish := frame_closed closes (body_holds start room kept back) closed
      obtain ⟨segment, bytes⟩ := frame_kept start room kept finish
      have first : StackKept base _ _ _ := ⟨segment, pointer, fun off held => bytes off (held.lower below)⟩
      exact first.trans (after pointer)

end Frames

/-- A call of the offset 3, and a return there. -/
def calling : Machine Unit where
  halted := false
  mem := ⟨fun addr => if addr = 0 then 0xe8 else if addr = 3 then 0xc3 else 0, none⟩
  cpu := ⟨fun idx => if idx = Register.SS.idx then 0x1000 else 0⟩
  interruptVectors _ := none
  devices := ()
  execCount := 0

/-- The machine after a step that it can take. -/
def Machine.stepped (m : Machine Unit) : Machine Unit :=
  match m.step silentDevices with
  | .ok m => m
  | _ => m

end Dis86.Emu
