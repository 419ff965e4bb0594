import Dis86.Emu.MultiWord

namespace Dis86.Emu
open Asm (Operand Seg SegOff)
open Lib (Outcome)

variable {D : Type}

namespace Memory

theorem slot_succ (p : BitVec 16) (k : Nat) :
    p + BitVec.ofNat 16 (2 * (k + 1)) = p + 2 + BitVec.ofNat 16 (2 * k) := by
  rw [Nat.mul_succ, Nat.add_comm, BitVec.ofNat_add, ← BitVec.add_assoc]
  rfl

/-- The words from an offset of a segment on. -/
def HoldsAt (mem : Memory) (seg : BitVec 16) : BitVec 16 → List (BitVec 16) → Prop
  | _, [] => True
  | p, v :: rest => mem.wordAt seg p = v ∧ mem.HoldsAt seg (p + 2) rest

theorem holdsAt_append {mem : Memory} {seg p : BitVec 16} {front back : List (BitVec 16)} :
    mem.HoldsAt seg p (front ++ back) ↔
      mem.HoldsAt seg p front ∧ mem.HoldsAt seg (p + BitVec.ofNat 16 (2 * front.length)) back := by
  induction front generalizing p with
  | nil => simp [HoldsAt]
  | cons v rest hypothesis =>
      rw [List.cons_append, HoldsAt, HoldsAt, hypothesis, List.length_cons, slot_succ, and_assoc]

/-- A word below the top leaves a stack that does not fill its segment. -/
theorem holdsAt_below {mem : Memory} {seg p v : BitVec 16} {l : List (BitVec 16)} {k : Nat}
    (room : k + l.length < 32768) (holds : mem.HoldsAt seg (p + BitVec.ofNat 16 (2 * k)) l) :
    (mem.setWord seg (p - 2) v).HoldsAt seg (p + BitVec.ofNat 16 (2 * k)) l := by
  induction l generalizing k with
  | nil => trivial
  | cons u rest hypothesis =>
      rw [List.length_cons] at room
      have next : p + BitVec.ofNat 16 (2 * k) + 2 = p + BitVec.ofNat 16 (2 * (k + 1)) := by
        rw [slot_succ, BitVec.add_assoc, BitVec.add_assoc, BitVec.add_comm 2]
      obtain ⟨top, below⟩ := holds
      rw [next] at below
      have apart : p + BitVec.ofNat 16 (2 * k) ≠ p - 2 ∧ p + BitVec.ofNat 16 (2 * k) ≠ p - 2 + 1 ∧
          p + BitVec.ofNat 16 (2 * k) + 1 ≠ p - 2 := by
        refine ⟨?_, ?_, ?_⟩ <;> bv_omega
      refine ⟨(mem.wordAt_setWord_apart seg v apart).trans top, ?_⟩
      rw [next]
      exact hypothesis (by omega) below

end Memory

/-- The words of a stack, the top first. Its bottom stays where it is, and the segment has room for it. -/
structure Stacked (m : Machine D) (base : BitVec 16) (l : List (BitVec 16)) : Prop where
  words : m.mem.HoldsAt (m.cpu.get .SS) (m.cpu.get .SP) l
  bottom : m.cpu.get .SP + BitVec.ofNat 16 (2 * l.length) = base
  fits : l.length ≤ 32768

namespace Machine

variable (m : Machine D)

/-- The machine after a push. -/
def pushed16 (val : BitVec 16) : Machine D :=
  { m with
    cpu := m.cpu.put .SP (m.cpu.get .SP - 2)
    mem := m.mem.setWord (m.cpu.get .SS) (m.cpu.get .SP - 2) val }

/-- The machine after a pop. -/
def popped : Machine D := { m with cpu := m.cpu.put .SP (m.cpu.get .SP + 2) }

theorem stackPushU16_eq (val : BitVec 16) : m.stackPushU16 val = .ok (m.pushed16 val) := by
  have written := m.mem.writeU16_normal (m.cpu.get .SS) (m.cpu.get .SP - 2) val
  have addr : m.regReadAddr .SS .SP = .ok ⟨.normal (m.cpu.get .SS), m.cpu.get .SP⟩ := rfl
  have moved (off : BitVec 16) : m.regWriteU16 .SP off = .ok { m with cpu := m.cpu.put .SP off } := rfl
  simp only [stackPushU16, addr, moved, Outcome.ok_bind, written]
  rfl

theorem stackPopU16_eq : m.stackPopU16 = .ok (m.mem.wordAt (m.cpu.get .SS) (m.cpu.get .SP), m.popped) := by
  have read := m.mem.readU16_normal (m.cpu.get .SS) (m.cpu.get .SP)
  have addr : m.regReadAddr .SS .SP = .ok ⟨.normal (m.cpu.get .SS), m.cpu.get .SP⟩ := rfl
  have moved (off : BitVec 16) : m.regWriteU16 .SP off = .ok { m with cpu := m.cpu.put .SP off } := rfl
  simp only [stackPopU16, addr, moved, Outcome.ok_bind, read]
  rfl

@[simp] theorem pushed16_pointer (val : BitVec 16) : (m.pushed16 val).cpu.get .SP = m.cpu.get .SP - 2 := by
  simp [pushed16]

@[simp] theorem popped_pointer : m.popped.cpu.get .SP = m.cpu.get .SP + 2 := by simp [popped]

/-- A push keeps every register but the stack pointer. -/
theorem pushed16_get (val : BitVec 16) {r : Register} (other : r.idx ≠ 7) :
    (m.pushed16 val).cpu.get r = m.cpu.get r := by
  rw [pushed16, Cpu.get_put]
  exact if_neg other

theorem popped_get {r : Register} (other : r.idx ≠ 7) : m.popped.cpu.get r = m.cpu.get r := by
  rw [popped, Cpu.get_put]
  exact if_neg other

end Machine

namespace Stacked

variable {m : Machine D} {base v : BitVec 16} {l : List (BitVec 16)}

/-- A push puts a word on a stack that has room for it. -/
theorem push (stacked : Stacked m base l) (room : l.length < 32768) : Stacked (m.pushed16 v) base (v :: l) where
  words := by
    have back : m.cpu.get .SP - 2 + 2 = m.cpu.get .SP := BitVec.sub_add_cancel _ _
    have start : m.cpu.get .SP + BitVec.ofNat 16 (2 * 0) = m.cpu.get .SP := by simp
    have below := Memory.holdsAt_below (v := v) (k := 0) (by omega) (start.symm ▸ stacked.words)
    rw [start] at below
    rw [m.pushed16_pointer, m.pushed16_get v (by decide)]
    refine ⟨m.mem.wordAt_setWord _ _ v, ?_⟩
    rw [back]
    exact below
  bottom := by
    rw [m.pushed16_pointer, ← stacked.bottom, List.length_cons, Memory.slot_succ, BitVec.sub_add_cancel]
  fits := room

/-- A pop takes the top word. -/
theorem pop (stacked : Stacked m base (v :: l)) :
    m.mem.wordAt (m.cpu.get .SS) (m.cpu.get .SP) = v ∧ Stacked m.popped base l := by
  refine ⟨stacked.words.1, ?_, ?_, Nat.le_of_succ_le stacked.fits⟩
  · rw [m.popped_pointer, m.popped_get (by decide)]
    exact stacked.words.2
  · rw [m.popped_pointer, ← stacked.bottom, List.length_cons, Memory.slot_succ]

end Stacked

/-- What a program does with its stack. -/
inductive StackOp where
  | push (val : BitVec 16)
  | pop
deriving DecidableEq, Repr

/-- The words that a run of the operations takes from a stack, and the stack after it. The stack has room for
`32768` words. -/
def listRun : List StackOp → List (BitVec 16) → Option (List (BitVec 16) × List (BitVec 16))
  | [], l => some ([], l)
  | .push v :: ops, l => if l.length < 32768 then listRun ops (v :: l) else none
  | .pop :: ops, l =>
      match l with
      | [] => none
      | v :: l => (listRun ops l).map fun after => (v :: after.1, after.2)

def Machine.stackRun : List StackOp → Machine D → Result (List (BitVec 16) × Machine D)
  | [], m => .ok ([], m)
  | .push v :: ops, m => do stackRun ops (← m.stackPushU16 v)
  | .pop :: ops, m => do
      let (v, m) ← m.stackPopU16
      let (vs, m) ← stackRun ops m
      return (v :: vs, m)

/-- The stack of the machine is a list of words, whatever the stack pointer is and wherever it wraps in its segment. -/
theorem stack_refines (base : BitVec 16) {ops : List StackOp} {l after taken : List (BitVec 16)} {m : Machine D}
    (stacked : Stacked m base l) (runs : listRun ops l = some (taken, after)) :
    ∃ m', m.stackRun ops = .ok (taken, m') ∧ Stacked m' base after ∧
      m'.cpu.get .SP = base - BitVec.ofNat 16 (2 * after.length) := by
  induction ops generalizing m l taken with
  | nil =>
      cases runs
      refine ⟨m, rfl, stacked, ?_⟩
      rw [← stacked.bottom, BitVec.add_sub_cancel]
  | cons op ops hypothesis =>
      cases op with
      | push v =>
          rw [listRun] at runs
          by_cases room : l.length < 32768
          · rw [if_pos room] at runs
            obtain ⟨m', ran, rest⟩ := hypothesis (stacked.push room) runs
            refine ⟨m', ?_, rest⟩
            rw [Machine.stackRun, Machine.stackPushU16_eq]
            exact ran
          · rw [if_neg room] at runs
            cases runs
      | pop =>
          cases l with
          | nil => cases runs
          | cons v l =>
              rw [listRun, Option.map_eq_some_iff] at runs
              obtain ⟨⟨rest, after'⟩, runs, same⟩ := runs
              cases same
              obtain ⟨top, below⟩ := stacked.pop
              obtain ⟨m', ran, final⟩ := hypothesis below runs
              refine ⟨m', ?_, final⟩
              rw [Machine.stackRun, Machine.stackPopU16_eq, top]
              change (do
                let (vs, m) ← m.popped.stackRun ops
                return (v :: vs, m)) = _
              rw [ran]
              rfl

/-- The stack pointer of the machine is 8. -/
theorem stack_refines_pushes : ∃ m', counted.stackRun [.push 5, .push 6, .pop] = .ok ([6], m') ∧ Stacked m' 8 [5] ∧
    m'.cpu.get .SP = 8 - BitVec.ofNat 16 (2 * [5#16].length) :=
  stack_refines (l := []) 8 ⟨trivial, rfl, by decide⟩ rfl

end Dis86.Emu
