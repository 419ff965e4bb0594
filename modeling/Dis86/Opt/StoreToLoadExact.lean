import Dis86.IR.Flow
import Dis86.Opt.StoreToLoad

namespace Dis86.Opt
open IR Lib

variable {ir : IR} {b : BlockRef} {run : BlockRun ir b} {s l k n : Nat} {seg off value : Ref}

/-- What a load reads in a visit of its block. -/
def BlockRun.loaded (run : BlockRun ir b) (l : Nat) (seg off : Ref) (n : Nat) : Nat :=
  (run.memory l).read (windowAt (run.value seg) (run.value off)) n

def StoreWidth (ir : IR) (b : BlockRef) (s k : Nat) : Prop :=
  ∃ r instr, At ir b s r instr ∧ instr.opcode.storeBytes? = some k

def LoadWidth (ir : IR) (b : BlockRef) (l n : Nat) : Prop :=
  ∃ r instr, At ir b l r instr ∧ instr.opcode.loadBytes? = some n

/-- The instruction is the last one before a position that may write the byte. -/
structure LastTouch (run : BlockRun ir b) (p l a : Nat) : Prop where
  before : p < l
  writes : ∃ r instr, At ir b p r instr ∧ MayWrite run.value instr a
  untouched : run.Untouched (p + 1) l a

/-- Nothing that a visit does to the memory between a store and a load shows in the load. -/
structure Undisturbed (run : BlockRun ir b) (s l : Nat) (seg off value : Ref) (k n : Nat) : Prop where
  fits : run.value value < 256 ^ n
  beyond : ∀ j, k ≤ j → j < n → run.Untouched (s + 1) l (windowAt (run.value seg) (run.value off) j) →
    run.memory s (windowAt (run.value seg) (run.value off) j) = byteOf (run.value value) j
  later : ∀ j < n, ∀ p, s < p → LastTouch run p l (windowAt (run.value seg) (run.value off) j) →
    run.memory (p + 1) (windowAt (run.value seg) (run.value off) j) = byteOf (run.value value) j

section Bytes

variable {first last a : Nat}

theorem BlockRun.Untouched.none {p : Nat} (untouched : run.Untouched first last a) (above : first ≤ p)
    (below : p < last) {r : Ref} {instr : Instr} (here : At ir b p r instr) :
    ¬ MayWrite run.value instr a := untouched p above below r instr here.listed here.present

/-- A byte that is touched has a last writer. -/
theorem exists_lastTouch (touched : ¬ run.Untouched first last a) :
    ∃ p, first ≤ p ∧ LastTouch run p last a := by
  induction last with
  | zero => exact absurd (fun p _ below => absurd below (Nat.not_lt_zero p)) touched
  | succ last hypothesis =>
      by_cases here : first ≤ last ∧ ∃ r instr, At ir b last r instr ∧ MayWrite run.value instr a
      · obtain ⟨above, writes⟩ := here
        refine ⟨last, above, Nat.lt_succ_self last, writes, fun p after before => ?_⟩
        omega
      · have before : ¬ run.Untouched first last a := by
          intro untouched
          apply touched
          intro p above below r instr listed present writes
          rcases Nat.lt_succ_iff_lt_or_eq.mp below with below | rfl
          · exact untouched p above below r instr listed present writes
          · exact here ⟨above, r, instr, ⟨listed, present⟩, writes⟩
        obtain ⟨p, above, writer⟩ := hypothesis before
        refine ⟨p, above, Nat.lt_succ_of_lt writer.before, writer.writes, ?_⟩
        intro q after below r instr listed present writes
        rcases Nat.lt_succ_iff_lt_or_eq.mp below with below | rfl
        · exact writer.untouched q after below r instr listed present writes
        · have start : first ≤ q := by
            have := writer.before
            omega
          exact here ⟨start, r, instr, ⟨listed, present⟩, writes⟩

theorem LastTouch.unique {p q : Nat} (first : LastTouch run p last a) (second : LastTouch run q last a) :
    p = q := by
  obtain ⟨_, _, isP, writesP⟩ := first.writes
  obtain ⟨_, _, isQ, writesQ⟩ := second.writes
  rcases Nat.lt_trichotomy p q with less | same | more
  · exact absurd writesQ (first.untouched.none less second.before isQ)
  · exact same
  · exact absurd writesP (second.untouched.none more first.before isP)

end Bytes

section Exact

variable (filled : MemoryFilled ir) (forwards : Forwards ir b s l seg off value)
  (stored : StoreWidth ir b s k)
include filled forwards stored

/-- A byte of the load is the byte of the value if and only if nothing disturbs it. -/
theorem byte_iff (j : Nat) (small : j < 2 ^ 16) :
    run.memory l (windowAt (run.value seg) (run.value off) j) = byteOf (run.value value) j ↔
      (k ≤ j → run.Untouched (s + 1) l (windowAt (run.value seg) (run.value off) j) →
        run.memory s (windowAt (run.value seg) (run.value off) j) = byteOf (run.value value) j) ∧
      ∀ p, s < p → LastTouch run p l (windowAt (run.value seg) (run.value off) j) →
        run.memory (p + 1) (windowAt (run.value seg) (run.value off) j) = byteOf (run.value value) j := by
  have after : s + 1 ≤ l := forwards.pending.before
  obtain ⟨_, _, _, ⟨listed, _⟩, _⟩ := forwards.load
  have inside : l ≤ (ir.iterInstrs b).length := Nat.le_of_lt (List.getElem?_eq_some_iff.mp listed).1
  obtain ⟨r, store, isStore, _, rest, operands⟩ := forwards.pending.store
  obtain ⟨r', store', isStore', width⟩ := stored
  obtain ⟨rfl, rfl⟩ := isStore.unique isStore'
  have step := run.step s r store isStore.listed isStore.present
  by_cases untouched : run.Untouched (s + 1) l (windowAt (run.value seg) (run.value off) j)
  · have none : ∀ p, s < p → ¬ LastTouch run p l (windowAt (run.value seg) (run.value off) j) := by
      intro p above writer
      obtain ⟨_, _, here, writes⟩ := writer.writes
      exact untouched.none above writer.before here writes
    rw [untouched.same after inside filled.stores]
    by_cases short : j < k
    · rw [step.stored width operands short]
      constructor
      · exact fun _ => ⟨fun beyond => absurd short (Nat.not_lt.mpr beyond),
          fun p above writer => absurd writer (none p above)⟩
      · exact fun _ => rfl
    · have away : ¬ MayWrite run.value store (windowAt (run.value seg) (run.value off) j) := by
        intro writes
        unfold MayWrite at writes
        rw [width] at writes
        obtain ⟨seg', off', _, _, operands', i, below, same⟩ := writes
        rw [operands] at operands'
        simp only [List.cons.injEq] at operands'
        obtain ⟨rfl, rfl, _⟩ := operands'
        have bound := storeBytes?_le width
        have := windowAt_injective _ _ (by omega) small same
        omega
      rw [step.same (filled.stores r store isStore.present) away]
      constructor
      · exact fun before => ⟨fun _ _ => before, fun p above writer => absurd writer (none p above)⟩
      · exact fun conditions => conditions.1 (Nat.not_lt.mp short) untouched
  · obtain ⟨p, above, writer⟩ := exists_lastTouch untouched
    rw [writer.untouched.same writer.before inside filled.stores]
    constructor
    · intro leaves
      refine ⟨fun _ isUntouched => absurd isUntouched untouched, fun q _ other => ?_⟩
      rw [other.unique writer]
      exact leaves
    · exact fun conditions => conditions.2 p above writer

/-- A load reads the forwarded value if and only if nothing disturbs it. -/
theorem loaded_iff (width : n ≤ 4) :
    run.loaded l seg off n = run.value value ↔ Undisturbed run s l seg off value k n := by
  rw [BlockRun.loaded, ByteMemory.read_eq_iff]
  constructor
  · rintro ⟨fits, bytes⟩
    refine ⟨fits, fun j beyond before => ?_, fun j before => ?_⟩
    · exact ((byte_iff filled forwards stored j (by omega)).mp (bytes j before)).1 beyond
    · exact ((byte_iff filled forwards stored j (by omega)).mp (bytes j before)).2
  · rintro ⟨fits, beyond, later⟩
    refine ⟨fits, fun j before => (byte_iff filled forwards stored j (by omega)).mpr ?_⟩
    exact ⟨fun above => beyond j above before, later j before⟩

end Exact

theorem loadBytes?_le {op : Opcode} (isLoad : op.loadBytes? = some n) : n ≤ 4 := by
  cases op <;> simp_all [Opcode.loadBytes?] <;> omega

/-- The loads that the pass replaces read the forwarded values in a visit of a block if and only if
nothing disturbs them there. -/
theorem forwardStoreToLoad_exact_iff (filled : MemoryFilled ir) :
    ∃ next, forwardStoreToLoad ir = some next ∧ ∀ b (run : BlockRun ir b),
      (∀ l r instr seg off rest value n, At ir b l r instr → instr.opcode.loadBytes? = some n →
        instr.operands = seg :: off :: rest → next.instr? r = some (toRef value instr) →
        run.loaded l seg off n = run.value value) ↔
      ∀ s l seg off value k n, Forwards ir b s l seg off value → StoreWidth ir b s k →
        LoadWidth ir b l n → Undisturbed run s l seg off value k n := by
  obtain ⟨next, ran, forwarded⟩ := forwardStoreToLoad_forwarded filled
  refine ⟨next, ran, fun b run => ?_⟩
  constructor
  · intro reads s l seg off value k n forwards stored loads
    obtain ⟨r, instr, rest, here, isLoad, operands⟩ := forwards.load
    obtain ⟨r', instr', here', width⟩ := loads
    obtain ⟨rfl, rfl⟩ := here.unique here'
    apply (loaded_iff filled forwards stored (loadBytes?_le width)).mp
    apply reads l r instr seg off rest value n here width operands
    rcases forwarded b l r instr here with ⟨s', seg', off', value', forwards', same⟩ | ⟨none, _⟩
    · obtain ⟨_, _, _, isHere, _, operands'⟩ := forwards'.load
      obtain ⟨rfl, rfl⟩ := here.unique isHere
      rw [operands] at operands'
      simp only [List.cons.injEq] at operands'
      obtain ⟨rfl, rfl, _⟩ := operands'
      rw [same, forwards'.pending.unique forwards.pending]
    · exact absurd forwards (none s seg off value)
  · intro undisturbed l r instr seg off rest value n here width operands replaced
    rcases forwarded b l r instr here with ⟨s, seg', off', value', forwards, same⟩ | ⟨_, same⟩
    · obtain ⟨_, _, _, isHere, _, operands'⟩ := forwards.load
      obtain ⟨rfl, rfl⟩ := here.unique isHere
      rw [operands] at operands'
      simp only [List.cons.injEq] at operands'
      obtain ⟨rfl, rfl, _⟩ := operands'
      rw [same] at replaced
      have values := congrArg Instr.operands (Option.some.inj replaced)
      obtain rfl : value' = value := (List.cons.inj values).1
      obtain ⟨q, store, isStore, kind, _⟩ := forwards.pending.store
      rw [Opcode.isStore_eq] at kind
      obtain ⟨k, storeWidth⟩ := Option.isSome_iff_exists.mp kind
      have stored : StoreWidth ir b s k := ⟨q, store, isStore, storeWidth⟩
      apply (loaded_iff filled forwards stored (loadBytes?_le width)).mpr
      exact undisturbed s l seg off value' k n forwards stored ⟨r, instr, here, width⟩
    · rw [same] at replaced
      have opcodes := congrArg Instr.opcode (Option.some.inj replaced)
      rw [opcodes] at width
      cases width

/-- Three memory operations on the data segment. -/
def memoryBlock (instrs : List Instr) (order : List Nat) (bounded : ∀ idx ∈ order, idx < instrs.length)
    (distinct : order.Nodup) : IR :=
  { IR.new with blocks := [some ⟨"block", fun _ => none, [], ⟨instrs, order, bounded, distinct⟩, true, []⟩] }

def memoryOp (opcode : Opcode) (operands : List Ref) : Instr := ⟨.u16, none, Attribute.NONE, opcode, operands⟩

/-- Two stores at different registers before a load. -/
def aliasedStores : IR :=
  memoryBlock [memoryOp .store16 [.init .DS, .init .BX, .init .AX],
    memoryOp .store16 [.init .DS, .init .SI, .init .CX], memoryOp .load16 [.init .DS, .init .BX]]
    [0, 1, 2] (by decide) distinct_three

/-- Both addresses are the first one of the segment. -/
def aliasedValue : Ref → Nat
  | .init .AX => 1
  | .init .CX => 2
  | _ => 0

def aliasedRun : BlockRun aliasedStores 0 where
  value := aliasedValue
  memory
    | 0 => fun _ => 0
    | 1 => ByteMemory.write (fun _ => 0) (windowAt 0 0) 2 1
    | _ => (ByteMemory.write (fun _ => 0) (windowAt 0 0) 2 1).write (windowAt 0 0) 2 2
  step p r instr listed present := by
    match p with
    | 0 =>
        obtain rfl := Option.some.inj listed
        obtain rfl := Option.some.inj present
        refine ⟨fun n seg off v rest width operands => ?_, fun quiet => by cases quiet⟩
        obtain rfl := Option.some.inj width
        obtain ⟨rfl, _, rfl⟩ := operands
        rfl
    | 1 =>
        obtain rfl := Option.some.inj listed
        obtain rfl := Option.some.inj present
        refine ⟨fun n seg off v rest width operands => ?_, fun quiet => by cases quiet⟩
        obtain rfl := Option.some.inj width
        obtain ⟨rfl, _, rfl⟩ := operands
        rfl
    | 2 =>
        obtain rfl := Option.some.inj listed
        obtain rfl := Option.some.inj present
        exact ⟨fun n seg off v rest width => (by cases width), fun _ => rfl⟩
    | p + 3 => cases listed

theorem aliasedStores_filled : MemoryFilled aliasedStores := by
  have checked : ∀ r ∈ aliasedStores.allInstrs, ∀ instr ∈ aliasedStores.instr? r,
      (instr.opcode.isLoad = true → 2 ≤ instr.operands.length) ∧
        (instr.opcode.isStore = true → 3 ≤ instr.operands.length) := by decide
  constructor
  · exact fun r instr present => (checked r (mem_allInstrs present) instr present).1
  · exact fun r instr present => (checked r (mem_allInstrs present) instr present).2

/-- The load is replaced by the first value and reads the second one. -/
theorem aliasedRun_differs {next : IR} (ran : forwardStoreToLoad aliasedStores = some next) :
    ¬ ∀ l r instr seg off rest value n, At aliasedStores 0 l r instr →
      instr.opcode.loadBytes? = some n → instr.operands = seg :: off :: rest →
      next.instr? r = some (toRef value instr) → aliasedRun.loaded l seg off n = aliasedRun.value value := by
  intro reads
  have replaced : (forwardStoreToLoad aliasedStores).bind (fun next => next.instr? (.instr 0 2)) =
      some (toRef (.init .AX) (memoryOp .load16 [.init .DS, .init .BX])) := by decide +kernel
  rw [ran, Option.bind_some] at replaced
  have wrong := reads 2 (.instr 0 2) (memoryOp .load16 [.init .DS, .init .BX]) (.init .DS) (.init .BX) []
    (.init .AX) 2 ⟨rfl, rfl⟩ rfl rfl replaced
  revert wrong
  decide +kernel

theorem aliasedRun_disturbed :
    ¬ ∀ s l seg off value k n, Forwards aliasedStores 0 s l seg off value →
      StoreWidth aliasedStores 0 s k → LoadWidth aliasedStores 0 l n →
      Undisturbed aliasedRun s l seg off value k n := by
  intro undisturbed
  obtain ⟨next, ran, exact⟩ := forwardStoreToLoad_exact_iff aliasedStores_filled
  exact aliasedRun_differs ran ((exact 0 aliasedRun).mpr undisturbed)

theorem aliasedStores_forwards_stale : ∃ next, forwardStoreToLoad aliasedStores = some next ∧
    ¬ ∀ l r instr seg off rest value n, At aliasedStores 0 l r instr →
      instr.opcode.loadBytes? = some n → instr.operands = seg :: off :: rest →
      next.instr? r = some (toRef value instr) → aliasedRun.loaded l seg off n = aliasedRun.value value := by
  obtain ⟨next, ran, _⟩ := forwardStoreToLoad_forwarded aliasedStores_filled
  exact ⟨next, ran, aliasedRun_differs ran⟩

end Dis86.Opt
