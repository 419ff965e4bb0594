import Dis86.IR.Flow
import Dis86.Lib.ByteMemory

namespace Dis86

/-- Sixteen-bit arithmetic panics outside of its range. -/
def fitsI16 (k : Int) : Option Int := if -2 ^ 15 ≤ k ∧ k < 2 ^ 15 then some k else none

theorem fitsI16_eq_some {k l : Int} : fitsI16 k = some l ↔ -2 ^ 15 ≤ k ∧ k < 2 ^ 15 ∧ k = l := by
  unfold fitsI16
  split <;> simp_all

namespace IR

/-- The listed instructions of all blocks, in the order of a pass. -/
def refs (ir : IR) : List Ref := ir.iterBlocks.flatMap ir.iterInstrs

/-- A pass visits the listed instructions of every block and may rewrite each of them. -/
def forEachInstr (visit : IR → Ref → Option IR) (ir : IR) : Option IR :=
  ir.iterBlocks.foldlM (fun ir b => (ir.iterInstrs b).foldlM visit ir) ir

/-- Two functions list the same instructions in the same order. -/
structure SameOrder (ir next : IR) : Prop where
  blocks : next.iterBlocks = ir.iterBlocks
  instrs : ∀ b, next.iterInstrs b = ir.iterInstrs b

theorem SameOrder.refl (ir : IR) : SameOrder ir ir := ⟨rfl, fun _ => rfl⟩

theorem SameOrder.trans {ir next third : IR} (first : SameOrder ir next)
    (second : SameOrder next third) : SameOrder ir third where
  blocks := second.blocks.trans first.blocks
  instrs b := (second.instrs b).trans (first.instrs b)

theorem SameOrder.refs {ir next : IR} (same : SameOrder ir next) : next.refs = ir.refs := by
  have instrs : next.iterInstrs = ir.iterInstrs := funext same.instrs
  rw [IR.refs, IR.refs, same.blocks, instrs]

theorem SameOrder.modifyInstr (ir : IR) (r : Ref) (f : Instr → Instr) :
    SameOrder ir (ir.modifyInstr r f) where
  blocks := (SameShape.modifyInstr ir r f).iterBlocks
  instrs := iterInstrs_modifyInstr ir r f

theorem mem_refs_instr? {ir : IR} {r : Ref} (inside : r ∈ ir.refs) : ∃ instr, ir.instr? r = some instr := by
  obtain ⟨b, _, listed⟩ := List.mem_flatMap.mp inside
  exact Option.isSome_iff_exists.mp (mem_iterInstrs_instr? listed)

theorem refs_nodup (ir : IR) : ir.refs.Nodup := by
  apply List.nodup_flatMap.mpr
  constructor
  · exact fun b _ => iterInstrs_nodup ir b
  · apply (List.nodup_range.filter _).imp
    intro b c differ r here there
    apply differ
    have first := mem_iterInstrs here
    have second := mem_iterInstrs there
    rw [first] at second
    exact Option.some.inj second

section Rules

variable {visit : IR → Ref → Option IR}

/-- A visit may change instructions and tables, but neither blocks nor their order. -/
def KeepsOrder (visit : IR → Ref → Option IR) : Prop :=
  ∀ ir r next, visit ir r = some next → SameOrder ir next

theorem foldlM_sameOrder (keeps : KeepsOrder visit) {rs : List Ref} {ir next : IR}
    (ran : rs.foldlM visit ir = some next) : SameOrder ir next := by
  induction rs generalizing ir with
  | nil =>
      obtain rfl := Option.some.inj ran
      exact .refl ir
  | cons r rs hypothesis =>
      rw [List.foldlM_cons] at ran
      obtain ⟨middle, first, rest⟩ := Option.bind_eq_some_iff.mp ran
      exact (keeps ir r middle first).trans (hypothesis rest)

/-- The two nested loops visit one list, because no visit moves an instruction. -/
theorem forEachInstr_eq (keeps : KeepsOrder visit) (ir : IR) :
    forEachInstr visit ir = ir.refs.foldlM visit ir := by
  have blocks : ∀ (bs : List BlockRef) (cur : IR), SameOrder ir cur →
      bs.foldlM (fun ir b => (ir.iterInstrs b).foldlM visit ir) cur =
        (bs.flatMap ir.iterInstrs).foldlM visit cur := by
    intro bs
    induction bs with
    | nil => exact fun _ _ => rfl
    | cons b bs hypothesis =>
        intro cur same
        rw [List.foldlM_cons, List.flatMap_cons, List.foldlM_append, same.instrs b]
        cases ran : (ir.iterInstrs b).foldlM visit cur with
        | none => rfl
        | some middle => exact hypothesis middle (same.trans (foldlM_sameOrder keeps ran))
  exact blocks ir.iterBlocks ir (.refl ir)

theorem foldlM_keeps (invariant : IR → Prop) {rs : List Ref} {ir next : IR}
    (keeps : ∀ ir r next, r ∈ rs → invariant ir → visit ir r = some next → invariant next)
    (holds : invariant ir) (ran : rs.foldlM visit ir = some next) : invariant next := by
  induction rs generalizing ir with
  | nil =>
      obtain rfl := Option.some.inj ran
      exact holds
  | cons r rs hypothesis =>
      rw [List.foldlM_cons] at ran
      obtain ⟨middle, first, rest⟩ := Option.bind_eq_some_iff.mp ran
      refine hypothesis ?_ (keeps ir r middle List.mem_cons_self holds first) rest
      exact fun ir s next later => keeps ir s next (List.mem_cons_of_mem r later)

/-- What every visit keeps, the pass keeps. -/
theorem forEachInstr_keeps (invariant : IR → Prop) {ir next : IR} (order : KeepsOrder visit)
    (keeps : ∀ cur r next, r ∈ ir.refs → invariant cur → visit cur r = some next → invariant next)
    (holds : invariant ir) (ran : forEachInstr visit ir = some next) : invariant next := by
  rw [forEachInstr_eq order] at ran
  exact foldlM_keeps invariant keeps holds ran

/-- What a visit settles for its instruction and later visits keep, the pass settles for all. -/
theorem forEachInstr_settles (invariant : IR → Prop) (settled : IR → Ref → Prop) {ir next : IR}
    (order : KeepsOrder visit)
    (keeps : ∀ cur r next, r ∈ ir.refs → invariant cur → visit cur r = some next → invariant next)
    (settles : ∀ cur r next, r ∈ ir.refs → invariant cur → visit cur r = some next → settled next r)
    (stays : ∀ cur r s next, r ∈ ir.refs → invariant cur → visit cur r = some next →
      settled cur s → settled next s)
    (holds : invariant ir) (ran : forEachInstr visit ir = some next) :
    ∀ r ∈ ir.refs, settled next r := by
  rw [forEachInstr_eq order] at ran
  have all : ∀ (rs : List Ref) (cur : IR), (∀ r ∈ rs, r ∈ ir.refs) → invariant cur →
      rs.foldlM visit cur = some next → ∀ r ∈ rs, settled next r := by
    intro rs
    induction rs with
    | nil => exact fun _ _ _ _ r inside => absurd inside List.not_mem_nil
    | cons r rs hypothesis =>
        intro cur listed holds ran s inside
        rw [List.foldlM_cons] at ran
        obtain ⟨middle, first, rest⟩ := Option.bind_eq_some_iff.mp ran
        have here := listed r List.mem_cons_self
        have later : ∀ s ∈ rs, s ∈ ir.refs := fun s inside => listed s (List.mem_cons_of_mem r inside)
        have still := keeps cur r middle here holds first
        rcases List.mem_cons.mp inside with rfl | inside
        · have both : invariant next ∧ settled next s := by
            apply foldlM_keeps (fun cur => invariant cur ∧ settled cur s) ?_
              ⟨still, settles cur s middle here holds first⟩ rest
            intro cur t next inside both ran
            exact ⟨keeps cur t next (later t inside) both.1 ran,
              stays cur t s next (later t inside) both.1 ran both.2⟩
          exact both.2
        · exact hypothesis middle later still rest s inside
  exact all ir.refs ir (fun _ inside => inside) holds ran

/-- An invariant may depend on what the pass has visited. -/
theorem forEachInstr_prefix (invariant : List Ref → IR → Prop) {ir next : IR}
    (order : KeepsOrder visit)
    (step : ∀ front r back cur next, ir.refs = front ++ r :: back → invariant front cur →
      visit cur r = some next → invariant (front ++ [r]) next)
    (holds : invariant [] ir) (ran : forEachInstr visit ir = some next) : invariant ir.refs next := by
  rw [forEachInstr_eq order] at ran
  have all : ∀ (back front : List Ref) (cur : IR), ir.refs = front ++ back → invariant front cur →
      back.foldlM visit cur = some next → invariant ir.refs next := by
    intro back
    induction back with
    | nil =>
        intro front cur split holds ran
        obtain rfl := Option.some.inj ran
        rw [split, List.append_nil]
        exact holds
    | cons r back hypothesis =>
        intro front cur split holds ran
        rw [List.foldlM_cons] at ran
        obtain ⟨middle, first, rest⟩ := Option.bind_eq_some_iff.mp ran
        apply hypothesis (front ++ [r]) middle ?_ (step front r back cur middle split holds first) rest
        rw [split, List.append_assoc, List.singleton_append]
  exact all ir.refs [] ir rfl holds ran

/-- A pass whose visits never fail does not fail. -/
theorem forEachInstr_isSome (invariant : IR → Prop) {ir : IR} (order : KeepsOrder visit)
    (runs : ∀ cur r, r ∈ ir.refs → invariant cur → ∃ next, visit cur r = some next ∧ invariant next)
    (holds : invariant ir) : ∃ next, forEachInstr visit ir = some next := by
  rw [forEachInstr_eq order]
  have all : ∀ (rs : List Ref) (cur : IR), (∀ r ∈ rs, r ∈ ir.refs) → invariant cur →
      ∃ next, rs.foldlM visit cur = some next := by
    intro rs
    induction rs with
    | nil => exact fun cur _ _ => ⟨cur, rfl⟩
    | cons r rs hypothesis =>
        intro cur listed holds
        obtain ⟨middle, first, still⟩ := runs cur r (listed r List.mem_cons_self) holds
        obtain ⟨next, rest⟩ := hypothesis middle
          (fun s inside => listed s (List.mem_cons_of_mem r inside)) still
        exact ⟨next, by rw [List.foldlM_cons, first]; exact rest⟩
  exact all ir.refs ir (fun _ inside => inside) holds

end Rules

section Constants

variable {ir : IR}

/-- Constants are only ever added. -/
def MoreConsts (ir next : IR) : Prop :=
  ∀ r k, ir.constLookup r = some k → next.constLookup r = some k

theorem MoreConsts.refl (ir : IR) : MoreConsts ir ir := fun _ _ known => known

theorem MoreConsts.trans {next third : IR} (first : MoreConsts ir next)
    (second : MoreConsts next third) : MoreConsts ir third :=
  fun r k known => second r k (first r k known)

theorem SameOrder.constNew (ir : IR) (k : BitVec 16) : SameOrder ir (ir.constNew k).2 := by
  unfold IR.constNew
  split
  · exact .refl ir
  · exact ⟨rfl, fun _ => rfl⟩

theorem instr?_constNew (ir : IR) (k : BitVec 16) (r : Ref) :
    (ir.constNew k).2.instr? r = ir.instr? r := by
  unfold constNew
  split <;> rfl

theorem constLookup_modifyInstr (ir : IR) (r s : Ref) (f : Instr → Instr) :
    (ir.modifyInstr r f).constLookup s = ir.constLookup s := by
  unfold constLookup
  rw [(SameShape.modifyInstr ir r f).consts]

/-- A new constant has its value. -/
theorem constLookup_constNew (ir : IR) (k : BitVec 16) :
    (ir.constNew k).2.constLookup (ir.constNew k).1 = some k := by
  unfold constNew
  cases found : ir.consts.findIdx? (· = k) with
  | none => simp [constLookup]
  | some idx =>
      obtain ⟨inside, same, _⟩ := List.findIdx?_eq_some_iff_getElem.mp found
      simp only [decide_eq_true_eq] at same
      simp [constLookup, List.getElem?_eq_getElem inside, same]

theorem moreConsts_constNew (ir : IR) (k : BitVec 16) : MoreConsts ir (ir.constNew k).2 := by
  intro r val known
  unfold constNew
  split
  · exact known
  · cases r with
    | const idx =>
        simp only [constLookup] at known ⊢
        rw [List.getElem?_append_left (List.getElem?_eq_some_iff.mp known).1]
        exact known
    | _ => cases known

theorem constNew_isConst (ir : IR) (k : BitVec 16) : ∃ idx, (ir.constNew k).1 = .const idx := by
  unfold constNew
  split
  · exact ⟨_, rfl⟩
  · exact ⟨_, rfl⟩

end Constants

end IR

namespace Opcode

def loadBytes? : Opcode → Option Nat
  | .load8 => some 1
  | .load16 => some 2
  | .load32 => some 4
  | _ => none

def storeBytes? : Opcode → Option Nat
  | .store8 => some 1
  | .store16 => some 2
  | .store32 => some 4
  | _ => none

def writesVariable : Opcode → Bool
  | .writeVar8 | .writeVar16 | .writeVar32 => true
  | _ => false

def writesArray : Opcode → Bool
  | .writeArr8 | .writeArr16 => true
  | _ => false

/-- Every operation after which memory may be another one. -/
def writesMemory (op : Opcode) : Bool :=
  op.isStore || op.writesVariable || op.writesArray || op.mayClobberMemory

theorem isStore_eq (op : Opcode) : op.isStore = op.storeBytes?.isSome := by cases op <;> rfl

theorem isLoad_eq (op : Opcode) : op.isLoad = op.loadBytes?.isSome := by cases op <;> rfl

end Opcode

namespace Opt
open IR Lib

/-- A segment starts at every sixteenth byte of the memory, and addresses wrap. -/
def physical (seg off : BitVec 16) : Nat := (16 * seg.toNat + off.toNat) % 2 ^ 20

/-- The bytes from an offset of a segment on. -/
def windowAt (seg off j : Nat) : Nat := physical (.ofNat 16 seg) (.ofNat 16 (off + j))

theorem windowAt_injective (seg off : Nat) {i j : Nat} (first : i < 2 ^ 16) (second : j < 2 ^ 16)
    (same : windowAt seg off i = windowAt seg off j) : i = j := by
  simp only [windowAt, physical, BitVec.toNat_ofNat] at same
  omega

theorem windowAt_add (seg off k j : Nat) : windowAt seg (off + k) j = windowAt seg off (k + j) := by
  rw [windowAt, windowAt, Nat.add_assoc]

/-- What an instruction does to the memory: a store writes its bytes, and any other operation that
writes memory may do anything to it. -/
structure Changes (value : Ref → Nat) (instr : Instr) (m m' : ByteMemory Nat) : Prop where
  stores : ∀ n seg off v rest, instr.opcode.storeBytes? = some n → instr.operands = seg :: off :: v :: rest →
    m' = m.write (windowAt (value seg) (value off)) n (value v)
  quiet : instr.opcode.writesMemory = false → m' = m

/-- A visit of a block: the value of each reference, and the memory before each position. -/
structure BlockRun (ir : IR) (b : BlockRef) where
  value : Ref → Nat
  memory : Nat → ByteMemory Nat
  step : ∀ p r instr, (ir.iterInstrs b)[p]? = some r → ir.instr? r = some instr →
    Changes value instr (memory p) (memory (p + 1))

/-- The instruction may write a byte. -/
def MayWrite (value : Ref → Nat) (instr : Instr) (a : Nat) : Prop :=
  match instr.opcode.storeBytes? with
  | some n => ∃ seg off v rest, instr.operands = seg :: off :: v :: rest ∧
      ∃ j < n, windowAt (value seg) (value off) j = a
  | none => instr.opcode.writesMemory = true

section Steps

variable {value : Ref → Nat} {instr : Instr} {m m' : ByteMemory Nat} {a : Nat}

theorem storeBytes?_le {op : Opcode} {n : Nat} (isStore : op.storeBytes? = some n) : n ≤ 4 := by
  cases op <;> simp_all [Opcode.storeBytes?] <;> omega

/-- What an instruction may not write stays. -/
theorem Changes.same (changes : Changes value instr m m')
    (filled : instr.opcode.isStore = true → 3 ≤ instr.operands.length) (away : ¬ MayWrite value instr a) :
    m' a = m a := by
  unfold MayWrite at away
  cases isStore : instr.opcode.storeBytes? with
  | none =>
      rw [isStore] at away
      rw [changes.quiet (Bool.not_eq_true _ ▸ away)]
  | some n =>
      rw [isStore] at away
      have long := filled (by rw [Opcode.isStore_eq, isStore]; rfl)
      match listed : instr.operands with
      | [] | [_] | [_, _] => simp [listed] at long
      | seg :: off :: v :: rest =>
          rw [changes.stores n seg off v rest isStore listed]
          apply ByteMemory.write_away
          intro j before same
          exact away ⟨seg, off, v, rest, listed, j, before, same⟩

/-- A store leaves the bytes of its value. -/
theorem Changes.stored (changes : Changes value instr m m') {n : Nat} {seg off v : Ref} {rest : List Ref}
    (isStore : instr.opcode.storeBytes? = some n) (operands : instr.operands = seg :: off :: v :: rest)
    {j : Nat} (before : j < n) :
    m' (windowAt (value seg) (value off) j) = byteOf (value v) j := by
  have small := storeBytes?_le isStore
  rw [changes.stores n seg off v rest isStore operands]
  apply ByteMemory.write_at ?_ _ _ before
  intro i below k under same
  exact windowAt_injective _ _ (by omega) (by omega) same

end Steps

section Runs

variable {ir : IR} {b : BlockRef} (run : BlockRun ir b)

/-- No instruction between two positions may write the byte. -/
def BlockRun.Untouched (first last a : Nat) : Prop :=
  ∀ p, first ≤ p → p < last → ∀ r instr, (ir.iterInstrs b)[p]? = some r → ir.instr? r = some instr →
    ¬ MayWrite run.value instr a

variable {run} {first last a : Nat}

/-- An untouched byte keeps its value. -/
theorem BlockRun.Untouched.same (untouched : run.Untouched first last a) (ordered : first ≤ last)
    (inside : last ≤ (ir.iterInstrs b).length)
    (filled : ∀ r instr, ir.instr? r = some instr → instr.opcode.isStore = true → 3 ≤ instr.operands.length) :
    run.memory last a = run.memory first a := by
  induction last, ordered using Nat.le_induction with
  | base => rfl
  | succ last ordered hypothesis =>
      have here : last < (ir.iterInstrs b).length := inside
      have listed := List.getElem?_eq_getElem here
      obtain ⟨instr, present⟩ := Option.isSome_iff_exists.mp
        (mem_iterInstrs_instr? (List.mem_of_getElem? listed))
      have step := run.step last _ instr listed present
      rw [step.same (filled _ instr present)
        (untouched last ordered (Nat.lt_succ_self last) _ instr listed present)]
      apply hypothesis ?_ (Nat.le_of_lt here)
      intro p above below
      exact untouched p above (Nat.lt_succ_of_lt below)

end Runs

end Opt

end Dis86
