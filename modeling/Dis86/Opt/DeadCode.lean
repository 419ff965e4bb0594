import Dis86.IR.Flow
import Dis86.Lib.Search
import Dis86.Opt.DeadBlock
import Dis86.Opt.Sweep

namespace Dis86.Opt
open IR Lib

/-- A root has a side effect or is pinned. -/
def isRoot (instr : Instr) : Bool :=
  instr.opcode.hasSideEffects || instr.attrs &&& Attribute.PIN != 0

def rootRefs (ir : IR) : List Ref := ir.refs.filter fun r => (ir.instr? r).any isRoot

/-- Each instruction appends its operands once. -/
def markFuel (ir : IR) : Nat := (rootRefs ir).length + (ir.allInstrs.flatMap ir.valueOperands).length + 1

def liveRefs (ir : IR) : Option (List Ref) := mark ir.valueOperands (markFuel ir) [] (rootRefs ir)

def eraseUnless (live : List Ref) (ir : IR) (r : Ref) : Option IR :=
  if r ∈ live then some ir else (ir.instr? r).map fun _ => ir.modifyInstr r makeNop

def deadcodeElimination (ir : IR) : Option IR := do
  let live ← liveRefs ir
  forEachInstr (eraseUnless live) ir

/-- What an execution of an instruction does besides computing a value. -/
inductive Effect where
  | memory | symbol | array | register | port | control | call | trap | assertion
deriving DecidableEq, Repr

/-- A port sees a read as well as a write. -/
def effect? : Opcode → Option Effect
  | .store8 | .store16 | .store32 | .repMovs | .repStos => some .memory
  | .writeVar8 | .writeVar16 | .writeVar32 => some .symbol
  | .writeArr8 | .writeArr16 => some .array
  | .cld | .std | .cli | .sti => some .register
  | .in8 | .in16 | .out8 | .out16 | .ins | .outs | .repIns | .repOuts => some .port
  | .retFar | .retNear | .jmp | .jne | .jmpTbl => some .control
  | .callFar | .callNear | .callNearPtr | .callFarPtr | .callArgs | .int => some .call
  | .unimpl => some .trap
  | .assertEven | .assertPos => some .assertion
  | _ => none

def isPinned (instr : Instr) : Bool := instr.opcode = .pin || instr.attrs &&& Attribute.PIN != 0

/-- An instruction that has to stay for its own sake. -/
def isRequired (instr : Instr) : Bool := (effect? instr.opcode).isSome || isPinned instr

def requiredRefs (ir : IR) : List Ref := ir.refs.filter fun r => (ir.instr? r).any isRequired

/-- The required instructions and what they use, directly or not. -/
def Needed (ir : IR) (r : Ref) : Prop := Reaches ir.valueOperands (requiredRefs ir) r

/-- An instruction that has been erased. -/
def IsNop (ir : IR) (r : Ref) : Prop := (ir.instr? r).map Instr.opcode = some .nop

/-- An elimination keeps what is needed and erases the rest, and no operand is left without its
value. -/
structure KeepsExactlyNeeded (ir next : IR) : Prop where
  needed : ∀ r ∈ ir.refs, Needed ir r → next.instr? r = ir.instr? r
  erased : ∀ r ∈ ir.refs, ¬ Needed ir r → IsNop next r
  operands : ∀ r ∈ next.refs, ∀ x ∈ next.valueOperands r, ¬ IsNop next x

/-- The effects that are not among the side effects of an opcode. -/
def unprotected : Opcode → Bool
  | .store32 | .writeArr8 | .writeArr16 => true
  | _ => false

theorem isRequired_iff (instr : Instr) :
    isRequired instr = (isRoot instr || unprotected instr.opcode) := by
  have opcodes : ∀ op : Opcode, ((effect? op).isSome || decide (op = .pin)) =
      (op.hasSideEffects || unprotected op) := by
    intro op
    cases op <;> rfl
  unfold isRequired isRoot isPinned
  rw [← Bool.or_assoc, opcodes, Bool.or_right_comm]

theorem liveRefs_isSome (ir : IR) : ∃ live, liveRefs ir = some live := by
  have covers : ∀ x, ir.valueOperands x ≠ [] → x ∈ ir.allInstrs := by
    intro x uses
    cases found : ir.instr? x with
    | none => simp [valueOperands, found] at uses
    | some instr => exact mem_allInstrs found
  apply Marking.ends covers
  · have nothing : Search.unseen ir.allInstrs [] = ir.allInstrs := by
      simp [Search.unseen]
    rw [Marking.pending, nothing, ← List.length_flatMap, markFuel]
    omega

/-- The values that a root leads to. -/
def Live (ir : IR) (r : Ref) : Prop := Reaches ir.valueOperands (rootRefs ir) r

theorem mem_liveRefs {ir : IR} {live : List Ref} (marked : liveRefs ir = some live) (r : Ref) :
    r ∈ live ↔ Live ir r :=
  Marking.sound (.init (rootRefs ir)) marked r

theorem keepsOrder_eraseUnless (live : List Ref) : KeepsOrder (eraseUnless live) := by
  intro ir r next visited
  unfold eraseUnless at visited
  split at visited
  · obtain rfl := Option.some.inj visited
    exact .refl ir
  · obtain ⟨instr, _, rfl⟩ := Option.map_eq_some_iff.mp visited
    exact .modifyInstr ir r makeNop

/-- Between the start and the end, an instruction is as it was, or dead and erased. -/
def Erasing (live : List Ref) (start cur : IR) : Prop :=
  ∀ s, cur.instr? s = start.instr? s ∨
    s ∈ start.refs ∧ s ∉ live ∧ cur.instr? s = (start.instr? s).map makeNop

theorem map_makeNop_twice (instr : Option Instr) :
    (instr.map makeNop).map makeNop = instr.map makeNop := by
  cases instr <;> rfl

theorem eraseUnless_instr {live : List Ref} {ir next : IR} {r : Ref}
    (visited : eraseUnless live ir r = some next) (s : Ref) :
    next.instr? s = if s = r ∧ r ∉ live then (ir.instr? r).map makeNop else ir.instr? s := by
  unfold eraseUnless at visited
  split at visited
  · rename_i inside
    obtain rfl := Option.some.inj visited
    simp [inside]
  · rename_i outside
    obtain ⟨instr, _, rfl⟩ := Option.map_eq_some_iff.mp visited
    rw [instr?_modifyInstr]
    simp [outside]

theorem Erasing.step {live : List Ref} {start cur next : IR} {r : Ref}
    (erasing : Erasing live start cur) (listed : r ∈ start.refs)
    (visited : eraseUnless live cur r = some next) : Erasing live start next := by
  intro s
  rw [eraseUnless_instr visited]
  split
  · rename_i dead
    obtain ⟨rfl, outside⟩ := dead
    right
    refine ⟨listed, outside, ?_⟩
    rcases erasing s with same | ⟨_, _, gone⟩
    · rw [same]
    · rw [gone, map_makeNop_twice]
  · exact erasing s

/-- The elimination erases the dead instructions of the order and nothing else. -/
theorem deadcodeElimination_spec (ir : IR) : ∃ next, deadcodeElimination ir = some next ∧
    next.refs = ir.refs ∧ (∀ s, Live ir s → next.instr? s = ir.instr? s) ∧
      ∀ r ∈ ir.refs, ¬ Live ir r → next.instr? r = (ir.instr? r).map makeNop := by
  obtain ⟨live, marked⟩ := liveRefs_isSome ir
  have order := keepsOrder_eraseUnless live
  have total : ∃ next, forEachInstr (eraseUnless live) ir = some next := by
    apply forEachInstr_isSome (SameOrder ir) order ?_ (.refl ir)
    intro cur r listed same
    rw [← same.refs] at listed
    obtain ⟨instr, present⟩ := mem_refs_instr? listed
    obtain ⟨next, visited⟩ : ∃ next, eraseUnless live cur r = some next := by
      unfold eraseUnless
      rw [present]
      split
      · exact ⟨cur, rfl⟩
      · exact ⟨_, rfl⟩
    exact ⟨next, visited, same.trans (order cur r next visited)⟩
  obtain ⟨next, ran⟩ := total
  have erasing : Erasing live ir next := forEachInstr_keeps (Erasing live ir) order
    (fun _ _ _ listed erasing visited => erasing.step listed visited) (fun _ => .inl rfl) ran
  have settled : ∀ r ∈ ir.refs, r ∉ live → next.instr? r = (ir.instr? r).map makeNop := by
    refine forEachInstr_settles (Erasing live ir)
      (fun cur r => r ∉ live → cur.instr? r = (ir.instr? r).map makeNop) order
      (fun _ _ _ listed erasing visited => erasing.step listed visited) ?_ ?_ (fun _ => .inl rfl) ran
    · intro cur r next _ erasing visited outside
      rw [eraseUnless_instr visited, if_pos ⟨rfl, outside⟩]
      rcases erasing r with same | ⟨_, _, gone⟩
      · rw [same]
      · rw [gone, map_makeNop_twice]
    · intro cur r s next _ _ visited settled outside
      rw [eraseUnless_instr visited]
      split
      · rename_i dead
        obtain ⟨rfl, _⟩ := dead
        rw [settled outside, map_makeNop_twice]
      · exact settled outside
  refine ⟨next, ?_, ?_, fun s isLive => ?_, fun r listed dead => ?_⟩
  · rw [deadcodeElimination, marked]
    exact ran
  · rw [forEachInstr_eq order] at ran
    exact (foldlM_sameOrder order ran).refs
  · rcases erasing s with same | ⟨_, outside, _⟩
    · exact same
    · exact absurd ((mem_liveRefs marked s).mpr isLive) outside
  · exact settled r listed fun inside => dead ((mem_liveRefs marked r).mp inside)

theorem Live.needed {ir : IR} {r : Ref} (live : Live ir r) : Needed ir r := by
  apply live.of_starts
  intro s inside
  apply Reaches.start
  obtain ⟨listed, root⟩ := List.mem_filter.mp inside
  obtain ⟨instr, present, isRoot'⟩ := Option.any_eq_true _ _ |>.mp root
  apply List.mem_filter.mpr
  refine ⟨listed, ?_⟩
  rw [present, Option.any_some, isRequired_iff, isRoot', Bool.true_or]

/-- With the unprotected writes used by roots, whatever is needed is live. -/
theorem Needed.live {ir : IR} {r : Ref} (needed : Needed ir r)
    (used : ∀ r ∈ ir.refs, ∀ instr, ir.instr? r = some instr → unprotected instr.opcode → Live ir r) :
    Live ir r := by
  apply needed.of_starts
  intro s inside
  obtain ⟨listed, required⟩ := List.mem_filter.mp inside
  obtain ⟨instr, present, isRequired'⟩ := Option.any_eq_true _ _ |>.mp required
  rw [isRequired_iff, Bool.or_eq_true] at isRequired'
  rcases isRequired' with root | isWrite
  · apply Reaches.start
    apply List.mem_filter.mpr
    exact ⟨listed, by rw [present, Option.any_some, root]⟩
  · exact used s listed instr present isWrite

theorem valueOperands_congr {ir next : IR} {r : Ref} (same : next.instr? r = ir.instr? r) :
    next.valueOperands r = ir.valueOperands r := by
  rw [valueOperands, same, valueOperands]

/-- The elimination is exact if and only if each of the three writes it does not protect is used
by a root, and no live instruction uses an erased one. -/
theorem deadcodeElimination_exact_iff (ir : IR) :
    (∃ next, deadcodeElimination ir = some next ∧ KeepsExactlyNeeded ir next) ↔
      (∀ r ∈ ir.refs, ∀ instr, ir.instr? r = some instr → unprotected instr.opcode →
        Live ir r) ∧
      ∀ r ∈ ir.refs, Live ir r → ∀ x ∈ ir.valueOperands r, ¬ IsNop ir x := by
  obtain ⟨next, ran, order, kept, gone⟩ := deadcodeElimination_spec ir
  constructor
  · rintro ⟨other, ranOther, exactly⟩
    obtain rfl := Option.some.inj (ran.symm.trans ranOther)
    constructor
    · intro r listed instr present isWrite
      by_contra dead
      have required : Needed ir r := by
        apply Reaches.start
        apply List.mem_filter.mpr
        refine ⟨listed, ?_⟩
        rw [present, Option.any_some, isRequired_iff, isWrite, Bool.or_true]
      have same := exactly.needed r listed required
      rw [gone r listed dead, present] at same
      have erased := congrArg Instr.opcode (Option.some.inj same)
      rw [← erased] at isWrite
      cases isWrite
    · intro r listed live x used
      have same := exactly.operands r (order ▸ listed) x
      rw [valueOperands_congr (kept r live)] at same
      have usedLive : Live ir x := .step live used
      have intact := same used
      rw [IsNop, kept x usedLive] at intact
      exact intact
  · rintro ⟨used, intact⟩
    refine ⟨next, ran, fun r _ needed => kept r (needed.live used), fun r listed unneeded => ?_,
      fun r listed x inside => ?_⟩
    · have dead : ¬ Live ir r := fun live => unneeded live.needed
      obtain ⟨instr, present⟩ := mem_refs_instr? listed
      rw [IsNop, gone r listed dead, present]
      rfl
    · rw [order] at listed
      by_cases live : Live ir r
      · rw [valueOperands_congr (kept r live)] at inside
        have usedLive : Live ir x := .step live inside
        rw [IsNop, kept x usedLive]
        exact intact r listed live x inside
      · obtain ⟨instr, present⟩ := mem_refs_instr? listed
        rw [valueOperands, gone r listed live, present] at inside
        cases inside

/-- A function that stores a double word and returns. -/
def storesDword : IR :=
  { IR.new with
    consts := [0]
    blocks := [some ⟨"entry", fun _ => none, [],
      ⟨[⟨.void, none, Attribute.MAY_ESCAPE, .store32, [.init .DS, .const 0, .const 0]⟩,
        ⟨.void, none, Attribute.NONE, .retFar, []⟩], [0, 1], by decide, distinct_two⟩, true, []⟩] }

theorem deadcodeElimination_drops_dword :
    ¬ ∃ next, deadcodeElimination storesDword = some next ∧ KeepsExactlyNeeded storesDword next := by
  rintro ⟨next, ran, exactly⟩
  obtain ⟨other, ranOther, _, _, gone⟩ := deadcodeElimination_spec storesDword
  obtain rfl := Option.some.inj (ran.symm.trans ranOther)
  have marked : liveRefs storesDword = some [.instr 0 1] := by decide
  have dead : ¬ Live storesDword (.instr 0 0) := by
    rw [← mem_liveRefs marked]
    decide
  have listed : Ref.instr 0 0 ∈ storesDword.refs := by decide
  have needed : Needed storesDword (.instr 0 0) := .start (by decide)
  have same := exactly.needed _ listed needed
  rw [gone _ listed dead] at same
  revert same
  decide

end Dis86.Opt
