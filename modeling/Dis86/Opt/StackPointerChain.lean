import Dis86.Opt.StackPointer

namespace Dis86.Opt
open IR Lib

/-- One step through a copy, marked or not. -/
def RefStep (ir : IR) (r s : Ref) : Prop :=
  ∃ instr, ir.instr? r = some instr ∧ instr.opcode = .ref ∧ instr.operands[0]? = some s

/-- A reference is so many copies away from a base. -/
def AliasAt (ir : IR) (base : Ref) : Nat → Ref → Prop
  | 0, r => r = base
  | n + 1, r => ∃ s, RefStep ir r s ∧ AliasAt ir base n s

/-- The base of a chain is neither a copy nor itself a constant away from another value. -/
structure IsBase (ir : IR) (base : Ref) : Prop where
  noOper : stackPtrConstOper ir base = none
  noCopy : copied? ir base = none

/-- A pass visits the first instruction before the second one. -/
def Before (ir : IR) (p r : Ref) : Prop := ∃ front back, ir.refs = front ++ r :: back ∧ p ∈ front

/-- A chain of stack pointers over a base, each visited after the one below it, with the sums of
their constants. -/
inductive Chain (ir : IR) (base : Ref) : Ref → BitVec 16 → Prop where
  | first {r : Ref} {k : BitVec 16} (listed : r ∈ ir.refs)
      (oper : stackPtrConstOper ir r = some (base, k)) : Chain ir base r k
  | link {p r : Ref} {s k : BitVec 16} (below : Chain ir base p s)
      (oper : stackPtrConstOper ir r = some (p, k)) (later : Before ir p r) : Chain ir base r (s + k)

/-- An element is a constant away from a reference that copies lead from to the base. -/
def Short (ir : IR) (base r : Ref) (s : BitVec 16) : Prop :=
  ∃ instr q n, ir.instr? r = some instr ∧ instr.attrs &&& Attribute.STACK_PTR ≠ 0 ∧
    Distance ir instr q s ∧ AliasAt ir base n q

/-- An element is the base plus or minus one constant, or the base itself. A marked copy may stand
for the base. -/
def Collapsed (ir : IR) (base r : Ref) (s : BitVec 16) : Prop :=
  ∃ instr q n, ir.instr? r = some instr ∧ instr.attrs &&& Attribute.STACK_PTR ≠ 0 ∧
    Distance ir instr q s ∧ AliasAt ir base n q ∧ copied? ir q = none

section Copies

variable {ir next : IR} {base : Ref}

theorem RefStep.unique {r s t : Ref} (first : RefStep ir r s) (second : RefStep ir r t) : s = t := by
  obtain ⟨instr, present, _, operand⟩ := first
  obtain ⟨other, isOther, _, otherOperand⟩ := second
  obtain rfl := Option.some.inj (present.symm.trans isOther)
  exact Option.some.inj (operand.symm.trans otherOperand)

theorem CopyStep.refStep {r s : Ref} (step : CopyStep ir r s) : RefStep ir r s := by
  obtain ⟨instr, isCopy, operand⟩ := step
  obtain ⟨present, isRef, _⟩ := copied?_instr isCopy
  exact ⟨instr, present, isRef, operand⟩

/-- A step through a copy comes closer to a base that is no copy. -/
theorem AliasAt.step (noCopy : copied? ir base = none) {n : Nat} {r s : Ref}
    (aliased : AliasAt ir base n r) (step : CopyStep ir r s) : ∃ m, m < n ∧ AliasAt ir base m s := by
  cases n with
  | zero =>
      obtain ⟨instr, isCopy, _⟩ := step
      rw [aliased, noCopy] at isCopy
      cases isCopy
  | succ n =>
      obtain ⟨t, next, later⟩ := aliased
      obtain rfl := next.unique step.refStep
      exact ⟨n, Nat.lt_succ_self n, later⟩

theorem AliasAt.copies (noCopy : copied? ir base = none) {n : Nat} {r s : Ref}
    (aliased : AliasAt ir base n r) (path : Relation.ReflTransGen (CopyStep ir) r s) :
    ∃ m, m ≤ n ∧ AliasAt ir base m s := by
  induction path with
  | refl => exact ⟨n, Nat.le_refl n, aliased⟩
  | tail _ step hypothesis =>
      obtain ⟨m, fewer, between⟩ := hypothesis
      obtain ⟨l, less, last⟩ := between.step noCopy step
      exact ⟨l, by omega, last⟩

/-- No cycle of copies leads to a base. -/
theorem AliasAt.acyclic (noCopy : copied? ir base = none) {n : Nat} {r : Ref}
    (aliased : AliasAt ir base n r) : ¬ Relation.TransGen (CopyStep ir) r r := by
  intro cycle
  induction n using Nat.strong_induction_on with
  | _ n hypothesis =>
      obtain ⟨s, step, path⟩ := Relation.TransGen.head'_iff.mp cycle
      obtain ⟨m, fewer, next⟩ := aliased.step noCopy step
      obtain ⟨l, less, again⟩ := next.copies noCopy path
      exact hypothesis l (by omega) again

/-- The propagation of a reference over a base ends at a reference over it that has to stay. -/
theorem AliasAt.propagated (noCopy : copied? ir base = none) {n : Nat} {r last : Ref}
    (aliased : AliasAt ir base n r) (ended : operandPropagate ir r = some last) :
    ∃ m, m ≤ n ∧ AliasAt ir base m last ∧ copied? ir last = none := by
  obtain ⟨path, stop⟩ := operandPropagate_reaches ended
  obtain ⟨m, fewer, reached⟩ := aliased.copies noCopy path
  exact ⟨m, fewer, reached, stop.resolve_right (reached.acyclic noCopy)⟩

theorem AliasAt.mono (kept : ∀ r s, RefStep ir r s → RefStep next r s) {n : Nat} {r : Ref}
    (aliased : AliasAt ir base n r) : AliasAt next base n r := by
  induction n generalizing r with
  | zero => exact aliased
  | succ n hypothesis =>
      obtain ⟨s, step, rest⟩ := aliased
      exact ⟨s, kept r s step, hypothesis rest⟩

theorem Distance.mono {instr : Instr} {q : Ref} {k : BitVec 16} (more : MoreConsts ir next)
    (distance : Distance ir instr q k) : Distance next instr q k := by
  cases distance with
  | plus opcode operands value => exact .plus opcode operands (more _ _ value)
  | minus opcode operands value => exact .minus opcode operands (more _ _ value)
  | same opcode operands => exact .same opcode operands

end Copies

section Accumulation

variable {ir cur next : IR} {base r : Ref}

/-- A sum or a difference at a distance is one that the pass joins. -/
theorem stackPtrConstOper_of_distance {instr : Instr} {q : Ref} {k : BitVec 16}
    (present : ir.instr? r = some instr) (marked : instr.attrs &&& Attribute.STACK_PTR ≠ 0)
    (distance : Distance ir instr q k) :
    instr.opcode = .ref ∧ instr.operands = [q] ∧ k = 0 ∨ stackPtrConstOper ir r = some (q, k) := by
  cases distance with
  | @plus c k opcode operands value =>
      right
      cases c with
      | const idx => simpa [stackPtrConstOper, present, operands, opcode, value] using marked
      | _ => cases value
  | @minus c k opcode operands value =>
      right
      cases c with
      | const idx => simpa [stackPtrConstOper, present, operands, opcode, value] using marked
      | _ => cases value
  | same opcode operands => exact .inl ⟨opcode, operands, rfl⟩

theorem stackPtrConstOper_ref {instr : Instr} (present : ir.instr? r = some instr)
    (isRef : instr.opcode = .ref) : stackPtrConstOper ir r = none := by
  cases isOper : stackPtrConstOper ir r with
  | none => rfl
  | some oper =>
      obtain ⟨other, isOther, _, notRef, _⟩ := stackPtrConstOper_eq (n := oper.1) (k := oper.2) isOper
      obtain rfl := Option.some.inj (present.symm.trans isOther)
      exact absurd isRef notRef

/-- An instruction that a pass has not changed stays what it was, with more constants in the
table. -/
theorem stackPtrConstOper_same (formed : WellFormed ir) (more : MoreConsts ir cur)
    (same : cur.instr? r = ir.instr? r) : stackPtrConstOper cur r = stackPtrConstOper ir r := by
  unfold stackPtrConstOper
  rw [same]
  cases present : ir.instr? r with
  | none => rfl
  | some instr =>
      simp only [Option.bind_eq_bind, Option.bind_some]
      split
      · rename_i n c operands
        obtain ⟨k, known⟩ := formed.known r instr present c (by simp [operands])
        rw [more _ k known, known]
      · rfl

end Accumulation

section Accumulating

variable {ir cur next : IR} {base : Ref}

theorem Before.mem_front {front back : List Ref} {p r : Ref} (before : Before ir p r)
    (split : ir.refs = front ++ r :: back) : p ∈ front := by
  obtain ⟨front', back', other, inside⟩ := before
  rw [(split_unique (refs_nodup ir) split other).1]
  exact inside

theorem Chain.listed {r : Ref} {s : BitVec 16} (chain : Chain ir base r s) : r ∈ ir.refs := by
  cases chain with
  | first listed _ => exact listed
  | link _ _ later =>
      obtain ⟨front, back, split, _⟩ := later
      rw [split]
      simp

/-- The accumulation keeps every copy. -/
theorem accumulateInstr_refStep {v : Ref} (visited : accumulateInstr cur v = some next) {r s : Ref}
    (step : RefStep cur r s) : RefStep next r s := by
  rcases accumulateInstr_cases visited with ⟨rfl, _⟩ | ⟨_, _, _, _, _, _, isOper, _, rewritten⟩
  · exact step
  · obtain ⟨instr, present, isRef, operand⟩ := step
    by_cases same : r = v
    · subst same
      rw [stackPtrConstOper_ref present isRef] at isOper
      cases isOper
    · exact ⟨instr, by rw [rewritten.others r same, present], isRef, operand⟩

/-- The elements that the accumulation has visited are short, and the others are unchanged. -/
structure Accumulating (ir : IR) (base : Ref) (front : List Ref) (cur : IR) : Prop where
  formed : WellFormed cur
  more : MoreConsts ir cur
  waiting : ∀ s, s ∉ front → cur.instr? s = ir.instr? s
  unchanged : cur.instr? base = ir.instr? base
  short : ∀ r s, Chain ir base r s → r ∈ front → Short cur base r s

theorem Short.mono {v : Ref} (visited : accumulateInstr cur v = some next) {r : Ref} {s : BitVec 16}
    (more : MoreConsts cur next) (same : next.instr? r = cur.instr? r) (short : Short cur base r s) :
    Short next base r s := by
  obtain ⟨instr, q, n, present, marked, distance, aliased⟩ := short
  refine ⟨instr, q, n, by rw [same, present], marked, distance.mono more, ?_⟩
  exact aliased.mono fun _ _ => accumulateInstr_refStep visited

/-- A visit makes its element short, since the element below is short or the base. -/
theorem Accumulating.visit {front back : List Ref} {r : Ref} {s : BitVec 16}
    (accumulating : Accumulating ir base front cur) (formed : WellFormed ir) (isBase : IsBase ir base)
    (split : ir.refs = front ++ r :: back) (waiting : cur.instr? r = ir.instr? r)
    (visited : accumulateInstr cur r = some next) (chain : Chain ir base r s) :
    Short next base r s := by
  have oper := stackPtrConstOper_same formed accumulating.more waiting
  have noOper : stackPtrConstOper cur base = none := by
    rw [stackPtrConstOper_same formed accumulating.more accumulating.unchanged, isBase.noOper]
  cases chain with
  | @first _ k _ isOper =>
      rw [isOper] at oper
      obtain ⟨instr, present, marked, _, distance⟩ := stackPtrConstOper_eq oper
      rcases accumulateInstr_cases visited with ⟨rfl, _⟩ | ⟨_, p, a, n, b, _, isOther, below, _⟩
      · exact ⟨instr, base, 0, present, marked, distance, rfl⟩
      · rw [oper] at isOther
        cases isOther
        rw [noOper] at below
        cases below
  | @link p _ s k below isOper later =>
      rw [isOper] at oper
      obtain ⟨instr, present, marked, _, distance⟩ := stackPtrConstOper_eq oper
      obtain ⟨under, q, n, underPresent, underMarked, underDistance, aliased⟩ :=
        accumulating.short p s below (later.mem_front split)
      rcases stackPtrConstOper_of_distance underPresent underMarked underDistance with
        ⟨isRef, isCopy, rfl⟩ | underOper
      · have noUnder := stackPtrConstOper_ref underPresent isRef
        rcases accumulateInstr_cases visited with ⟨rfl, _⟩ | ⟨_, _, _, _, _, _, isOther, belowOper, _⟩
        · refine ⟨instr, p, n + 1, present, marked, ?_, q, ⟨under, underPresent, isRef, ?_⟩, aliased⟩
          · simpa using distance
          · rw [isCopy]
            rfl
        · rw [oper] at isOther
          cases isOther
          rw [noUnder] at belowOper
          cases belowOper
      · rcases accumulateInstr_cases visited with
          ⟨_, alone⟩ | ⟨other, _, _, _, _, isOther, otherOper, belowOper, rewritten⟩
        · rw [alone p k oper] at underOper
          cases underOper
        · rw [oper] at otherOper
          cases otherOper
          rw [underOper] at belowOper
          cases belowOper
          obtain rfl := Option.some.inj (present.symm.trans isOther)
          obtain ⟨instr', here, attrs, joined⟩ := rewritten.here
          rw [BitVec.add_comm s k]
          refine ⟨instr', q, n, here, by rw [attrs]; exact marked, joined, ?_⟩
          exact aliased.mono fun _ _ => accumulateInstr_refStep visited

theorem Accumulating.step {front back : List Ref} {r : Ref}
    (accumulating : Accumulating ir base front cur) (formed : WellFormed ir) (isBase : IsBase ir base)
    (split : ir.refs = front ++ r :: back) (visited : accumulateInstr cur r = some next) :
    Accumulating ir base (front ++ [r]) next := by
  have distinct := refs_nodup ir
  rw [split] at distinct
  have new : r ∉ front := by
    have outside := (List.nodup_cons.mp (List.nodup_middle.mp distinct)).1
    rw [List.mem_append, not_or] at outside
    exact outside.1
  have waiting := accumulating.waiting r new
  have frame : MoreConsts cur next ∧ ∀ s, s ≠ r → next.instr? s = cur.instr? s := by
    rcases accumulateInstr_cases visited with ⟨rfl, _⟩ | ⟨_, _, _, _, _, _, _, _, rewritten⟩
    · exact ⟨.refl _, fun _ _ => rfl⟩
    · exact ⟨rewritten.more, rewritten.others⟩
  constructor
  · exact (accumulateInstr_keeps visited accumulating.formed).1
  · exact accumulating.more.trans frame.1
  · intro s outside
    rw [List.mem_append, List.mem_singleton, not_or] at outside
    rw [frame.2 s outside.2, accumulating.waiting s outside.1]
  · by_cases same : base = r
    · subst same
      have noOper : stackPtrConstOper cur base = none := by
        rw [stackPtrConstOper_same formed accumulating.more accumulating.unchanged, isBase.noOper]
      rcases accumulateInstr_cases visited with ⟨rfl, _⟩ | ⟨_, _, _, _, _, _, isOper, _, _⟩
      · exact accumulating.unchanged
      · rw [noOper] at isOper
        cases isOper
    · rw [frame.2 base same, accumulating.unchanged]
  · intro s k chain inside
    by_cases same : s = r
    · subst same
      exact accumulating.visit formed isBase split waiting visited chain
    · have before : s ∈ front := by
        rw [List.mem_append, List.mem_singleton] at inside
        exact inside.resolve_right same
      exact (accumulating.short s k chain before).mono visited frame.1 (frame.2 s same)

/-- After the accumulation, every element of a chain is short. -/
theorem stackPtrAccumulation_short (formed : WellFormed ir) (isBase : IsBase ir base)
    (ran : stackPtrAccumulation ir = some next) :
    next.instr? base = ir.instr? base ∧ ∀ r s, Chain ir base r s → Short next base r s := by
  have accumulated : Accumulating ir base ir.refs next := by
    apply forEachInstr_prefix (Accumulating ir base) keepsOrder_accumulateInstr ?_ ?_ ran
    · intro front r back cur next split accumulating visited
      exact accumulating.step formed isBase split visited
    · exact ⟨formed, .refl ir, fun _ _ => rfl, rfl, fun _ _ _ inside => absurd inside List.not_mem_nil⟩
  exact ⟨accumulated.unchanged, fun r s chain => accumulated.short r s chain chain.listed⟩

end Accumulating

section Propagating

variable {start cur next : IR} {base v : Ref}

theorem propagateInstr_constLookup (visited : propagateInstr cur v = some next) (r : Ref) :
    next.constLookup r = cur.constLookup r := by
  obtain ⟨_, _, _, _, rfl⟩ := propagateInstr_eq visited
  exact constLookup_modifyInstr cur v r _

/-- A visit changes no opcode and no mark. -/
theorem propagateInstr_copied? (visited : propagateInstr cur v = some next) (r : Ref) :
    copied? next r = none ↔ copied? cur r = none := by
  obtain ⟨instr, operands, present, _, rfl⟩ := propagateInstr_eq visited
  rw [copied?, copied?, instr?_modifyInstr]
  split
  · rename_i here
    subst here
    rw [present, Option.map_some, Option.filter_eq_none_iff, Option.filter_eq_none_iff]
    simp
  · rfl

/-- A visit may shorten the copies between a reference and its base. -/
theorem propagateInstr_aliasAt (visited : propagateInstr cur v = some next)
    (noCopy : copied? cur base = none) {n : Nat} {r : Ref} (aliased : AliasAt cur base n r) :
    ∃ m, AliasAt next base m r := by
  obtain ⟨instr, operands, present, propagated, isNext⟩ := propagateInstr_eq visited
  induction n using Nat.strong_induction_on generalizing r with
  | _ n hypothesis =>
      cases n with
      | zero => exact ⟨0, aliased⟩
      | succ n =>
          obtain ⟨s, ⟨copy, copyPresent, isRef, operand⟩, rest⟩ := aliased
          by_cases here : r = v
          · subst here
            obtain rfl := Option.some.inj (present.symm.trans copyPresent)
            have inside := List.getElem?_eq_some_iff.mp operand
            obtain ⟨nonempty, isFirst⟩ := inside
            have became := propagated.get nonempty (by rw [← propagated.length_eq]; exact nonempty)
            simp only [List.get_eq_getElem, isFirst] at became
            obtain ⟨m, fewer, reached, _⟩ := rest.propagated noCopy became
            obtain ⟨l, last⟩ := hypothesis m (by omega) reached
            refine ⟨l + 1, _, ⟨{ instr with operands }, ?_, isRef, ?_⟩, last⟩
            · rw [isNext, instr?_modifyInstr, if_pos rfl, present, Option.map_some]
            · exact List.getElem?_eq_getElem (by rw [← propagated.length_eq]; exact nonempty)
          · obtain ⟨l, last⟩ := hypothesis n (Nat.lt_succ_self n) rest
            refine ⟨l + 1, s, ⟨copy, ?_, isRef, operand⟩, last⟩
            rw [isNext, instr?_modifyInstr, if_neg here, copyPresent]

/-- A visit moves an element to where its own copies end. -/
theorem propagateInstr_collapses (visited : propagateInstr cur v = some next)
    (noCopy : copied? cur base = none) {s : BitVec 16} (short : Short cur base v s) :
    Short next base v s ∧ Collapsed next base v s := by
  obtain ⟨instr, operands, present, propagated, isNext⟩ := propagateInstr_eq visited
  obtain ⟨other, q, n, isOther, marked, distance, aliased⟩ := short
  obtain rfl := Option.some.inj (present.symm.trans isOther)
  have constants := propagateInstr_constLookup visited
  have here : next.instr? v = some { instr with operands } := by
    rw [isNext, instr?_modifyInstr, if_pos rfl, present, Option.map_some]
  obtain ⟨q', became, distance'⟩ : ∃ q', operandPropagate cur q = some q' ∧
      Distance next { instr with operands } q' s := by
    have fixed : ∀ {c last : Ref} {k : BitVec 16}, cur.constLookup c = some k →
        operandPropagate cur c = some last → last = c := by
      intro c last k known ended
      cases c with
      | const idx =>
          rw [operandPropagate_self rfl] at ended
          exact (Option.some.inj ended).symm
      | _ => cases known
    cases distance with
    | plus opcode isPair known =>
        rw [isPair] at propagated
        obtain ⟨q', _, first, rest, rfl⟩ := List.forall₂_cons_left_iff.mp propagated
        obtain ⟨c', _, second, nothing, rfl⟩ := List.forall₂_cons_left_iff.mp rest
        obtain rfl := List.forall₂_nil_left_iff.mp nothing
        obtain rfl := fixed known second
        exact ⟨q', first, .plus opcode rfl (by rw [constants, known])⟩
    | minus opcode isPair known =>
        rw [isPair] at propagated
        obtain ⟨q', _, first, rest, rfl⟩ := List.forall₂_cons_left_iff.mp propagated
        obtain ⟨c', _, second, nothing, rfl⟩ := List.forall₂_cons_left_iff.mp rest
        obtain rfl := List.forall₂_nil_left_iff.mp nothing
        obtain rfl := fixed known second
        exact ⟨q', first, .minus opcode rfl (by rw [constants, known])⟩
    | same opcode isSingle =>
        rw [isSingle] at propagated
        obtain ⟨q', _, first, nothing, rfl⟩ := List.forall₂_cons_left_iff.mp propagated
        obtain rfl := List.forall₂_nil_left_iff.mp nothing
        exact ⟨q', first, .same opcode rfl⟩
  obtain ⟨m, _, reached, stop⟩ := aliased.propagated noCopy became
  obtain ⟨l, later⟩ := propagateInstr_aliasAt visited noCopy reached
  exact ⟨⟨_, q', l, here, marked, distance', later⟩,
    ⟨_, q', l, here, marked, distance', later, (propagateInstr_copied? visited q').mpr stop⟩⟩

/-- The elements stay short, and those that the propagation has visited are collapsed. -/
structure Propagating (start : IR) (base : Ref) (front : List Ref) (cur : IR) : Prop where
  noCopy : copied? cur base = none
  short : ∀ r s, Short start base r s → Short cur base r s
  collapsed : ∀ r s, Short start base r s → r ∈ front → Collapsed cur base r s

theorem propagateInstr_away (visited : propagateInstr cur v = some next) {r : Ref} (away : r ≠ v) :
    next.instr? r = cur.instr? r := by
  obtain ⟨_, _, _, _, rfl⟩ := propagateInstr_eq visited
  rw [instr?_modifyInstr, if_neg away]

theorem Propagating.step {front : List Ref} (propagating : Propagating start base front cur)
    (visited : propagateInstr cur v = some next) :
    Propagating start base (front ++ [v]) next := by
  have noCopy := propagating.noCopy
  have more : MoreConsts cur next := fun r k known => by
    rw [propagateInstr_constLookup visited, known]
  refine ⟨(propagateInstr_copied? visited base).mpr noCopy, fun r s element => ?_,
    fun r s element inside => ?_⟩
  · have short := propagating.short r s element
    by_cases same : r = v
    · subst same
      exact (propagateInstr_collapses visited noCopy short).1
    · obtain ⟨instr, q, n, present, marked, distance, aliased⟩ := short
      obtain ⟨m, aliased⟩ := propagateInstr_aliasAt visited noCopy aliased
      have kept := propagateInstr_away visited same
      exact ⟨instr, q, m, by rw [kept, present], marked, distance.mono more, aliased⟩
  · by_cases same : r = v
    · subst same
      exact (propagateInstr_collapses visited noCopy (propagating.short r s element)).2
    · have before : r ∈ front := by
        rw [List.mem_append, List.mem_singleton] at inside
        exact inside.resolve_right same
      obtain ⟨instr, q, n, present, marked, distance, aliased, stop⟩ :=
        propagating.collapsed r s element before
      obtain ⟨m, aliased⟩ := propagateInstr_aliasAt visited noCopy aliased
      have kept := propagateInstr_away visited same
      exact ⟨instr, q, m, by rw [kept, present], marked, distance.mono more, aliased,
        (propagateInstr_copied? visited q).mpr stop⟩

/-- The propagation collapses every short element. -/
theorem valuePropagation_collapses (noCopy : copied? start base = none)
    (ran : valuePropagation start = some next) {r : Ref} {s : BitVec 16}
    (short : Short start base r s) (listed : r ∈ start.refs) : Collapsed next base r s := by
  have propagated : Propagating start base start.refs next := by
    apply forEachInstr_prefix (Propagating start base) keepsOrder_propagateInstr ?_ ?_ ran
    · intro front r back cur next _ propagating visited
      exact propagating.step visited
    · exact ⟨noCopy, fun _ _ short => short, fun _ _ _ inside => absurd inside List.not_mem_nil⟩
  exact propagated.collapsed r s short listed

end Propagating

/-- So many turns of the optimizer as far as stack pointers go. -/
def turns : Nat → IR → Option IR
  | 0, ir => some ir
  | n + 1, ir => do accumulateAndPropagate (← turns n ir)

section Turns

variable {ir next : IR}

/-- The values of one function are values of another. -/
structure Preserves (ir next : IR) : Prop where
  formed : WellFormed next
  holds : ∀ env, Holds ir env → Holds next env

theorem Preserves.trans {third : IR} (first : Preserves ir next) (second : Preserves next third) :
    Preserves ir third where
  formed := second.formed
  holds env holds := second.holds env (first.holds env holds)

/-- Visits that keep functions well formed and their equations true make up a pass that does. -/
theorem forEachInstr_preserves {visit : IR → Ref → Option IR} (order : KeepsOrder visit)
    (keeps : ∀ cur r next, visit cur r = some next → WellFormed cur → Preserves cur next)
    (runs : ∀ cur r instr, WellFormed cur → cur.instr? r = some instr → ∃ next, visit cur r = some next)
    (formed : WellFormed ir) : ∃ next, forEachInstr visit ir = some next ∧ SameOrder ir next ∧
      Preserves ir next := by
  have total : ∃ next, forEachInstr visit ir = some next := by
    apply forEachInstr_isSome (fun cur => SameOrder ir cur ∧ WellFormed cur) order ?_ ⟨.refl ir, formed⟩
    rintro cur r listed ⟨same, curFormed⟩
    rw [← same.refs] at listed
    obtain ⟨instr, present⟩ := mem_refs_instr? listed
    obtain ⟨next, visited⟩ := runs cur r instr curFormed present
    exact ⟨next, visited, same.trans (order cur r next visited), (keeps cur r next visited curFormed).formed⟩
  obtain ⟨next, ran⟩ := total
  refine ⟨next, ran, ?_, ?_⟩
  · rw [forEachInstr_eq order] at ran
    exact foldlM_sameOrder order ran
  · apply forEachInstr_keeps (Preserves ir) order ?_ ⟨formed, fun _ holds => holds⟩ ran
    intro cur r next _ preserved visited
    exact preserved.trans (keeps cur r next visited preserved.formed)

theorem stackPtrAccumulation_preserves (formed : WellFormed ir) :
    ∃ next, stackPtrAccumulation ir = some next ∧ SameOrder ir next ∧ Preserves ir next := by
  apply forEachInstr_preserves keepsOrder_accumulateInstr ?_ ?_ formed
  · intro cur r next visited curFormed
    obtain ⟨nextFormed, holds⟩ := accumulateInstr_keeps visited curFormed
    exact ⟨nextFormed, holds⟩
  · exact fun cur r _ _ _ => accumulateInstr_isSome cur r

theorem valuePropagation_preserves (formed : WellFormed ir) :
    ∃ next, valuePropagation ir = some next ∧ SameOrder ir next ∧ Preserves ir next := by
  apply forEachInstr_preserves keepsOrder_propagateInstr ?_ ?_ formed
  · intro cur r next visited curFormed
    obtain ⟨nextFormed, holds⟩ := propagateInstr_keeps visited curFormed
    exact ⟨nextFormed, holds⟩
  · exact fun _ _ _ curFormed present => propagateInstr_isSome curFormed.filled present

/-- One turn keeps every value and collapses every chain. -/
theorem accumulateAndPropagate_spec (formed : WellFormed ir) :
    ∃ next, accumulateAndPropagate ir = some next ∧ Preserves ir next ∧
      ∀ base r s, IsBase ir base → Chain ir base r s → Collapsed next base r s := by
  obtain ⟨middle, accumulated, order, first⟩ := stackPtrAccumulation_preserves formed
  obtain ⟨next, propagated, _, second⟩ := valuePropagation_preserves first.formed
  refine ⟨next, ?_, first.trans second, fun base r s isBase chain => ?_⟩
  · rw [accumulateAndPropagate, accumulated]
    exact propagated
  · obtain ⟨unchanged, short⟩ := stackPtrAccumulation_short formed isBase accumulated
    apply valuePropagation_collapses ?_ propagated (short r s chain) (order.refs ▸ chain.listed)
    rw [copied?, unchanged]
    exact isBase.noCopy

theorem turns_preserves (formed : WellFormed ir) (n : Nat) :
    ∃ next, turns n ir = some next ∧ Preserves ir next := by
  induction n with
  | zero => exact ⟨ir, rfl, formed, fun _ holds => holds⟩
  | succ n hypothesis =>
      obtain ⟨middle, before, first⟩ := hypothesis
      obtain ⟨next, turn, second, _⟩ := accumulateAndPropagate_spec first.formed
      refine ⟨next, ?_, first.trans second⟩
      rw [turns, before]
      exact turn

/-- Copies have the value of their base. -/
theorem Holds.aliasAt {env : Ref → BitVec 16} (holds : Holds ir env) {base r : Ref} {n : Nat}
    (aliased : AliasAt ir base n r) : valueOf ir env r = valueOf ir env base := by
  induction n generalizing r with
  | zero => rw [aliased]
  | succ n hypothesis =>
      obtain ⟨s, ⟨instr, present, isRef, operand⟩, rest⟩ := aliased
      rw [← hypothesis rest, valueOf_instr present]
      have equation := holds r instr present
      cases list : instr.operands with
      | nil => simp [list] at operand
      | cons first others =>
          simp only [list, List.getElem?_cons_zero, Option.some.injEq] at operand
          subst operand
          simpa only [Equation, isRef, list] using equation

theorem Chain.value {env : Ref → BitVec 16} {base r : Ref} {s : BitVec 16}
    (chain : Chain ir base r s) (holds : Holds ir env) :
    valueOf ir env r = valueOf ir env base + s := by
  induction chain with
  | first _ oper => exact holds.oper oper
  | link _ oper _ hypothesis => rw [holds.oper oper, hypothesis, BitVec.add_assoc]

theorem Collapsed.value {env : Ref → BitVec 16} {base r : Ref} {s : BitVec 16}
    (collapsed : Collapsed ir base r s) (holds : Holds ir env) :
    valueOf ir env r = valueOf ir env base + s := by
  obtain ⟨instr, q, n, present, marked, distance, aliased, _⟩ := collapsed
  rw [valueOf_instr present, (distance.value marked).mp (holds r instr present), holds.aliasAt aliased]

/-- After any number of turns, the values of the function are unchanged modulo 2^16. The last turn
has left every element of a chain one constant away from the base, at the distance it had. -/
theorem stackPtrAccumulation_exact (ir : IR) (formed : WellFormed ir) (n : Nat) :
    ∃ before next, turns n ir = some before ∧ accumulateAndPropagate before = some next ∧
      (∀ env, Holds ir env → Holds next env) ∧
      ∀ base r s, IsBase before base → Chain before base r s → Collapsed next base r s ∧
        (∀ env, Holds before env → valueOf before env r = valueOf before env base + s) ∧
          ∀ env, Holds next env → valueOf next env r = valueOf next env base + s := by
  obtain ⟨before, turned, first⟩ := turns_preserves formed n
  obtain ⟨next, turn, second, collapses⟩ := accumulateAndPropagate_spec first.formed
  refine ⟨before, next, turned, turn, (first.trans second).holds, fun base r s isBase chain => ?_⟩
  have collapsed := collapses base r s isBase chain
  exact ⟨collapsed, fun _ holds => chain.value holds, fun _ holds => collapsed.value holds⟩

theorem wellFormed_of_allInstrs (checked : ∀ r ∈ ir.allInstrs, ∀ instr ∈ ir.instr? r,
    (instr.opcode = .ref → instr.operands ≠ []) ∧
      ∀ x ∈ instr.operands, (x matches .const _) = true → (ir.constLookup x).isSome = true) :
    WellFormed ir where
  filled r instr present := (checked r (mem_allInstrs present) instr present).1
  known r instr present _ inside := Option.isSome_iff_exists.mp
    ((checked r (mem_allInstrs present) instr present).2 _ inside rfl)

/-- An addition to a stack pointer. -/
def stackAdd (n : Ref) (c : Nat) : Instr := ⟨.u16, none, Attribute.STACK_PTR, .add, [n, .const c]⟩

def stackBlock (instrs : List Instr) (order : List Nat) (bounded : ∀ idx ∈ order, idx < instrs.length)
    (distinct : order.Nodup) : Option Block :=
  some ⟨"block", fun _ => none, [], ⟨instrs, order, bounded, distinct⟩, true, []⟩

/-- Three stack pointers over the initial one: the sums wrap, and the first two cancel. -/
def straightStack : IR :=
  { IR.new with
    consts := [0x8000, 3]
    blocks := [stackBlock [stackAdd (.init .SP) 0, stackAdd (.instr 0 0) 0, stackAdd (.instr 0 1) 1]
      [0, 1, 2] (by decide) distinct_three] }

theorem straightStack_collapses :
    ∃ next, accumulateAndPropagate straightStack = some next ∧ Collapsed next (.init .SP) (.instr 0 2) 3 := by
  have formed : WellFormed straightStack := wellFormed_of_allInstrs (by decide)
  obtain ⟨before, next, turned, turn, _, collapses⟩ := stackPtrAccumulation_exact straightStack formed 0
  obtain rfl := Option.some.inj turned
  refine ⟨next, turn, (collapses (.init .SP) (.instr 0 2) 3 ⟨rfl, rfl⟩ ?_).1⟩
  have first : Chain straightStack (.init .SP) (.instr 0 0) 0x8000 := .first (by decide) rfl
  have second := first.link (r := .instr 0 1) (k := 0x8000) rfl ⟨[.instr 0 0], [.instr 0 2], by decide, by decide⟩
  exact second.link (r := .instr 0 2) (k := 3) rfl ⟨[.instr 0 0, .instr 0 1], [], by decide, by decide⟩

/-- A chain whose elements may be visited in any order. -/
inductive AnyChain (ir : IR) (base : Ref) : Ref → BitVec 16 → Prop where
  | first {r : Ref} {k : BitVec 16} (listed : r ∈ ir.refs)
      (oper : stackPtrConstOper ir r = some (base, k)) : AnyChain ir base r k
  | link {p r : Ref} {s k : BitVec 16} (below : AnyChain ir base p s) (listed : r ∈ ir.refs)
      (oper : stackPtrConstOper ir r = some (p, k)) : AnyChain ir base r (s + k)

/-- The entry continues in the last block, and that block continues in the middle one. -/
def backwardStack : IR :=
  { IR.new with
    consts := [2]
    blocks := [
      stackBlock [stackAdd (.init .SP) 0, ⟨.void, none, Attribute.NONE, .jmp, [.block 2]⟩] [0, 1]
        (by decide) distinct_two,
      stackBlock [stackAdd (.instr 2 1) 0, ⟨.void, none, Attribute.NONE, .retNear, []⟩] [0, 1]
        (by decide) distinct_two,
      stackBlock [stackAdd (.instr 0 0) 0, stackAdd (.instr 2 0) 0,
        ⟨.void, none, Attribute.NONE, .jmp, [.block 1]⟩] [0, 1, 2] (by decide) distinct_three] }

/-- The element of the middle block is visited before those it stands on, and it stays two
constants away from the base. -/
theorem backwardStack_keeps_link : ¬ ∃ next, accumulateAndPropagate backwardStack = some next ∧
    ∀ base r s, IsBase backwardStack base → AnyChain backwardStack base r s → Collapsed next base r s := by
  rintro ⟨next, turn, collapses⟩
  have first : AnyChain backwardStack (.init .SP) (.instr 0 0) 2 := .first (by decide) rfl
  have second := first.link (r := .instr 2 0) (k := 2) (by decide) rfl
  have third := second.link (r := .instr 2 1) (k := 2) (by decide) rfl
  have fourth := third.link (r := .instr 1 0) (k := 2) (by decide) rfl
  obtain ⟨instr, q, n, present, _, distance, aliased, _⟩ := collapses _ _ _ ⟨rfl, rfl⟩ fourth
  have element : (accumulateAndPropagate backwardStack).bind (fun next => next.instr? (.instr 1 0)) =
      some (stackAdd (.instr 2 0) 1) := by decide +kernel
  have below : (accumulateAndPropagate backwardStack).bind (fun next => next.instr? (.instr 2 0)) =
      some (stackAdd (.init .SP) 1) := by decide +kernel
  rw [turn, Option.bind_some] at element below
  obtain rfl := Option.some.inj (element.symm.trans present)
  obtain rfl := Option.some.inj distance.head
  cases n with
  | zero => cases aliased
  | succ n =>
      obtain ⟨_, ⟨copy, isCopy, isRef, _⟩, _⟩ := aliased
      obtain rfl := Option.some.inj (below.symm.trans isCopy)
      cases isRef

end Turns

end Dis86.Opt
