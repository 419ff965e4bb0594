import Dis86.Opt.Propagation

namespace Dis86.Opt
open IR Lib

/-- A stack pointer that lies a constant away from another value. The arithmetic wraps. -/
def stackPtrConstOper (ir : IR) (r : Ref) : Option (Ref × BitVec 16) := do
  let instr ← ir.instr? r
  match instr.operands with
  | [n, .const c] =>
      if instr.attrs &&& Attribute.STACK_PTR = 0 then none
      else match instr.opcode with
        | .add => (ir.constLookup (.const c)).map fun k => (n, k)
        | .sub => (ir.constLookup (.const c)).map fun k => (n, -k)
        | _ => none
  | _ => none

/-- The sum is added if it is positive and subtracted if it is negative; without it, the value is a
copy. -/
def writeSum (ir : IR) (r n : Ref) (k : BitVec 16) : IR :=
  if 0 < k.toInt then
    let (c, ir) := ir.constNew k
    ir.modifyInstr r fun instr => { instr with opcode := .add, operands := [n, c] }
  else if k.toInt < 0 then
    let (c, ir) := ir.constNew (-k)
    ir.modifyInstr r fun instr => { instr with opcode := .sub, operands := [n, c] }
  else
    ir.modifyInstr r fun instr => { instr with opcode := .ref, operands := [n] }

/-- An offset from an offset becomes one offset. -/
def accumulateInstr (ir : IR) (r : Ref) : Option IR :=
  match stackPtrConstOper ir r with
  | none => some ir
  | some (p, a) =>
      match stackPtrConstOper ir p with
      | none => some ir
      | some (n, b) => some (writeSum ir r n (a + b))

def stackPtrAccumulation (ir : IR) : Option IR := forEachInstr accumulateInstr ir

/-- The two passes as one part of a turn of the optimizer. -/
def accumulateAndPropagate (ir : IR) : Option IR := do valuePropagation (← stackPtrAccumulation ir)

/-- The constants of all operands are in the table, and every copy has an operand. -/
structure WellFormed (ir : IR) : Prop where
  filled : CopiesFilled ir
  known : ∀ r instr, ir.instr? r = some instr → ∀ idx, .const idx ∈ instr.operands →
    ∃ k, ir.constLookup (.const idx) = some k

/-- The values modulo 2^16 that an execution has, with the constants from the table. -/
def valueOf (ir : IR) (env : Ref → BitVec 16) (r : Ref) : BitVec 16 := (ir.constLookup r).getD (env r)

/-- What the value of a copy or of a stack pointer has to be. -/
def Equation (ir : IR) (env : Ref → BitVec 16) (r : Ref) (instr : Instr) : Prop :=
  match instr.opcode, instr.operands with
  | .ref, x :: _ => env r = valueOf ir env x
  | .add, [x, y] => instr.attrs &&& Attribute.STACK_PTR ≠ 0 → env r = valueOf ir env x + valueOf ir env y
  | .sub, [x, y] => instr.attrs &&& Attribute.STACK_PTR ≠ 0 → env r = valueOf ir env x - valueOf ir env y
  | _, _ => True

/-- The values satisfy the equations of all copies and stack pointers. -/
def Holds (ir : IR) (env : Ref → BitVec 16) : Prop :=
  ∀ r instr, ir.instr? r = some instr → Equation ir env r instr

section Values

variable {ir next : IR} {env : Ref → BitVec 16}

theorem valueOf_instr {r : Ref} {instr : Instr} (present : ir.instr? r = some instr) :
    valueOf ir env r = env r := by
  cases r with
  | const => cases present
  | _ => rfl

theorem valueOf_mono (more : MoreConsts ir next) {x : Ref}
    (known : ∀ idx, x = .const idx → ∃ k, ir.constLookup (.const idx) = some k) :
    valueOf next env x = valueOf ir env x := by
  cases x with
  | const idx =>
      obtain ⟨k, isKnown⟩ := known idx rfl
      rw [valueOf, more _ k isKnown, valueOf, isKnown]
  | _ => rfl

theorem Equation.mono (more : MoreConsts ir next) {r : Ref} {instr : Instr}
    (known : ∀ idx, .const idx ∈ instr.operands → ∃ k, ir.constLookup (.const idx) = some k)
    (holds : Equation ir env r instr) : Equation next env r instr := by
  have same : ∀ x ∈ instr.operands, valueOf next env x = valueOf ir env x := by
    intro x inside
    apply valueOf_mono more
    rintro idx rfl
    exact known idx inside
  unfold Equation at holds ⊢
  split
  · rename_i x rest isRef operands
    simp only [isRef, operands] at holds
    rw [same x (by simp [operands])]
    exact holds
  · rename_i x y isAdd operands
    simp only [isAdd, operands] at holds
    rw [same x (by simp [operands]), same y (by simp [operands])]
    exact holds
  · rename_i x y isSub operands
    simp only [isSub, operands] at holds
    rw [same x (by simp [operands]), same y (by simp [operands])]
    exact holds
  · trivial

/-- A copy has the value of what it copies. -/
theorem Holds.copyStep (holds : Holds ir env) {r s : Ref} (step : CopyStep ir r s) :
    valueOf ir env r = valueOf ir env s := by
  obtain ⟨instr, isCopy, operand⟩ := step
  obtain ⟨present, isRef, _⟩ := copied?_instr isCopy
  obtain ⟨rest, isCons⟩ : ∃ rest, instr.operands = s :: rest := by
    cases list : instr.operands with
    | nil => simp [list] at operand
    | cons first rest =>
        simp only [list, List.getElem?_cons_zero, Option.some.injEq] at operand
        exact ⟨rest, by rw [operand]⟩
  have equation := holds r instr present
  simp only [Equation, isRef, isCons] at equation
  rw [valueOf_instr present, equation]

theorem Holds.copies (holds : Holds ir env) {r s : Ref}
    (path : Relation.ReflTransGen (CopyStep ir) r s) : valueOf ir env r = valueOf ir env s := by
  induction path with
  | refl => rfl
  | tail _ step hypothesis => rw [hypothesis, holds.copyStep step]

end Values

/-- An instruction is another value plus or minus one constant, or that value itself. -/
inductive Distance (ir : IR) (instr : Instr) (n : Ref) : BitVec 16 → Prop where
  | plus {c : Ref} {k : BitVec 16} (opcode : instr.opcode = .add) (operands : instr.operands = [n, c])
      (value : ir.constLookup c = some k) : Distance ir instr n k
  | minus {c : Ref} {k : BitVec 16} (opcode : instr.opcode = .sub) (operands : instr.operands = [n, c])
      (value : ir.constLookup c = some k) : Distance ir instr n (-k)
  | same (opcode : instr.opcode = .ref) (operands : instr.operands = [n]) : Distance ir instr n 0

section Sums

variable {ir next : IR} {env : Ref → BitVec 16}

theorem stackPtrConstOper_eq {r n : Ref} {k : BitVec 16}
    (isOper : stackPtrConstOper ir r = some (n, k)) :
    ∃ instr, ir.instr? r = some instr ∧ instr.attrs &&& Attribute.STACK_PTR ≠ 0 ∧
      instr.opcode ≠ .ref ∧ Distance ir instr n k := by
  unfold stackPtrConstOper at isOper
  obtain ⟨instr, present, rest⟩ := Option.bind_eq_some_iff.mp isOper
  split at rest
  · rename_i m c operands
    split at rest
    · cases rest
    · rename_i marked
      split at rest
      · rename_i isAdd
        obtain ⟨value, known, same⟩ := Option.map_eq_some_iff.mp rest
        cases same
        exact ⟨instr, present, marked, by simp [isAdd], .plus isAdd operands known⟩
      · rename_i isSub
        obtain ⟨value, known, same⟩ := Option.map_eq_some_iff.mp rest
        cases same
        exact ⟨instr, present, marked, by simp [isSub], .minus isSub operands known⟩
      · cases rest
  · cases rest

/-- An instruction at a distance has the value at that distance. -/
theorem Distance.value {r n : Ref} {instr : Instr} {k : BitVec 16}
    (distance : Distance ir instr n k) (marked : instr.attrs &&& Attribute.STACK_PTR ≠ 0) :
    Equation ir env r instr ↔ env r = valueOf ir env n + k := by
  cases distance with
  | plus opcode operands value =>
      have constant : ∀ {c : Ref} {k : BitVec 16}, ir.constLookup c = some k →
          valueOf ir env c = k := by
        intro c k known
        rw [valueOf, known, Option.getD_some]
      simp only [Equation, opcode, operands, constant value]
      exact ⟨fun equation => equation marked, fun equation _ => equation⟩
  | @minus c k opcode operands value =>
      have constant : valueOf ir env c = k := by rw [valueOf, value, Option.getD_some]
      simp only [Equation, opcode, operands, constant, BitVec.sub_eq_add_neg]
      exact ⟨fun equation => equation marked, fun equation _ => equation⟩
  | same opcode operands =>
      have zero : valueOf ir env n + 0 = valueOf ir env n := by simp
      simp only [Equation, opcode, operands, zero]

theorem Holds.oper (holds : Holds ir env) {r n : Ref} {k : BitVec 16}
    (isOper : stackPtrConstOper ir r = some (n, k)) : valueOf ir env r = valueOf ir env n + k := by
  obtain ⟨instr, present, marked, _, distance⟩ := stackPtrConstOper_eq isOper
  rw [valueOf_instr present]
  exact (distance.value marked).mp (holds r instr present)

/-- What a rewritten sum is, and that nothing else changes. -/
structure Rewritten (ir next : IR) (r : Ref) (instr : Instr) (n : Ref) (k : BitVec 16) : Prop where
  order : SameOrder ir next
  more : MoreConsts ir next
  others : ∀ s, s ≠ r → next.instr? s = ir.instr? s
  here : ∃ instr', next.instr? r = some instr' ∧ instr'.attrs = instr.attrs ∧ Distance next instr' n k

theorem rewritten_constNew {r n : Ref} {instr : Instr} {k : BitVec 16} (k' : BitVec 16)
    (f : Instr → Instr) (present : ir.instr? r = some instr) (kept : (f instr).attrs = instr.attrs)
    (distance : ∀ next : IR, next.constLookup (ir.constNew k').1 = some k' →
      Distance next (f instr) n k) :
    Rewritten ir ((ir.constNew k').2.modifyInstr r f) r instr n k where
  order := (SameOrder.constNew ir k').trans (.modifyInstr _ r f)
  more s value known := by
    rw [constLookup_modifyInstr]
    exact moreConsts_constNew ir k' s value known
  others s away := by rw [instr?_modifyInstr, if_neg away, instr?_constNew]
  here := by
    refine ⟨f instr, ?_, kept, distance _ ?_⟩
    · rw [instr?_modifyInstr, if_pos rfl, instr?_constNew, present, Option.map_some]
    · rw [constLookup_modifyInstr, constLookup_constNew]

theorem writeSum_rewritten {r : Ref} {instr : Instr} (present : ir.instr? r = some instr) (n : Ref)
    (k : BitVec 16) : Rewritten ir (writeSum ir r n k) r instr n k := by
  unfold writeSum
  split
  · exact rewritten_constNew k _ present rfl fun next known => .plus rfl rfl known
  · split
    · apply rewritten_constNew (-k) _ present rfl
      intro next known
      have minus : Distance next { instr with opcode := .sub, operands := [n, (ir.constNew (-k)).1] } n
          (- -k) := .minus rfl rfl known
      rw [BitVec.neg_neg] at minus
      exact minus
    · rename_i notPositive notNegative
      have zero : k = 0 := by
        apply BitVec.eq_of_toInt_eq
        rw [show (0 : BitVec 16).toInt = 0 from rfl]
        omega
      subst zero
      constructor
      · exact .modifyInstr ir r _
      · intro s value known
        rw [constLookup_modifyInstr]
        exact known
      · intro s away
        rw [instr?_modifyInstr, if_neg away]
      · refine ⟨{ instr with opcode := .ref, operands := [n] }, ?_, rfl, .same rfl rfl⟩
        rw [instr?_modifyInstr, if_pos rfl, present, Option.map_some]

end Sums

section Steps

variable {ir next : IR} {env : Ref → BitVec 16} {r : Ref}

/-- A visit of the accumulation does nothing, or it joins two offsets. -/
theorem accumulateInstr_cases (visited : accumulateInstr ir r = some next) :
    next = ir ∧ (∀ p a, stackPtrConstOper ir r = some (p, a) → stackPtrConstOper ir p = none) ∨
      ∃ instr p a n b, ir.instr? r = some instr ∧ stackPtrConstOper ir r = some (p, a) ∧
        stackPtrConstOper ir p = some (n, b) ∧ Rewritten ir next r instr n (a + b) := by
  unfold accumulateInstr at visited
  split at visited
  · rename_i noOper
    refine .inl ⟨(Option.some.inj visited).symm, fun p a isOper => ?_⟩
    rw [noOper] at isOper
    cases isOper
  · rename_i p a isOper
    split at visited
    · rename_i noOper
      refine .inl ⟨(Option.some.inj visited).symm, fun q b isOther => ?_⟩
      rw [isOper] at isOther
      cases isOther
      exact noOper
    · rename_i n b isBelow
      obtain rfl := Option.some.inj visited
      obtain ⟨instr, present, _, _, _⟩ := stackPtrConstOper_eq isOper
      exact .inr ⟨instr, p, a, n, b, present, isOper, isBelow, writeSum_rewritten present n (a + b)⟩

theorem keepsOrder_accumulateInstr : KeepsOrder accumulateInstr := by
  intro ir r next visited
  rcases accumulateInstr_cases visited with ⟨rfl, _⟩ | ⟨_, _, _, _, _, _, _, _, rewritten⟩
  · exact .refl _
  · exact rewritten.order

theorem accumulateInstr_isSome (ir : IR) (r : Ref) : ∃ next, accumulateInstr ir r = some next := by
  unfold accumulateInstr
  split
  · exact ⟨_, rfl⟩
  · split <;> exact ⟨_, rfl⟩

theorem Distance.head {instr : Instr} {n : Ref} {k : BitVec 16} (distance : Distance ir instr n k) :
    instr.operands.head? = some n := by
  cases distance with
  | plus _ operands _ | minus _ operands _ | same _ operands => rw [operands, List.head?_cons]

theorem Distance.operand {instr : Instr} {n : Ref} {k : BitVec 16} (distance : Distance ir instr n k) :
    n ∈ instr.operands := List.mem_of_head? distance.head

/-- The operands of an instruction at a distance are the other value and a known constant. -/
theorem Distance.known {instr : Instr} {n : Ref} {k : BitVec 16} (distance : Distance ir instr n k)
    {x : Ref} (inside : x ∈ instr.operands) : x = n ∨ ∃ value, ir.constLookup x = some value := by
  cases distance with
  | plus _ operands value | minus _ operands value =>
      rw [operands, List.mem_pair] at inside
      rcases inside with rfl | rfl
      · exact .inl rfl
      · exact .inr ⟨_, value⟩
  | same _ operands =>
      rw [operands, List.mem_singleton] at inside
      exact .inl inside

theorem Rewritten.wellFormed {instr : Instr} {n : Ref} {k : BitVec 16}
    (rewritten : Rewritten ir next r instr n k) (formed : WellFormed ir)
    (known : ∀ idx, n = .const idx → ∃ value, ir.constLookup (.const idx) = some value) :
    WellFormed next := by
  obtain ⟨instr', here, _, distance⟩ := rewritten.here
  constructor
  · intro s other found isRef
    by_cases same : s = r
    · subst same
      obtain rfl := Option.some.inj (here.symm.trans found)
      exact List.ne_nil_of_mem distance.operand
    · rw [rewritten.others s same] at found
      exact formed.filled s other found isRef
  · intro s other found idx inside
    by_cases same : s = r
    · subst same
      obtain rfl := Option.some.inj (here.symm.trans found)
      rcases distance.known inside with isN | isKnown
      · obtain ⟨value, isValue⟩ := known idx isN.symm
        exact ⟨value, rewritten.more _ value isValue⟩
      · exact isKnown
    · rw [rewritten.others s same] at found
      obtain ⟨value, isValue⟩ := formed.known s other found idx inside
      exact ⟨value, rewritten.more _ value isValue⟩

theorem Rewritten.holds {instr : Instr} {n : Ref} {k : BitVec 16}
    (rewritten : Rewritten ir next r instr n k) (formed : WellFormed ir)
    (marked : instr.attrs &&& Attribute.STACK_PTR ≠ 0)
    (value : env r = valueOf next env n + k) (holds : Holds ir env) : Holds next env := by
  intro s other found
  by_cases same : s = r
  · subst same
    obtain ⟨instr', here, attrs, distance⟩ := rewritten.here
    obtain rfl := Option.some.inj (here.symm.trans found)
    exact (distance.value (attrs ▸ marked)).mpr value
  · rw [rewritten.others s same] at found
    exact (holds s other found).mono rewritten.more (formed.known s other found)

/-- A visit of the accumulation keeps the function well formed and every equation true. -/
theorem accumulateInstr_keeps (visited : accumulateInstr ir r = some next) (formed : WellFormed ir) :
    WellFormed next ∧ ∀ env, Holds ir env → Holds next env := by
  rcases accumulateInstr_cases visited with
    ⟨rfl, _⟩ | ⟨instr, p, a, n, b, present, isOper, isBelow, rewritten⟩
  · exact ⟨formed, fun _ holds => holds⟩
  · obtain ⟨below, belowPresent, _, _, belowDistance⟩ := stackPtrConstOper_eq isBelow
    obtain ⟨other, otherPresent, marked, _, _⟩ := stackPtrConstOper_eq isOper
    obtain rfl := Option.some.inj (present.symm.trans otherPresent)
    have known : ∀ idx, n = .const idx → ∃ value, ir.constLookup (.const idx) = some value := by
      rintro idx rfl
      exact formed.known p below belowPresent idx belowDistance.operand
    refine ⟨rewritten.wellFormed formed known, fun env holds => ?_⟩
    refine rewritten.holds formed marked ?_ holds
    have value := holds.oper isOper
    rw [valueOf_instr present, holds.oper isBelow] at value
    rw [valueOf_mono rewritten.more known, value, BitVec.add_assoc, BitVec.add_comm b a]

/-- Operands of the same values leave an equation as it is. -/
theorem Equation.congr {instr : Instr} {operands : List Ref} (holds : Equation ir env r instr)
    (same : List.Forall₂ (fun x y => valueOf ir env x = valueOf ir env y) instr.operands operands) :
    Equation ir env r { instr with operands } := by
  unfold Equation at holds ⊢
  split
  · rename_i y rest isRef isCons
    simp only at isRef isCons
    subst isCons
    obtain ⟨x, others, first, _, list⟩ := List.forall₂_cons_right_iff.mp same
    simp only [isRef, list] at holds
    rw [← first]
    exact holds
  · rename_i x' y' isAdd isPair
    simp only at isAdd isPair
    subst isPair
    obtain ⟨x, others, first, rest, list⟩ := List.forall₂_cons_right_iff.mp same
    obtain ⟨y, _, second, nothing, tail⟩ := List.forall₂_cons_right_iff.mp rest
    obtain rfl := List.forall₂_nil_right_iff.mp nothing
    simp only [isAdd, list, tail] at holds
    rw [← first, ← second]
    exact holds
  · rename_i x' y' isSub isPair
    simp only at isSub isPair
    subst isPair
    obtain ⟨x, others, first, rest, list⟩ := List.forall₂_cons_right_iff.mp same
    obtain ⟨y, _, second, nothing, tail⟩ := List.forall₂_cons_right_iff.mp rest
    obtain rfl := List.forall₂_nil_right_iff.mp nothing
    simp only [isSub, list, tail] at holds
    rw [← first, ← second]
    exact holds
  · trivial

/-- A constant behind copies is in the table. -/
theorem WellFormed.known_of_copies (formed : WellFormed ir) {x : Ref} {idx : Nat}
    (path : Relation.ReflTransGen (CopyStep ir) x (.const idx))
    (known : x = .const idx → ∃ k, ir.constLookup (.const idx) = some k) :
    ∃ k, ir.constLookup (.const idx) = some k := by
  rcases Relation.ReflTransGen.cases_tail path with same | ⟨y, _, instr, isCopy, operand⟩
  · exact known same.symm
  · exact formed.known y instr (copied?_instr isCopy).1 idx (List.mem_of_getElem? operand)

/-- A visit of the propagation keeps the function well formed and every equation true. -/
theorem propagateInstr_keeps (visited : propagateInstr ir r = some next) (formed : WellFormed ir) :
    WellFormed next ∧ ∀ env, Holds ir env → Holds next env := by
  have filled := propagateInstr_filled visited formed.filled
  obtain ⟨instr, operands, present, propagated, rfl⟩ := propagateInstr_eq visited
  have constants : ∀ s, (ir.modifyInstr r fun instr => { instr with operands }).constLookup s =
      ir.constLookup s := fun s => constLookup_modifyInstr ir r s _
  have more : MoreConsts ir (ir.modifyInstr r fun instr => { instr with operands }) :=
    fun s k known => by rw [constants, known]
  have known : ∀ idx, .const idx ∈ operands → ∃ k, ir.constLookup (.const idx) = some k := by
    intro idx inside
    obtain ⟨x, old, became⟩ := exists_partner_right propagated inside
    apply formed.known_of_copies (operandPropagate_reaches became).1
    rintro rfl
    exact formed.known r instr present idx old
  constructor
  · refine ⟨filled, fun s other found idx inside => ?_⟩
    rw [constants]
    rw [instr?_modifyInstr] at found
    split at found
    · rw [present, Option.map_some, Option.some.injEq] at found
      subst found
      exact known idx inside
    · exact formed.known s other found idx inside
  · intro env holds s other found
    rw [instr?_modifyInstr] at found
    split at found
    · subst s
      rw [present, Option.map_some, Option.some.injEq] at found
      subst found
      apply Equation.mono more known
      apply (holds r instr present).congr
      exact propagated.imp fun x y became => holds.copies (operandPropagate_reaches became).1
    · exact (holds s other found).mono more (formed.known s other found)

end Steps

end Dis86.Opt
