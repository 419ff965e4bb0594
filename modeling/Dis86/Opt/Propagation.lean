import Dis86.Lib.Lists
import Dis86.IR.Flow
import Dis86.Opt.Sweep
import Mathlib.Data.List.Lattice

namespace Dis86.Opt
open IR Lib

/-- The reference behind a copy. A copy with a mark is a snapshot, or belongs to a call, and has to
stay. -/
def copied? (ir : IR) (r : Ref) : Option Instr :=
  (ir.instr? r).filter fun instr =>
    instr.opcode = .ref && instr.attrs &&& (Attribute.MATERIALISE ||| Attribute.CALL_CONTRACT) == 0

/-- The walk through copies stops at a reference that it has seen. A copy without an operand has no
result. -/
def propagateLoop (ir : IR) : Nat → List Ref → Ref → Option Ref
  | 0, _, _ => none
  | fuel + 1, seen, r =>
      match copied? ir r with
      | none => some r
      | some instr =>
          if r ∈ seen then some r
          else do propagateLoop ir fuel (r :: seen) (← instr.operands[0]?)

def operandPropagate (ir : IR) (r : Ref) : Option Ref :=
  propagateLoop ir (ir.allInstrs.length + 1) [] r

def propagateInstr (ir : IR) (r : Ref) : Option IR := do
  let instr ← ir.instr? r
  let operands ← instr.operands.mapM (operandPropagate ir)
  return ir.modifyInstr r fun instr => { instr with operands }

def valuePropagation (ir : IR) : Option IR := forEachInstr propagateInstr ir

/-- One step through a copy that does not have to stay. -/
def CopyStep (ir : IR) (r s : Ref) : Prop :=
  ∃ instr, copied? ir r = some instr ∧ instr.operands[0]? = some s

/-- Every copy has an operand. -/
def CopiesFilled (ir : IR) : Prop :=
  ∀ r instr, ir.instr? r = some instr → instr.opcode = .ref → instr.operands ≠ []

section Walk

variable {ir : IR}

theorem copied?_instr {r : Ref} {instr : Instr} (isCopy : copied? ir r = some instr) :
    ir.instr? r = some instr ∧ instr.opcode = .ref ∧
      instr.attrs &&& (Attribute.MATERIALISE ||| Attribute.CALL_CONTRACT) = 0 := by
  obtain ⟨present, kind⟩ := Option.filter_eq_some_iff.mp isCopy
  simp only [Bool.and_eq_true, decide_eq_true_eq, beq_iff_eq] at kind
  exact ⟨present, kind⟩

/-- Each copy leads to one reference. -/
theorem CopyStep.unique {r s t : Ref} (first : CopyStep ir r s) (second : CopyStep ir r t) : s = t := by
  obtain ⟨instr, isCopy, operand⟩ := first
  obtain ⟨other, isOther, otherOperand⟩ := second
  obtain rfl := Option.some.inj (isCopy.symm.trans isOther)
  exact Option.some.inj (operand.symm.trans otherOperand)

/-- The walk follows copies, and it ends at no copy or on a cycle of copies. -/
theorem propagateLoop_reaches {fuel : Nat} {seen : List Ref} {r last : Ref}
    (ended : propagateLoop ir fuel seen r = some last)
    (before : ∀ s ∈ seen, Relation.TransGen (CopyStep ir) s r) :
    Relation.ReflTransGen (CopyStep ir) r last ∧
      (copied? ir last = none ∨ Relation.TransGen (CopyStep ir) last last) := by
  induction fuel generalizing seen r with
  | zero => cases ended
  | succ fuel hypothesis =>
      simp only [propagateLoop] at ended
      split at ended
      · rename_i noCopy
        obtain rfl := Option.some.inj ended
        exact ⟨.refl, .inl noCopy⟩
      · rename_i instr isCopy
        split at ended
        · rename_i old
          obtain rfl := Option.some.inj ended
          exact ⟨.refl, .inr (before r old)⟩
        · obtain ⟨next, operand, rest⟩ := Option.bind_eq_some_iff.mp ended
          have step : CopyStep ir r next := ⟨instr, isCopy, operand⟩
          have later : ∀ s ∈ r :: seen, Relation.TransGen (CopyStep ir) s next := by
            intro s inside
            rcases List.mem_cons.mp inside with rfl | inside
            · exact .single step
            · exact (before s inside).tail step
          obtain ⟨path, stop⟩ := hypothesis rest later
          exact ⟨.head step path, stop⟩

theorem operandPropagate_reaches {r last : Ref} (ended : operandPropagate ir r = some last) :
    Relation.ReflTransGen (CopyStep ir) r last ∧
      (copied? ir last = none ∨ Relation.TransGen (CopyStep ir) last last) :=
  propagateLoop_reaches ended (by simp)

theorem propagateLoop_isSome (filled : CopiesFilled ir) {fuel : Nat} {seen : List Ref} (r : Ref)
    (distinct : seen.Nodup) (present : seen ⊆ ir.allInstrs)
    (enough : ir.allInstrs.length < fuel + seen.length) :
    ∃ last, propagateLoop ir fuel seen r = some last := by
  induction fuel generalizing seen r with
  | zero =>
      have short := (distinct.subperm present).length_le
      omega
  | succ fuel hypothesis =>
      simp only [propagateLoop]
      split
      · exact ⟨r, rfl⟩
      · rename_i instr isCopy
        split
        · exact ⟨r, rfl⟩
        · rename_i new
          obtain ⟨found, isRef, _⟩ := copied?_instr isCopy
          obtain ⟨next, rest, isCons⟩ := List.exists_cons_of_ne_nil (filled r instr found isRef)
          have listed : r :: seen ⊆ ir.allInstrs :=
            List.cons_subset.mpr ⟨mem_allInstrs found, present⟩
          obtain ⟨last, ended⟩ := hypothesis next (List.nodup_cons.mpr ⟨new, distinct⟩) listed
            (by rw [List.length_cons]; omega)
          exact ⟨last, by simp [isCons, ended]⟩

theorem operandPropagate_isSome (filled : CopiesFilled ir) (r : Ref) :
    ∃ last, operandPropagate ir r = some last :=
  propagateLoop_isSome filled r .nil (List.nil_subset _) (by simp)

/-- A reference that is no copy is its own value. -/
theorem operandPropagate_self {r : Ref} (noCopy : copied? ir r = none) :
    operandPropagate ir r = some r := by
  rw [operandPropagate, propagateLoop, noCopy]

end Walk

section Pass

variable {ir next : IR} {r : Ref}

/-- A visit replaces each operand by what it is a copy of. -/
theorem propagateInstr_eq (visited : propagateInstr ir r = some next) :
    ∃ instr operands, ir.instr? r = some instr ∧
      List.Forall₂ (fun x y => operandPropagate ir x = some y) instr.operands operands ∧
      next = ir.modifyInstr r fun instr => { instr with operands } := by
  unfold propagateInstr at visited
  obtain ⟨instr, present, rest⟩ := Option.bind_eq_some_iff.mp visited
  obtain ⟨operands, propagated, isNext⟩ := Option.bind_eq_some_iff.mp rest
  exact ⟨instr, operands, present, mapM_eq_some.mp propagated, (Option.some.inj isNext).symm⟩

theorem keepsOrder_propagateInstr : KeepsOrder propagateInstr := by
  intro ir r next visited
  obtain ⟨instr, operands, _, _, rfl⟩ := propagateInstr_eq visited
  exact .modifyInstr ir r _

theorem mapM_operandPropagate_isSome (filled : CopiesFilled ir) (operands : List Ref) :
    ∃ propagated, operands.mapM (operandPropagate ir) = some propagated := by
  induction operands with
  | nil => exact ⟨[], rfl⟩
  | cons x operands hypothesis =>
      obtain ⟨last, ended⟩ := operandPropagate_isSome filled x
      obtain ⟨rest, others⟩ := hypothesis
      exact ⟨last :: rest, by rw [List.mapM_cons, ended, others]; rfl⟩

theorem propagateInstr_isSome (filled : CopiesFilled ir) {instr : Instr}
    (present : ir.instr? r = some instr) : ∃ next, propagateInstr ir r = some next := by
  obtain ⟨operands, propagated⟩ := mapM_operandPropagate_isSome filled instr.operands
  exact ⟨_, by unfold propagateInstr; rw [present, Option.bind_eq_bind, Option.bind_some, propagated]; rfl⟩

theorem propagateInstr_filled (visited : propagateInstr ir r = some next) (filled : CopiesFilled ir) :
    CopiesFilled next := by
  obtain ⟨instr, operands, present, propagated, rfl⟩ := propagateInstr_eq visited
  intro s other found isRef
  rw [instr?_modifyInstr] at found
  split at found
  · rw [present, Option.map_some, Option.some.injEq] at found
    subst found
    have kept := filled r instr present isRef
    rw [← List.length_pos_iff] at kept ⊢
    rw [← propagated.length_eq]
    exact kept
  · exact filled s other found isRef

end Pass

end Dis86.Opt
