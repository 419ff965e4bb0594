import Mathlib.Data.List.Basic
import Mathlib.Tactic.Common

namespace Dis86.Lib

variable {S A : Type}

/-- One step of a run, with the states around it. -/
structure Turn (S A : Type) where
  before : S
  input : A
  after : S

/-- A run of a step function over a list of inputs. -/
inductive Trace (f : S → A → Option S) : S → List A → List (Turn S A) → S → Prop where
  | nil (s : S) : Trace f s [] [] s
  | cons {s mid after : S} {a : A} {rest : List A} {turns : List (Turn S A)}
      (step : f s a = some mid) (later : Trace f mid rest turns after) :
      Trace f s (a :: rest) (⟨s, a, mid⟩ :: turns) after

namespace Trace

variable {f : S → A → Option S} {s after : S} {inputs : List A} {turns : List (Turn S A)}

/-- A trace computes the fold. -/
theorem foldlM_eq (trace : Trace f s inputs turns after) : inputs.foldlM f s = some after := by
  induction trace with
  | nil s => rfl
  | cons step _ hypothesis =>
      rw [List.foldlM_cons, step]
      exact hypothesis

theorem step_eq (trace : Trace f s inputs turns after) :
    ∀ turn ∈ turns, f turn.before turn.input = some turn.after := by
  induction trace with
  | nil s => simp
  | cons step _ hypothesis =>
      intro turn inside
      rcases List.mem_cons.mp inside with rfl | inside
      · exact step
      · exact hypothesis turn inside

/-- An invariant of the state and the rest of the inputs that lets each step go on carries the run
to its end. -/
theorem run {invariant : List A → S → Prop}
    (step : ∀ a rest s, invariant (a :: rest) s → ∃ next, f s a = some next ∧ invariant rest next)
    {inputs : List A} {s : S} (start : invariant inputs s) :
    ∃ turns after, Trace f s inputs turns after ∧ invariant [] after ∧
      ∀ turn ∈ turns, ∃ rest, invariant (turn.input :: rest) turn.before := by
  induction inputs generalizing s with
  | nil => exact ⟨[], s, .nil s, start, by simp⟩
  | cons a rest hypothesis =>
      obtain ⟨next, ran, kept⟩ := step a rest s start
      obtain ⟨turns, after, later, final, before⟩ := hypothesis kept
      refine ⟨⟨s, a, next⟩ :: turns, after, .cons ran later, final, fun turn inside => ?_⟩
      rcases List.mem_cons.mp inside with rfl | inside
      · exact ⟨rest, start⟩
      · exact before turn inside

end Trace

end Dis86.Lib
