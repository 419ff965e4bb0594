import Mathlib.Order.Lattice
import Mathlib.Tactic.Common

namespace Dis86.Lib

/-- A recursion on fuel returns a result, with every amount of fuel from some amount on. -/
def Settles {A : Type} (f : Nat → Option A) (a : A) : Prop := ∃ least, ∀ fuel ≥ least, f fuel = some a

variable {A : Type} {f g : Nat → Option A} {a b : A}

theorem Settles.now (returns : ∀ fuel, f (fuel + 1) = some a) : Settles f a := by
  refine ⟨1, fun fuel enough => ?_⟩
  obtain ⟨fuel, rfl⟩ := Nat.exists_eq_add_of_le' enough
  exact returns fuel

/-- A recursive call settles the caller. -/
theorem Settles.call (calls : ∀ fuel, f (fuel + 1) = g fuel) (inner : Settles g a) : Settles f a := by
  obtain ⟨least, returns⟩ := inner
  refine ⟨least + 1, fun fuel enough => ?_⟩
  obtain ⟨more, rfl⟩ := Nat.exists_eq_add_of_le' enough
  rw [← Nat.add_assoc, calls]
  exact returns (more + least) (Nat.le_add_left _ _)

/-- A call settles the caller, once an earlier call has returned. -/
theorem Settles.after {B : Type} {first : Nat → Option B} {x : B} (one : Settles first x)
    (calls : ∀ fuel, first fuel = some x → f (fuel + 1) = g fuel) (two : Settles g a) : Settles f a := by
  obtain ⟨least, returns⟩ := one
  obtain ⟨least', returns'⟩ := two
  refine ⟨max least least' + 1, fun fuel enough => ?_⟩
  obtain ⟨fuel, rfl⟩ := Nat.exists_eq_add_of_le' (Nat.le_of_add_left_le enough)
  rw [calls fuel (returns fuel (by omega))]
  exact returns' fuel (by omega)

/-- A caller returns when a call has returned. -/
theorem Settles.last {B : Type} {first : Nat → Option B} {x : B} (one : Settles first x)
    (returns : ∀ fuel, first fuel = some x → f (fuel + 1) = some a) : Settles f a :=
  one.after returns ⟨0, fun _ _ => rfl⟩

theorem Settles.unique (one : Settles f a) (two : Settles f b) : a = b := by
  obtain ⟨least, returns⟩ := one
  obtain ⟨least', returns'⟩ := two
  have here := returns (max least least') (Nat.le_max_left _ _)
  have there := returns' (max least least') (Nat.le_max_right _ _)
  exact Option.some.inj (here.symm.trans there)


section
variable {S I E : Type}

/-- The steps run in order until one of them fails. -/
def runSteps (step : S → I → Except E S) : S → List I → Except E S
  | s, [] => .ok s
  | s, input :: inputs =>
      match step s input with
      | .ok t => runSteps step t inputs
      | .error e => .error e

/-- Each step that the run makes meets the condition in the state before it. -/
def EachStep (step : S → I → Except E S) (meets : S → I → Prop) : S → List I → Prop
  | _, [] => True
  | s, input :: inputs =>
      meets s input ∧ ∀ t, step s input = .ok t → EachStep step meets t inputs

variable {step : S → I → Except E S} {meets : S → I → Prop}

theorem runSteps_cons (s : S) (input : I) (inputs : List I) :
    runSteps step s (input :: inputs) =
      (step s input).bind fun t => runSteps step t inputs := by
  rw [runSteps]
  cases step s input <;> rfl

theorem EachStep.tail {s t : S} {input : I} {inputs : List I}
    (each : EachStep step meets s (input :: inputs)) (stepped : step s input = .ok t) :
    EachStep step meets t inputs :=
  each.2 t stepped

theorem EachStep.of_forall (all : ∀ s input, meets s input) (s : S) (inputs : List I) :
    EachStep step meets s inputs := by
  induction inputs generalizing s with
  | nil => trivial
  | cons input inputs ih => exact ⟨all s input, fun t _ => ih t⟩

/-- An invariant that the good steps keep holds after a run of good steps. -/
theorem runSteps_keeps (inv : S → Prop)
    (keeps : ∀ s input t, inv s → meets s input → step s input = .ok t → inv t)
    {s t : S} {inputs : List I} (start : inv s) (each : EachStep step meets s inputs)
    (ran : runSteps step s inputs = .ok t) : inv t := by
  induction inputs generalizing s with
  | nil => exact Except.ok.inj ran ▸ start
  | cons input inputs ih =>
      rw [runSteps_cons] at ran
      cases stepped : step s input with
      | error e => simp [stepped, Except.bind] at ran
      | ok next =>
          rw [stepped] at ran
          exact ih (keeps s input next start each.1 stepped) (each.tail stepped) ran

/-- An error that no good step reports stops no run of good steps. -/
theorem runSteps_error (inv : S → Prop) (bad : E → Prop)
    (keeps : ∀ s input t, inv s → meets s input → step s input = .ok t → inv t)
    (avoids : ∀ s input e, inv s → meets s input → step s input = .error e → ¬ bad e)
    {s : S} {inputs : List I} {e : E} (start : inv s) (each : EachStep step meets s inputs)
    (failed : runSteps step s inputs = .error e) : ¬ bad e := by
  induction inputs generalizing s with
  | nil => cases failed
  | cons input inputs ih =>
      rw [runSteps_cons] at failed
      cases stepped : step s input with
      | error found =>
          rw [stepped] at failed
          cases failed
          exact avoids s input _ start each.1 stepped
      | ok next =>
          rw [stepped] at failed
          exact ih (keeps s input next start each.1 stepped) (each.tail stepped) failed

end

end Dis86.Lib
