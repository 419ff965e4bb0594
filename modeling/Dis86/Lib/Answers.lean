import Mathlib.Tactic.Common

namespace Dis86.Lib

section

variable {S I A : Type}

/-- The steps run in order and collect their answers, until one of them fails. -/
def runAnswers (step : S → I → Option (List A × S)) : S → List I → Option (List A × S)
  | s, [] => some ([], s)
  | s, input :: rest => do
      let (answers, s) ← step s input
      let (more, s) ← runAnswers step s rest
      return (answers ++ more, s)

/-- Each step of a run meets a condition in the state before it. -/
def Along (step : S → I → Option (List A × S)) (meets : S → I → Prop) : S → List I → Prop
  | _, [] => True
  | s, input :: rest => meets s input ∧ ∀ answers s', step s input = some (answers, s') → Along step meets s' rest

variable {step : S → I → Option (List A × S)}

theorem runAnswers_cons {s s' s'' : S} {input : I} {rest : List I} {answers more : List A}
    (stepped : step s input = some (answers, s')) (ran : runAnswers step s' rest = some (more, s'')) :
    runAnswers step s (input :: rest) = some (answers ++ more, s'') := by
  simp only [runAnswers, stepped, ran, Option.bind_eq_bind, Option.bind_some, Option.pure_def]

/-- A run that returns has made its first step. -/
theorem runAnswers_first {s final : S} {input : I} {rest : List I} {all : List A}
    (ran : runAnswers step s (input :: rest) = some (all, final)) :
    ∃ answers s' more, step s input = some (answers, s') ∧ runAnswers step s' rest = some (more, final) ∧
      all = answers ++ more := by
  simp only [runAnswers, Option.bind_eq_bind, Option.bind_eq_some_iff, Prod.exists, Option.pure_def,
    Option.some.injEq, Prod.mk.injEq] at ran
  obtain ⟨answers, s', stepped, more, s'', rest, rfl, rfl⟩ := ran
  exact ⟨answers, s', more, stepped, rest, rfl⟩

/-- Under an invariant that every step keeps, no run fails, and the invariant holds after it. -/
theorem runAnswers_total (inv : S → Prop)
    (keeps : ∀ s input, inv s → ∃ answers s', step s input = some (answers, s') ∧ inv s') {s : S} (start : inv s)
    (inputs : List I) : ∃ answers s', runAnswers step s inputs = some (answers, s') ∧ inv s' := by
  induction inputs generalizing s with
  | nil => exact ⟨[], s, rfl, start⟩
  | cons input rest ih =>
      obtain ⟨answers, s', stepped, kept⟩ := keeps s input start
      obtain ⟨more, s'', ran, last⟩ := ih kept
      exact ⟨answers ++ more, s'', runAnswers_cons stepped ran, last⟩

/-- A party whose part of the state the other inputs leave alone sees the run without these inputs. -/
theorem runAnswers_purge {V : Type} (view : S → V) (meets : S → I → Prop) (mine : I → Bool) (own : A → Bool)
    (onMine : ∀ s t input answers s', mine input → view s = view t → step s input = some (answers, s') →
      (∀ a ∈ answers, own a) ∧ ∃ t', step t input = some (answers, t') ∧ view s' = view t')
    (onOther : ∀ s input answers s', mine input = false → meets s input → step s input = some (answers, s') →
      (∀ a ∈ answers, own a = false) ∧ view s' = view s)
    {s t final : S} {inputs : List I} {answers : List A} (along : Along step meets s inputs)
    (same : view s = view t) (ran : runAnswers step s inputs = some (answers, final)) :
    ∃ final', runAnswers step t (inputs.filter mine) = some (answers.filter own, final') ∧
      view final = view final' := by
  induction inputs generalizing s t answers with
  | nil =>
      obtain ⟨rfl, rfl⟩ := Prod.mk.inj (Option.some.inj ran)
      exact ⟨t, rfl, same⟩
  | cons input rest ih =>
      obtain ⟨first, s', more, stepped, others, rfl⟩ := runAnswers_first ran
      have onwards := along.2 first s' stepped
      rw [List.filter_append]
      cases addressed : mine input with
      | true =>
          obtain ⟨all, t', answered, same'⟩ := onMine s t input first s' addressed same stepped
          obtain ⟨final', purged, last⟩ := ih onwards same' others
          rw [List.filter_cons_of_pos addressed, List.filter_eq_self.mpr all]
          exact ⟨final', runAnswers_cons answered purged, last⟩
      | false =>
          obtain ⟨none, kept⟩ := onOther s input first s' addressed along.1 stepped
          obtain ⟨final', purged, last⟩ := ih onwards (kept.trans same) others
          have dropped : first.filter own = [] :=
            List.filter_eq_nil_iff.mpr fun a inside => by simp [none a inside]
          rw [List.filter_cons_of_neg (by simp [addressed]), dropped, List.nil_append]
          exact ⟨final', purged, last⟩

end

end Dis86.Lib
