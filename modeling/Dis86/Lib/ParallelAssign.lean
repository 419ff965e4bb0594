import Mathlib.Data.List.Nodup
import Mathlib.Data.List.Induction
import Mathlib.Logic.Function.Basic

namespace Dis86.Lib

/-- A move computes a value from the variables it reads and writes it to one variable. -/
structure Move (X V : Type) where
  target : X
  source : (X → V) → V
  reads : X → Prop
  confined : ∀ env env' : X → V, (∀ x, reads x → env x = env' x) → source env = source env'

variable {X V : Type} [DecidableEq X]

/-- The moves run one after the other. -/
def sequence (env : X → V) (moves : List (Move X V)) : X → V :=
  moves.foldl (fun env move => Function.update env move.target (move.source env)) env

/-- The moves act as one parallel assignment when every target ends with its source's old value. -/
def InParallel (env : X → V) (moves : List (Move X V)) : Prop :=
  ∀ move ∈ moves, sequence env moves move.target = move.source env

@[simp] theorem sequence_nil (env : X → V) : sequence env [] = env := rfl

theorem sequence_append (env : X → V) (before after : List (Move X V)) :
    sequence env (before ++ after) = sequence (sequence env before) after := by
  simp [sequence]

theorem sequence_snoc (env : X → V) (before : List (Move X V)) (move : Move X V) :
    sequence env (before ++ [move]) =
      Function.update (sequence env before) move.target (move.source (sequence env before)) := by
  rw [sequence_append]
  rfl

/-- A variable that no move targets keeps its value. -/
theorem sequence_untouched {env : X → V} {moves : List (Move X V)} {x : X}
    (away : x ∉ moves.map Move.target) : sequence env moves x = env x := by
  induction moves using List.reverseRecOn with
  | nil => rfl
  | append_singleton before move ih =>
      simp only [List.map_append, List.map_cons, List.map_nil, List.mem_append,
        List.mem_singleton, not_or] at away
      rw [sequence_snoc, Function.update_of_ne away.2, ih away.1]

/-- A target has its final value as soon as its own move has run. -/
theorem sequence_settled {env : X → V} {before after : List (Move X V)} {move : Move X V}
    (distinct : ((before ++ move :: after).map Move.target).Nodup) :
    sequence env (before ++ move :: after) move.target = move.source (sequence env before) := by
  have split : before ++ move :: after = (before ++ [move]) ++ after := by simp
  rw [split, List.map_append, List.nodup_append] at distinct
  have away : move.target ∉ after.map Move.target := by
    intro inside
    exact distinct.2.2 move.target (by simp) move.target inside rfl
  rw [split, sequence_append, sequence_untouched away, sequence_snoc, Function.update_self]

/-- The moves act in parallel exactly when no move notices the moves before it. -/
theorem inParallel_iff {env : X → V} {moves : List (Move X V)}
    (distinct : (moves.map Move.target).Nodup) :
    InParallel env moves ↔ ∀ before move after, moves = before ++ move :: after →
      move.source (sequence env before) = move.source env := by
  constructor
  · intro parallel before move after split
    subst split
    rw [← sequence_settled distinct]
    exact parallel move (by simp)
  · intro unnoticed move inside
    obtain ⟨before, after, split⟩ := List.append_of_mem inside
    rw [split, sequence_settled (by rwa [← split])]
    exact unnoticed before move after split

/-- Before a move runs in a parallel assignment, each earlier target holds its source's old value. -/
theorem InParallel.prefix_target {env : X → V} {before after : List (Move X V)}
    {earlier move : Move X V} (distinct : ((before ++ move :: after).map Move.target).Nodup)
    (parallel : InParallel env (before ++ move :: after)) (inside : earlier ∈ before) :
    sequence env before earlier.target = earlier.source env := by
  rw [List.map_append, List.nodup_append] at distinct
  have away : earlier.target ∉ (move :: after).map Move.target := by
    intro later
    exact distinct.2.2 earlier.target (List.mem_map_of_mem inside) earlier.target later rfl
  rw [← parallel earlier (by simp [inside]), sequence_append, sequence_untouched away]

/-- Moves act in parallel when a move reads an earlier target only if that move leaves its own
variable as it was. -/
theorem inParallel_of_reads {env : X → V} {moves : List (Move X V)}
    (distinct : (moves.map Move.target).Nodup)
    (quiet : moves.Pairwise fun earlier later =>
      later.reads earlier.target → earlier.source env = env earlier.target) :
    InParallel env moves := by
  induction moves using List.reverseRecOn with
  | nil => simp [InParallel]
  | append_singleton before move ih =>
      have parts := distinct
      rw [List.map_append, List.nodup_append] at parts
      rw [List.pairwise_append] at quiet
      have earlier := ih parts.1 quiet.1
      intro other inside
      rw [sequence_snoc]
      rcases List.mem_append.mp inside with old | last
      · have away : other.target ≠ move.target :=
          parts.2.2 other.target (List.mem_map_of_mem old) move.target (by simp)
        rw [Function.update_of_ne away]
        exact earlier other old
      · obtain rfl := List.mem_singleton.mp last
        rw [Function.update_self]
        apply other.confined
        intro x read
        by_cases touched : x ∈ before.map Move.target
        · obtain ⟨writer, old, rfl⟩ := List.mem_map.mp touched
          rw [earlier writer old]
          exact quiet.2.2 writer old other (by simp) read
        · exact sequence_untouched touched

/-- A relation that holds from every element to each one after it holds pairwise. -/
theorem pairwise_of_splits {A : Type} {R : A → A → Prop} {xs : List A}
    (each : ∀ before x after, xs = before ++ x :: after → ∀ y ∈ before, R y x) : xs.Pairwise R := by
  induction xs using List.reverseRecOn with
  | nil => exact .nil
  | append_singleton before x ih =>
      rw [List.pairwise_append]
      refine ⟨ih fun init y after split => each init y (after ++ [x]) (by simp [split]),
        List.pairwise_singleton _ _, ?_⟩
      intro y inside z last
      obtain rfl := List.mem_singleton.mp last
      exact each before z [] rfl y inside

end Dis86.Lib
