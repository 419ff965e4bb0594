import Dis86.Lib.Search
import Mathlib.Data.Finset.Card
import Mathlib.Data.List.Basic

namespace Dis86.Lib

variable {A : Type}

/-- The elements are visited in their order, up to the first with a hit. -/
def anyOf (visit : A → List A → Option (Bool × List A)) : List A → List A → Option (Bool × List A)
  | [], seen => some (false, seen)
  | x :: rest, seen => do
      let (found, seen) ← visit x seen
      if found then return (true, seen) else anyOf visit rest seen

variable [DecidableEq A]

/-- A search that goes to the first successor first and visits no element twice. The fuel is the
depth. -/
def depthFirst (succ : A → Option (List A)) (goal : A → Bool) :
    Nat → A → List A → Option (Bool × List A)
  | 0, _, _ => none
  | fuel + 1, x, seen =>
      if x ∈ seen then some (false, seen)
      else if goal x then some (true, x :: seen)
      else do
        let next ← succ x
        anyOf (depthFirst succ goal fuel) next (x :: seen)

/-- The successors that have not been seen. -/
def around (succ : A → Option (List A)) (seen : List A) (x : A) : List A :=
  ((succ x).getD []).filter (· ∉ seen)

/-- What unseen elements lead to without an element that has been seen. -/
def Away (succ : A → Option (List A)) (seen starts : List A) : A → Prop :=
  Reaches (around succ seen) (starts.filter (· ∉ seen))

variable {succ : A → Option (List A)} {goal : A → Bool} {fuel : Nat} {x y z : A}
  {seen seen' seen'' starts next : List A}

theorem mem_around (known : succ x = some next) : y ∈ around succ seen x ↔ y ∈ next ∧ y ∉ seen := by
  rw [around, known, Option.getD_some, List.mem_filter, decide_eq_true_iff]

theorem away_start (unseen : x ∉ seen) : Away succ seen [x] x :=
  .start (by simp [unseen])

/-- What has been seen since is seen too. -/
theorem Away.mono (away : Away succ seen' starts y) (more : ∀ x ∈ seen, x ∈ seen') :
    Away succ seen starts y := by
  induction away with
  | start inside =>
      rw [List.mem_filter, decide_eq_true_iff] at inside
      exact .start (List.mem_filter.mpr ⟨inside.1, by simpa using fun old => inside.2 (more _ old)⟩)
  | step _ inside hypothesis =>
      rw [around, List.mem_filter, decide_eq_true_iff] at inside
      exact hypothesis.step (List.mem_filter.mpr ⟨inside.1, by simpa using fun old => inside.2 (more _ old)⟩)

theorem Away.of_mem (away : Away succ seen [x] y) (inside : x ∈ starts) : Away succ seen starts y := by
  induction away with
  | start here =>
      rw [List.mem_filter, List.mem_singleton, decide_eq_true_iff] at here
      obtain ⟨rfl, unseen⟩ := here
      exact .start (List.mem_filter.mpr ⟨inside, by simpa using unseen⟩)
  | step _ inside hypothesis => exact hypothesis.step inside

/-- What a successor leads to, the element leads to. -/
theorem Away.of_next (unseen : x ∉ seen) (known : succ x = some next) (away : Away succ seen next y) :
    Away succ seen [x] y := by
  induction away with
  | start inside =>
      rw [List.mem_filter, decide_eq_true_iff] at inside
      exact (away_start unseen).step ((mem_around known).mpr inside)
  | step _ inside hypothesis => exact hypothesis.step inside

/-- The new elements are no goals, and their successors have been seen. -/
structure Explored (succ : A → Option (List A)) (goal : A → Bool) (seen seen' : List A) : Prop where
  kept : ∀ x ∈ seen, x ∈ seen'
  fresh : ∀ x ∈ seen', x ∉ seen → goal x = false ∧
    ∃ next, succ x = some next ∧ ∀ y ∈ next, y ∈ seen'

omit [DecidableEq A] in
theorem Explored.refl : Explored succ goal seen seen := ⟨fun _ old => old, fun _ old new => absurd old new⟩

theorem Explored.trans (one : Explored succ goal seen seen') (two : Explored succ goal seen' seen'') :
    Explored succ goal seen seen'' where
  kept x old := two.kept x (one.kept x old)
  fresh x inside new := by
    by_cases early : x ∈ seen'
    · obtain ⟨none_, next, known, all⟩ := one.fresh x early new
      exact ⟨none_, next, known, fun y inside => two.kept y (all y inside)⟩
    · exact two.fresh x inside early

/-- A goal that is led to is not in a closed set. -/
theorem Explored.away (closed : Explored succ goal seen seen') (covered : ∀ x ∈ starts, x ∈ seen')
    (away : Away succ seen starts y) : goal y = false := by
  have inside : y ∈ seen' ∧ y ∉ seen := by
    induction away with
    | start inside =>
        rw [List.mem_filter, decide_eq_true_iff] at inside
        exact ⟨covered _ inside.1, inside.2⟩
    | step _ inside hypothesis =>
        obtain ⟨_, next, known, all⟩ := closed.fresh _ hypothesis.1 hypothesis.2
        obtain ⟨isNext, unseen⟩ := (mem_around known).mp inside
        exact ⟨all _ isNext, unseen⟩
  exact (closed.fresh y inside.1 inside.2).1

/-- What the visit of one element may return. -/
structure SearchAnswer (succ : A → Option (List A)) (goal : A → Bool) (starts seen : List A)
    (answer : Bool × List A) : Prop where
  hit : answer.1 = true → ∃ y, goal y = true ∧ Away succ seen starts y
  miss : answer.1 = false → Explored succ goal seen answer.2 ∧ ∀ x ∈ starts, x ∈ answer.2

theorem SearchAnswer.iff {answer : Bool × List A} (visits : SearchAnswer succ goal starts seen answer) :
    answer.1 = true ↔ ∃ y, goal y = true ∧ Away succ seen starts y := by
  refine ⟨visits.hit, ?_⟩
  rintro ⟨y, isGoal, away⟩
  by_contra missed
  rw [Bool.not_eq_true] at missed
  obtain ⟨closed, covered⟩ := visits.miss missed
  exact absurd (isGoal.symm.trans (closed.away covered away)) nofun

theorem anyOf_answer {visit : A → List A → Option (Bool × List A)} {answer : Bool × List A}
    (each : ∀ x seen answer, visit x seen = some answer → SearchAnswer succ goal [x] seen answer)
    (ran : anyOf visit starts seen = some answer) : SearchAnswer succ goal starts seen answer := by
  induction starts generalizing seen with
  | nil =>
      obtain rfl := Option.some.inj ran
      exact ⟨nofun, fun _ => ⟨Explored.refl, by simp⟩⟩
  | cons x rest inductionHypothesis =>
      obtain ⟨⟨found, middle⟩, first, later⟩ := Option.bind_eq_some_iff.mp ran
      have visited := each x seen _ first
      cases found with
      | true =>
          obtain rfl := Option.some.inj later
          obtain ⟨y, isGoal, away⟩ := visited.hit rfl
          exact ⟨fun _ => ⟨y, isGoal, Away.of_mem away List.mem_cons_self⟩, nofun⟩
      | false =>
          obtain ⟨closed, here⟩ := visited.miss rfl
          have rest_visits := inductionHypothesis later
          refine ⟨fun found => ?_, fun missed => ?_⟩
          · obtain ⟨y, isGoal, away⟩ := rest_visits.hit found
            have inside (away : Away succ seen rest y) : Away succ seen (x :: rest) y := by
              apply Reaches.of_starts away
              intro start inside
              rw [List.mem_filter] at inside
              exact .start (List.mem_filter.mpr ⟨List.mem_cons_of_mem x inside.1, inside.2⟩)
            exact ⟨y, isGoal, inside (Away.mono away closed.kept)⟩
          · obtain ⟨more, all⟩ := rest_visits.miss missed
            refine ⟨closed.trans more, List.forall_mem_cons.mpr ⟨?_, all⟩⟩
            exact more.kept x (here x (List.mem_singleton_self x))

/-- The search answers whether an unseen element leads to a goal. -/
theorem depthFirst_answer {answer : Bool × List A} (ran : depthFirst succ goal fuel x seen = some answer) :
    SearchAnswer succ goal [x] seen answer := by
  induction fuel generalizing x seen answer with
  | zero => cases ran
  | succ fuel inductionHypothesis =>
      rw [depthFirst] at ran
      split at ran
      · obtain rfl := Option.some.inj ran
        exact ⟨nofun, fun _ => ⟨Explored.refl, by simpa⟩⟩
      · rename_i unseen
        split at ran
        · rename_i isGoal
          obtain rfl := Option.some.inj ran
          exact ⟨fun _ => ⟨x, isGoal, away_start unseen⟩, nofun⟩
        · rename_i noGoal
          obtain ⟨next, known, later⟩ := Option.bind_eq_some_iff.mp ran
          have visits := anyOf_answer (fun _ _ _ => inductionHypothesis) later
          refine ⟨fun found => ?_, fun missed => ?_⟩
          · obtain ⟨y, isGoal, away⟩ := visits.hit found
            exact ⟨y, isGoal, .of_next unseen known (away.mono fun _ => List.mem_cons_of_mem x)⟩
          · obtain ⟨closed, all⟩ := visits.miss missed
            have here := closed.kept x List.mem_cons_self
            refine ⟨⟨fun y old => closed.kept y (List.mem_cons_of_mem x old), fun y inside new => ?_⟩, by simpa⟩
            by_cases same : y = x
            · subst same
              exact ⟨Bool.not_eq_true _ ▸ noGoal, next, known, all⟩
            · exact closed.fresh y inside (by simp [same, new])

omit [DecidableEq A] in
theorem anyOf_isSome {visit : A → List A → Option (Bool × List A)} {within : A → Prop}
    (each : ∀ x, within x → ∀ seen', (∀ y ∈ seen, y ∈ seen') →
      ∃ answer, visit x seen' = some answer ∧ ∀ y ∈ seen', y ∈ answer.2)
    (inside : ∀ x ∈ starts, within x) :
    ∃ answer, anyOf visit starts seen = some answer ∧ ∀ y ∈ seen, y ∈ answer.2 := by
  induction starts generalizing seen with
  | nil => exact ⟨_, rfl, fun _ old => old⟩
  | cons x rest inductionHypothesis =>
      obtain ⟨here, later⟩ := List.forall_mem_cons.mp inside
      obtain ⟨⟨found, middle⟩, first, kept⟩ := each x here seen fun _ old => old
      have step : anyOf visit (x :: rest) seen =
          if found then some (true, middle) else anyOf visit rest middle := by
        rw [anyOf, first]
        rfl
      cases found with
      | true => exact ⟨_, step, kept⟩
      | false =>
          obtain ⟨answer, ran, kept'⟩ := inductionHypothesis
            (fun x isWithin seen' more => each x isWithin seen' fun y old => more y (kept y old)) later
          exact ⟨answer, step.trans ran, fun y old => kept' y (kept y old)⟩

/-- Enough fuel is one more than there are elements that have not been seen. -/
theorem depthFirst_isSome {all : Finset A} (inside : x ∈ all)
    (closed : ∀ y ∈ all, ∃ next, succ y = some next ∧ ∀ z ∈ next, z ∈ all)
    (enough : (all.filter (· ∉ seen)).card < fuel) :
    ∃ answer, depthFirst succ goal fuel x seen = some answer ∧ ∀ y ∈ seen, y ∈ answer.2 := by
  induction fuel generalizing x seen with
  | zero => omega
  | succ fuel inductionHypothesis =>
      rw [depthFirst]
      by_cases old : x ∈ seen
      · exact ⟨_, if_pos old, fun _ old => old⟩
      · rw [if_neg old]
        by_cases isGoal : goal x = true
        · exact ⟨_, if_pos isGoal, fun _ => List.mem_cons_of_mem x⟩
        · obtain ⟨next, known, later⟩ := closed x inside
          have fewer (seen' : List A) (more : ∀ y ∈ x :: seen, y ∈ seen') :
              (all.filter (· ∉ seen')).card < fuel := by
            have subset : all.filter (· ∉ seen') ⊂ all.filter (· ∉ seen) := by
              rw [Finset.ssubset_iff_of_subset]
              · exact ⟨x, by simp [inside, old], by simp [more x List.mem_cons_self]⟩
              · intro y member
                rw [Finset.mem_filter] at member ⊢
                exact ⟨member.1, fun old => member.2 (more y (List.mem_cons_of_mem x old))⟩
            have := Finset.card_lt_card subset
            omega
          obtain ⟨answer, ran, kept⟩ := anyOf_isSome
            (fun z (isWithin : z ∈ all) seen' more => inductionHypothesis isWithin (fewer seen' more)) later
          refine ⟨answer, ?_, fun y old => kept y (List.mem_cons_of_mem x old)⟩
          rw [if_neg isGoal, known]
          exact ran

end Dis86.Lib
