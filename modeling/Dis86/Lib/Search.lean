import Mathlib.Data.List.Basic
import Mathlib.Tactic.Common
import Mathlib.Algebra.Order.BigOperators.Group.List
import Mathlib.Algebra.Ring.Nat

namespace Dis86.Lib

variable {A : Type}

/-- What the successors of the starting elements lead to. -/
inductive Reaches (succ : A → List A) (starts : List A) : A → Prop where
  | start {x : A} (inside : x ∈ starts) : Reaches succ starts x
  | step {x y : A} (reaches : Reaches succ starts x) (next : y ∈ succ x) : Reaches succ starts y

/-- The successors of what is reached decide what is reached. -/
theorem Reaches.of_agree {succ succ' : A → List A} {starts : List A} {x : A}
    (reaches : Reaches succ starts x) (agree : ∀ y, Reaches succ starts y → succ' y = succ y) :
    Reaches succ' starts x := by
  induction reaches with
  | start inside => exact .start inside
  | @step y z reached next hypothesis =>
      apply hypothesis.step
      rw [agree y reached]
      exact next

theorem reaches_congr {succ succ' : A → List A} {starts : List A}
    (agree : ∀ y, Reaches succ starts y → succ' y = succ y) (x : A) :
    Reaches succ' starts x ↔ Reaches succ starts x := by
  constructor
  · intro reaches
    induction reaches with
    | start inside => exact .start inside
    | @step y z _ next hypothesis =>
        apply hypothesis.step
        rw [← agree y hypothesis]
        exact next
  · exact fun reaches => reaches.of_agree agree

/-- Starting elements that are reached themselves lead nowhere else. -/
theorem Reaches.of_starts {succ : A → List A} {starts starts' : List A} {x : A}
    (reached : Reaches succ starts' x) (covered : ∀ s ∈ starts', Reaches succ starts s) :
    Reaches succ starts x := by
  induction reached with
  | start inside => exact covered _ inside
  | step _ next hypothesis => exact .step hypothesis next

/-- What an element reaches beyond itself, its successors reach. -/
theorem reaches_from {succ : A → List A} {s x : A} :
    Reaches succ [s] x ↔ x = s ∨ Reaches succ (succ s) x := by
  constructor
  · intro reaches
    induction reaches with
    | start inside => exact .inl (List.mem_singleton.mp inside)
    | @step y z _ next hypothesis =>
        rcases hypothesis with rfl | later
        · exact .inr (.start next)
        · exact .inr (later.step next)
  · intro either
    rcases either with rfl | later
    · exact .start (List.mem_singleton_self _)
    · induction later with
      | start inside => exact .step (.start (List.mem_singleton_self _)) inside
      | step _ next hypothesis => exact hypothesis.step next

/-- What a successor reaches is reached. -/
theorem Reaches.through {succ : A → List A} {r o x : A} (next : o ∈ succ r)
    (reached : Reaches succ [o] x) : Reaches succ [r] x := by
  induction reached with
  | start inside => exact .step (.start (List.mem_singleton_self r)) (List.mem_singleton.mp inside ▸ next)
  | step _ later hypothesis => exact hypothesis.step later

/-- A search pops elements off a stack and pushes their successors. It gives up at the first bad
element, and otherwise returns all that it has seen. The fuel is the number of pops. -/
def search [DecidableEq A] (succ : A → List A) (bad : A → Bool) :
    Nat → List A → List A → Option (Option (List A))
  | 0, _, _ => none
  | _ + 1, seen, [] => some (some seen)
  | fuel + 1, seen, x :: stack =>
      if x ∈ seen then search succ bad fuel seen stack
      else if bad x then some none
      else search succ bad fuel (seen ++ [x]) (succ x ++ stack)

namespace Search

variable {succ : A → List A} {bad : A → Bool}

/-- What has been seen is good, and its successors are seen or still on the stack. -/
structure Open (succ : A → List A) (bad : A → Bool) (starts seen stack : List A) : Prop where
  covered : ∀ x ∈ starts, x ∈ seen ∨ x ∈ stack
  good : ∀ x ∈ seen, bad x = false
  closed : ∀ x ∈ seen, ∀ y ∈ succ x, y ∈ seen ∨ y ∈ stack
  seen_reached : ∀ x ∈ seen, Reaches succ starts x
  stack_reached : ∀ x ∈ stack, Reaches succ starts x

theorem Open.init (starts : List A) : Open succ bad starts [] starts where
  covered _ inside := .inr inside
  good _ inside := by cases inside
  closed _ inside := by cases inside
  seen_reached _ inside := by cases inside
  stack_reached _ inside := .start inside

theorem Open.pop {starts seen stack : List A} {x : A}
    (invariant : Open succ bad starts seen (x :: stack)) (old : x ∈ seen) :
    Open succ bad starts seen stack where
  covered y inside := by
    rcases invariant.covered y inside with before | waiting
    · exact .inl before
    · rcases List.mem_cons.mp waiting with rfl | waiting
      · exact .inl old
      · exact .inr waiting
  good := invariant.good
  closed y inside z next := by
    rcases invariant.closed y inside z next with before | waiting
    · exact .inl before
    · rcases List.mem_cons.mp waiting with rfl | waiting
      · exact .inl old
      · exact .inr waiting
  seen_reached := invariant.seen_reached
  stack_reached y inside := invariant.stack_reached y (List.mem_cons_of_mem x inside)

/-- The successors of a new element may wait anywhere among the others. -/
theorem Open.extend {starts seen stack waiting : List A} {x : A}
    (invariant : Open succ bad starts seen (x :: stack)) (fine : bad x = false)
    (joined : ∀ y, y ∈ waiting ↔ y ∈ succ x ∨ y ∈ stack) :
    Open succ bad starts (seen ++ [x]) waiting := by
  have reached := invariant.stack_reached x List.mem_cons_self
  have moved : ∀ y, y ∈ seen ∨ y ∈ x :: stack → y ∈ seen ++ [x] ∨ y ∈ waiting := by
    intro y place
    rcases place with before | later
    · exact .inl (List.mem_append_left _ before)
    · rcases List.mem_cons.mp later with rfl | later
      · exact .inl (List.mem_append_right _ List.mem_cons_self)
      · exact .inr ((joined y).mpr (.inr later))
  refine ⟨fun y inside => moved y (invariant.covered y inside), fun y inside => ?_,
    fun y inside z next => ?_, fun y inside => ?_, fun y inside => ?_⟩
  · rcases List.mem_append.mp inside with before | here
    · exact invariant.good y before
    · exact List.mem_singleton.mp here ▸ fine
  · rcases List.mem_append.mp inside with before | here
    · exact moved z (invariant.closed y before z next)
    · obtain rfl := List.mem_singleton.mp here
      exact .inr ((joined z).mpr (.inl next))
  · rcases List.mem_append.mp inside with before | here
    · exact invariant.seen_reached y before
    · exact List.mem_singleton.mp here ▸ reached
  · rcases (joined y).mp inside with next | later
    · exact .step reached next
    · exact invariant.stack_reached y (List.mem_cons_of_mem x later)

theorem Open.push {starts seen stack : List A} {x : A}
    (invariant : Open succ bad starts seen (x :: stack)) (fine : bad x = false) :
    Open succ bad starts (seen ++ [x]) (succ x ++ stack) :=
  invariant.extend fine fun _ => List.mem_append

/-- A finished search has seen all that is reached, and all of it is good. -/
structure Finished (succ : A → List A) (bad : A → Bool) (starts seen : List A) : Prop where
  complete : ∀ x, x ∈ seen ↔ Reaches succ starts x
  good : ∀ x ∈ seen, bad x = false

theorem Open.finished {starts seen : List A} (invariant : Open succ bad starts seen []) :
    Finished succ bad starts seen where
  complete x := by
    refine ⟨invariant.seen_reached x, fun reached => ?_⟩
    induction reached with
    | start inside => exact (invariant.covered _ inside).resolve_right (by simp)
    | step _ next hypothesis =>
        exact (invariant.closed _ hypothesis _ next).resolve_right (by simp)
  good := invariant.good

/-- A search ends with everything that is reached, or because a bad element is reached. -/
def Verdict (succ : A → List A) (bad : A → Bool) (starts : List A) : Option (List A) → Prop
  | some seen => Finished succ bad starts seen
  | none => ∃ x, Reaches succ starts x ∧ bad x = true

variable [DecidableEq A]

theorem sound {starts seen stack : List A} {fuel : Nat} {found : Option (List A)}
    (invariant : Open succ bad starts seen stack)
    (ended : search succ bad fuel seen stack = some found) : Verdict succ bad starts found := by
  induction fuel generalizing seen stack with
  | zero => cases ended
  | succ fuel hypothesis =>
      cases stack with
      | nil =>
          obtain rfl := Option.some.inj ended
          exact invariant.finished
      | cons x stack =>
          simp only [search] at ended
          split at ended
          · rename_i old
            exact hypothesis (invariant.pop old) ended
          · split at ended
            · rename_i isBad
              obtain rfl := Option.some.inj ended
              exact ⟨x, invariant.stack_reached x List.mem_cons_self, isBad⟩
            · rename_i fine
              exact hypothesis (invariant.push (Bool.eq_false_iff.mpr fine)) ended

/-- The elements of a domain that have not been seen. -/
def unseen (domain seen : List A) : List A := domain.filter (· ∉ seen)

theorem unseen_push {domain seen : List A} {x : A} (inside : x ∈ domain) (new : x ∉ seen) :
    (unseen domain (seen ++ [x])).length < (unseen domain seen).length := by
  have sub : unseen domain (seen ++ [x]) = (unseen domain seen).filter (· ≠ x) := by
    simp only [unseen, List.filter_filter]
    congr 1
    funext y
    simp [not_or, and_comm]
  rw [sub]
  refine List.length_filter_lt_length_iff_exists.mpr ⟨x, ?_, by simp⟩
  exact List.mem_filter.mpr ⟨inside, decide_eq_true new⟩

/-- In a domain of elements with few successors, that much fuel is enough. -/
theorem ends {domain seen stack : List A} {fuel width : Nat}
    (inside : ∀ x ∈ stack, x ∈ domain)
    (stays : ∀ x ∈ domain, ∀ y ∈ succ x, y ∈ domain)
    (narrow : ∀ x ∈ domain, (succ x).length ≤ width)
    (enough : stack.length + width * (unseen domain seen).length < fuel) :
    ∃ found, search succ bad fuel seen stack = some found := by
  induction fuel generalizing seen stack with
  | zero => omega
  | succ fuel hypothesis =>
      cases stack with
      | nil => exact ⟨some seen, rfl⟩
      | cons x stack =>
          rw [List.length_cons] at enough
          have rest : ∀ y ∈ stack, y ∈ domain := fun y waiting =>
            inside y (List.mem_cons_of_mem x waiting)
          have here := inside x List.mem_cons_self
          simp only [search]
          split
          · exact hypothesis rest (by omega)
          · rename_i new
            split
            · exact ⟨none, rfl⟩
            · refine hypothesis (fun y waiting => ?_) ?_
              · rcases List.mem_append.mp waiting with next | waiting
                · exact stays x here y next
                · exact rest y waiting
              · have fewer := unseen_push here new
                have wide := narrow x here
                have room := Nat.mul_le_mul_left width (Nat.succ_le_of_lt fewer)
                rw [Nat.mul_succ] at room
                rw [List.length_append]
                omega

end Search

/-- Marking takes elements from the front of a queue and appends their successors. The fuel is the
number of turns. -/
def mark [DecidableEq A] (succ : A → List A) : Nat → List A → List A → Option (List A)
  | 0, _, _ => none
  | _ + 1, seen, [] => some seen
  | fuel + 1, seen, x :: queue =>
      if x ∈ seen then mark succ fuel seen queue else mark succ fuel (seen ++ [x]) (queue ++ succ x)

namespace Marking

variable [DecidableEq A] {succ : A → List A}

/-- What is marked is what the starting elements lead to. -/
theorem sound {starts seen queue marked : List A} {fuel : Nat}
    (invariant : Search.Open succ (fun _ => false) starts seen queue)
    (ended : mark succ fuel seen queue = some marked) (x : A) :
    x ∈ marked ↔ Reaches succ starts x := by
  induction fuel generalizing seen queue with
  | zero => cases ended
  | succ fuel hypothesis =>
      cases queue with
      | nil =>
          obtain rfl := Option.some.inj ended
          exact invariant.finished.complete x
      | cons first queue =>
          simp only [mark] at ended
          split at ended
          · rename_i old
            exact hypothesis (invariant.pop old) ended
          · refine hypothesis (invariant.extend rfl fun y => ?_) ended
            rw [List.mem_append, or_comm]

/-- The successors that marking may still append. -/
def pending (succ : A → List A) (domain seen : List A) : Nat :=
  ((Search.unseen domain seen).map fun x => (succ x).length).sum

theorem pending_cons (first : A) (domain seen : List A) :
    pending succ (first :: domain) seen =
      (if first ∈ seen then 0 else (succ first).length) + pending succ domain seen := by
  by_cases old : first ∈ seen <;> simp [pending, Search.unseen, old]

theorem pending_antitone (succ : A → List A) (domain : List A) {seen later : List A} (more : seen ⊆ later) :
    pending succ domain later ≤ pending succ domain seen := by
  induction domain with
  | nil => exact Nat.le_refl _
  | cons first domain hypothesis =>
      rw [pending_cons, pending_cons]
      by_cases old : first ∈ seen
      · rw [if_pos old, if_pos (more old)]
        omega
      · rw [if_neg old]
        split <;> omega

theorem pending_push (succ : A → List A) {domain seen : List A} {x : A} (inside : x ∈ domain) (new : x ∉ seen) :
    pending succ domain (seen ++ [x]) + (succ x).length ≤ pending succ domain seen := by
  induction domain with
  | nil => cases inside
  | cons first domain hypothesis =>
      rw [pending_cons, pending_cons]
      by_cases here : first = x
      · subst here
        have rest := pending_antitone succ domain (List.subset_append_left seen [first])
        rw [if_pos (List.mem_append_right _ List.mem_cons_self), if_neg new]
        omega
      · have later := hypothesis (List.mem_of_ne_of_mem (Ne.symm here) inside)
        have same : first ∈ seen ++ [x] ↔ first ∈ seen := by simp [here]
        simp only [same]
        omega

/-- Every element appends its successors once, so that much fuel is enough. -/
theorem ends {domain seen queue : List A} {fuel : Nat}
    (covers : ∀ x, succ x ≠ [] → x ∈ domain)
    (enough : queue.length + pending succ domain seen < fuel) :
    ∃ marked, mark succ fuel seen queue = some marked := by
  induction fuel generalizing seen queue with
  | zero => omega
  | succ fuel hypothesis =>
      cases queue with
      | nil => exact ⟨seen, rfl⟩
      | cons first queue =>
          rw [List.length_cons] at enough
          simp only [mark]
          split
          · apply hypothesis
            omega
          · rename_i new
            apply hypothesis
            rw [List.length_append]
            by_cases leaf : succ first = []
            · have fewer := pending_antitone succ domain
                (List.subset_append_left seen [first])
              rw [leaf, List.length_nil]
              omega
            · have fewer := pending_push succ (covers first leaf) new
              omega

end Marking

end Dis86.Lib
