import Mathlib.Data.List.Basic
import Mathlib.Data.List.Perm.Basic
import Mathlib.Tactic.Common

namespace Dis86.Lib

variable {A : Type}

/-- An element blocks another one when it must come before it. -/
def eligible (blocks : A → A → Bool) (remaining : List A) (a : A) : Bool :=
  !remaining.any fun b => blocks b a

/-- The next element is the first one that no other blocks, and in a cycle the first one of all. -/
def nextIdx (blocks : A → A → Bool) (remaining : List A) : Nat :=
  (remaining.findIdx? (eligible blocks remaining)).getD 0

/-- The elements are taken one by one. The fuel is their number. -/
def schedule (blocks : A → A → Bool) : Nat → List A → List A
  | 0, _ => []
  | fuel + 1, remaining =>
      match remaining[nextIdx blocks remaining]? with
      | some a => a :: schedule blocks fuel (remaining.eraseIdx (nextIdx blocks remaining))
      | none => []

/-- In a stuck part every element is blocked by one of the part. -/
def Stuck (blocks : A → A → Bool) (part : List A) : Prop := ∀ a ∈ part, ∃ b ∈ part, blocks b a = true

/-- Only the empty part is stuck. -/
def Acyclic (blocks : A → A → Bool) (items : List A) : Prop :=
  ∀ part : List A, part ⊆ items → Stuck blocks part → part = []

variable {blocks : A → A → Bool}

theorem Acyclic.of_subset {items part : List A} (acyclic : Acyclic blocks items)
    (inside : part ⊆ items) : Acyclic blocks part := fun less within stuck =>
  acyclic less (List.Subset.trans within inside) stuck

namespace Schedule

theorem nextIdx_lt {remaining : List A} (more : remaining ≠ []) :
    nextIdx blocks remaining < remaining.length := by
  unfold nextIdx
  cases found : remaining.findIdx? (eligible blocks remaining) with
  | some idx => exact (List.findIdx?_eq_some_iff_getElem.mp found).1
  | none => exact List.length_pos_of_ne_nil more

def next (blocks : A → A → Bool) (remaining : List A) (more : remaining ≠ []) : A :=
  remaining.get ⟨nextIdx blocks remaining, nextIdx_lt more⟩

theorem schedule_cons {fuel : Nat} {remaining : List A} (more : remaining ≠ []) :
    schedule blocks (fuel + 1) remaining = next blocks remaining more ::
      schedule blocks fuel (remaining.eraseIdx (nextIdx blocks remaining)) := by
  rw [schedule, List.getElem?_eq_getElem (nextIdx_lt more)]
  rfl

theorem nextIdx_map {B : Type} (f : B → A) (remaining : List B) :
    nextIdx blocks (remaining.map f) = nextIdx (fun a b => blocks (f a) (f b)) remaining := by
  rw [nextIdx, nextIdx, List.findIdx?_map]
  congr 2
  funext b
  simp [eligible, List.any_map, Function.comp_def]

/-- The schedule of images is the image of the schedule. -/
theorem schedule_map {B : Type} (f : B → A) {fuel : Nat} {remaining : List B} :
    schedule blocks fuel (remaining.map f) =
      (schedule (fun a b => blocks (f a) (f b)) fuel remaining).map f := by
  induction fuel generalizing remaining with
  | zero => rfl
  | succ fuel hypothesis =>
      rw [schedule, schedule, nextIdx_map, List.getElem?_map, List.eraseIdx_map, hypothesis]
      cases remaining[nextIdx (fun a b => blocks (f a) (f b)) remaining]? <;> rfl

/-- Only the elements of a list decide about its schedule. -/
theorem schedule_congr {blocks' : A → A → Bool} {fuel : Nat} {remaining : List A}
    (agree : ∀ a ∈ remaining, ∀ b ∈ remaining, blocks' a b = blocks a b) :
    schedule blocks' fuel remaining = schedule blocks fuel remaining := by
  have within (blocks : A → A → Bool) : schedule blocks fuel remaining =
      (schedule (fun a b : {a // a ∈ remaining} => blocks a b) fuel remaining.attach).map
        Subtype.val := by
    rw [← schedule_map, List.attach_map_subtype_val]
  rw [within blocks, within blocks']
  congr 2
  funext a b
  exact agree a a.property b b.property

theorem perm_schedule {fuel : Nat} {remaining : List A} (enough : remaining.length ≤ fuel) :
    (schedule blocks fuel remaining).Perm remaining := by
  induction fuel generalizing remaining with
  | zero =>
      obtain rfl := List.length_eq_zero_iff.mp (Nat.le_zero.mp enough)
      rfl
  | succ fuel hypothesis =>
      by_cases more : remaining = []
      · subst more
        rfl
      · have inside : nextIdx blocks remaining < remaining.length := nextIdx_lt more
        rw [schedule_cons more]
        refine (List.Perm.cons _ (hypothesis ?_)).trans (List.getElem_cons_eraseIdx_perm inside)
        rw [List.length_eraseIdx_of_lt inside]
        omega

/-- Without a cycle the next element is not blocked. -/
theorem next_unblocked {remaining : List A} (acyclic : Acyclic blocks remaining)
    (more : remaining ≠ []) : ∀ b ∈ remaining, blocks b (next blocks remaining more) = false := by
  have free : (remaining.findIdx? (eligible blocks remaining)).isSome = true := by
    by_contra none
    rw [List.findIdx?_isSome, List.any_eq_true] at none
    refine more (acyclic remaining (List.Subset.refl _) fun a member => ?_)
    by_contra unblocked
    refine none ⟨a, member, ?_⟩
    simp only [eligible, Bool.not_eq_true', List.any_eq_false]
    exact fun b inside blocked => unblocked ⟨b, inside, blocked⟩
  obtain ⟨idx, found⟩ := Option.isSome_iff_exists.mp free
  obtain ⟨inside, good, _⟩ := List.findIdx?_eq_some_iff_getElem.mp found
  have here : nextIdx blocks remaining = idx := by rw [nextIdx, found, Option.getD_some]
  simp only [eligible, Bool.not_eq_true', List.any_eq_false] at good
  intro b member
  simp only [next, here]
  exact Bool.eq_false_iff.mpr (good b member)

/-- Without a cycle no element is blocked by a later one. -/
theorem pairwise_of_acyclic {fuel : Nat} {remaining : List A} (enough : remaining.length ≤ fuel)
    (acyclic : Acyclic blocks remaining) :
    (schedule blocks fuel remaining).Pairwise fun earlier later => blocks later earlier = false := by
  induction fuel generalizing remaining with
  | zero => exact .nil
  | succ fuel hypothesis =>
      by_cases more : remaining = []
      · subst more
        exact .nil
      · have inside : nextIdx blocks remaining < remaining.length := nextIdx_lt more
        have fewer : (remaining.eraseIdx (nextIdx blocks remaining)).length ≤ fuel := by
          rw [List.length_eraseIdx_of_lt inside]
          omega
        have subset := (List.eraseIdx_sublist remaining (nextIdx blocks remaining)).subset
        rw [schedule_cons more]
        refine List.pairwise_cons.mpr ⟨fun later member => ?_, hypothesis fewer (acyclic.of_subset subset)⟩
        exact next_unblocked acyclic more later (subset ((perm_schedule fewer).mem_iff.mp member))

/-- A part of a list has a first element in it. -/
theorem first_of_part {part l : List A} (inside : part ⊆ l) (more : part ≠ []) :
    ∃ before a after, l = before ++ a :: after ∧ a ∈ part ∧ ∀ b ∈ before, b ∉ part := by
  induction l with
  | nil => exact absurd (List.subset_nil.mp inside) more
  | cons x l hypothesis =>
      by_cases here : x ∈ part
      · exact ⟨[], x, l, rfl, here, fun b absent => absurd absent List.not_mem_nil⟩
      · have rest : part ⊆ l := fun y member =>
          (List.mem_cons.mp (inside member)).resolve_left fun same => here (same ▸ member)
        obtain ⟨before, a, after, rfl, member, apart⟩ := hypothesis rest
        exact ⟨x :: before, a, after, rfl, member, List.forall_mem_cons.mpr ⟨here, apart⟩⟩

/-- An order in which no element is blocked by a later one shows that there is no cycle. -/
theorem acyclic_of_pairwise {items order : List A} (irreflexive : ∀ a, blocks a a = false)
    (inside : items ⊆ order)
    (free : order.Pairwise fun earlier later => blocks later earlier = false) :
    Acyclic blocks items := by
  intro part within stuck
  by_contra more
  obtain ⟨before, a, after, rfl, member, apart⟩ := first_of_part (List.Subset.trans within inside) more
  obtain ⟨b, held, blocked⟩ := stuck a member
  have somewhere := inside (within held)
  rw [List.mem_append, List.mem_cons] at somewhere
  rcases somewhere with early | rfl | late
  · exact apart b early held
  · rw [irreflexive] at blocked
    cases blocked
  · rw [(List.pairwise_cons.mp (List.pairwise_append.mp free).2.1).1 b late] at blocked
    cases blocked

/-- The schedule decides whether there is a cycle. -/
theorem acyclic_iff {items : List A} (irreflexive : ∀ a, blocks a a = false) :
    Acyclic blocks items ↔ (schedule blocks items.length items).Pairwise fun earlier later =>
      blocks later earlier = false := by
  constructor
  · exact pairwise_of_acyclic (Nat.le_refl _)
  · apply acyclic_of_pairwise irreflexive
    exact fun a member => (perm_schedule (Nat.le_refl _)).mem_iff.mpr member

/-- In a tight part every element is blocked by one of the part and blocks one of it. -/
structure Tight (blocks : A → A → Bool) (part : List A) : Prop where
  stuck : Stuck blocks part
  blocking : ∀ a ∈ part, ∃ b ∈ part, blocks a b = true

/-- A stuck part without the elements that block nothing is tight. -/
theorem Stuck.tight [DecidableEq A] {part : List A} (stuck : Stuck blocks part) (more : part ≠ []) :
    ∃ less ⊆ part, less ≠ [] ∧ Tight blocks less := by
  induction length : part.length using Nat.strongRecOn generalizing part with
  | ind n hypothesis =>
      by_cases blocking : ∀ a ∈ part, ∃ b ∈ part, blocks a b = true
      · exact ⟨part, List.Subset.refl _, more, stuck, blocking⟩
      · push Not at blocking
        obtain ⟨a, member, idle⟩ := blocking
        have sub : part.filter (· ≠ a) ⊆ part := List.filter_sublist.subset
        have kept : ∀ b ∈ part, ∀ x ∈ part, blocks b x = true → b ∈ part.filter (· ≠ a) := by
          intro b inside x target blocked
          refine List.mem_filter.mpr ⟨inside, decide_eq_true fun same => ?_⟩
          exact idle x target (same ▸ blocked)
        have less_stuck : Stuck blocks (part.filter (· ≠ a)) := by
          intro x inside
          obtain ⟨b, held, blocked⟩ := stuck x (sub inside)
          exact ⟨b, kept b held x (sub inside) blocked, blocked⟩
        obtain ⟨blocker, held, blocked⟩ := stuck a member
        have less_more := List.ne_nil_of_mem (kept blocker held a member blocked)
        have shorter : (part.filter (· ≠ a)).length < n := by
          rw [← length]
          exact List.length_filter_lt_length_iff_exists.mpr ⟨a, member, by simp⟩
        obtain ⟨less, within, some, tight⟩ := hypothesis _ shorter less_stuck less_more rfl
        exact ⟨less, List.Subset.trans within sub, some, tight⟩

/-- In a cycle an element comes before one that blocks it, and before one that it blocks. -/
theorem blocked_of_cyclic [DecidableEq A] {fuel : Nat} {items : List A}
    (enough : items.length ≤ fuel) (irreflexive : ∀ a, blocks a a = false)
    (cyclic : ¬ Acyclic blocks items) : ∃ before a after,
      schedule blocks fuel items = before ++ a :: after ∧ (∃ b ∈ after, blocks b a = true) ∧
        ∃ c ∈ after, blocks a c = true := by
  simp only [Acyclic, not_forall] at cyclic
  obtain ⟨part, inside, stuck, more⟩ := cyclic
  obtain ⟨less, within, some, tight⟩ := Stuck.tight stuck more
  have placed : less ⊆ schedule blocks fuel items := fun x member =>
    (perm_schedule enough).mem_iff.mpr (inside (within member))
  obtain ⟨before, a, after, split, member, apart⟩ := first_of_part placed some
  have later : ∀ x ∈ less, x ≠ a → x ∈ after := by
    intro x held other
    have somewhere := placed held
    rw [split, List.mem_append, List.mem_cons] at somewhere
    rcases somewhere with early | same | late
    · exact absurd held (apart x early)
    · exact absurd same other
    · exact late
  have other : ∀ x, blocks x a = true ∨ blocks a x = true → x ≠ a := by
    rintro x blocked rfl
    simp [irreflexive] at blocked
  obtain ⟨b, b_held, b_blocks⟩ := tight.stuck a member
  obtain ⟨c, c_held, c_blocked⟩ := tight.blocking a member
  exact ⟨before, a, after, split, ⟨b, later b b_held (other b (.inl b_blocks)), b_blocks⟩,
    c, later c c_held (other c (.inr c_blocked)), c_blocked⟩

end Schedule

end Dis86.Lib
