import Dis86.Lib.Outcome
import Mathlib.Data.List.Infix

namespace Dis86.Lib

/-- A run over a state keeps the state at which it stopped, also when it fails. -/
def Run (S E A : Type) := S → Outcome E A × S

namespace Run

variable {S E A B : Type}

def bind (x : Run S E A) (f : A → Run S E B) : Run S E B := fun s =>
  match x s with
  | (.ok a, s') => f a s'
  | (.err e, s') => (.err e, s')
  | (.panic, s') => (.panic, s')

instance : Monad (Run S E) where
  pure a := fun s => (.ok a, s)
  bind := bind

def fail (e : E) : Run S E A := fun s => (.err e, s)

/-- A question about the state leaves the state as it is. -/
def ask (f : S → Outcome E A) : Run S E A := fun s => (f s, s)

/-- A check fails with the error when its condition does not hold. -/
def check (c : Prop) [Decidable c] (e : E) : Run S E Unit := if c then pure () else fail e

theorem pure_eq (a : A) (s : S) : (pure a : Run S E A) s = (.ok a, s) := rfl

theorem bind_ok {x : Run S E A} {s middle : S} {a : A} (first : x s = (.ok a, middle))
    (f : A → Run S E B) : (x >>= f) s = f a middle := by
  show bind x f s = _
  unfold bind
  rw [first]

theorem bind_assoc {C : Type} (x : Run S E A) (f : A → Run S E B) (g : B → Run S E C) :
    x >>= f >>= g = x >>= fun a => f a >>= g := by
  funext s
  show bind (bind x f) g s = bind x (fun a => bind (f a) g) s
  unfold bind
  cases x s with
  | mk outcome s' => cases outcome <;> rfl

theorem ask_bind {f : S → Outcome E A} {s : S} {a : A} (answer : f s = .ok a)
    (g : A → Run S E B) : (ask f >>= g) s = g a s :=
  bind_ok (congrArg (·, s) answer) g

theorem pure_bind (a : A) (f : A → Run S E B) : pure a >>= f = f a := rfl

theorem fail_bind (e : E) (f : A → Run S E B) : (fail e >>= f : Run S E B) = fail e := rfl

theorem bind_eq_ok {x : Run S E A} {f : A → Run S E B} {s s' : S} {b : B} :
    (x >>= f) s = (.ok b, s') ↔ ∃ a middle, x s = (.ok a, middle) ∧ f a middle = (.ok b, s') := by
  show bind x f s = _ ↔ _
  unfold bind
  split <;> simp_all

theorem bind_eq_err {x : Run S E A} {f : A → Run S E B} {s s' : S} {e : E} :
    (x >>= f) s = (.err e, s') ↔
      x s = (.err e, s') ∨ ∃ a middle, x s = (.ok a, middle) ∧ f a middle = (.err e, s') := by
  show bind x f s = _ ↔ _
  unfold bind
  split <;> simp_all

theorem bind_panics {x : Run S E A} {f : A → Run S E B} {s : S} :
    ((x >>= f) s).1 = .panic ↔
      (x s).1 = .panic ∨ ∃ a middle, x s = (.ok a, middle) ∧ (f a middle).1 = .panic := by
  show (bind x f s).1 = _ ↔ _
  unfold bind
  split <;> simp_all

/-- Every value that the run returns has the property. -/
def Gives (run : Run S E A) (p : A → Prop) : Prop := ∀ s a s', run s = (.ok a, s') → p a

theorem Gives.pure {p : A → Prop} {a : A} (holds : p a) : Gives (pure a : Run S E A) p := by
  intro s b s' ran
  obtain ⟨same, _⟩ := Prod.mk.inj ran
  exact Outcome.ok.inj same ▸ holds

theorem Gives.fail {p : A → Prop} (e : E) : Gives (fail e : Run S E A) p := fun s a s' ran => by cases ran

theorem Gives.bind {x : Run S E A} {f : A → Run S E B} {p : A → Prop} {q : B → Prop} (first : Gives x p)
    (second : ∀ a, p a → Gives (f a) q) : Gives (x >>= f) q := by
  intro s b s' ran
  obtain ⟨a, middle, here, later⟩ := bind_eq_ok.mp ran
  exact second a (first s a middle here) middle b s' later

theorem Gives.any (x : Run S E A) : Gives x fun _ => True := fun _ _ _ _ => trivial

end Run

/-- A state that moves over a list, of which it still has the rest before it. -/
structure Cursor (S B : Type) where
  Valid : S → Prop
  rest : S → List B
  advance : S → Nat → S
  advance_zero : ∀ s, advance s 0 = s
  advance_add : ∀ s m n, advance (advance s m) n = advance s (m + n)
  rest_advance : ∀ s n, rest (advance s n) = (rest s).drop n
  valid_advance : ∀ s n, Valid s → n ≤ (rest s).length → Valid (advance s n)

namespace Cursor

variable {S E A B X : Type} (c : Cursor S X)

/-- The run moves over `used` elements, and its value depends on the first `seen` only. -/
structure Reads (run : Run S E A) (s : S) (a : A) (used seen : Nat) : Prop where
  used_le : used ≤ seen
  inside : seen ≤ (c.rest s).length
  same : ∀ t, c.Valid t → (c.rest s).take seen <+: c.rest t → run t = (.ok a, c.advance t used)

/-- A run that fails has moved over elements that exist. -/
def FailsInside (run : Run S E A) : Prop :=
  ∀ s e s', c.Valid s → run s = (.err e, s') → ∃ used ≤ (c.rest s).length, s' = c.advance s used

/-- A run is exact when it looks at just the elements that it moves over. -/
structure Exact (run : Run S E A) : Prop where
  reads : ∀ s a s', c.Valid s → run s = (.ok a, s') → ∃ used, c.Reads run s a used used
  fails : c.FailsInside run

def Safe (run : Run S E A) : Prop := ∀ s, c.Valid s → (run s).1 ≠ .panic

/-- An exact run that never panics. -/
structure Total (run : Run S E A) : Prop extends Exact c run where
  safe : c.Safe run

variable {c}

theorem Reads.run_eq {run : Run S E A} {s : S} {a : A} {used seen : Nat}
    (reads : c.Reads run s a used seen) (valid : c.Valid s) : run s = (.ok a, c.advance s used) :=
  reads.same s valid (List.take_prefix _ _)

theorem Reads.valid {run : Run S E A} {s : S} {a : A} {used seen : Nat}
    (reads : c.Reads run s a used seen) (valid : c.Valid s) : c.Valid (c.advance s used) :=
  c.valid_advance s used valid (reads.used_le.trans reads.inside)

theorem Reads.widen {run : Run S E A} {s : S} {a : A} {used seen more : Nat}
    (reads : c.Reads run s a used seen) (le : seen ≤ more) (inside : more ≤ (c.rest s).length) :
    c.Reads run s a used more where
  used_le := reads.used_le.trans le
  inside := inside
  same t valid starts :=
    reads.same t valid ((List.take_prefix_take_left le).trans starts)

/-- What a run has read, it reads in the same way wherever these elements stand. -/
theorem Reads.transfer {run : Run S E A} {s t : S} {a : A} {used : Nat}
    (reads : c.Reads run s a used used) (starts : (c.rest s).take used <+: c.rest t) :
    c.Reads run t a used used := by
  have length : ((c.rest s).take used).length = used := by
    rw [List.length_take, Nat.min_eq_left reads.inside]
  have inside : used ≤ (c.rest t).length := by
    have le := starts.length_le
    omega
  have same : (c.rest t).take used = (c.rest s).take used := by
    obtain ⟨more, whole⟩ := starts
    rw [← whole, List.take_append_of_le_length length.ge, List.take_of_length_le length.le]
  refine ⟨le_rfl, inside, fun u valid starts' => reads.same u valid ?_⟩
  rwa [← same]

theorem Reads.pure (s : S) (a : A) : c.Reads (pure a : Run S E A) s a 0 0 where
  used_le := le_rfl
  inside := Nat.zero_le _
  same t _ _ := by rw [Run.pure_eq, c.advance_zero]

theorem Reads.bind {x : Run S E A} {f : A → Run S E B} {s : S} {a : A} {b : B}
    {used seen used' seen' : Nat} (first : c.Reads x s a used seen)
    (second : c.Reads (f a) (c.advance s used) b used' seen') :
    c.Reads (x >>= f) s b (used + used') (max seen (used + seen')) := by
  have first_le := first.used_le
  have second_le := second.used_le
  have first_inside := first.inside
  have second_inside := second.inside
  rw [c.rest_advance, List.length_drop] at second_inside
  refine ⟨by omega, by omega, fun t valid starts => ?_⟩
  have near : (c.rest s).take seen <+: c.rest t :=
    (List.take_prefix_take_left (Nat.le_max_left _ _)).trans starts
  have moved : c.Valid (c.advance t used) := by
    have length_le := near.length_le
    rw [List.length_take] at length_le
    exact c.valid_advance t used valid (by omega)
  have far : (c.rest (c.advance s used)).take seen' <+: c.rest (c.advance t used) := by
    rw [c.rest_advance, c.rest_advance, List.take_drop]
    exact ((List.take_prefix_take_left (Nat.le_max_right seen _)).trans starts).drop used
  rw [Run.bind_ok (first.same t valid near), second.same _ moved far, c.advance_add]

theorem Exact.pure (a : A) : c.Exact (pure a : Run S E A) where
  reads s a' s' _ ran := by
    simp only [Run.pure_eq, Prod.mk.injEq, Outcome.ok.injEq] at ran
    obtain ⟨rfl, _⟩ := ran
    exact ⟨0, Reads.pure s a⟩
  fails s e s' _ ran := by simp [Run.pure_eq] at ran

theorem Exact.fail (e : E) : c.Exact (Run.fail e : Run S E A) where
  reads s a s' _ ran := by simp [Run.fail] at ran
  fails s e' s' _ ran := by
    simp only [Run.fail, Prod.mk.injEq] at ran
    exact ⟨0, Nat.zero_le _, by rw [c.advance_zero, ran.2]⟩

theorem FailsInside.bind {x : Run S E A} {f : A → Run S E B} (first : c.FailsInside x)
    (moves : ∀ s a s', c.Valid s → x s = (.ok a, s') → ∃ used seen, c.Reads x s a used seen)
    (second : ∀ a, c.FailsInside (f a)) : c.FailsInside (x >>= f) := by
  intro s e s' valid ran
  obtain ran | ⟨a, middle, ran, later⟩ := Run.bind_eq_err.mp ran
  · exact first s e s' valid ran
  · obtain ⟨used, seen, reads⟩ := moves s a middle valid ran
    have stop : middle = c.advance s used := by
      have same := reads.run_eq valid
      rw [ran] at same
      exact (Prod.mk.inj same).2
    subst stop
    obtain ⟨used', inside, rfl⟩ := second a _ e s' (reads.valid valid) later
    have first_inside := reads.used_le.trans reads.inside
    rw [c.rest_advance, List.length_drop] at inside
    exact ⟨used + used', by omega, by rw [c.advance_add]⟩

theorem Exact.bind {x : Run S E A} {f : A → Run S E B} (first : c.Exact x)
    (second : ∀ a, c.Exact (f a)) : c.Exact (x >>= f) where
  reads s b s' valid ran := by
    obtain ⟨a, middle, ran, later⟩ := Run.bind_eq_ok.mp ran
    obtain ⟨used, reads⟩ := first.reads s a middle valid ran
    have stop : middle = c.advance s used := by
      have same := reads.run_eq valid
      rw [ran] at same
      exact (Prod.mk.inj same).2
    subst stop
    obtain ⟨used', reads'⟩ := (second a).reads _ b s' (reads.valid valid) later
    refine ⟨used + used', ?_⟩
    have both := reads.bind reads'
    rwa [Nat.max_eq_right (Nat.le_add_right _ _)] at both
  fails := first.fails.bind
    (fun s a s' valid ran => (first.reads s a s' valid ran).imp fun used reads => ⟨used, reads⟩)
    fun a => (second a).fails

theorem Exact.moves {run : Run S E A} (exact : c.Exact run) (s : S) (a : A) (s' : S)
    (valid : c.Valid s) (ran : run s = (.ok a, s')) :
    ∃ used seen, c.Reads run s a used seen :=
  (exact.reads s a s' valid ran).imp fun used reads => ⟨used, reads⟩

theorem Safe.pure (a : A) : c.Safe (pure a : Run S E A) := fun s _ => by simp [Run.pure_eq]

theorem Safe.fail (e : E) : c.Safe (Run.fail e : Run S E A) := fun s _ => by simp [Run.fail]

theorem Safe.bind {x : Run S E A} {f : A → Run S E B}
    (moves : ∀ s a s', c.Valid s → x s = (.ok a, s') → ∃ used seen, c.Reads x s a used seen)
    (first : c.Safe x) (second : ∀ a, c.Safe (f a)) : c.Safe (x >>= f) := by
  intro s valid panics
  obtain panics | ⟨a, middle, ran, panics⟩ := Run.bind_panics.mp panics
  · exact first s valid panics
  · obtain ⟨used, seen, reads⟩ := moves s a middle valid ran
    have same := reads.run_eq valid
    rw [ran, Prod.mk.injEq] at same
    rw [same.2] at panics
    exact second a _ (reads.valid valid) panics

theorem Exact.const (outcome : Outcome E A) : c.Exact (Run.ask fun _ => outcome : Run S E A) where
  reads s a s' _ ran := by
    simp only [Run.ask, Prod.mk.injEq] at ran
    refine ⟨0, le_refl 0, Nat.zero_le _, fun t _ _ => ?_⟩
    rw [Run.ask, ran.1, c.advance_zero]
  fails s e s' _ ran := by
    simp only [Run.ask, Prod.mk.injEq] at ran
    exact ⟨0, Nat.zero_le _, by rw [c.advance_zero, ran.2]⟩

theorem Total.pure (a : A) : c.Total (pure a : Run S E A) := ⟨Exact.pure a, Safe.pure a⟩

theorem Total.fail (e : E) : c.Total (Run.fail e : Run S E A) := ⟨Exact.fail e, Safe.fail e⟩

theorem Total.const {outcome : Outcome E A} (safe : outcome.Safe) :
    c.Total (Run.ask fun _ => outcome : Run S E A) where
  toExact := Exact.const outcome
  safe s _ panics := by
    have stopped : outcome = .panic := panics
    subst stopped
    exact safe

theorem Total.check (condition : Prop) [Decidable condition] (e : E) :
    c.Total (Run.check condition e : Run S E Unit) := by
  unfold Run.check
  split
  · exact Total.pure ()
  · exact Total.fail e

theorem Total.bind {x : Run S E A} {f : A → Run S E B} (first : c.Total x)
    (second : ∀ a, c.Total (f a)) : c.Total (x >>= f) where
  toExact := first.toExact.bind fun a => (second a).toExact
  safe := Safe.bind first.toExact.moves first.safe fun a => (second a).safe

/-- A peek looks at the next element and stays before it. -/
structure Peeks (c : Cursor S X) (peek : Run S E X) (ended : E) : Prop where
  cons : ∀ s b tail, c.Valid s → c.rest s = b :: tail → peek s = (.ok b, s)
  nil : ∀ s, c.Valid s → c.rest s = [] → peek s = (.err ended, s)

/-- The run does not return at the end of the list. -/
def NeedsMore (c : Cursor S X) (run : Run S E A) : Prop :=
  ∀ s a s', c.Valid s → c.rest s = [] → run s ≠ (.ok a, s')

/-- An exact run would return at the end if it had not moved. -/
theorem Reads.used_pos {run : Run S E A} {s : S} {a : A} {used : Nat}
    (reads : c.Reads run s a used used) (needs : c.NeedsMore run) (valid : c.Valid s) :
    1 ≤ used := by
  by_contra still
  obtain rfl : used = 0 := by omega
  let stop := c.advance s (c.rest s).length
  have rest : c.rest stop = [] := by
    rw [c.rest_advance, List.drop_length]
  have valid' : c.Valid stop := c.valid_advance s _ valid le_rfl
  exact needs stop a _ valid' rest (reads.same stop valid' (List.nil_prefix))

/-- A peek is exact when what follows moves over the element. -/
theorem Peeks.exact_bind {peek : Run S E X} {ended : E} (peeks : c.Peeks peek ended)
    {f : X → Run S E B} (second : ∀ b, c.Exact (f b)) (needs : ∀ b, c.NeedsMore (f b)) :
    c.Exact (peek >>= f) where
  reads s a s' valid ran := by
    obtain ⟨b, middle, peeked, ran⟩ := Run.bind_eq_ok.mp ran
    cases rest : c.rest s with
    | nil => simp [peeks.nil s valid rest] at peeked
    | cons head tail =>
        simp only [peeks.cons s head tail valid rest, Prod.mk.injEq, Outcome.ok.injEq] at peeked
        obtain ⟨rfl, rfl⟩ := peeked
        obtain ⟨used, reads⟩ := (second head).reads s a s' valid ran
        have used_pos := reads.used_pos (needs head) valid
        refine ⟨used, le_refl used, reads.inside, fun t valid' starts => ?_⟩
        obtain ⟨more, same⟩ := starts
        rw [rest, show used = (used - 1) + 1 by omega, List.take_succ_cons, List.cons_append] at same
        rw [Run.bind_ok (peeks.cons t head _ valid' same.symm)]
        refine reads.same t valid' ⟨more, ?_⟩
        rw [rest, show used = (used - 1) + 1 by omega, List.take_succ_cons, List.cons_append, same]
  fails s e s' valid ran := by
    cases rest : c.rest s with
    | nil =>
        obtain ran | ⟨b, middle, peeked, _⟩ := Run.bind_eq_err.mp ran
        · simp only [peeks.nil s valid rest, Prod.mk.injEq] at ran
          exact ⟨0, Nat.zero_le _, by rw [c.advance_zero, ran.2]⟩
        · simp [peeks.nil s valid rest] at peeked
    | cons head tail =>
        rw [Run.bind_ok (peeks.cons s head tail valid rest)] at ran
        rw [← rest]
        exact (second head).fails s e s' valid ran

theorem Peeks.safe_bind {peek : Run S E X} {ended : E} (peeks : c.Peeks peek ended)
    {f : X → Run S E B} (second : ∀ b, c.Safe (f b)) : c.Safe (peek >>= f) := by
  intro s valid panics
  obtain panics | ⟨b, middle, peeked, panics⟩ := Run.bind_panics.mp panics
  · cases rest : c.rest s with
    | nil => simp [peeks.nil s valid rest] at panics
    | cons head tail => simp [peeks.cons s head tail valid rest] at panics
  · cases rest : c.rest s with
    | nil => simp [peeks.nil s valid rest] at peeked
    | cons head tail =>
        simp only [peeks.cons s head tail valid rest, Prod.mk.injEq] at peeked
        rw [← peeked.2] at panics
        exact second b s valid panics

/-- The run moves over that many elements if they are there, and fails if they are not. -/
structure Takes (c : Cursor S X) (run : Run S E A) (count : Nat) : Prop where
  enough : ∀ s, c.Valid s → count ≤ (c.rest s).length →
    ∃ a, run s = (.ok a, c.advance s count)
  short : ∀ s, c.Valid s → (c.rest s).length < count → ∃ e s', run s = (.err e, s')

theorem Takes.pure (a : A) : c.Takes (pure a : Run S E A) 0 where
  enough s _ _ := ⟨a, by rw [c.advance_zero]; rfl⟩
  short s _ few := absurd few (Nat.not_lt_zero _)

theorem Takes.const {outcome : Outcome E A} {a : A} (returned : outcome = .ok a) :
    c.Takes (Run.ask fun _ => outcome : Run S E A) 0 where
  enough s _ _ := ⟨a, by rw [returned, c.advance_zero]; rfl⟩
  short s _ few := absurd few (Nat.not_lt_zero _)

theorem Takes.bind {x : Run S E A} {f : A → Run S E B} {m n : Nat} (first : c.Takes x m)
    (second : ∀ a, c.Takes (f a) n) : c.Takes (x >>= f) (m + n) where
  enough s valid count := by
    obtain ⟨a, ran⟩ := first.enough s valid (by omega)
    have valid' := c.valid_advance s m valid (by omega)
    obtain ⟨b, ran'⟩ := (second a).enough _ valid' (by
      rw [c.rest_advance, List.length_drop]
      omega)
    exact ⟨b, by rw [Run.bind_ok ran, ran', c.advance_add]⟩
  short s valid few := by
    by_cases count : m ≤ (c.rest s).length
    · obtain ⟨a, ran⟩ := first.enough s valid count
      have valid' := c.valid_advance s m valid count
      obtain ⟨e, s', ran'⟩ := (second a).short _ valid' (by
        rw [c.rest_advance, List.length_drop]
        omega)
      exact ⟨e, s', by rw [Run.bind_ok ran, ran']⟩
    · obtain ⟨e, s', ran⟩ := first.short s valid (by omega)
      exact ⟨e, s', Run.bind_eq_err.mpr (.inl ran)⟩

end Cursor

end Dis86.Lib
