import Mathlib.Data.List.Basic
import Mathlib.Tactic.Common

namespace Dis86.Lib

/-- A run returns a value, reports an error, or panics. -/
inductive Outcome (E A : Type) where
  | ok (a : A)
  | err (e : E)
  | panic
deriving DecidableEq, Repr

namespace Outcome

variable {E A B : Type}

def bind (x : Outcome E A) (f : A → Outcome E B) : Outcome E B :=
  match x with
  | .ok a => f a
  | .err e => .err e
  | .panic => .panic

instance : Monad (Outcome E) where
  pure := .ok
  bind := bind

/-- An assertion panics when it fails. -/
def require (c : Prop) [Decidable c] : Outcome E Unit := if c then .ok () else .panic

/-- A check reports an error when it fails. -/
def check (c : Prop) [Decidable c] (e : E) : Outcome E Unit := if c then .ok () else .err e

/-- A missing value panics. -/
def unwrap : Option A → Outcome E A
  | some a => .ok a
  | none => .panic

/-- The run does not panic, and a value that it returns has the property. -/
def Returns (x : Outcome E A) (p : A → Prop) : Prop :=
  match x with
  | .ok a => p a
  | .err _ => True
  | .panic => False

def isPanic : Outcome E A → Bool
  | .panic => true
  | _ => false

theorem isPanic_iff {x : Outcome E A} : x.isPanic = true ↔ x = .panic := by
  cases x <;> simp [isPanic]

/-- The run returns a value that passes the test. -/
def yields (x : Outcome E A) (test : A → Bool) : Bool :=
  match x with
  | .ok a => test a
  | _ => false

theorem yields_iff {x : Outcome E A} {test : A → Bool} :
    x.yields test = true ↔ ∃ a, x = .ok a ∧ test a = true := by
  cases x <;> simp [yields]

/-- The run does not panic. -/
def Safe (x : Outcome E A) : Prop := x.Returns fun _ => True

@[simp] theorem returns_ok (a : A) (p : A → Prop) : (ok a : Outcome E A).Returns p ↔ p a := Iff.rfl

@[simp] theorem returns_pure (a : A) (p : A → Prop) :
    (pure a : Outcome E A).Returns p ↔ p a := Iff.rfl

@[simp] theorem returns_err (e : E) (p : A → Prop) : (err e : Outcome E A).Returns p ↔ True := Iff.rfl

@[simp] theorem returns_panic (p : A → Prop) : (panic : Outcome E A).Returns p ↔ False := Iff.rfl

@[simp] theorem returns_bind (x : Outcome E A) (f : A → Outcome E B) (p : B → Prop) :
    (x >>= f).Returns p ↔ x.Returns fun a => (f a).Returns p := by
  cases x <;> exact Iff.rfl

@[simp] theorem returns_require (c : Prop) [Decidable c] (p : Unit → Prop) :
    (require c : Outcome E Unit).Returns p ↔ c ∧ p () := by
  unfold require
  split <;> simp [*]

@[simp] theorem returns_check (c : Prop) [Decidable c] (e : E) (p : Unit → Prop) :
    (check c e).Returns p ↔ (c → p ()) := by
  unfold check
  split <;> simp [*]

@[simp] theorem returns_unwrap (value : Option A) (p : A → Prop) :
    (unwrap value : Outcome E A).Returns p ↔ ∃ a, value = some a ∧ p a := by
  cases value <;> simp [unwrap]

theorem ok_bind (a : A) (f : A → Outcome E B) : ok a >>= f = f a := rfl

theorem bind_eq_ok {x : Outcome E A} {f : A → Outcome E B} {b : B} :
    x >>= f = .ok b ↔ ∃ a, x = .ok a ∧ f a = .ok b := by
  cases x with
  | ok a => exact ⟨fun same => ⟨a, rfl, same⟩, fun ⟨_, same, ran⟩ => ok.inj same ▸ ran⟩
  | err e => exact ⟨nofun, nofun⟩
  | panic => exact ⟨nofun, nofun⟩

theorem require_eq_ok {c : Prop} [Decidable c] {u : Unit} :
    (require c : Outcome E Unit) = .ok u ↔ c := by
  unfold require
  split <;> simp [*]

theorem unwrap_eq_ok {value : Option A} {a : A} :
    (unwrap value : Outcome E A) = .ok a ↔ value = some a := by
  cases value <;> simp [unwrap]

theorem require_pos {c : Prop} [Decidable c] (holds : c) :
    (require c : Outcome E Unit) = .ok () := if_pos holds

theorem Returns.mono {x : Outcome E A} {p q : A → Prop} (returns : x.Returns p)
    (weaker : ∀ a, x = .ok a → p a → q a) : x.Returns q := by
  cases x with
  | ok a => exact weaker a rfl returns
  | err e => trivial
  | panic => exact returns

theorem Returns.of_ok {x : Outcome E A} {p : A → Prop} {a : A} (returns : x.Returns p)
    (same : x = .ok a) : p a := by
  subst same
  exact returns

end Outcome

end Dis86.Lib
