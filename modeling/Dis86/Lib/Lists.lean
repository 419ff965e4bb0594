import Mathlib.Data.List.Basic
import Mathlib.Data.List.Forall2
import Mathlib.Data.List.Nodup
import Mathlib.Tactic.Common

namespace Dis86.Lib

section Pairs

variable {A B : Type} {R S : A → B → Prop} {as : List A} {bs : List B}

/-- Each element of the first list has its partner in the second one. -/
theorem exists_partner (all : List.Forall₂ R as bs) {a : A} (inside : a ∈ as) : ∃ b ∈ bs, R a b := by
  induction all with
  | nil => exact absurd inside List.not_mem_nil
  | @cons x y _ _ here _ hypothesis =>
      rcases List.mem_cons.mp inside with rfl | later
      · exact ⟨y, List.mem_cons_self, here⟩
      · obtain ⟨b, held, related⟩ := hypothesis later
        exact ⟨b, List.mem_cons_of_mem y held, related⟩

theorem exists_partner_right (all : List.Forall₂ R as bs) {b : B} (inside : b ∈ bs) :
    ∃ a ∈ as, R a b :=
  exists_partner all.flip inside

theorem forall₂_imp_mem (all : List.Forall₂ R as bs) (imp : ∀ a ∈ as, ∀ b ∈ bs, R a b → S a b) :
    List.Forall₂ S as bs := by
  induction all with
  | nil => exact .nil
  | @cons a b _ _ here _ hypothesis =>
      apply List.Forall₂.cons (imp a List.mem_cons_self b List.mem_cons_self here)
      exact hypothesis fun x inside y among =>
        imp x (List.mem_cons_of_mem a inside) y (List.mem_cons_of_mem b among)

theorem mapM_eq_some {f : A → Option B} :
    as.mapM f = some bs ↔ List.Forall₂ (fun a b => f a = some b) as bs := by
  induction as generalizing bs with
  | nil =>
      rw [List.mapM_nil, List.forall₂_nil_left_iff]
      exact ⟨fun same => (Option.some.inj same).symm, fun same => by rw [same]; rfl⟩
  | cons a as hypothesis =>
      simp only [List.mapM_cons, Option.bind_eq_bind, Option.bind_eq_some_iff, Option.pure_def,
        Option.some.injEq, List.forall₂_cons_left_iff, hypothesis]
      constructor
      · rintro ⟨b, first, rest, others, rfl⟩
        exact ⟨b, rest, first, others, rfl⟩
      · rintro ⟨b, rest, first, others, rfl⟩
        exact ⟨b, first, rest, others, rfl⟩

end Pairs

section Splits

variable {A : Type} {l l' front front' back back' : List A} {x y : A}

theorem exists_pair (long : 2 ≤ l.length) : ∃ a b rest, l = a :: b :: rest := by
  match l with
  | [] | [_] => simp at long
  | a :: b :: rest => exact ⟨a, b, rest, rfl⟩

theorem eq_cons_cons (first : l[0]? = some x) (second : l[1]? = some y) :
    ∃ rest, l = x :: y :: rest := by
  match l with
  | [] => cases first
  | [_] => cases second
  | a :: c :: rest =>
      cases first
      cases second
      exact ⟨rest, rfl⟩

/-- A list without duplicates is divided in one way at each of its elements. -/
theorem split_unique (distinct : l.Nodup)
    (split : l = front ++ x :: back) (split' : l = front' ++ x :: back') : front = front' ∧ back = back' := by
  have outside' := List.nodup_middle.mp (split' ▸ distinct)
  rw [List.nodup_cons, List.mem_append, not_or] at outside'
  have outside := List.nodup_middle.mp (split ▸ distinct)
  rw [List.nodup_cons, List.mem_append, not_or] at outside
  obtain ⟨sameFront, _, sameBack⟩ :=
    (List.append_cons_inj_of_notMem outside.1.1 outside.1.2).mp (split.symm.trans split')
  exact ⟨sameFront, sameBack⟩

theorem mem_of_split (same : l ++ x :: back = l' ++ y :: back') (fresh : x ∉ l') (differs : y ≠ x) : y ∈ l := by
  induction l generalizing l' with
  | nil =>
      cases l' with
      | nil => exact absurd (List.cons.inj same).1.symm differs
      | cons c l' =>
          obtain rfl := (List.cons.inj same).1
          exact absurd List.mem_cons_self fresh
  | cons c l hypothesis =>
      cases l' with
      | nil =>
          obtain rfl := (List.cons.inj same).1
          exact List.mem_cons_self
      | cons d l' =>
          apply List.mem_cons_of_mem
          exact hypothesis (List.cons.inj same).2 fun inside => fresh (List.mem_cons_of_mem d inside)

/-- Behind its first failure, a property that holds on a front of a list fails everywhere. -/
theorem not_of_mem_dropWhile {p : A → Bool} (front : l.Pairwise fun a b => p b = true → p a = true)
    (behind : x ∈ l.dropWhile p) : p x = false := by
  induction l with
  | nil => cases behind
  | cons a l hypothesis =>
      obtain ⟨first, rest⟩ := List.pairwise_cons.mp front
      by_cases holds : p a = true
      · rw [List.dropWhile_cons_of_pos holds] at behind
        exact hypothesis rest behind
      · rw [List.dropWhile_cons_of_neg holds] at behind
        rw [Bool.not_eq_true] at holds
        rcases List.mem_cons.mp behind with rfl | later
        · exact holds
        · by_contra other
          rw [first x later (Bool.not_eq_false _ ▸ other)] at holds
          cases holds

end Splits

end Dis86.Lib
