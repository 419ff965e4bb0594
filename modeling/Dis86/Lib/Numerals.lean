import Mathlib.Algebra.Order.Ring.Nat
import Mathlib.Data.List.Induction
import Mathlib.Tactic.Common

namespace Dis86.Lib

/-- The number that digits denote, the leading digit first. -/
def numeral (base : Nat) (digits : List Nat) : Nat := digits.foldl (fun n d => base * n + d) 0

/-- The number is read digit by digit modulo a bound, and given up where it goes down. -/
def accumulate (base modulus : Nat) : Nat → List Nat → Option Nat
  | n, [] => some n
  | n, d :: digits =>
      if (base * n + d) % modulus < n then none else accumulate base modulus ((base * n + d) % modulus) digits

/-- Some digit makes the number modulo the bound smaller than it was before the digit. -/
def Drops (base modulus : Nat) (digits : List Nat) : Prop := ∃ front d back, digits = front ++ d :: back ∧
  numeral base (front ++ [d]) % modulus < numeral base front % modulus

section Numeral

variable {base modulus d n : Nat} {digits front back : List Nat}

@[simp] theorem numeral_nil : numeral base [] = 0 := rfl

@[simp] theorem numeral_snoc : numeral base (front ++ [d]) = base * numeral base front + d := by
  rw [numeral, List.foldl_append]
  rfl

theorem numeral_le_append (positive : 0 < base) : numeral base front ≤ numeral base (front ++ back) := by
  induction back using List.reverseRecOn with
  | nil => rw [List.append_nil]
  | append_singleton back d hypothesis =>
      rw [← List.append_assoc, numeral_snoc]
      have grows := Nat.le_mul_of_pos_left (numeral base (front ++ back)) positive
      omega

theorem numeral_snoc_mod : numeral base (front ++ [d]) % modulus =
    (base * (numeral base front % modulus) + d) % modulus := by
  rw [numeral_snoc, Nat.add_mod, Nat.mul_mod]
  conv_rhs => rw [Nat.add_mod, Nat.mul_mod, Nat.mod_mod]

theorem Drops.append (drops : Drops base modulus front) : Drops base modulus (front ++ back) := by
  obtain ⟨first, d, rest, rfl, down⟩ := drops
  exact ⟨first, d, rest ++ back, by simp, down⟩

/-- A number below the bound is never seen to go down. -/
theorem not_drops_of_lt (positive : 0 < base) (small : numeral base digits < modulus) :
    ¬ Drops base modulus digits := by
  rintro ⟨front, d, back, rfl, down⟩
  have whole : numeral base (front ++ [d]) ≤ numeral base (front ++ d :: back) := by
    rw [show front ++ d :: back = front ++ [d] ++ back by simp]
    exact numeral_le_append positive
  have part : numeral base front ≤ numeral base (front ++ [d]) := numeral_le_append positive
  rw [Nat.mod_eq_of_lt (whole.trans_lt small), Nat.mod_eq_of_lt ((part.trans whole).trans_lt small)] at down
  omega

/-- A number that has passed the bound unseen stays large modulo the bound. -/
theorem lt_of_not_drops (digit : ∀ d ∈ digits, d < base) (large : modulus ≤ numeral base digits)
    (never : ¬ Drops base modulus digits) (positive : 0 < modulus) :
    modulus < base * (numeral base digits % modulus) + base := by
  induction digits using List.reverseRecOn with
  | nil =>
      rw [numeral_nil] at large
      omega
  | append_singleton front d hypothesis =>
      have last := digit d (List.mem_append_right front List.mem_cons_self)
      have up : numeral base front % modulus ≤ numeral base (front ++ [d]) % modulus := by
        by_contra down
        exact never ⟨front, d, [], rfl, Nat.not_le.mp down⟩
      have scaled := Nat.mul_le_mul_left base up
      by_cases passed : modulus ≤ numeral base front
      · have earlier := hypothesis (fun d inside => digit d (List.mem_append_left _ inside)) passed
          fun drops => never drops.append
        omega
      · rw [Nat.mod_eq_of_lt (Nat.not_le.mp passed)] at scaled
        rw [numeral_snoc] at large
        omega

/-- Reading on from the digits before. -/
theorem accumulate_append_eq_some : accumulate base modulus (numeral base front % modulus) digits = some n ↔
    (∀ middle d back, digits = middle ++ d :: back →
      numeral base (front ++ middle) % modulus ≤ numeral base (front ++ middle ++ [d]) % modulus) ∧
    n = numeral base (front ++ digits) % modulus := by
  induction digits generalizing front with
  | nil => simp [accumulate, eq_comm]
  | cons d digits hypothesis =>
      rw [accumulate, ← numeral_snoc_mod]
      have whole : front ++ [d] ++ digits = front ++ d :: digits := by simp
      split
      · rename_i down
        refine ⟨fun read => (by cases read), fun ⟨up, _⟩ => ?_⟩
        have first := up [] d digits rfl
        rw [List.append_nil] at first
        omega
      · rename_i first
        rw [hypothesis, whole]
        apply and_congr_left
        intro _
        constructor
        · intro up middle e back split
          cases middle with
          | nil =>
              obtain ⟨rfl, rfl⟩ := List.cons.inj split
              rw [List.append_nil]
              exact Nat.not_lt.mp first
          | cons f middle =>
              obtain ⟨rfl, rfl⟩ := List.cons.inj split
              have later := up middle e back rfl
              simpa using later
        · intro up middle e back split
          have later := up (d :: middle) e back (by rw [split]; rfl)
          simpa using later

/-- The number is read to its end just when it never goes down. -/
theorem accumulate_eq_some : accumulate base modulus 0 digits = some n ↔
    ¬ Drops base modulus digits ∧ n = numeral base digits % modulus := by
  have start : numeral base [] % modulus = 0 := Nat.zero_mod modulus
  have whole : accumulate base modulus (numeral base [] % modulus) digits = some n ↔ _ :=
    accumulate_append_eq_some
  rw [start] at whole
  rw [whole]
  apply and_congr_left
  intro _
  constructor
  · rintro up ⟨middle, d, back, split, down⟩
    have first := up middle d back split
    exact absurd down (Nat.not_lt.mpr first)
  · intro never middle d back split
    by_contra down
    exact never ⟨middle, d, back, split, Nat.not_le.mp down⟩

end Numeral

end Dis86.Lib
