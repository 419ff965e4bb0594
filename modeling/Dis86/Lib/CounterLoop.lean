import Mathlib.Data.BitVec
import Mathlib.Data.List.Range
import Mathlib.Tactic.Common
import Mathlib.Logic.Function.Iterate

namespace Dis86.Lib

variable {w : Nat} {S : Type}

/-- Two bodies that agree on the elements of a list fold it alike. -/
theorem foldlM_congr {A : Type} {f g : S → A → Option S} {l : List A} (same : ∀ a ∈ l, ∀ s, f s a = g s a)
    (s : S) : l.foldlM f s = l.foldlM g s := by
  induction l generalizing s with
  | nil => rfl
  | cons a rest ih =>
      rw [List.foldlM_cons, List.foldlM_cons, same a List.mem_cons_self]
      congr 1
      funext s
      exact ih (fun b inside => same b (List.mem_cons_of_mem _ inside)) s

/-- A loop whose counter wraps runs upwards through an inclusive bound, as long as the fuel lasts. -/
def loopUp (body : BitVec w → S → Option S) (bound : BitVec w) : Nat → BitVec w → S → Option S
  | 0, _, _ => none
  | fuel + 1, counter, s =>
      if counter ≤ bound then do loopUp body bound fuel (counter + 1) (← body counter s) else some s

/-- The same loop runs downwards. -/
def loopDown (body : BitVec w → S → Option S) (bound : BitVec w) : Nat → BitVec w → S → Option S
  | 0, _, _ => none
  | fuel + 1, counter, s =>
      if bound ≤ counter then do loopDown body bound fuel (counter - 1) (← body counter s) else some s

/-- The values of a counter from a start, as many as wanted. -/
def countUp (w start count : Nat) : List (BitVec w) := (List.range' start count).map (BitVec.ofNat w)

theorem countUp_succ (w start count : Nat) :
    countUp w start (count + 1) = BitVec.ofNat w start :: countUp w (start + 1) count := by
  simp [countUp, List.range'_succ]

theorem mem_countUp {start count : Nat} (fits : start + count ≤ 2 ^ w) {counter : BitVec w} :
    counter ∈ countUp w start count ↔ start ≤ counter.toNat ∧ counter.toNat < start + count := by
  simp only [countUp, List.mem_map, List.mem_range'_1]
  constructor
  · rintro ⟨n, inside, rfl⟩
    rw [BitVec.toNat_ofNat, Nat.mod_eq_of_lt (by omega)]
    exact inside
  · intro inside
    exact ⟨counter.toNat, inside, BitVec.ofNat_toNat w counter ▸ BitVec.setWidth_eq counter⟩

theorem loopUp_ofNat (body : BitVec w → S → Option S) {bound : BitVec w} {start count fuel : Nat}
    (ending : start + count = bound.toNat + 1) (room : bound.toNat + 1 < 2 ^ w) (enough : count < fuel) (s : S) :
    loopUp body bound fuel (.ofNat w start) s = (countUp w start count).foldlM (fun s i => body i s) s := by
  induction count generalizing start fuel s with
  | zero =>
      obtain ⟨fuel, rfl⟩ : ∃ less, fuel = less + 1 := ⟨fuel - 1, by omega⟩
      have past : ¬(BitVec.ofNat w start ≤ bound) := by
        rw [BitVec.le_def, BitVec.toNat_ofNat, Nat.mod_eq_of_lt (by omega)]
        omega
      rw [loopUp, if_neg past]
      rfl
  | succ count ih =>
      obtain ⟨fuel, rfl⟩ : ∃ less, fuel = less + 1 := ⟨fuel - 1, by omega⟩
      have reached : BitVec.ofNat w start ≤ bound := by
        rw [BitVec.le_def, BitVec.toNat_ofNat, Nat.mod_eq_of_lt (by omega)]
        omega
      have next : BitVec.ofNat w start + 1 = BitVec.ofNat w (start + 1) := by
        rw [BitVec.ofNat_add]
        rfl
      rw [loopUp, if_pos reached, countUp_succ, List.foldlM_cons, next]
      congr 1
      funext s
      exact ih (by omega) (by omega) s

/-- Below the greatest value of the counter the loop visits every value once and stops. -/
theorem loopUp_eq (body : BitVec w → S → Option S) {bound start : BitVec w} {count fuel : Nat}
    (ending : start.toNat + count = bound.toNat + 1) (room : bound.toNat + 1 < 2 ^ w) (enough : count < fuel)
    (s : S) : loopUp body bound fuel start s =
      (countUp w start.toNat count).foldlM (fun s i => body i s) s := by
  rw [← loopUp_ofNat body ending room enough s, BitVec.ofNat_toNat, BitVec.setWidth_eq]

theorem loopDown_ofNat (body : BitVec w → S → Option S) {bound : BitVec w} {count fuel : Nat}
    (positive : 0 < bound.toNat) (fits : bound.toNat + count ≤ 2 ^ w) (enough : count < fuel) (s : S) :
    loopDown body bound fuel (.ofNat w (bound.toNat + count - 1)) s =
      (countUp w bound.toNat count).reverse.foldlM (fun s i => body i s) s := by
  induction count generalizing fuel s with
  | zero =>
      obtain ⟨fuel, rfl⟩ : ∃ less, fuel = less + 1 := ⟨fuel - 1, by omega⟩
      have small := bound.isLt
      have past : ¬(bound ≤ BitVec.ofNat w (bound.toNat + 0 - 1)) := by
        rw [BitVec.le_def, BitVec.toNat_ofNat, Nat.mod_eq_of_lt (by omega)]
        omega
      rw [loopDown, if_neg past]
      rfl
  | succ count ih =>
      obtain ⟨fuel, rfl⟩ : ∃ less, fuel = less + 1 := ⟨fuel - 1, by omega⟩
      have reached : bound ≤ BitVec.ofNat w (bound.toNat + (count + 1) - 1) := by
        rw [BitVec.le_def, BitVec.toNat_ofNat, Nat.mod_eq_of_lt (by omega)]
        omega
      have next : BitVec.ofNat w (bound.toNat + (count + 1) - 1) - 1 = BitVec.ofNat w (bound.toNat + count - 1) := by
        apply BitVec.eq_of_toNat_eq
        simp only [BitVec.toNat_sub, BitVec.toNat_ofNat]
        have small := bound.isLt
        rcases Nat.eq_zero_or_pos w with zero | wide
        · subst zero
          omega
        · have one : (1 : BitVec w).toNat = 1 := Nat.mod_eq_of_lt (Nat.one_lt_two_pow (by omega))
          rw [one, Nat.mod_eq_of_lt (show bound.toNat + (count + 1) - 1 < 2 ^ w by omega),
            Nat.mod_eq_of_lt (show bound.toNat + count - 1 < 2 ^ w by omega),
            show 2 ^ w - 1 + (bound.toNat + (count + 1) - 1) = (bound.toNat + count - 1) + 2 ^ w by omega,
            Nat.add_mod_right, Nat.mod_eq_of_lt (by omega)]
      have split : countUp w bound.toNat (count + 1) =
          countUp w bound.toNat count ++ [BitVec.ofNat w (bound.toNat + (count + 1) - 1)] := by
        simp [countUp, List.range'_concat]
      rw [loopDown, if_pos reached, split, List.reverse_append, List.reverse_singleton, List.singleton_append,
        List.foldlM_cons, next]
      congr 1
      funext s
      exact ih (by omega) (by omega) s

/-- Above zero the downward loop visits every value once and stops. -/
theorem loopDown_eq (body : BitVec w → S → Option S) {bound start : BitVec w} {count fuel : Nat}
    (positive : 0 < bound.toNat) (ending : bound.toNat + count = start.toNat + 1) (enough : count < fuel) (s : S) :
    loopDown body bound fuel start s =
      (countUp w bound.toNat count).reverse.foldlM (fun s i => body i s) s := by
  have small := start.isLt
  rw [← loopDown_ofNat body positive (by omega) enough s, ending, Nat.add_sub_cancel, BitVec.ofNat_toNat,
    BitVec.setWidth_eq]

end Dis86.Lib

namespace Dis86.Lib

variable {S T : Type}

/-- The loop `while (n) { body; n--; if (stop) break; }` ends with the count that is left and the
state. -/
def countdown (body : S → S × Bool) : Nat → S → Nat × S
  | 0, s => (0, s)
  | n + 1, s => if (body s).2 then (n, (body s).1) else countdown body n (body s).1

variable {body : S → S × Bool} {s : S} {n : Nat}

theorem countdown_le (body : S → S × Bool) (n : Nat) (s : S) : (countdown body n s).1 ≤ n := by
  induction n generalizing s with
  | zero => exact Nat.le_refl 0
  | succ n hypothesis =>
      rw [countdown]
      split
      · exact Nat.le_succ n
      · exact Nat.le_trans (hypothesis (body s).1) (Nat.le_succ n)

theorem countdown_lt (body : S → S × Bool) (some : 0 < n) (s : S) : (countdown body n s).1 < n := by
  cases n with
  | zero => exact absurd some (Nat.lt_irrefl 0)
  | succ n =>
      rw [countdown]
      split
      · exact Nat.lt_succ_self n
      · exact Nat.lt_succ_of_le (countdown_le body n (body s).1)

/-- The state is that of as many rounds as have been counted. -/
theorem countdown_state (body : S → S × Bool) (n : Nat) (s : S) :
    (countdown body n s).2 = (fun s => (body s).1)^[n - (countdown body n s).1] s := by
  induction n generalizing s with
  | zero => rfl
  | succ n hypothesis =>
      rw [countdown]
      split
      · rw [Nat.add_sub_cancel_left]
        rfl
      · rw [Nat.sub_add_comm (countdown_le body n _), Function.iterate_succ_apply]
        exact hypothesis (body s).1

/-- A loop that never breaks counts down to zero. -/
theorem countdown_never (never : ∀ s, (body s).2 = false) (n : Nat) (s : S) :
    (countdown body n s).1 = 0 := by
  induction n generalizing s with
  | zero => rfl
  | succ n hypothesis =>
      rw [countdown, never s]
      exact hypothesis (body s).1

/-- Two loops whose rounds keep a relation and break together count alike. -/
theorem countdown_simulates {body' : T → T × Bool} {R : S → T → Prop}
    (round : ∀ s t, R s t → R (body s).1 (body' t).1 ∧ (body s).2 = (body' t).2)
    (n : Nat) {s : S} {t : T} (start : R s t) :
    (countdown body n s).1 = (countdown body' n t).1 := by
  induction n generalizing s t with
  | zero => rfl
  | succ n hypothesis =>
      obtain ⟨related, together⟩ := round s t start
      rw [countdown, countdown, together]
      split
      · rfl
      · exact hypothesis related

/-- Two iterations agree up to a bound just when the first step acts as the second one on each
state that the second one passes. -/
theorem iterates_agree_iff {f g : S → S} {s : S} {bound : Nat} :
    (∀ n ≤ bound, f^[n] s = g^[n] s) ↔ ∀ n < bound, f (g^[n] s) = g (g^[n] s) := by
  constructor
  · intro agree n below
    have before := agree n (Nat.le_of_lt below)
    have after := agree (n + 1) below
    rw [Function.iterate_succ_apply', Function.iterate_succ_apply', before] at after
    exact after
  · intro steps n within
    induction n with
    | zero => rfl
    | succ n hypothesis =>
        rw [Function.iterate_succ_apply', Function.iterate_succ_apply',
          hypothesis (Nat.le_of_succ_le within)]
        exact steps n within

end Dis86.Lib
