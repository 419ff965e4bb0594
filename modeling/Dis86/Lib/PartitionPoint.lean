import Mathlib.Data.List.TakeWhile
import Mathlib.Tactic.Common

namespace Dis86.Lib

variable {A : Type}

/-- The part between two positions is halved until nothing is left of it. -/
def partitionPointIn (p : A → Bool) (items : List A) : Nat → Nat → Nat → Nat
  | 0, lo, _ => lo
  | fuel + 1, lo, hi =>
      if lo < hi then
        if (items[(lo + hi) / 2]?).any p then partitionPointIn p items fuel ((lo + hi) / 2 + 1) hi
        else partitionPointIn p items fuel lo ((lo + hi) / 2)
      else lo

/-- The number of items at the front that have a property, found by binary search. -/
def partitionPoint (p : A → Bool) (items : List A) : Nat := partitionPointIn p items items.length 0 items.length

/-- The items that have the property all come first. -/
def Partitioned (p : A → Bool) (items : List A) : Prop := items.Pairwise fun a b => p b = true → p a = true

section Search

variable {p : A → Bool} {items : List A} {fuel lo hi : Nat}

theorem not_getElem_findIdx {q : A → Bool} (inside : (items.findIdx fun a => !q a) < items.length) :
    q items[items.findIdx fun a => !q a] = false := by
  have lacks := @List.findIdx_getElem A (fun a => !q a) items inside
  simpa using lacks

theorem Partitioned.getElem_iff (parted : Partitioned p items) {i : Nat} (inside : i < items.length) :
    p items[i] = true ↔ i < items.findIdx fun a => !p a := by
  constructor
  · intro has
    by_contra beyond
    have ends := Nat.lt_of_le_of_lt (Nat.not_lt.mp beyond) inside
    have lacks := not_getElem_findIdx ends
    rcases Nat.lt_or_eq_of_le (Nat.not_lt.mp beyond) with less | same
    · have earlier := List.pairwise_iff_getElem.mp parted _ i ends inside less has
      rw [earlier] at lacks
      cases lacks
    · simp only [same, has] at lacks
      cases lacks
  · intro before
    simpa using List.not_of_lt_findIdx before

/-- The search keeps the end of the front part between its two positions. -/
theorem partitionPointIn_eq (parted : Partitioned p items) (low : lo ≤ items.findIdx fun a => !p a)
    (high : (items.findIdx fun a => !p a) ≤ hi) (fits : hi ≤ items.length) (enough : hi - lo ≤ fuel) :
    partitionPointIn p items fuel lo hi = items.findIdx fun a => !p a := by
  induction fuel generalizing lo hi with
  | zero =>
      rw [partitionPointIn]
      omega
  | succ fuel hypothesis =>
      rw [partitionPointIn]
      by_cases less : lo < hi
      · have inside : (lo + hi) / 2 < items.length := by omega
        have middle := parted.getElem_iff inside
        rw [if_pos less, List.getElem?_eq_getElem inside, Option.any_some]
        by_cases has : p items[(lo + hi) / 2] = true
        · have before := middle.mp has
          rw [if_pos has]
          exact hypothesis (by omega) high fits (by omega)
        · have beyond := mt middle.mpr has
          rw [if_neg has]
          exact hypothesis low (by omega) (by omega) (by omega)
      · rw [if_neg less]
        omega

theorem partitionPoint_eq (parted : Partitioned p items) : partitionPoint p items = items.findIdx fun a => !p a :=
  partitionPointIn_eq parted (Nat.zero_le _) List.findIdx_le_length le_rfl le_rfl

theorem take_partitionPoint (parted : Partitioned p items) :
    items.take (partitionPoint p items) = items.takeWhile p := by
  rw [partitionPoint_eq parted, List.takeWhile_eq_take_findIdx_not]

theorem drop_partitionPoint (parted : Partitioned p items) :
    items.drop (partitionPoint p items) = items.dropWhile p := by
  rw [partitionPoint_eq parted, List.dropWhile_eq_drop_findIdx_not]

theorem partitionPoint_le_length (parted : Partitioned p items) : partitionPoint p items ≤ items.length := by
  rw [partitionPoint_eq parted]
  exact List.findIdx_le_length

/-- A property that more items have ends no earlier. -/
theorem partitionPoint_le {q : A → Bool} (parted : Partitioned p items) (parted' : Partitioned q items)
    (weaker : ∀ a ∈ items, p a = true → q a = true) : partitionPoint p items ≤ partitionPoint q items := by
  rw [partitionPoint_eq parted, partitionPoint_eq parted']
  by_contra less
  have inside : (items.findIdx fun a => !q a) < items.length :=
    (Nat.not_le.mp less).trans_le List.findIdx_le_length
  have has := (parted.getElem_iff inside).mpr (Nat.not_le.mp less)
  have lacks := not_getElem_findIdx inside
  rw [weaker _ (List.getElem_mem inside) has] at lacks
  cases lacks

/-- The items between the ends of two properties, one weaker than the other. -/
theorem exists_split {q : A → Bool} (parted : Partitioned p items) (parted' : Partitioned q items)
    (weaker : ∀ a ∈ items, p a = true → q a = true) : ∃ front middle back, items = front ++ (middle ++ back) ∧
      front = items.takeWhile p ∧ middle = (items.dropWhile p).takeWhile q ∧
      back = (items.dropWhile p).dropWhile q ∧ partitionPoint p items = front.length ∧
      partitionPoint q items = front.length + middle.length := by
  refine ⟨_, _, _, ?_, rfl, rfl, rfl, ?_, ?_⟩
  · rw [List.takeWhile_append_dropWhile, List.takeWhile_append_dropWhile]
  · rw [← take_partitionPoint parted, List.length_take, Nat.min_eq_left (partitionPoint_le_length parted)]
  · have whole : items.takeWhile q = items.takeWhile p ++ (items.dropWhile p).takeWhile q := by
      conv_lhs => rw [← List.takeWhile_append_dropWhile (p := p) (l := items)]
      apply List.takeWhile_append_of_pos
      intro a inside
      exact weaker a ((List.takeWhile_sublist p).subset inside) (List.mem_takeWhile_imp inside)
    rw [← List.length_append, ← whole, ← take_partitionPoint parted', List.length_take,
      Nat.min_eq_left (partitionPoint_le_length parted')]

end Search

end Dis86.Lib
