import Mathlib.Data.List.Basic
import Mathlib.Data.List.Sort
import Mathlib.Tactic.Common

namespace Dis86.Lib.Splice

variable {A : Type}

/-- A list without the elements at the positions, which are taken out one after the other. -/
def dropAt (idxs : List Nat) (l : List A) : List A := idxs.foldl List.eraseIdx l

@[simp] theorem dropAt_nil (l : List A) : dropAt [] l = l := rfl

@[simp] theorem dropAt_cons (idx : Nat) (idxs : List Nat) (l : List A) :
    dropAt (idx :: idxs) l = dropAt idxs (l.eraseIdx idx) := rfl

/-- The elements that are taken out, each with its position at that time. -/
def takenAt : List Nat → List A → List (Nat × A)
  | [], _ => []
  | idx :: idxs, l => (l[idx]?.map (Prod.mk idx)).toList ++ takenAt idxs (l.eraseIdx idx)

def putBack (l : List A) (entries : List (Nat × A)) : List A :=
  entries.foldl (fun l entry => l.insertIdx entry.1 entry.2) l

theorem insertIdx_eraseIdx_self {l : List A} {idx : Nat} {a : A} (here : l[idx]? = some a) :
    (l.eraseIdx idx).insertIdx idx a = l := by
  induction l generalizing idx with
  | nil => simp at here
  | cons x l hypothesis =>
      cases idx with
      | zero =>
          simp only [List.getElem?_cons_zero, Option.some.injEq] at here
          simp [here]
      | succ idx =>
          rw [List.getElem?_cons_succ] at here
          simp only [List.eraseIdx_cons_succ, List.insertIdx_succ_cons, hypothesis here]

theorem takenAt_lt {idxs : List Nat} {l : List A} {bound : Nat} (below : ∀ idx ∈ idxs, idx < bound) :
    ∀ entry ∈ takenAt idxs l, entry.1 < bound := by
  induction idxs generalizing l with
  | nil => simp [takenAt]
  | cons idx idxs hypothesis =>
      intro entry inside
      rcases List.mem_append.mp inside with here | later
      · simp only [Option.mem_toList, Option.map_eq_some_iff] at here
        obtain ⟨a, _, rfl⟩ := here
        exact below idx List.mem_cons_self
      · exact hypothesis (fun other member => below other (List.mem_cons_of_mem idx member)) entry later

/-- What is taken out in one order and put back in the other leaves the list as it was. -/
theorem putBack_takenAt (idxs : List Nat) (l : List A) :
    putBack (dropAt idxs l) (takenAt idxs l).reverse = l := by
  induction idxs generalizing l with
  | nil => rfl
  | cons idx idxs hypothesis =>
      simp only [dropAt_cons, takenAt, List.reverse_append]
      rw [putBack, List.foldl_append]
      have inner := hypothesis (l.eraseIdx idx)
      rw [putBack] at inner
      rw [inner]
      cases here : l[idx]? with
      | none =>
          have short : l.length ≤ idx := List.getElem?_eq_none_iff.mp here
          simp [List.eraseIdx_of_length_le short]
      | some a => simpa using insertIdx_eraseIdx_self here

theorem length_dropAt {idxs : List Nat} {l : List A} (distinct : idxs.Pairwise (· > ·))
    (inside : ∀ idx ∈ idxs, idx < l.length) : (dropAt idxs l).length = l.length - idxs.length := by
  induction idxs generalizing l with
  | nil => rfl
  | cons idx idxs hypothesis =>
      obtain ⟨first, rest⟩ := List.pairwise_cons.mp distinct
      have here := inside idx List.mem_cons_self
      have shorter : (l.eraseIdx idx).length = l.length - 1 := List.length_eraseIdx_of_lt here
      rw [dropAt_cons, hypothesis rest fun other member => ?_, shorter, List.length_cons]
      · omega
      · have := first other member
        omega

/-- Taking out in descending order keeps just the elements at the other positions. -/
theorem mem_dropAt {idxs : List Nat} {l : List A} (descending : idxs.Pairwise (· > ·)) (a : A) :
    a ∈ dropAt idxs l ↔ ∃ i, l[i]? = some a ∧ i ∉ idxs := by
  induction idxs generalizing l with
  | nil => simp [List.mem_iff_getElem?]
  | cons idx idxs hypothesis =>
      obtain ⟨first, rest⟩ := List.pairwise_cons.mp descending
      rw [dropAt_cons, hypothesis rest]
      constructor
      · rintro ⟨i, here, other⟩
        rw [List.getElem?_eraseIdx] at here
        split at here
        · rename_i before
          refine ⟨i, here, ?_⟩
          simp only [List.mem_cons, not_or]
          exact ⟨by omega, other⟩
        · rename_i after
          refine ⟨i + 1, here, ?_⟩
          simp only [List.mem_cons, not_or]
          refine ⟨by omega, fun member => ?_⟩
          have := first (i + 1) member
          omega
      · rintro ⟨i, here, other⟩
        simp only [List.mem_cons, not_or] at other
        rcases Nat.lt_or_gt_of_ne other.1 with before | after
        · exact ⟨i, by rwa [List.getElem?_eraseIdx_of_lt before], other.2⟩
        · refine ⟨i - 1, ?_, fun member => ?_⟩
          · rw [List.getElem?_eraseIdx_of_ge (by omega), Nat.sub_add_cancel (by omega)]
            exact here
          · have := first (i - 1) member
            omega

/-- The positions of the elements with a property, in descending order. -/
def positions (p : A → Bool) (l : List A) : List Nat :=
  ((List.range l.length).filter fun i => l[i]?.any p).reverse

theorem mem_positions {p : A → Bool} {l : List A} {i : Nat} :
    i ∈ positions p l ↔ ∃ a, l[i]? = some a ∧ p a = true := by
  simp only [positions, List.mem_reverse, List.mem_filter, List.mem_range, Option.any_eq_true]
  refine ⟨And.right, fun found => ⟨?_, found⟩⟩
  obtain ⟨a, here, _⟩ := found
  exact (List.getElem?_eq_some_iff.mp here).1

theorem positions_descending (p : A → Bool) (l : List A) : (positions p l).Pairwise (· > ·) := by
  rw [positions, List.pairwise_reverse]
  exact List.pairwise_lt_range.filter _

theorem positions_cons (p : A → Bool) (a : A) (l : List A) :
    positions p (a :: l) = (positions p l).map (· + 1) ++ if p a then [0] else [] := by
  simp only [positions, List.length_cons, List.range_succ_eq_map, List.filter_cons,
    List.getElem?_cons_zero, Option.any_some, List.filter_map]
  have same : ((fun i => (a :: l)[i]?.any p) ∘ Nat.succ) = fun i => l[i]?.any p := by
    funext i
    simp
  rw [same]
  split <;> simp

theorem dropAt_succ (idxs : List Nat) (a : A) (l : List A) :
    dropAt (idxs.map (· + 1)) (a :: l) = a :: dropAt idxs l := by
  induction idxs generalizing l with
  | nil => rfl
  | cons idx idxs hypothesis => exact hypothesis (l.eraseIdx idx)

/-- Without the elements that have a property, the others stay. -/
theorem dropAt_positions (p : A → Bool) (l : List A) :
    dropAt (positions p l) l = l.filter fun a => !p a := by
  induction l with
  | nil => rfl
  | cons a l hypothesis =>
      rw [positions_cons, dropAt, List.foldl_append]
      rw [show List.foldl List.eraseIdx (a :: l) ((positions p l).map (· + 1)) = _ from
        dropAt_succ (positions p l) a l, hypothesis, List.filter_cons]
      cases p a <;> simp

/-- Each entry goes to a position that the list has at that time. -/
def Fits : List A → List (Nat × A) → Prop
  | _, [] => True
  | l, entry :: entries => entry.1 ≤ l.length ∧ Fits (l.insertIdx entry.1 entry.2) entries

theorem fits_append {l : List A} {first second : List (Nat × A)} :
    Fits l (first ++ second) ↔ Fits l first ∧ Fits (putBack l first) second := by
  induction first generalizing l with
  | nil => simp [Fits, putBack]
  | cons entry first hypothesis => simp [Fits, putBack, hypothesis, and_assoc]

theorem fits_takenAt (idxs : List Nat) (l : List A) :
    Fits (dropAt idxs l) (takenAt idxs l).reverse := by
  induction idxs generalizing l with
  | nil => trivial
  | cons idx idxs hypothesis =>
      simp only [dropAt_cons, takenAt, List.reverse_append]
      rw [fits_append, putBack_takenAt]
      refine ⟨hypothesis _, ?_⟩
      cases here : l[idx]? with
      | none => trivial
      | some a =>
          have inside := (List.getElem?_eq_some_iff.mp here).1
          refine ⟨?_, trivial⟩
          show idx ≤ _
          rw [List.length_eraseIdx_of_lt inside]
          omega

/-- Equal elements are taken out with their own positions. -/
theorem takenAt_same {idxs : List Nat} {l : List A} {a : A} (descending : idxs.Pairwise (· > ·))
    (same : ∀ idx ∈ idxs, l[idx]? = some a) : takenAt idxs l = idxs.map fun idx => (idx, a) := by
  induction idxs generalizing l with
  | nil => rfl
  | cons idx idxs hypothesis =>
      obtain ⟨first, rest⟩ := List.pairwise_cons.mp descending
      rw [takenAt, same idx List.mem_cons_self, hypothesis rest fun other member => ?_]
      · rfl
      · rw [List.getElem?_eraseIdx_of_lt (first other member)]
        exact same other (List.mem_cons_of_mem idx member)

/-- A stable sort moves a group of equal large keys behind the smaller keys after it. -/
theorem insertionSort_group {B : Type} {key : B → Nat} {bound : Nat} {group rest : List B}
    (same : ∀ x ∈ group, key x = bound) (below : ∀ x ∈ rest, key x < bound) :
    (group ++ rest).insertionSort (fun x y => key x ≤ key y) =
      rest.insertionSort (fun x y => key x ≤ key y) ++ group := by
  induction group with
  | nil => simp
  | cons x group hypothesis =>
      have later := hypothesis fun y member => same y (List.mem_cons_of_mem x member)
      rw [List.cons_append, List.insertionSort_cons, later]
      have all : ∀ y ∈ rest.insertionSort (fun x y => key x ≤ key y), ¬ key x ≤ key y := by
        intro y member
        have inside := (List.perm_insertionSort _ rest).mem_iff.mp member
        have := below y inside
        rw [same x List.mem_cons_self]
        omega
      generalize rest.insertionSort (fun x y => key x ≤ key y) = sorted at all
      induction sorted with
      | nil =>
          cases group with
          | nil => rfl
          | cons y group =>
              have equal : key x ≤ key y := by
                rw [same x List.mem_cons_self,
                  same y (List.mem_cons_of_mem x List.mem_cons_self)]
              simp [equal]
      | cons y sorted inner =>
          have above := all y List.mem_cons_self
          simp only [List.cons_append, List.orderedInsert_cons, above, if_false]
          rw [inner fun z member => all z (List.mem_cons_of_mem y member)]

end Dis86.Lib.Splice
