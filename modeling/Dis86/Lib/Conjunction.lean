import Dis86.Lib.Search
import Mathlib.Data.Finset.Card
import Mathlib.Tactic.Common

namespace Dis86.Lib

variable {A : Type}

/-- The answers that a search has written down, the latest ones first. -/
abbrev Memo (A : Type) := List (A × Bool)

/-- The elements are visited in their order, up to the first with a negative answer. -/
def allOf (visit : A → Memo A → Bool × Memo A) : List A → Memo A → Bool × Memo A
  | [], memo => (true, memo)
  | x :: rest, memo =>
      match visit x memo with
      | (true, memo) => allOf visit rest memo
      | (false, memo) => (false, memo)

/-- An element without parts answers for itself, the others by all their parts. An answer is written down once it is
known, and an element that is still being visited counts as positive. The fuel is the depth. -/
def conjunction [DecidableEq A] (parts : A → Option (List A)) (good : A → Bool) :
    Nat → List A → A → Memo A → Bool × Memo A
  | 0, _, _, memo => (false, memo)
  | fuel + 1, visiting, x, memo =>
      match memo.lookup x with
      | some known => (known, memo)
      | none =>
          match parts x with
          | none => (good x, (x, good x) :: memo)
          | some next =>
              if x ∈ visiting then (true, memo)
              else
                let (answer, memo) := allOf (conjunction parts good fuel (x :: visiting)) next memo
                (answer, (x, answer) :: memo)

/-- The equations that answers are to satisfy. -/
def Solves (parts : A → Option (List A)) (good : A → Bool) (answers : A → Prop) : Prop :=
  ∀ x, answers x ↔ match parts x with
    | none => good x = true
    | some next => ∀ y ∈ next, answers y

/-- The parts of an element, their parts and so on. -/
def PartOf (parts : A → Option (List A)) (x : A) : A → Prop := Reaches (fun x => (parts x).getD []) [x]

/-- All that an element is made of answers positively for itself. -/
def AllGood (parts : A → Option (List A)) (good : A → Bool) (x : A) : Prop :=
  ∀ y, PartOf parts x y → parts y = none → good y = true

section Solutions

variable {parts : A → Option (List A)} {good : A → Bool} {x y : A} {next : List A}

theorem PartOf.refl : PartOf parts x x := Reaches.start List.mem_cons_self

theorem PartOf.of_part (known : parts x = some next) (inside : y ∈ next) {z : A} (part : PartOf parts y z) :
    PartOf parts x z := by
  induction part with
  | start here =>
      obtain rfl := List.mem_singleton.mp here
      exact Reaches.step PartOf.refl (by rw [known]; exact inside)
  | step _ inside hypothesis => exact .step hypothesis inside

theorem PartOf.cases_head {z : A} (part : PartOf parts x z) : z = x ∨ ∃ next y, parts x = some next ∧ y ∈ next ∧
    PartOf parts y z := by
  induction part with
  | start here => exact .inl (List.mem_singleton.mp here)
  | @step y z _ inside hypothesis =>
      rcases hypothesis with rfl | ⟨next, w, known, isPart, later⟩
      · cases known : parts y with
        | none =>
            rw [known] at inside
            cases inside
        | some next =>
            rw [known] at inside
            exact .inr ⟨next, z, rfl, inside, .refl⟩
      · exact .inr ⟨next, w, known, isPart, .step later inside⟩

/-- The elements made of good ones only solve the equations. -/
theorem allGood_solves (parts : A → Option (List A)) (good : A → Bool) : Solves parts good (AllGood parts good) := by
  intro x
  cases known : parts x with
  | none =>
      constructor
      · exact fun all => all x .refl known
      · intro isGood y part _
        rcases part.cases_head with rfl | ⟨next, _, other, _⟩
        · exact isGood
        · rw [known] at other
          cases other
  | some next =>
      constructor
      · exact fun all y inside z part => all z (part.of_part known inside)
      · intro all y part leaf
        rcases part.cases_head with rfl | ⟨other, z, same, inside, later⟩
        · rw [known] at leaf
          cases leaf
        · obtain rfl := Option.some.inj (known.symm.trans same)
          exact all z inside y later leaf

/-- They are the greatest solution. -/
theorem Solves.allGood {answers : A → Prop} (solves : Solves parts good answers) (positive : answers x) :
    AllGood parts good x := by
  have all : ∀ y, PartOf parts x y → answers y := by
    intro y part
    induction part with
    | start inside =>
        obtain rfl := List.mem_singleton.mp inside
        exact positive
    | @step y z _ inside hypothesis =>
        have own := (solves y).mp hypothesis
        cases known : parts y with
        | none =>
            rw [known] at inside
            cases inside
        | some next =>
            rw [known] at inside own
            exact own z inside
  intro y part leaf
  have own := (solves y).mp (all y part)
  rw [leaf] at own
  exact own

end Solutions

section Search

variable [DecidableEq A] {parts : A → Option (List A)} {good : A → Bool} {fuel : Nat} {x : A} {starts visiting : List A}
  {memo : Memo A}

/-- The negative answers that have been written down are right. -/
def Refuted (parts : A → Option (List A)) (good : A → Bool) (memo : Memo A) : Prop :=
  ∀ x, memo.lookup x = some false → ¬ AllGood parts good x

/-- The positive answers agree with each other, where elements that are being visited count as positive. -/
structure Settled (parts : A → Option (List A)) (good : A → Bool) (visiting : List A) (memo : Memo A) : Prop where
  leaf : ∀ x, memo.lookup x = some true → parts x = none → good x = true
  inner : ∀ x next, memo.lookup x = some true → parts x = some next →
    ∀ y ∈ next, memo.lookup y = some true ∨ y ∈ visiting

theorem lookup_cons {y : A} {answer : Bool} : ((x, answer) :: memo).lookup y =
    if y = x then some answer else memo.lookup y := by
  rw [List.lookup_cons]
  by_cases same : y = x
  · rw [if_pos same, beq_iff_eq.mpr same]
  · rw [if_neg same, beq_false_of_ne same]

theorem Refuted.cons {answer : Bool} (refuted : Refuted parts good memo)
    (right : answer = false → ¬ AllGood parts good x) : Refuted parts good ((x, answer) :: memo) := by
  intro y found
  rw [lookup_cons] at found
  split at found
  · rename_i same
    subst same
    exact right (Option.some.inj found)
  · exact refuted y found

/-- A negative answer of the first element that has one is right. -/
theorem allOf_refuted {visit : A → Memo A → Bool × Memo A} (refuted : Refuted parts good memo)
    (each : ∀ x memo, Refuted parts good memo → Refuted parts good (visit x memo).2 ∧
      ((visit x memo).1 = false → ¬ AllGood parts good x)) :
    Refuted parts good (allOf visit starts memo).2 ∧
      ((allOf visit starts memo).1 = false → ∃ x ∈ starts, ¬ AllGood parts good x) := by
  induction starts generalizing memo with
  | nil => exact ⟨refuted, nofun⟩
  | cons x rest hypothesis =>
      obtain ⟨kept, right⟩ := each x memo refuted
      rw [allOf]
      cases answer : visit x memo with
      | mk found middle =>
          rw [answer] at kept right
          cases found with
          | true =>
              obtain ⟨later, wrong⟩ := hypothesis kept
              refine ⟨later, fun negative => ?_⟩
              obtain ⟨y, inside, bad⟩ := wrong negative
              exact ⟨y, List.mem_cons_of_mem x inside, bad⟩
          | false => exact ⟨kept, fun _ => ⟨x, List.mem_cons_self, right rfl⟩⟩

/-- A negative answer is right, when the fuel is enough for the elements with parts. -/
theorem conjunction_refuted {all : Finset A} (inner : ∀ x, parts x ≠ none → x ∈ all) (distinct : visiting.Nodup)
    (inside : ∀ x ∈ visiting, x ∈ all) (enough : all.card < fuel + visiting.length)
    (refuted : Refuted parts good memo) : Refuted parts good (conjunction parts good fuel visiting x memo).2 ∧
      ((conjunction parts good fuel visiting x memo).1 = false → ¬ AllGood parts good x) := by
  induction fuel generalizing visiting x memo with
  | zero =>
      have few := Finset.card_le_card (s := visiting.toFinset) (t := all) fun y among =>
        inside y (List.mem_toFinset.mp among)
      rw [List.toFinset_card_of_nodup distinct] at few
      omega
  | succ fuel hypothesis =>
      rw [conjunction]
      cases found : memo.lookup x with
      | some known => exact ⟨refuted, fun negative => refuted x (found.trans (congrArg some negative))⟩
      | none =>
          cases known : parts x with
          | none =>
              have right : good x = false → ¬ AllGood parts good x := fun bad all => by
                rw [all x .refl known] at bad
                cases bad
              exact ⟨refuted.cons right, right⟩
          | some next =>
              by_cases again : x ∈ visiting
              · simp only [if_pos again]
                exact ⟨refuted, nofun⟩
              · simp only [if_neg again]
                have here : x ∈ all := inner x (by rw [known]; nofun)
                have run : _ ∧ ((allOf _ next memo).1 = false → _) := allOf_refuted refuted fun y memo refuted =>
                  hypothesis (x := y) (List.nodup_cons.mpr ⟨again, distinct⟩)
                    (List.forall_mem_cons.mpr ⟨here, inside⟩) (by rw [List.length_cons]; omega) refuted
                have right : (allOf (conjunction parts good fuel (x :: visiting)) next memo).1 = false →
                    ¬ AllGood parts good x := by
                  intro negative whole
                  obtain ⟨y, isPart, bad⟩ := run.2 negative
                  have own := (allGood_solves parts good x).mp whole
                  rw [known] at own
                  exact bad (own y isPart)
                exact ⟨run.1.cons right, right⟩

/-- Positive answers are kept. -/
def Keeps (memo later : Memo A) : Prop := ∀ y, memo.lookup y = some true → later.lookup y = some true

/-- What a visit with a positive answer has written down. -/
structure Confirmed (parts : A → Option (List A)) (good : A → Bool) (visiting starts : List A) (memo later : Memo A) :
    Prop where
  kept : Keeps memo later
  settled : Settled parts good visiting later
  here : ∀ x ∈ starts, later.lookup x = some true ∨ x ∈ visiting

theorem keeps_cons : Keeps memo ((x, true) :: memo) := by
  intro y found
  rw [lookup_cons]
  split
  · rfl
  · exact found

theorem allOf_confirmed {visit : A → Memo A → Bool × Memo A} (settled : Settled parts good visiting memo)
    (each : ∀ x memo, Settled parts good visiting memo → (visit x memo).1 = true →
      Confirmed parts good visiting [x] memo (visit x memo).2)
    (positive : (allOf visit starts memo).1 = true) :
    Confirmed parts good visiting starts memo (allOf visit starts memo).2 := by
  induction starts generalizing memo with
  | nil => exact ⟨fun _ found => found, settled, nofun⟩
  | cons x rest hypothesis =>
      have first := each x memo settled
      rw [allOf] at positive ⊢
      cases answer : visit x memo with
      | mk found middle =>
          rw [answer] at first positive
          cases found with
          | true =>
              have here := first rfl
              have later := hypothesis here.settled positive
              refine ⟨fun y found => later.kept y (here.kept y found), later.settled, ?_⟩
              refine List.forall_mem_cons.mpr ⟨?_, later.here⟩
              exact (here.here x List.mem_cons_self).imp_left (later.kept x)
          | false => cases positive

/-- An element that has been visited no longer counts as positive only for being visited. -/
theorem Settled.close {next : List A} (settled : Settled parts good (x :: visiting) memo) (known : parts x = some next)
    (here : ∀ y ∈ next, memo.lookup y = some true ∨ y ∈ x :: visiting) :
    Settled parts good visiting ((x, true) :: memo) := by
  have closed {y : A} (positive : memo.lookup y = some true ∨ y ∈ x :: visiting) :
      ((x, true) :: memo).lookup y = some true ∨ y ∈ visiting := by
    rcases positive with found | among
    · exact .inl (keeps_cons y found)
    · rcases List.mem_cons.mp among with rfl | later
      · exact .inl (by rw [lookup_cons, if_pos rfl])
      · exact .inr later
  constructor
  · intro y found leaf
    rw [lookup_cons] at found
    split at found
    · rename_i same
      subst same
      rw [known] at leaf
      cases leaf
    · exact settled.leaf y found leaf
  · intro y others found isOthers z isPart
    rw [lookup_cons] at found
    split at found
    · rename_i same
      subst same
      obtain rfl := Option.some.inj (known.symm.trans isOthers)
      exact closed (here z isPart)
    · exact closed (settled.inner y others found isOthers z isPart)

theorem conjunction_confirmed (settled : Settled parts good visiting memo)
    (positive : (conjunction parts good fuel visiting x memo).1 = true) :
    Confirmed parts good visiting [x] memo (conjunction parts good fuel visiting x memo).2 := by
  induction fuel generalizing visiting x memo with
  | zero => cases positive
  | succ fuel hypothesis =>
      rw [conjunction] at positive ⊢
      cases found : memo.lookup x with
      | some known =>
          rw [found] at positive
          obtain rfl : known = true := positive
          exact ⟨fun _ old => old, settled, fun y among => .inl (List.mem_singleton.mp among ▸ found)⟩
      | none =>
          rw [found] at positive
          cases known : parts x with
          | none =>
              rw [known] at positive
              have isGood : good x = true := positive
              simp only [isGood]
              refine ⟨keeps_cons, ⟨fun y old leaf => ?_, fun y next old isNext z isPart => ?_⟩, fun y among => ?_⟩
              · rw [lookup_cons] at old
                split at old
                · rename_i same
                  exact same ▸ isGood
                · exact settled.leaf y old leaf
              · rw [lookup_cons] at old
                split at old
                · rename_i same
                  rw [same, known] at isNext
                  cases isNext
                · exact (settled.inner y next old isNext z isPart).imp_left (keeps_cons z)
              · rw [List.mem_singleton.mp among, lookup_cons, if_pos rfl]
                exact .inl rfl
          | some next =>
              rw [known] at positive
              by_cases again : x ∈ visiting
              · simp only [if_pos again]
                exact ⟨fun _ old => old, settled, fun y among => .inr (List.mem_singleton.mp among ▸ again)⟩
              · simp only [if_neg again] at positive ⊢
                have opened : Settled parts good (x :: visiting) memo :=
                  ⟨settled.leaf, fun y others old isOthers z isPart =>
                    (settled.inner y others old isOthers z isPart).imp_right (List.mem_cons_of_mem x)⟩
                have run := allOf_confirmed opened (fun y memo => hypothesis) positive
                rw [positive]
                refine ⟨fun y old => keeps_cons y (run.kept y old), run.settled.close known run.here, fun y among => ?_⟩
                rw [List.mem_singleton.mp among, lookup_cons, if_pos rfl]
                exact .inl rfl

/-- The search finds the greatest solution, on a finite part of the elements. -/
theorem conjunction_iff {all : Finset A} (inner : ∀ x, parts x ≠ none → x ∈ all) (enough : all.card < fuel) :
    (conjunction parts good fuel [] x []).1 = true ↔ AllGood parts good x := by
  constructor
  · intro positive
    have run : Confirmed parts good [] [x] [] _ := conjunction_confirmed ⟨nofun, nofun⟩ positive
    have reached : ∀ y, PartOf parts x y → (conjunction parts good fuel [] x []).2.lookup y = some true := by
      intro y part
      induction part with
      | start here =>
          obtain rfl := List.mem_singleton.mp here
          exact (run.here _ List.mem_cons_self).resolve_right List.not_mem_nil
      | @step y z _ isPart hypothesis =>
          cases known : parts y with
          | none =>
              rw [known] at isPart
              cases isPart
          | some next =>
              rw [known] at isPart
              exact (run.settled.inner y next hypothesis known z isPart).resolve_right List.not_mem_nil
    exact fun y part leaf => run.settled.leaf y (reached y part) leaf
  · intro whole
    by_contra negative
    rw [Bool.not_eq_true] at negative
    have refuted : Refuted parts good [] := fun y found => by cases found
    exact (conjunction_refuted inner List.nodup_nil (fun y absent => by cases absent) (by rw [List.length_nil]; omega)
      refuted).2 negative whole

end Search

end Dis86.Lib
