import Mathlib.Data.List.Basic
import Mathlib.Logic.Function.Basic
import Mathlib.Tactic.Common

namespace Dis86.Lib

variable {A O : Type}

/-- A walk along successors, with the number of its steps. -/
inductive Walk (succ : A → List A) : Nat → A → A → Prop where
  | here (x : A) : Walk succ 0 x x
  | step {n : Nat} {x y z : A} (next : y ∈ succ x) (walk : Walk succ n y z) : Walk succ (n + 1) x z

theorem Walk.mono {succ succ' : A → List A} {n : Nat} {x y : A} (walk : Walk succ n x y)
    (more : ∀ x, ∀ y ∈ succ x, y ∈ succ' x) : Walk succ' n x y := by
  induction walk with
  | here x => exact .here x
  | step next _ hypothesis => exact .step (more _ _ next) hypothesis

/-- A short walk leads to an element that has something to report. -/
def Yields (own : A → Option O) (succ : A → List A) (left : Nat) (x : A) (o : O) : Prop :=
  ∃ n y, n < left ∧ Walk succ n x y ∧ own y = some o

section Search

variable [DecidableEq O]

def record (own : Option O) (found : List O) : List O :=
  match own with
  | some o => if o ∈ found then found else o :: found
  | none => found

/-- The reports of all elements of the next levels. -/
def collectWithin (own : A → Option O) (succ : A → List A) : Nat → A → List O → List O
  | 0, _, found => found
  | left + 1, x, found =>
      (succ x).foldl (fun found y => collectWithin own succ left y found) (record (own x) found)

/-- The reports, and the depth at which an element has been visited. -/
structure DepthMemo (A O : Type) where
  found : List O
  visited : A → Option Nat

def DepthMemo.enter [DecidableEq A] (memo : DepthMemo A O) (own : A → Option O) (x : A) (depth : Nat) : DepthMemo A O :=
  ⟨record (own x) memo.found, Function.update memo.visited x (some depth)⟩

/-- The same search, which skips an element that it has visited at the same depth or above. -/
def collectOnce [DecidableEq A] (own : A → Option O) (succ : A → List A) :
    Nat → A → Nat → DepthMemo A O → DepthMemo A O
  | 0, _, _, memo => memo
  | left + 1, x, depth, memo =>
      if (memo.visited x).any (· ≤ depth) then memo
      else (succ x).foldl (fun memo y => collectOnce own succ left y (depth + 1) memo) (memo.enter own x depth)

end Search

section Levels

variable {own : A → Option O} {succ : A → List A} {left : Nat} {x y : A} {o : O} {found : List O}

theorem not_yields_zero : ¬ Yields own succ 0 x o := by
  intro yields
  obtain ⟨_, _, few, _⟩ := yields
  exact Nat.not_lt_zero _ few

/-- A walk ends at once or goes on from a successor. -/
theorem yields_succ : Yields own succ (left + 1) x o ↔ own x = some o ∨ ∃ y ∈ succ x, Yields own succ left y o := by
  constructor
  · intro yields
    obtain ⟨n, y, few, walk, here⟩ := yields
    cases walk with
    | here => exact .inl here
    | step next later => exact .inr ⟨_, next, _, y, Nat.lt_of_succ_lt_succ few, later, here⟩
  · intro either
    cases either with
    | inl here => exact ⟨0, x, Nat.succ_pos left, .here x, here⟩
    | inr deeper =>
        obtain ⟨y, next, n, z, few, walk, there⟩ := deeper
        exact ⟨n + 1, z, Nat.succ_lt_succ few, .step next walk, there⟩

theorem mem_record [DecidableEq O] {here : Option O} : o ∈ record here found ↔ here = some o ∨ o ∈ found := by
  cases here with
  | none => simp [record]
  | some other =>
      rw [record, Option.some.injEq]
      split
      · rename_i old
        exact ⟨.inr, fun either => either.elim (fun same => same ▸ old) id⟩
      · rw [List.mem_cons, eq_comm]

theorem mem_foldl_iff {visit : List O → A → List O} {P : A → Prop} {xs : List A}
    (each : ∀ x ∈ xs, ∀ found, o ∈ visit found x ↔ o ∈ found ∨ P x) :
    o ∈ xs.foldl visit found ↔ o ∈ found ∨ ∃ x ∈ xs, P x := by
  induction xs generalizing found with
  | nil => simp
  | cons x rest hypothesis =>
      rw [List.foldl_cons, hypothesis fun y inside => each y (List.mem_cons_of_mem x inside),
        each x List.mem_cons_self, List.exists_mem_cons_iff, or_assoc]

theorem mem_collectWithin [DecidableEq O] :
    o ∈ collectWithin own succ left x found ↔ o ∈ found ∨ Yields own succ left x o := by
  induction left generalizing x found with
  | zero => exact ⟨.inl, fun either => either.resolve_right not_yields_zero⟩
  | succ left hypothesis =>
      have each : ∀ y ∈ succ x, ∀ found,
          o ∈ collectWithin own succ left y found ↔ o ∈ found ∨ Yields own succ left y o :=
        fun _ _ _ => hypothesis
      rw [collectWithin, mem_foldl_iff each, mem_record, yields_succ, or_assoc, or_left_comm]

end Levels

section Memo

variable {own : A → Option O} {succ : A → List A} {left depth bound : Nat} {x y : A} {o : O}
  {memo middle later : DepthMemo A O} {pending : List A}

/-- The element has been visited at the given depth or above. -/
def DepthMemo.Seen (memo : DepthMemo A O) (y : A) (depth : Nat) : Prop := ∃ d ≤ depth, memo.visited y = some d

theorem seen_iff : (memo.visited y).any (· ≤ depth) = true ↔ memo.Seen y depth := by
  cases visited : memo.visited y with
  | none => simp [DepthMemo.Seen, visited]
  | some d => simp [DepthMemo.Seen, visited]

/-- Visited elements have reported, and their successors have been visited one level deeper, unless the element is still
being expanded. -/
structure Expanded (own : A → Option O) (succ : A → List A) (bound : Nat) (pending : List A) (memo : DepthMemo A O) :
    Prop where
  reported : ∀ y d, memo.visited y = some d → ∀ o, own y = some o → o ∈ memo.found
  next : ∀ y d, memo.visited y = some d → y ∉ pending → d + 1 < bound → ∀ z ∈ succ y, memo.Seen z (d + 1)

/-- A search from a depth forgets no visit, and what was visited above that depth stays as it is. -/
structure Continues (depth : Nat) (memo later : DepthMemo A O) : Prop where
  seen : ∀ y d, memo.Seen y d → later.Seen y d
  above : ∀ y d, later.visited y = some d → d < depth → memo.visited y = some d

theorem Continues.refl : Continues depth memo memo := ⟨fun _ _ old => old, fun _ _ old _ => old⟩

theorem Continues.trans {deeper : Nat} (first : Continues depth memo middle) (second : Continues deeper middle later)
    (below : depth ≤ deeper) : Continues depth memo later where
  seen := fun y d old => second.seen y d (first.seen y d old)
  above := fun y d visited few => first.above y d (second.above y d visited (Nat.lt_of_lt_of_le few below)) few

section Enter

variable [DecidableEq A] [DecidableEq O]

theorem enter_visited_self : (memo.enter own x depth).visited x = some depth := Function.update_self ..

theorem enter_visited_of_ne (other : y ≠ x) : (memo.enter own x depth).visited y = memo.visited y :=
  Function.update_of_ne other ..

theorem mem_enter : o ∈ (memo.enter own x depth).found ↔ own x = some o ∨ o ∈ memo.found := mem_record

theorem DepthMemo.Seen.enter {d : Nat} (seen : memo.Seen y d) (unseen : ¬ memo.Seen x depth) :
    (memo.enter own x depth).Seen y d := by
  obtain ⟨e, few, visited⟩ := seen
  by_cases same : y = x
  · subst same
    have deeper : depth < e := Nat.lt_of_not_le fun above => unseen ⟨e, above, visited⟩
    exact ⟨depth, by omega, enter_visited_self⟩
  · exact ⟨e, few, (enter_visited_of_ne same).trans visited⟩

theorem continues_enter (unseen : ¬ memo.Seen x depth) : Continues depth memo (memo.enter own x depth) where
  seen := fun y d seen => seen.enter unseen
  above := by
    intro y d visited few
    by_cases same : y = x
    · subst same
      rw [enter_visited_self, Option.some.injEq] at visited
      omega
    · rwa [enter_visited_of_ne same] at visited

/-- The search enters an element, which is being expanded from then on. -/
theorem Expanded.enter (expanded : Expanded own succ bound pending memo) (unseen : ¬ memo.Seen x depth) :
    Expanded own succ bound (x :: pending) (memo.enter own x depth) where
  reported := by
    intro y d visited o here
    by_cases same : y = x
    · exact mem_enter.mpr (.inl (same ▸ here))
    · rw [enter_visited_of_ne same] at visited
      exact mem_enter.mpr (.inr (expanded.reported y d visited o here))
  next := by
    intro y d visited settled few z next
    rw [List.mem_cons, not_or] at settled
    rw [enter_visited_of_ne settled.1] at visited
    exact (expanded.next y d visited settled.2 few z next).enter unseen

end Enter

theorem foldl_expanded (starts : List A) {visit : DepthMemo A O → A → DepthMemo A O} {R : DepthMemo A O → A → Prop}
    (mono : ∀ x memo later, Continues depth memo later → R memo x → R later x)
    (each : ∀ x memo, Expanded own succ bound pending memo →
      Expanded own succ bound pending (visit memo x) ∧ Continues depth memo (visit memo x) ∧ R (visit memo x) x)
    (expanded : Expanded own succ bound pending memo) :
    Expanded own succ bound pending (starts.foldl visit memo) ∧ Continues depth memo (starts.foldl visit memo) ∧
      ∀ x ∈ starts, R (starts.foldl visit memo) x := by
  induction starts generalizing memo with
  | nil => exact ⟨expanded, .refl, nofun⟩
  | cons x rest hypothesis =>
      obtain ⟨settled, first, here⟩ := each x memo expanded
      obtain ⟨all, second, others⟩ := hypothesis settled
      exact ⟨all, first.trans second (Nat.le_refl depth), List.forall_mem_cons.mpr ⟨mono x _ _ second here, others⟩⟩

/-- All of an element has been expanded once its successors have. -/
theorem Expanded.leave (expanded : Expanded own succ bound (x :: pending) later)
    (continues : Continues (depth + 1) memo later) (entered : memo.visited x = some depth)
    (below : depth + 1 < bound → ∀ y ∈ succ x, later.Seen y (depth + 1)) :
    Expanded own succ bound pending later := by
  refine ⟨expanded.reported, fun y d visited settled few z next => ?_⟩
  by_cases same : y = x
  · subst same
    obtain ⟨e, isAbove, now⟩ := continues.seen y depth ⟨depth, Nat.le_refl depth, entered⟩
    obtain rfl : e = d := Option.some.inj (now.symm.trans visited)
    have stored := continues.above y e visited (Nat.lt_succ_of_le isAbove)
    obtain rfl : depth = e := Option.some.inj (entered.symm.trans stored)
    exact below few z next
  · exact expanded.next y d visited (by simp [same, settled]) few z next

theorem collectOnce_expanded [DecidableEq A] [DecidableEq O] (level : depth + left = bound)
    (expanded : Expanded own succ bound pending memo) :
    Expanded own succ bound pending (collectOnce own succ left x depth memo) ∧
      Continues depth memo (collectOnce own succ left x depth memo) ∧
      (0 < left → (collectOnce own succ left x depth memo).Seen x depth) := by
  induction left generalizing x depth pending memo with
  | zero => exact ⟨expanded, .refl, nofun⟩
  | succ left hypothesis =>
      rw [collectOnce]
      by_cases seen : memo.Seen x depth
      · rw [if_pos (seen_iff.mpr seen)]
        exact ⟨expanded, .refl, fun _ => seen⟩
      · rw [if_neg (mt seen_iff.mp seen)]
        have first : Continues depth memo (memo.enter own x depth) := continues_enter seen
        have mono : ∀ (y : A) (memo later : DepthMemo A O), Continues (depth + 1) memo later →
            (0 < left → memo.Seen y (depth + 1)) → 0 < left → later.Seen y (depth + 1) :=
          fun y _ _ continues here positive => continues.seen y _ (here positive)
        obtain ⟨all, second, below⟩ := foldl_expanded (succ x) mono
          (fun y memo expanded => hypothesis (x := y) (by omega) expanded) (expanded.enter seen)
        refine ⟨all.leave second enter_visited_self fun few y next => below y next (by omega),
          first.trans second (Nat.le_succ depth), fun _ => ?_⟩
        exact second.seen x depth ⟨depth, Nat.le_refl depth, enter_visited_self⟩

/-- Once everything has been expanded, short walks lead to visited elements. -/
theorem Expanded.walk {n d : Nat} (expanded : Expanded own succ bound [] memo) (walk : Walk succ n x y)
    (seen : memo.Seen x d) (short : d + n < bound) : memo.Seen y (d + n) := by
  induction walk generalizing d with
  | here => exact seen
  | @step n x z y next later hypothesis =>
      obtain ⟨e, few, visited⟩ := seen
      obtain ⟨e', few', visited'⟩ := expanded.next x e visited List.not_mem_nil (by omega) z next
      have there := hypothesis (d := d + 1) ⟨e', by omega, visited'⟩ (by omega)
      rwa [Nat.add_right_comm, Nat.add_assoc] at there

theorem foldl_reports {starts : List A} {visit : DepthMemo A O → A → DepthMemo A O} {P : A → Prop}
    (each : ∀ x memo, o ∈ (visit memo x).found → o ∈ memo.found ∨ P x)
    (inside : o ∈ (starts.foldl visit memo).found) : o ∈ memo.found ∨ ∃ x ∈ starts, P x := by
  induction starts generalizing memo with
  | nil => exact .inl inside
  | cons x rest hypothesis =>
      rcases hypothesis inside with first | later
      · exact (each x memo first).imp_right fun holds => ⟨x, List.mem_cons_self, holds⟩
      · obtain ⟨y, among, holds⟩ := later
        exact .inr ⟨y, List.mem_cons_of_mem x among, holds⟩

theorem collectOnce_sound [DecidableEq A] [DecidableEq O]
    (inside : o ∈ (collectOnce own succ left x depth memo).found) :
    o ∈ memo.found ∨ Yields own succ left x o := by
  induction left generalizing x depth memo with
  | zero => exact .inl inside
  | succ left hypothesis =>
      rw [collectOnce] at inside
      split at inside
      · exact .inl inside
      · rw [yields_succ]
        have each : ∀ y memo, o ∈ (collectOnce own succ left y (depth + 1) memo).found →
            o ∈ memo.found ∨ Yields own succ left y o := fun _ _ => hypothesis
        rcases foldl_reports each inside with own | deeper
        · exact (mem_enter.mp own).elim (fun here => .inr (.inl here)) .inl
        · exact .inr (.inr deeper)

/-- The skipped visits lose no report. -/
theorem mem_collectOnce [DecidableEq A] [DecidableEq O] :
    o ∈ (collectOnce own succ left x depth ⟨[], fun _ => none⟩).found ↔ Yields own succ left x o := by
  constructor
  · exact fun inside => (collectOnce_sound inside).resolve_left List.not_mem_nil
  · intro yields
    obtain ⟨n, y, few, walk, here⟩ := yields
    have start : Expanded own succ (depth + left) [] ⟨[], fun _ => none⟩ := ⟨nofun, nofun⟩
    obtain ⟨expanded, _, seen⟩ := collectOnce_expanded (x := x) rfl start
    obtain ⟨d, _, visited⟩ := expanded.walk walk (seen (by omega)) (by omega)
    exact expanded.reported y d visited o here

theorem record_nodup [DecidableEq O] {here : Option O} {found : List O} (distinct : found.Nodup) :
    (record here found).Nodup := by
  cases here with
  | none => exact distinct
  | some o =>
      rw [record]
      split
      · exact distinct
      · rename_i new
        exact List.nodup_cons.mpr ⟨new, distinct⟩

theorem collectOnce_nodup [DecidableEq A] [DecidableEq O] (distinct : memo.found.Nodup) :
    (collectOnce own succ left x depth memo).found.Nodup := by
  induction left generalizing x depth memo with
  | zero => exact distinct
  | succ left hypothesis =>
      rw [collectOnce]
      split
      · exact distinct
      · have entered : (memo.enter own x depth).found.Nodup := record_nodup distinct
        exact List.foldlRecOn (motive := fun memo : DepthMemo A O => memo.found.Nodup) (succ x) _ entered
          fun memo old y _ => hypothesis old

end Memo

end Dis86.Lib
