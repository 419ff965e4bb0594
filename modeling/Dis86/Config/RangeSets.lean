import Dis86.Config.Regions
import Dis86.Lib.Lists
import Mathlib.Algebra.BigOperators.Group.List.Basic
import Mathlib.Data.List.TakeWhile
import Mathlib.Order.Interval.Finset.Nat

namespace Dis86.RangeSet
open Lib

variable {ranges : RangeSet} {start stop cursor x : Nat}

/-- No range is empty, and each ends before the next one begins. -/
structure Formed (ranges : RangeSet) : Prop where
  nonempty : ∀ r ∈ ranges, r.start < r.stop
  apart : ranges.Pairwise fun a b => a.stop < b.start

theorem Formed.nil : Formed [] := ⟨fun _ inside => (by cases inside), .nil⟩

theorem Formed.sublist {part : RangeSet} (formed : Formed ranges) (sub : part.Sublist ranges) :
    Formed part where
  nonempty r inside := formed.nonempty r (sub.subset inside)
  apart := formed.apart.sublist sub

theorem Formed.starts (formed : Formed ranges) : ranges.Pairwise fun a b => a.start < b.start := by
  apply formed.apart.imp_of_mem
  intro a b first _ apart
  exact (formed.nonempty a first).trans apart

theorem Formed.stops (formed : Formed ranges) : ranges.Pairwise fun a b => a.stop < b.stop := by
  apply formed.apart.imp_of_mem
  intro a b _ second apart
  exact apart.trans (formed.nonempty b second)

theorem covers_append {first second : RangeSet} :
    Covers (first ++ second) x ↔ Covers first x ∨ Covers second x := by
  simp only [Covers, List.mem_append, or_and_right, exists_or]

theorem covers_cons {r : Range} : Covers (r :: ranges) x ↔ (r.start ≤ x ∧ x < r.stop) ∨ Covers ranges x := by
  simp only [Covers, List.mem_cons, or_and_right, exists_or, exists_eq_left]

section Insert

/-- The ranges before a new one, those that it takes in, and those behind it. -/
structure Parts (ranges : RangeSet) (start stop : Nat) (front touching back : RangeSet) : Prop where
  split : ranges = front ++ (touching ++ back)
  front : ∀ r ∈ front, r.stop < start
  reaches : ∀ r ∈ touching, start ≤ r.stop ∧ r.start ≤ stop
  back : ∀ r ∈ back, stop < r.start

theorem insert_parts (formed : Formed ranges) (less : start < stop) :
    ∃ front touching back, Parts ranges start stop front touching back ∧
      ranges.insert start stop = front ++ merged touching start stop :: back := by
  have rest := formed.sublist (List.dropWhile_sublist fun r : Range => decide (r.stop < start))
  have behind : ∀ r ∈ ranges.dropWhile fun r => decide (r.stop < start), start ≤ r.stop := by
    intro r inside
    have failed := not_of_mem_dropWhile ?_ inside
    · simpa using failed
    · apply formed.stops.imp
      intro a b less below
      simp only [decide_eq_true_eq] at below ⊢
      exact less.trans below
  refine ⟨_, _, _, ⟨?_, ?_, ?_, ?_⟩, by rw [insert, if_neg (Nat.not_le.mpr less)]⟩
  · rw [List.takeWhile_append_dropWhile, List.takeWhile_append_dropWhile]
  · intro r inside
    simpa using List.mem_takeWhile_imp inside
  · intro r inside
    exact ⟨behind r ((List.takeWhile_sublist _).subset inside), by simpa using List.mem_takeWhile_imp inside⟩
  · intro r inside
    have failed := not_of_mem_dropWhile ?_ inside
    · simpa using failed
    · apply rest.starts.imp
      intro a b less below
      simp only [decide_eq_true_eq] at below ⊢
      exact less.le.trans below

/-- A merged range covers the new range and all that it takes in, and ends where they end. -/
theorem merged_bounds {touching : RangeSet} (formed : Formed touching) (start stop : Nat) :
    (∀ r ∈ touching, (merged touching start stop).start ≤ r.start ∧ r.stop ≤ (merged touching start stop).stop) ∧
      (merged touching start stop).start ≤ start ∧ stop ≤ (merged touching start stop).stop := by
  cases first : touching.head? with
  | none =>
      obtain rfl := List.head?_eq_none_iff.mp first
      exact ⟨fun r inside => (by cases inside), le_rfl, le_rfl⟩
  | some low =>
      obtain ⟨rest, isCons⟩ := List.head?_eq_some_iff.mp first
      have some : touching ≠ [] := by
        rw [isCons]
        exact List.cons_ne_nil low rest
      obtain ⟨high, last⟩ := Option.isSome_iff_exists.mp (List.getLast?_isSome.mpr some)
      obtain ⟨init, isConcat⟩ := List.getLast?_eq_some_iff.mp last
      have isMerged : merged touching start stop = ⟨min low.start start, max high.stop stop⟩ := by
        rw [merged, first, last]
      rw [isMerged]
      refine ⟨fun r inside => ⟨?_, ?_⟩, Nat.min_le_right _ _, Nat.le_max_right _ _⟩
      · have starts := formed.starts
        rw [isCons] at starts inside
        have below : low.start ≤ r.start := by
          rcases List.mem_cons.mp inside with rfl | later
          · exact le_rfl
          · exact ((List.pairwise_cons.mp starts).1 r later).le
        exact (Nat.min_le_left _ _).trans below
      · have stops := formed.stops
        rw [isConcat] at stops inside
        have above : r.stop ≤ high.stop := by
          rcases List.mem_append.mp inside with earlier | only
          · exact ((List.pairwise_append.mp stops).2.2 r earlier high List.mem_cons_self).le
          · rw [List.mem_singleton.mp only]
        exact above.trans (Nat.le_max_left _ _)

/-- A merged range begins with the new range or with a range that it takes in, and ends likewise. -/
theorem merged_ends (touching : RangeSet) (start stop : Nat) :
    ((merged touching start stop).start = start ∨ ∃ r ∈ touching, (merged touching start stop).start = r.start) ∧
      ((merged touching start stop).stop = stop ∨ ∃ r ∈ touching, (merged touching start stop).stop = r.stop) := by
  unfold merged
  split
  · rename_i first last head tail
    have low := List.mem_of_head? head
    have high := List.mem_of_getLast? tail
    constructor
    · rcases Nat.le_total first.start start with less | more
      · exact .inr ⟨first, low, Nat.min_eq_left less⟩
      · exact .inl (Nat.min_eq_right more)
    · rcases Nat.le_total last.stop stop with less | more
      · exact .inl (Nat.max_eq_right less)
      · exact .inr ⟨last, high, Nat.max_eq_left more⟩
  · exact ⟨.inl rfl, .inl rfl⟩

theorem Formed.insert (formed : Formed ranges) (start stop : Nat) : Formed (ranges.insert start stop) := by
  by_cases less : start < stop
  · obtain ⟨front, touching, back, parts, inserted⟩ := insert_parts formed less
    rw [inserted]
    rw [parts.split] at formed
    obtain ⟨frontApart, restApart, between⟩ := List.pairwise_append.mp formed.apart
    obtain ⟨_, backApart, behind⟩ := List.pairwise_append.mp restApart
    have touchingFormed : Formed touching := formed.sublist
      ((List.sublist_append_left touching back).trans (List.sublist_append_right front _))
    obtain ⟨_, startsBelow, stopsAbove⟩ := merged_bounds touchingFormed start stop
    obtain ⟨starts, stops⟩ := merged_ends touching start stop
    constructor
    · intro r inside
      rcases List.mem_append.mp inside with first | inside
      · exact formed.nonempty r (List.mem_append_left _ first)
      · rcases List.mem_cons.mp inside with rfl | last
        · omega
        · exact formed.nonempty r (List.mem_append_right _ (List.mem_append_right _ last))
    · refine List.pairwise_append.mpr ⟨frontApart, List.pairwise_cons.mpr ⟨fun r last => ?_, backApart⟩,
        fun r first s inside => ?_⟩
      · rcases stops with same | ⟨t, among, same⟩
        · rw [same]
          exact parts.back r last
        · rw [same]
          exact behind t among r last
      · rcases List.mem_cons.mp inside with rfl | last
        · rcases starts with same | ⟨t, among, same⟩
          · rw [same]
            exact parts.front r first
          · rw [same]
            exact between r first t (List.mem_append_left _ among)
        · exact between r first s (List.mem_append_right _ last)
  · rw [RangeSet.insert, if_pos (Nat.not_lt.mp less)]
    exact formed

/-- Insertion adds the offsets of the new range and no others. -/
theorem covers_insert_iff (formed : Formed ranges) :
    Covers (ranges.insert start stop) x ↔ Covers ranges x ∨ start ≤ x ∧ x < stop := by
  constructor
  · exact covers_insert
  · intro covered
    by_cases less : start < stop
    · obtain ⟨front, touching, back, parts, inserted⟩ := insert_parts formed less
      have touchingFormed : Formed touching := formed.sublist (by
        rw [parts.split]
        exact (List.sublist_append_left touching back).trans (List.sublist_append_right front _))
      obtain ⟨takes, startsBelow, stopsAbove⟩ := merged_bounds touchingFormed start stop
      rw [inserted, covers_append, covers_cons]
      rw [parts.split, covers_append, covers_append] at covered
      rcases covered with (first | ⟨r, among, low, high⟩ | last) | new
      · exact .inl first
      · have inside := takes r among
        exact .inr (.inl (by omega))
      · exact .inr (.inr last)
      · exact .inr (.inl (by omega))
    · rw [RangeSet.insert, if_pos (Nat.not_lt.mp less)]
      rcases covered with old | new
      · exact old
      · omega

end Insert

section Gaps

/-- The gaps cover just what no range covers. -/
theorem covers_gapsFrom_iff (formed : Formed ranges) (inside : ∀ r ∈ ranges, r.start < stop) :
    Covers (gapsFrom stop cursor ranges) x ↔ (cursor ≤ x ∧ x < stop) ∧ ¬ Covers ranges x := by
  constructor
  · intro covered
    induction ranges generalizing cursor with
    | nil =>
        rw [gapsFrom] at covered
        split at covered
        · obtain ⟨r, only, low, high⟩ := covered
          obtain rfl := List.mem_singleton.mp only
          refine ⟨⟨low, high⟩, ?_⟩
          rintro ⟨_, absent, _⟩
          cases absent
        · obtain ⟨_, absent, _⟩ := covered
          cases absent
    | cons r ranges hypothesis =>
        have rest := formed.sublist (List.sublist_cons_self r ranges)
        have nonempty := formed.nonempty r List.mem_cons_self
        have apart := (List.pairwise_cons.mp formed.apart).1
        have here := inside r List.mem_cons_self
        have later : Covers (gapsFrom stop (max cursor r.stop) ranges) x →
            (cursor ≤ x ∧ x < stop) ∧ ¬ Covers (r :: ranges) x := by
          intro covered
          obtain ⟨⟨low, high⟩, free⟩ := hypothesis rest
            (fun s among => inside s (List.mem_cons_of_mem r among)) covered
          refine ⟨by omega, fun other => ?_⟩
          rcases covers_cons.mp other with first | last
          · omega
          · exact free last
        rw [gapsFrom] at covered
        split at covered
        · rcases covers_cons.mp covered with ⟨low, high⟩ | covered
          · change x < r.start at high
            refine ⟨⟨low, high.trans here⟩, fun other => ?_⟩
            rcases covers_cons.mp other with first | ⟨s, among, begins, _⟩
            · omega
            · have := apart s among
              omega
          · exact later covered
        · exact later covered
  · exact fun free => gapsFrom_covers free.1.1 free.1.2 free.2

theorem Formed.gapsFrom (formed : Formed ranges) (inside : ∀ r ∈ ranges, r.start < stop) :
    Formed (gapsFrom stop cursor ranges) := by
  constructor
  · intro gap among
    exact (gapsFrom_bounds inside gap among).2.1
  · induction ranges generalizing cursor with
    | nil =>
        rw [RangeSet.gapsFrom]
        split
        · exact List.pairwise_singleton _ _
        · exact .nil
    | cons r ranges hypothesis =>
        have nonempty := formed.nonempty r List.mem_cons_self
        have below : ∀ s ∈ ranges, s.start < stop := fun s among => inside s (List.mem_cons_of_mem r among)
        have rest := @hypothesis (max cursor r.stop) (formed.sublist (List.sublist_cons_self r ranges)) below
        rw [RangeSet.gapsFrom]
        split
        · refine List.pairwise_cons.mpr ⟨fun gap among => ?_, rest⟩
          have := (gapsFrom_bounds below gap among).1
          change r.start < gap.start
          omega
        · exact rest

/-- The ranges that count for a query, and that they are all that overlap it. -/
theorem overlapping_spec (formed : Formed ranges) (start stop : Nat) :
    let overlapping := (ranges.dropWhile fun r => r.stop ≤ start).takeWhile fun r => r.start < stop
    Formed overlapping ∧ (∀ r ∈ overlapping, r.start < stop) ∧
      ∀ x, start ≤ x → x < stop → (Covers overlapping x ↔ Covers ranges x) := by
  have rest := formed.sublist (List.dropWhile_sublist fun r : Range => decide (r.stop ≤ start))
  refine ⟨rest.sublist (List.takeWhile_sublist _), fun r inside => ?_, fun x low high => ?_⟩
  · simpa using List.mem_takeWhile_imp inside
  · constructor
    · exact fun covered => covered.mono fun r inside =>
        (List.dropWhile_sublist _).subset ((List.takeWhile_sublist _).subset inside)
    · intro covered
      rw [← List.takeWhile_append_dropWhile (p := fun r : Range => decide (r.stop ≤ start)) (l := ranges),
        covers_append] at covered
      rcases covered with ⟨r, early, _, ends⟩ | covered
      · have before := List.mem_takeWhile_imp early
        simp only [decide_eq_true_eq] at before
        omega
      rw [← List.takeWhile_append_dropWhile (p := fun r : Range => decide (r.start < stop))
        (l := ranges.dropWhile fun r => decide (r.stop ≤ start)), covers_append] at covered
      rcases covered with covered | ⟨r, late, begins, _⟩
      · exact covered
      · have behind := not_of_mem_dropWhile (p := fun r : Range => decide (r.start < stop)) (by
          apply rest.starts.imp
          intro a b less below
          simp only [decide_eq_true_eq] at below ⊢
          exact less.trans below) late
        simp only [decide_eq_false_iff_not] at behind
        omega

/-- The gaps of a query cover just the offsets of the query that no range covers. -/
theorem covers_gapsWithin_iff (formed : Formed ranges) :
    Covers (ranges.gapsWithin start stop) x ↔ (start ≤ x ∧ x < stop) ∧ ¬ Covers ranges x := by
  unfold gapsWithin
  split
  · constructor
    · rintro ⟨_, absent, _⟩
      cases absent
    · omega
  · obtain ⟨overlapping, below, same⟩ := overlapping_spec formed start stop
    rw [covers_gapsFrom_iff overlapping below]
    apply and_congr_right
    intro inside
    rw [same x inside.1 inside.2]

theorem Formed.gapsWithin (formed : Formed ranges) : Formed (ranges.gapsWithin start stop) := by
  unfold RangeSet.gapsWithin
  split
  · exact .nil
  · obtain ⟨overlapping, below, _⟩ := overlapping_spec formed start stop
    exact overlapping.gapsFrom below

end Gaps

section Canonical

variable {r : Range}

theorem Formed.tail (formed : Formed (r :: ranges)) : Formed ranges := formed.sublist (List.sublist_cons_self r ranges)

/-- What lies behind the first range lies in the others. -/
theorem Formed.covers_tail_iff (formed : Formed (r :: ranges)) :
    Covers ranges x ↔ r.stop < x ∧ Covers (r :: ranges) x := by
  have apart := (List.pairwise_cons.mp formed.apart).1
  rw [covers_cons]
  constructor
  · rintro ⟨s, inside, low, high⟩
    exact ⟨(apart s inside).trans_le low, .inr ⟨s, inside, low, high⟩⟩
  · rintro ⟨beyond, first | rest⟩
    · omega
    · exact rest

theorem Formed.start_le (formed : Formed (r :: ranges)) (covered : Covers (r :: ranges) x) : r.start ≤ x := by
  have nonempty := formed.nonempty r List.mem_cons_self
  rcases covers_cons.mp covered with first | rest
  · exact first.1
  · have beyond := (formed.covers_tail_iff.mp rest).1
    omega

theorem Formed.covers_start (formed : Formed (r :: ranges)) : Covers (r :: ranges) r.start :=
  ⟨r, List.mem_cons_self, le_rfl, formed.nonempty r List.mem_cons_self⟩

theorem Formed.not_covers_stop (formed : Formed (r :: ranges)) : ¬ Covers (r :: ranges) r.stop := by
  intro covered
  rcases covers_cons.mp covered with first | rest
  · omega
  · exact absurd (formed.covers_tail_iff.mp rest).1 (lt_irrefl _)

/-- Ranges that begin together and cover the same offsets begin with the same range. -/
theorem Formed.stop_le {s : Range} {others : RangeSet} (formed : Formed (s :: others)) (start : r.start = s.start)
    (same : ∀ x, Covers (r :: ranges) x ↔ Covers (s :: others) x) : r.stop ≤ s.stop := by
  by_contra less
  have nonempty := formed.nonempty s List.mem_cons_self
  have covered : Covers (r :: ranges) s.stop := ⟨r, List.mem_cons_self, by omega, by omega⟩
  exact formed.not_covers_stop ((same s.stop).mp covered)

/-- A set of offsets has one representation. -/
theorem Formed.ext {others : RangeSet} (formed : Formed ranges) (formed' : Formed others)
    (same : ∀ x, Covers ranges x ↔ Covers others x) : ranges = others := by
  induction ranges generalizing others with
  | nil =>
      cases others with
      | nil => rfl
      | cons s others =>
          obtain ⟨_, absent, _⟩ := (same s.start).mpr formed'.covers_start
          cases absent
  | cons r ranges hypothesis =>
      cases others with
      | nil =>
          obtain ⟨_, absent, _⟩ := (same r.start).mp formed.covers_start
          cases absent
      | cons s others =>
          have start : r.start = s.start := Nat.le_antisymm
            (formed.start_le ((same s.start).mpr formed'.covers_start))
            (formed'.start_le ((same r.start).mp formed.covers_start))
          have stop : r.stop = s.stop := Nat.le_antisymm (formed'.stop_le start same)
            (formed.stop_le start.symm fun x => (same x).symm)
          have first : r = s := by
            obtain ⟨_, _⟩ := r
            obtain ⟨_, _⟩ := s
            exact congrArg₂ Range.mk start stop
          subst first
          congr 1
          apply hypothesis formed.tail formed'.tail
          intro x
          rw [formed.covers_tail_iff, formed'.covers_tail_iff, same x]

/-- No span of covered offsets reaches beyond a range that it contains. -/
theorem Formed.maximal (formed : Formed ranges) (inside : r ∈ ranges) (low : start ≤ r.start) (high : r.stop ≤ stop)
    (covered : ∀ x, start ≤ x → x < stop → Covers ranges x) : start = r.start ∧ stop = r.stop := by
  have nonempty := formed.nonempty r inside
  -- The offsets next to the range are not covered, since every other range keeps apart from it.
  have outside : ∀ s ∈ ranges, s = r ∨ s.stop < r.start ∨ r.stop < s.start := by
    intro s among
    by_cases same : s = r
    · exact .inl same
    · have either : ranges.Pairwise fun a b => a.stop < b.start ∨ b.stop < a.start := formed.apart.imp .inl
      have : Std.Symm fun a b : Range => a.stop < b.start ∨ b.stop < a.start := ⟨fun _ _ => Or.symm⟩
      exact .inr (either.forall among inside same)
  constructor
  · by_contra more
    obtain ⟨s, among, begins, ends⟩ := covered (r.start - 1) (by omega) (by omega)
    rcases outside s among with rfl | before | behind <;> omega
  · by_contra more
    obtain ⟨s, among, begins, ends⟩ := covered r.stop (by omega) (by omega)
    have := formed.nonempty s among
    rcases outside s among with rfl | before | behind <;> omega

end Canonical

section Folds

variable {α : Type*}

/-- When each step adds the offsets of its item, the fold adds those of all items. -/
theorem foldl_adds {step : RangeSet → α → RangeSet} {adds : α → Nat → Prop}
    (one : ∀ item ranges, Formed ranges → Formed (step ranges item) ∧
      ∀ x, Covers (step ranges item) x ↔ Covers ranges x ∨ adds item x)
    (items : List α) (formed : Formed ranges) :
    Formed (items.foldl step ranges) ∧
      ∀ x, Covers (items.foldl step ranges) x ↔ Covers ranges x ∨ ∃ item ∈ items, adds item x := by
  induction items generalizing ranges with
  | nil => exact ⟨formed, fun x => by simp⟩
  | cons item items hypothesis =>
      obtain ⟨here, added⟩ := one item ranges formed
      obtain ⟨last, all⟩ := hypothesis here
      refine ⟨last, fun x => ?_⟩
      rw [List.foldl_cons, all, added]
      simp only [List.mem_cons, or_and_right, exists_or, exists_eq_left, or_assoc]

end Folds

section Sizes

/-- The offsets that the ranges hold together. -/
def size (ranges : List Range) : Nat := (ranges.map fun r => r.stop - r.start).sum

open Classical in
/-- The offsets of a span that have a property. -/
noncomputable def offsets (start stop : Nat) (p : Nat → Prop) : Finset Nat := (Finset.Ico start stop).filter p

theorem mem_offsets {p : Nat → Prop} : x ∈ offsets start stop p ↔ (start ≤ x ∧ x < stop) ∧ p x := by
  simp only [offsets, Finset.mem_filter, Finset.mem_Ico]

theorem offsets_congr {p q : Nat → Prop} (same : ∀ x, start ≤ x → x < stop → (p x ↔ q x)) :
    offsets start stop p = offsets start stop q := by
  ext x
  rw [mem_offsets, mem_offsets]
  exact and_congr_right fun inside => same x inside.1 inside.2

/-- Ranges inside a span hold as many offsets as they cover. -/
theorem Formed.size (formed : Formed ranges) (inside : ∀ r ∈ ranges, start ≤ r.start ∧ r.stop ≤ stop) :
    size ranges = (offsets start stop (Covers ranges)).card := by
  induction ranges with
  | nil =>
      have empty : offsets start stop (Covers []) = ∅ := by
        ext x
        simp [mem_offsets, Covers]
      rw [empty]
      rfl
  | cons r ranges hypothesis =>
      have here := inside r List.mem_cons_self
      have nonempty := formed.nonempty r List.mem_cons_self
      have apart := (List.pairwise_cons.mp formed.apart).1
      have rest := hypothesis (formed.sublist (List.sublist_cons_self r ranges)) fun s among =>
        inside s (List.mem_cons_of_mem r among)
      have parts : offsets start stop (Covers (r :: ranges)) =
          Finset.Ico r.start r.stop ∪ offsets start stop (Covers ranges) := by
        ext x
        rw [Finset.mem_union, Finset.mem_Ico, mem_offsets, mem_offsets, covers_cons]
        constructor
        · rintro ⟨span, first | covered⟩
          · exact .inl first
          · exact .inr ⟨span, covered⟩
        · rintro (first | ⟨span, covered⟩)
          · exact ⟨by omega, .inl first⟩
          · exact ⟨span, .inr covered⟩
      have disjoint : Disjoint (Finset.Ico r.start r.stop) (offsets start stop (Covers ranges)) := by
        rw [Finset.disjoint_left]
        intro x first second
        obtain ⟨_, s, among, low, _⟩ := mem_offsets.mp second
        have ends := (Finset.mem_Ico.mp first).2
        have before := apart s among
        omega
      rw [parts, Finset.card_union_of_disjoint disjoint, ← rest, Nat.card_Ico]
      rfl

/-- The gaps of a span hold the offsets of the span that no range covers. -/
theorem Formed.size_gapsWithin (formed : Formed ranges) :
    RangeSet.size (ranges.gapsWithin start stop) = (offsets start stop fun x => ¬ Covers ranges x).card := by
  rw [formed.gapsWithin.size fun gap among => ⟨(gapsWithin_bounds gap among).1, (gapsWithin_bounds gap among).2.2⟩]
  apply congrArg Finset.card
  apply offsets_congr
  intro x low high
  rw [covers_gapsWithin_iff formed]
  exact and_iff_right ⟨low, high⟩

theorem card_offsets_add_not (start stop : Nat) (p : Nat → Prop) :
    (offsets start stop p).card + (offsets start stop fun x => ¬ p x).card = stop - start := by
  classical
  have parts := Finset.card_filter_add_card_filter_not (s := Finset.Ico start stop) p
  rw [Nat.card_Ico] at parts
  rw [← parts]
  unfold offsets
  congr!

end Sizes

end Dis86.RangeSet
