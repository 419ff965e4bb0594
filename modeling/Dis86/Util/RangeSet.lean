import Dis86.Config.RangeSets
import Dis86.Lib.PartitionPoint

namespace Dis86.Util
open Lib

/-- A half-open range of words. -/
structure Range where
  start : BitVec 32
  stop : BitVec 32
deriving DecidableEq, Repr

/-- The vector of ranges. -/
abbrev RangeSet := List Range

namespace RangeSet

def minU32 (a b : BitVec 32) : BitVec 32 := if a ≤ b then a else b

def maxU32 (a b : BitVec 32) : BitVec 32 := if a ≤ b then b else a

/-- The items between two positions are replaced. Positions out of order or out of bounds panic. -/
def splice (ranges : RangeSet) (lo hi : Nat) (items : List Range) : Option RangeSet :=
  if lo ≤ hi ∧ hi ≤ ranges.length then some (ranges.take lo ++ items ++ ranges.drop hi) else none

/-- The new range together with the ranges between two positions. -/
def mergedRange (ranges : RangeSet) (lo hi : Nat) (new : Range) : Option Range :=
  if lo < hi then do
    let first ← ranges[lo]?
    let last ← ranges[hi - 1]?
    return ⟨minU32 first.start new.start, maxU32 last.stop new.stop⟩
  else some new

def insert (ranges : RangeSet) (start stop : BitVec 32) : Option RangeSet :=
  let new : Range := ⟨start, stop⟩
  if new.start ≥ new.stop then some ranges
  else do
    let lo := partitionPoint (fun r => r.stop < new.start) ranges
    let hi := partitionPoint (fun r => r.start ≤ new.stop) ranges
    let merged ← mergedRange ranges lo hi new
    splice ranges lo hi [merged]

/-- One step of the loop over the ranges of a query. -/
def gapStep (state : List Range × BitVec 32) (r : Range) : List Range × BitVec 32 :=
  (if state.2 < r.start then state.1 ++ [⟨state.2, r.start⟩] else state.1, maxU32 state.2 r.stop)

/-- The gap behind the last range. -/
def closeGaps (state : List Range × BitVec 32) (stop : BitVec 32) : List Range :=
  if state.2 < stop then state.1 ++ [⟨state.2, stop⟩] else state.1

/-- A slice whose positions are out of order or out of bounds panics. -/
def gapsWithin (ranges : RangeSet) (start stop : BitVec 32) : Option (List Range) :=
  if start ≥ stop then some []
  else
    let lo := partitionPoint (fun r => r.stop ≤ start) ranges
    let hi := partitionPoint (fun r => r.start < stop) ranges
    if lo ≤ hi ∧ hi ≤ ranges.length then
      some (closeGaps (((ranges.take hi).drop lo).foldl gapStep ([], start)) stop)
    else none

/-- The calls of a run, one after the other. -/
def insertAll (ranges : RangeSet) (calls : List (BitVec 32 × BitVec 32)) : Option RangeSet :=
  calls.foldlM (fun ranges call => ranges.insert call.1 call.2) ranges

/-- A word lies in one of the ranges. -/
def Covers (ranges : List Range) (x : BitVec 32) : Prop := ∃ r ∈ ranges, r.start ≤ x ∧ x < r.stop

/-- No range is empty, and each ends before the next one begins. -/
structure Canonical (ranges : List Range) : Prop where
  nonempty : ∀ r ∈ ranges, r.start < r.stop
  apart : ranges.Pairwise fun a b => a.stop < b.start

/-- The gaps of a query are its maximal ranges that nothing covers. -/
structure Gaps (ranges : RangeSet) (start stop : BitVec 32) (gaps : List Range) : Prop where
  canonical : Canonical gaps
  covers : ∀ x, Covers gaps x ↔ (start ≤ x ∧ x < stop) ∧ ¬ Covers ranges x
  maximal : ∀ gap ∈ gaps, ∀ low high, low ≤ gap.start → gap.stop ≤ high →
    (∀ x, low ≤ x → x < high → (start ≤ x ∧ x < stop) ∧ ¬ Covers ranges x) → low = gap.start ∧ high = gap.stop

section Numbers

/-- The range of numbers. -/
def plain (r : Range) : Dis86.Range := ⟨r.start.toNat, r.stop.toNat⟩

def numbers (ranges : RangeSet) : Dis86.RangeSet := ranges.map plain

theorem plain_injective {a b : Range} (same : plain a = plain b) : a = b := by
  obtain ⟨_, _⟩ := a
  obtain ⟨_, _⟩ := b
  obtain ⟨start, stop⟩ := Dis86.Range.mk.inj same
  exact congrArg₂ Range.mk (BitVec.eq_of_toNat_eq start) (BitVec.eq_of_toNat_eq stop)

theorem numbers_injective {a b : RangeSet} (same : numbers a = numbers b) : a = b :=
  List.map_injective_iff.mpr (fun _ _ => plain_injective) same

@[simp] theorem toNat_minU32 (a b : BitVec 32) : (minU32 a b).toNat = min a.toNat b.toNat := by
  simp only [minU32, BitVec.le_def]
  split <;> omega

@[simp] theorem toNat_maxU32 (a b : BitVec 32) : (maxU32 a b).toNat = max a.toNat b.toNat := by
  simp only [maxU32, BitVec.le_def]
  split <;> omega

variable {ranges : RangeSet} {x start stop : BitVec 32}

theorem covers_iff : Covers ranges x ↔ Dis86.RangeSet.Covers (numbers ranges) x.toNat := by
  simp only [Covers, Dis86.RangeSet.Covers, numbers, List.mem_map, exists_exists_and_eq_and, plain, BitVec.le_def,
    BitVec.lt_def]

theorem canonical_iff : Canonical ranges ↔ Dis86.RangeSet.Formed (numbers ranges) := by
  constructor
  · intro canonical
    constructor
    · intro r inside
      obtain ⟨s, among, rfl⟩ := List.mem_map.mp inside
      exact BitVec.lt_def.mp (canonical.nonempty s among)
    · exact List.pairwise_map.mpr (canonical.apart.imp fun less => BitVec.lt_def.mp less)
  · intro formed
    constructor
    · intro r inside
      exact BitVec.lt_def.mpr (formed.nonempty (plain r) (List.mem_map_of_mem inside))
    · exact (List.pairwise_map.mp formed.apart).imp fun less => BitVec.lt_def.mpr less

/-- Nothing beyond the words is covered. -/
theorem covers_numbers_lt {n : Nat} (covered : Dis86.RangeSet.Covers (numbers ranges) n) : n < 2 ^ 32 := by
  obtain ⟨r, inside, _, below⟩ := covered
  obtain ⟨s, _, rfl⟩ := List.mem_map.mp inside
  exact below.trans s.stop.isLt

end Numbers

section Refinement

variable {ranges : RangeSet} {start stop : BitVec 32}

theorem Canonical.formed (canonical : Canonical ranges) : Dis86.RangeSet.Formed (numbers ranges) :=
  canonical_iff.mp canonical

theorem Canonical.partitioned_stop (canonical : Canonical ranges) (below : BitVec 32 → Bool)
    (down : ∀ a b, a < b → below b = true → below a = true) : Partitioned (fun r => below r.stop) ranges := by
  have stops := List.pairwise_map.mp canonical.formed.stops
  exact stops.imp fun less => down _ _ (BitVec.lt_def.mpr less)

theorem Canonical.partitioned_start (canonical : Canonical ranges) (below : BitVec 32 → Bool)
    (down : ∀ a b, a < b → below b = true → below a = true) : Partitioned (fun r => below r.start) ranges := by
  have starts := List.pairwise_map.mp canonical.formed.starts
  exact starts.imp fun less => down _ _ (BitVec.lt_def.mpr less)

theorem numbers_takeWhile (p : Dis86.Range → Bool) :
    (numbers ranges).takeWhile p = numbers (ranges.takeWhile fun r => p (plain r)) := List.takeWhile_map

theorem numbers_dropWhile (p : Dis86.Range → Bool) :
    (numbers ranges).dropWhile p = numbers (ranges.dropWhile fun r => p (plain r)) := List.dropWhile_map

/-- The ranges between two positions, merged with the new one. -/
theorem mergedRange_eq (front middle back : RangeSet) (new : Range) :
    ∃ merged, mergedRange (front ++ (middle ++ back)) front.length (front.length + middle.length) new = some merged ∧
      plain merged = Dis86.RangeSet.merged (numbers middle) new.start.toNat new.stop.toNat := by
  unfold mergedRange Dis86.RangeSet.merged
  rw [numbers, List.head?_map, List.getLast?_map]
  cases first : middle.head? with
  | none =>
      obtain rfl := List.head?_eq_none_iff.mp first
      refine ⟨new, if_neg (by simp), rfl⟩
  | some low =>
      obtain ⟨rest, isCons⟩ := List.head?_eq_some_iff.mp first
      have some : middle ≠ [] := by
        rw [isCons]
        exact List.cons_ne_nil low rest
      obtain ⟨high, last⟩ := Option.isSome_iff_exists.mp (List.getLast?_isSome.mpr some)
      obtain ⟨init, isConcat⟩ := List.getLast?_eq_some_iff.mp last
      have positive := List.length_pos_iff.mpr some
      have firstRead : (front ++ (middle ++ back))[front.length]? = Option.some low := by
        rw [List.getElem?_append_right le_rfl, Nat.sub_self, isCons]
        rfl
      have lastRead : (front ++ (middle ++ back))[front.length + middle.length - 1]? = Option.some high := by
        rw [List.getElem?_append_right (by omega), isConcat]
        have position : front.length + (init ++ [high]).length - 1 - front.length = init.length := by
          rw [List.length_append, List.length_singleton]
          omega
        rw [position, List.append_assoc, List.getElem?_append_right le_rfl, Nat.sub_self]
        rfl
      rw [if_pos (by omega), firstRead, lastRead, last]
      refine ⟨_, rfl, ?_⟩
      simp [plain]

theorem splice_eq {front middle back items : RangeSet} :
    splice (front ++ (middle ++ back)) front.length (front.length + middle.length) items =
      some (front ++ items ++ back) := by
  have bound : front.length + middle.length ≤ (front ++ (middle ++ back)).length := by
    simp only [List.length_append]
    omega
  rw [splice, if_pos ⟨Nat.le_add_right _ _, bound⟩, List.take_left, ← List.append_assoc, ← List.length_append,
    List.drop_left]

/-- Insertion does not panic, and it is the insertion of ranges of numbers. -/
theorem insert_refines (canonical : Canonical ranges) (start stop : BitVec 32) :
    ∃ next, ranges.insert start stop = some next ∧
      numbers next = (numbers ranges).insert start.toNat stop.toNat := by
  have before : (fun r => decide ((plain r).stop < start.toNat)) = fun r => decide (r.stop < start) :=
    funext fun _ => decide_eq_decide.mpr BitVec.lt_def.symm
  have upTo : (fun r => decide ((plain r).start ≤ stop.toNat)) = fun r => decide (r.start ≤ stop) :=
    funext fun _ => decide_eq_decide.mpr BitVec.le_def.symm
  by_cases less : start < stop
  · have stops := canonical.partitioned_stop (fun b => decide (b < start)) fun a b smaller below => by
      simp only [decide_eq_true_eq, BitVec.lt_def] at smaller below ⊢
      omega
    have starts := canonical.partitioned_start (fun b => decide (b ≤ stop)) fun a b smaller below => by
      simp only [decide_eq_true_eq, BitVec.lt_def, BitVec.le_def] at smaller below ⊢
      omega
    obtain ⟨front, middle, back, split, isFront, isMiddle, isBack, lo, hi⟩ :=
      exists_split stops starts fun r inside below => by
        have nonempty := canonical.nonempty r inside
        simp only [decide_eq_true_eq, BitVec.lt_def, BitVec.le_def] at nonempty below less ⊢
        omega
    obtain ⟨merged, isMerged, value⟩ := mergedRange_eq front middle back ⟨start, stop⟩
    refine ⟨front ++ [merged] ++ back, ?_, ?_⟩
    · have kept : ¬ start ≥ stop := by
        simp only [ge_iff_le, BitVec.le_def, BitVec.lt_def] at less ⊢
        omega
      rw [insert]
      simp only [if_neg kept, lo, hi]
      rw [split, isMerged]
      exact splice_eq
    · have kept : ¬ stop.toNat ≤ start.toNat := Nat.not_le.mpr (BitVec.lt_def.mp less)
      rw [Dis86.RangeSet.insert, if_neg kept]
      simp only [numbers_takeWhile, numbers_dropWhile, before, upTo, ← isFront, ← isMiddle, ← isBack]
      change numbers (front ++ [merged] ++ back) = numbers front ++ _ :: numbers back
      rw [← value, numbers, List.map_append, List.map_append, List.append_assoc]
      rfl
  · have kept : start ≥ stop := by
      simp only [ge_iff_le, BitVec.le_def, BitVec.lt_def] at less ⊢
      omega
    refine ⟨ranges, if_pos kept, ?_⟩
    rw [Dis86.RangeSet.insert, if_pos (BitVec.le_def.mp kept)]

/-- The loop collects the gaps before and between the ranges, and the step behind it the last one. -/
theorem foldl_gapStep_eq (ranges : RangeSet) (gaps : List Range) (cursor stop : BitVec 32) :
    numbers (closeGaps (ranges.foldl gapStep (gaps, cursor)) stop) =
      numbers gaps ++ Dis86.RangeSet.gapsFrom stop.toNat cursor.toNat (numbers ranges) := by
  induction ranges generalizing gaps cursor with
  | nil =>
      change numbers (if cursor < stop then gaps ++ [⟨cursor, stop⟩] else gaps) =
        numbers gaps ++ if cursor.toNat < stop.toNat then [⟨cursor.toNat, stop.toNat⟩] else []
      by_cases less : cursor < stop
      · rw [if_pos less, if_pos (BitVec.lt_def.mp less), numbers, List.map_append]
        rfl
      · rw [if_neg less, if_neg (mt BitVec.lt_def.mpr less), List.append_nil]
  | cons r ranges hypothesis =>
      rw [List.foldl_cons]
      refine (hypothesis (gapStep (gaps, cursor) r).1 (gapStep (gaps, cursor) r).2).trans ?_
      change _ = numbers gaps ++ if cursor.toNat < r.start.toNat then
        ⟨cursor.toNat, r.start.toNat⟩ :: Dis86.RangeSet.gapsFrom _ (max cursor.toNat r.stop.toNat) (numbers ranges)
        else Dis86.RangeSet.gapsFrom _ (max cursor.toNat r.stop.toNat) (numbers ranges)
      rw [gapStep, toNat_maxU32]
      by_cases less : cursor < r.start
      · rw [if_pos less, if_pos (BitVec.lt_def.mp less), numbers, List.map_append, List.append_assoc]
        rfl
      · rw [if_neg less, if_neg (mt BitVec.lt_def.mpr less)]

/-- A query does not panic, and its gaps are those of the ranges of numbers. -/
theorem gapsWithin_refines (canonical : Canonical ranges) (start stop : BitVec 32) :
    ∃ gaps, ranges.gapsWithin start stop = some gaps ∧
      numbers gaps = (numbers ranges).gapsWithin start.toNat stop.toNat := by
  have before : (fun r => decide ((plain r).stop ≤ start.toNat)) = fun r => decide (r.stop ≤ start) :=
    funext fun _ => decide_eq_decide.mpr BitVec.le_def.symm
  have upTo : (fun r => decide ((plain r).start < stop.toNat)) = fun r => decide (r.start < stop) :=
    funext fun _ => decide_eq_decide.mpr BitVec.lt_def.symm
  by_cases less : start < stop
  · have stops := canonical.partitioned_stop (fun b => decide (b ≤ start)) fun a b smaller below => by
      simp only [decide_eq_true_eq, BitVec.lt_def, BitVec.le_def] at smaller below ⊢
      omega
    have starts := canonical.partitioned_start (fun b => decide (b < stop)) fun a b smaller below => by
      simp only [decide_eq_true_eq, BitVec.lt_def] at smaller below ⊢
      omega
    obtain ⟨front, middle, back, split, isFront, isMiddle, isBack, lo, hi⟩ :=
      exists_split stops starts fun r inside below => by
        have nonempty := canonical.nonempty r inside
        simp only [decide_eq_true_eq, BitVec.lt_def, BitVec.le_def] at nonempty below less ⊢
        omega
    have kept : ¬ start ≥ stop := by
      simp only [ge_iff_le, BitVec.le_def, BitVec.lt_def] at less ⊢
      omega
    have slice : (ranges.take (front.length + middle.length)).drop front.length = middle := by
      rw [split, ← List.append_assoc, ← List.length_append, List.take_left, List.drop_left]
    have bound : front.length + middle.length ≤ ranges.length := by
      rw [split]
      simp only [List.length_append]
      omega
    refine ⟨closeGaps (middle.foldl gapStep ([], start)) stop, ?_, ?_⟩
    · rw [gapsWithin, if_neg kept]
      simp only [lo, hi, slice]
      exact if_pos ⟨Nat.le_add_right _ _, bound⟩
    · have whole := foldl_gapStep_eq middle [] start stop
      rw [Dis86.RangeSet.gapsWithin, if_neg (Nat.not_le.mpr (BitVec.lt_def.mp less))]
      simp only [numbers_takeWhile, numbers_dropWhile, before, upTo, ← isMiddle]
      exact whole
  · have kept : start ≥ stop := by
      simp only [ge_iff_le, BitVec.le_def, BitVec.lt_def] at less ⊢
      omega
    refine ⟨[], if_pos kept, ?_⟩
    rw [Dis86.RangeSet.gapsWithin, if_pos (BitVec.le_def.mp kept)]
    rfl

end Refinement

section Runs

variable {ranges : RangeSet} {start stop : BitVec 32} {calls : List (BitVec 32 × BitVec 32)}

/-- One insertion keeps the set canonical and adds the words of the new range. -/
theorem insert_step (canonical : Canonical ranges) (start stop : BitVec 32) :
    ∃ next, ranges.insert start stop = some next ∧ Canonical next ∧
      ∀ x, Covers next x ↔ Covers ranges x ∨ start ≤ x ∧ x < stop := by
  obtain ⟨next, inserted, value⟩ := insert_refines canonical start stop
  refine ⟨next, inserted, ?_, fun x => ?_⟩
  · rw [canonical_iff, value]
    exact canonical.formed.insert _ _
  · rw [covers_iff, value, Dis86.RangeSet.covers_insert_iff canonical.formed, covers_iff, BitVec.le_def, BitVec.lt_def]

/-- A run of insertions adds the words of all its ranges. -/
theorem insertAll_run (canonical : Canonical ranges) (calls : List (BitVec 32 × BitVec 32)) :
    ∃ next, ranges.insertAll calls = some next ∧ Canonical next ∧
      ∀ x, Covers next x ↔ Covers ranges x ∨ ∃ call ∈ calls, call.1 ≤ x ∧ x < call.2 := by
  induction calls generalizing ranges with
  | nil => exact ⟨ranges, rfl, canonical, fun x => by simp⟩
  | cons call calls hypothesis =>
      obtain ⟨middle, first, middleCanonical, added⟩ := insert_step canonical call.1 call.2
      obtain ⟨next, rest, nextCanonical, all⟩ := hypothesis middleCanonical
      refine ⟨next, ?_, nextCanonical, fun x => ?_⟩
      · rw [insertAll, List.foldlM_cons, first]
        exact rest
      · rw [all, added]
        simp only [List.mem_cons, or_and_right, exists_or, exists_eq_left, or_assoc]

theorem Canonical.nil : Canonical [] := ⟨fun r absent => (by cases absent), .nil⟩

/-- A set of words has one representation. -/
theorem Canonical.ext {others : RangeSet} (canonical : Canonical ranges) (canonical' : Canonical others)
    (same : ∀ x, Covers ranges x ↔ Covers others x) : ranges = others := by
  apply numbers_injective
  apply canonical.formed.ext canonical'.formed
  intro n
  by_cases small : n < 2 ^ 32
  · have word : (BitVec.ofNat 32 n).toNat = n := by rw [BitVec.toNat_ofNat, Nat.mod_eq_of_lt small]
    have here := same (.ofNat 32 n)
    rw [covers_iff, covers_iff, word] at here
    exact here
  · exact ⟨fun covered => absurd (covers_numbers_lt covered) small,
      fun covered => absurd (covers_numbers_lt covered) small⟩

/-- The gaps of a query are the maximal ranges of it that nothing covers. -/
theorem gapsWithin_gaps (canonical : Canonical ranges) (start stop : BitVec 32) :
    ∃ gaps, ranges.gapsWithin start stop = some gaps ∧ Gaps ranges start stop gaps := by
  obtain ⟨gaps, read, value⟩ := gapsWithin_refines canonical start stop
  have gapsCanonical : Canonical gaps := by
    rw [canonical_iff, value]
    exact canonical.formed.gapsWithin
  have covers (x : BitVec 32) : Covers gaps x ↔ (start ≤ x ∧ x < stop) ∧ ¬ Covers ranges x := by
    rw [covers_iff, value, Dis86.RangeSet.covers_gapsWithin_iff canonical.formed, covers_iff, BitVec.le_def,
      BitVec.lt_def]
  refine ⟨gaps, read, gapsCanonical, covers, fun gap inside low high begins ends free => ?_⟩
  have maximal := gapsCanonical.formed.maximal (List.mem_map_of_mem inside) (BitVec.le_def.mp begins)
    (BitVec.le_def.mp ends) fun n above below => by
      have small : n < 2 ^ 32 := below.trans high.isLt
      have word : (BitVec.ofNat 32 n).toNat = n := by rw [BitVec.toNat_ofNat, Nat.mod_eq_of_lt small]
      have covered := (covers (.ofNat 32 n)).mpr (free (.ofNat 32 n) (by rw [BitVec.le_def, word]; exact above)
        (by rw [BitVec.lt_def, word]; exact below))
      rw [covers_iff, word] at covered
      exact covered
  exact ⟨BitVec.eq_of_toNat_eq maximal.1, BitVec.eq_of_toNat_eq maximal.2⟩

/-- Insertions never panic and build the canonical set of the inserted words, whatever their order, and its queries
return the maximal gaps. -/
theorem insertAll_canonical (calls : List (BitVec 32 × BitVec 32)) : ∃ ranges, insertAll [] calls = some ranges ∧
    Canonical ranges ∧ (∀ x, Covers ranges x ↔ ∃ call ∈ calls, call.1 ≤ x ∧ x < call.2) ∧
    (∀ calls', calls'.Perm calls → insertAll [] calls' = some ranges) ∧
    ∀ start stop, ∃ gaps, ranges.gapsWithin start stop = some gaps ∧ Gaps ranges start stop gaps := by
  have empty (x : BitVec 32) : ¬ Covers [] x := fun ⟨_, absent, _⟩ => by cases absent
  obtain ⟨ranges, built, canonical, covers⟩ := insertAll_run .nil calls
  have union (x : BitVec 32) : Covers ranges x ↔ ∃ call ∈ calls, call.1 ≤ x ∧ x < call.2 := by
    rw [covers, or_iff_right (empty x)]
  refine ⟨ranges, built, canonical, union, fun calls' same => ?_, gapsWithin_gaps canonical⟩
  obtain ⟨others, built', canonical', covers'⟩ := insertAll_run .nil calls'
  rw [built', canonical'.ext canonical fun x => ?_]
  rw [covers', or_iff_right (empty x), union]
  exact exists_congr fun call => and_congr_left' same.mem_iff

end Runs

end RangeSet

end Dis86.Util
