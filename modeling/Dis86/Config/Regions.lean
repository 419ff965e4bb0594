import Dis86.Config.Tables
import Mathlib.Data.List.Sort

namespace Dis86
open Asm (Seg SegOff)

/-- A half-open range of offsets. -/
structure Range where
  start : Nat
  stop : Nat
deriving DecidableEq, Repr

/-- The ranges of a set are ordered and do not touch. -/
abbrev RangeSet := List Range

namespace RangeSet

/-- A new range takes in the ranges that it overlaps or touches. -/
def merged (touching : List Range) (start stop : Nat) : Range :=
  match touching.head?, touching.getLast? with
  | some first, some last => ⟨min first.start start, max last.stop stop⟩
  | _, _ => ⟨start, stop⟩

def insert (ranges : RangeSet) (start stop : Nat) : RangeSet :=
  if stop ≤ start then ranges
  else
    let rest := ranges.dropWhile fun r => r.stop < start
    (ranges.takeWhile fun r => r.stop < start) ++
      merged (rest.takeWhile fun r => r.start ≤ stop) start stop ::
      rest.dropWhile fun r => r.start ≤ stop

/-- The gaps before and between the ranges, and the one behind them. -/
def gapsFrom (stop : Nat) : Nat → RangeSet → List Range
  | cursor, [] => if cursor < stop then [⟨cursor, stop⟩] else []
  | cursor, r :: ranges =>
      if cursor < r.start then ⟨cursor, r.start⟩ :: gapsFrom stop (max cursor r.stop) ranges
      else gapsFrom stop (max cursor r.stop) ranges

/-- Only ranges that overlap the query count. -/
def gapsWithin (ranges : RangeSet) (start stop : Nat) : List Range :=
  if stop ≤ start then []
  else gapsFrom stop start
    ((ranges.dropWhile fun r => r.stop ≤ start).takeWhile fun r => r.start < stop)

/-- An offset lies in one of the ranges. -/
def Covers (ranges : List Range) (x : Nat) : Prop := ∃ r ∈ ranges, r.start ≤ x ∧ x < r.stop

theorem Covers.mono {ranges more : List Range} {x : Nat} (covered : Covers ranges x)
    (part : ∀ r ∈ ranges, r ∈ more) : Covers more x := by
  obtain ⟨r, inside, low, high⟩ := covered
  exact ⟨r, part r inside, low, high⟩

/-- A merged range covers no more than its parts, when the outermost ones reach the new range. -/
theorem covers_merged {touching : List Range} {start stop x : Nat}
    (first_reaches : ∀ r, touching.head? = some r → start ≤ r.stop)
    (last_reaches : ∀ r, touching.getLast? = some r → r.start ≤ stop)
    (low : (merged touching start stop).start ≤ x) (high : x < (merged touching start stop).stop) :
    Covers touching x ∨ start ≤ x ∧ x < stop := by
  unfold merged at low high
  split at low
  · rename_i first last head tail
    rw [head, tail] at high
    have left := first_reaches first head
    have right := last_reaches last tail
    change min first.start start ≤ x at low
    change x < max last.stop stop at high
    by_cases before : x < start
    · exact .inl ⟨first, List.mem_of_head? head, by omega, by omega⟩
    · by_cases beyond : stop ≤ x
      · exact .inl ⟨last, List.mem_of_getLast? tail, by omega, by omega⟩
      · exact .inr ⟨by omega, by omega⟩
  · rename_i missing
    refine .inr ⟨low, ?_⟩
    split at high
    · rename_i first last head tail
      exact absurd tail (missing first last head)
    · exact high

theorem covers_insert {ranges : RangeSet} {start stop x : Nat}
    (covered : Covers (ranges.insert start stop) x) :
    Covers ranges x ∨ start ≤ x ∧ x < stop := by
  unfold insert at covered
  split at covered
  · exact .inl covered
  · obtain ⟨r, inside, low, high⟩ := covered
    have rest : ∀ s ∈ ranges.dropWhile fun r => r.stop < start, s ∈ ranges := fun s member =>
      (List.dropWhile_sublist _).subset member
    rcases List.mem_append.mp inside with before | inside
    · exact .inl ⟨r, (List.takeWhile_sublist _).subset before, low, high⟩
    · rcases List.mem_cons.mp inside with rfl | after
      · refine (covers_merged ?_ ?_ low high).imp_left fun covered => covered.mono fun s member =>
          rest s ((List.takeWhile_sublist _).subset member)
        · intro first head
          rw [List.head?_takeWhile] at head
          have kept := List.head?_dropWhile_not (fun r : Range => decide (r.stop < start)) ranges
          have first_kept := (Option.filter_eq_some_iff.mp head).1
          rw [first_kept] at kept
          simpa using kept
        · intro last tail
          have kept := List.all_eq_true.mp (List.all_takeWhile (p := fun r : Range =>
            decide (r.start ≤ stop))) last (List.mem_of_getLast? tail)
          simpa using kept
      · exact .inl ⟨r, rest r ((List.dropWhile_sublist _).subset after), low, high⟩

theorem gapsFrom_covers {stop cursor x : Nat} {ranges : List Range} (from_cursor : cursor ≤ x)
    (below : x < stop) (free : ¬ Covers ranges x) : Covers (gapsFrom stop cursor ranges) x := by
  induction ranges generalizing cursor with
  | nil =>
      rw [gapsFrom, if_pos (by omega)]
      exact ⟨_, List.mem_cons_self, from_cursor, below⟩
  | cons r ranges hypothesis =>
      have later : ¬ Covers ranges x := fun ⟨s, member, low, high⟩ =>
        free ⟨s, List.mem_cons_of_mem r member, low, high⟩
      have outside : x < r.start ∨ r.stop ≤ x := by
        by_contra inside
        exact free ⟨r, List.mem_cons_self, by omega, by omega⟩
      rw [gapsFrom]
      split
      · rename_i gap
        rcases outside with before | after
        · exact ⟨_, List.mem_cons_self, from_cursor, before⟩
        · exact (hypothesis (by omega) later).mono fun s member => List.mem_cons_of_mem _ member
      · exact hypothesis (by omega) later

/-- An offset of the query that no range covers lies in a gap. -/
theorem gapsWithin_covers {ranges : RangeSet} {start stop x : Nat} (low : start ≤ x) (high : x < stop)
    (free : ¬ Covers ranges x) : Covers (ranges.gapsWithin start stop) x := by
  rw [gapsWithin, if_neg (by omega)]
  refine gapsFrom_covers low high fun covered => free (covered.mono fun r member => ?_)
  exact (List.dropWhile_sublist _).subset ((List.takeWhile_sublist _).subset member)

theorem gapsFrom_bounds {stop cursor : Nat} {ranges : List Range}
    (below : ∀ r ∈ ranges, r.start < stop) :
    ∀ gap ∈ gapsFrom stop cursor ranges, cursor ≤ gap.start ∧ gap.start < gap.stop ∧ gap.stop ≤ stop := by
  induction ranges generalizing cursor with
  | nil =>
      intro gap inside
      rw [gapsFrom] at inside
      split at inside
      · obtain rfl := List.mem_singleton.mp inside
        exact ⟨le_rfl, by assumption, le_rfl⟩
      · cases inside
  | cons r ranges hypothesis =>
      have first := below r List.mem_cons_self
      have later := @hypothesis (max cursor r.stop) fun s member =>
        below s (List.mem_cons_of_mem r member)
      intro gap inside
      rw [gapsFrom] at inside
      split at inside
      · rcases List.mem_cons.mp inside with rfl | inside
        · exact ⟨le_rfl, by assumption, by show r.start ≤ stop; omega⟩
        · have := later gap inside
          omega
      · have := later gap inside
        omega

theorem gapsWithin_bounds {ranges : RangeSet} {start stop : Nat} :
    ∀ gap ∈ ranges.gapsWithin start stop,
      start ≤ gap.start ∧ gap.start < gap.stop ∧ gap.stop ≤ stop := by
  intro gap inside
  unfold gapsWithin at inside
  split at inside
  · cases inside
  · refine gapsFrom_bounds (fun r member => ?_) gap inside
    simpa using List.all_eq_true.mp (List.all_takeWhile (p := fun r : Range =>
      decide (r.start < stop))) r member

end RangeSet

/-- The position of an address in the order of all addresses. -/
def rankOf (addr : SegOff) : Nat :=
  match addr.seg with
  | .normal seg => seg.toNat * 65536 + addr.off.toNat
  | .overlay seg => (65536 + seg.toNat) * 65536 + addr.off.toNat

theorem lt_iff_rankOf (a b : SegOff) : a.lt b = true ↔ rankOf a < rankOf b := by
  obtain ⟨seg, off⟩ := a
  obtain ⟨seg', off'⟩ := b
  have small := off.isLt
  have small' := off'.isLt
  cases seg with
  | normal n =>
      cases seg' with
      | normal n' =>
          have same : n = n' ↔ n.toNat = n'.toNat := BitVec.toNat_inj.symm
          simp only [SegOff.lt, Seg.lt, Seg.normal.injEq, Bool.or_eq_true, Bool.and_eq_true,
            decide_eq_true_eq, BitVec.lt_def, same, rankOf]
          omega
      | overlay n' =>
          have first := n.isLt
          simp only [SegOff.lt, Seg.lt, rankOf, Bool.true_or, true_iff]
          omega
  | overlay n =>
      cases seg' with
      | normal n' =>
          have second := n'.isLt
          simp only [SegOff.lt, Seg.lt, rankOf, reduceCtorEq, decide_false, Bool.false_and,
            Bool.or_false, Bool.false_eq_true, false_iff]
          omega
      | overlay n' =>
          have same : n = n' ↔ n.toNat = n'.toNat := BitVec.toNat_inj.symm
          simp only [SegOff.lt, Seg.lt, Seg.overlay.injEq, Bool.or_eq_true, Bool.and_eq_true,
            decide_eq_true_eq, BitVec.lt_def, same, rankOf]
          omega

theorem rankOf_injective {a b : SegOff} (same : rankOf a = rankOf b) : a = b := by
  obtain ⟨seg, off⟩ := a
  obtain ⟨seg', off'⟩ := b
  have small := off.isLt
  have small' := off'.isLt
  have offs : off.toNat = off'.toNat := by
    simp only [rankOf] at same
    split at same <;> split at same <;> omega
  obtain rfl := BitVec.eq_of_toNat_eq offs
  cases seg with
  | normal n =>
      cases seg' with
      | normal n' =>
          simp only [rankOf] at same
          obtain rfl : n = n' := BitVec.eq_of_toNat_eq (by omega)
          rfl
      | overlay n' =>
          have first := n.isLt
          simp only [rankOf] at same
          omega
  | overlay n =>
      cases seg' with
      | normal n' =>
          have second := n'.isLt
          simp only [rankOf] at same
          omega
      | overlay n' =>
          simp only [rankOf] at same
          obtain rfl : n = n' := BitVec.eq_of_toNat_eq (by omega)
          rfl

theorem le_iff_rankOf (a b : SegOff) : a.le b = true ↔ rankOf a ≤ rankOf b := by
  simp only [SegOff.le, Bool.or_eq_true, decide_eq_true_eq, lt_iff_rankOf]
  constructor
  · rintro (less | rfl)
    · omega
    · exact le_rfl
  · intro le
    rcases Nat.lt_or_eq_of_le le with less | same
    · exact .inl less
    · exact .inr (rankOf_injective same)

theorem rankOf_le_iff {a b : SegOff} (seg : a.seg = b.seg) :
    rankOf a ≤ rankOf b ↔ a.off.toNat ≤ b.off.toNat := by
  obtain ⟨seg', off⟩ := a
  obtain ⟨seg'', off'⟩ := b
  obtain rfl : seg' = seg'' := seg
  cases seg' <;> simp [rankOf]

/-- In one segment the addresses are ordered by their offsets. -/
theorem le_iff_off {a b : SegOff} (seg : a.seg = b.seg) :
    a.le b = true ↔ a.off.toNat ≤ b.off.toNat := (le_iff_rankOf a b).trans (rankOf_le_iff seg)

namespace FuncRegion

/-- Regions are ordered by their start, then by their end. -/
def before (a b : FuncRegion) : Prop := a.start.lt b.start ∨ a.start = b.start ∧ a.stop.le b.stop

instance : DecidableRel before := fun a b => by
  unfold before
  infer_instance

def sort (regions : List FuncRegion) : List FuncRegion := regions.insertionSort before

theorem start_le_of_before {a b : FuncRegion} (ordered : a.before b) :
    rankOf a.start ≤ rankOf b.start := by
  rcases ordered with less | ⟨same, _⟩
  · exact ((lt_iff_rankOf _ _).mp less).le
  · rw [same]

instance : Std.Total before where
  total a b := by
    rcases Nat.lt_trichotomy (rankOf a.start) (rankOf b.start) with less | same | more
    · exact .inl (.inl ((lt_iff_rankOf _ _).mpr less))
    · have start := rankOf_injective same
      rcases Nat.le_total (rankOf a.stop) (rankOf b.stop) with le | le
      · exact .inl (.inr ⟨start, (le_iff_rankOf _ _).mpr le⟩)
      · exact .inr (.inr ⟨start.symm, (le_iff_rankOf _ _).mpr le⟩)
    · exact .inr (.inl ((lt_iff_rankOf _ _).mpr more))

instance : IsTrans FuncRegion before where
  trans a b c first second := by
    rcases first with less | ⟨same, le⟩
    · refine .inl ((lt_iff_rankOf _ _).mpr ?_)
      exact ((lt_iff_rankOf _ _).mp less).trans_le (start_le_of_before second)
    · rcases second with less | ⟨same', le'⟩
      · exact .inl (same ▸ less)
      · refine .inr ⟨same.trans same', (le_iff_rankOf _ _).mpr ?_⟩
        exact ((le_iff_rankOf _ _).mp le).trans ((le_iff_rankOf _ _).mp le')

end FuncRegion

namespace Func

/-- A region that begins inside the last one, or right behind it, extends it. -/
def mergeRegions : FuncRegion → List FuncRegion → List FuncRegion
  | last, [] => [last]
  | last, region :: rest =>
      if last.start.seg = region.start.seg ∧ region.start.off ≤ last.stop.off then
        if last.stop.off < region.stop.off then mergeRegions { last with stop := region.stop } rest
        else mergeRegions last rest
      else last :: mergeRegions region rest

/-- The ranges that the body occupies, merged where they meet. -/
def effectiveRegions (func : Func) : List FuncRegion :=
  if func.regions = [] then
    match func.stop with
    | some stop => [⟨func.start, stop⟩]
    | none => []
  else
    match FuncRegion.sort func.regions with
    | [] => []
    | region :: rest => mergeRegions region rest

end Func

namespace Config

def hasDataInRegions (cfg : Config) (regions : List FuncRegion) : Bool :=
  regions.any fun region => cfg.textSection.any fun data =>
    data.start.seg = region.start.seg && data.start.lt region.stop && region.start.lt data.stop

/-- Declared data of the same segment is cut to the region. -/
def insertData (region : FuncRegion) (data : RangeSet) (text : TextSectionRegion) : RangeSet :=
  if text.start.seg = region.start.seg ∧ text.stop.seg = region.start.seg then
    data.insert (max text.start.off.toNat region.start.off.toNat)
      (min text.stop.off.toNat region.stop.off.toNat)
  else data

def dataRanges (cfg : Config) (region : FuncRegion) : RangeSet :=
  cfg.textSection.foldl (insertData region) []

/-- The runs of each region that are not declared data. -/
def codeRegions (cfg : Config) (regions : List FuncRegion) : List FuncRegion :=
  FuncRegion.sort (regions.flatMap fun region =>
    ((cfg.dataRanges region).gapsWithin region.start.off.toNat region.stop.off.toNat).map fun gap =>
      ⟨⟨region.start.seg, .ofNat 16 gap.start⟩, ⟨region.start.seg, .ofNat 16 gap.stop⟩⟩)

end Config

theorem FuncRegion.contains_iff (region : FuncRegion) (addr : SegOff) : region.contains addr = true ↔
    addr.seg = region.start.seg ∧ region.start.off.toNat ≤ addr.off.toNat ∧
      addr.off.toNat < region.stop.off.toNat := by
  simp only [contains, Bool.and_eq_true, decide_eq_true_eq, BitVec.le_def, BitVec.lt_def, and_assoc]

theorem TextSectionRegion.contains_iff (region : TextSectionRegion) (addr : SegOff) :
    region.contains addr = true ↔ addr.seg = region.start.seg ∧
      region.start.off.toNat ≤ addr.off.toNat ∧ addr.off.toNat < region.stop.off.toNat := by
  simp only [contains, Bool.and_eq_true, decide_eq_true_eq, BitVec.le_def, BitVec.lt_def, and_assoc]

theorem FuncRegion.start_off_le {a b : FuncRegion} (ordered : a.before b)
    (same : a.start.seg = b.start.seg) : a.start.off.toNat ≤ b.start.off.toNat :=
  (rankOf_le_iff same).mp (start_le_of_before ordered)

/-- What one of the regions contains, one of the merged regions contains. -/
theorem Func.mergeRegions_contains {last : FuncRegion} {rest : List FuncRegion} {addr : SegOff}
    (ordered : (last :: rest).Pairwise fun a b =>
      a.start.seg = b.start.seg → a.start.off.toNat ≤ b.start.off.toNat)
    (inside : ∃ region ∈ last :: rest, region.contains addr = true) :
    ∃ region ∈ mergeRegions last rest, region.contains addr = true := by
  simp only [FuncRegion.contains_iff] at inside ⊢
  induction rest generalizing last with
  | nil => exact inside
  | cons region rest hypothesis =>
      obtain ⟨first, others⟩ := List.pairwise_cons.mp ordered
      obtain ⟨second, tail⟩ := List.pairwise_cons.mp others
      have below := fun other member => first other (List.mem_cons_of_mem region member)
      obtain ⟨found, member, seg, low, high⟩ := inside
      rw [mergeRegions]
      split
      · rename_i meets
        have start_le := first region List.mem_cons_self meets.1
        have touches := BitVec.le_def.mp meets.2
        split
        · rename_i longer
          have longer := BitVec.lt_def.mp longer
          refine hypothesis (List.pairwise_cons.mpr ⟨below, tail⟩) ?_
          rcases List.mem_cons.mp member with rfl | member
          · exact ⟨_, List.mem_cons_self, seg, low, high.trans longer⟩
          · rcases List.mem_cons.mp member with rfl | member
            · exact ⟨_, List.mem_cons_self, seg.trans meets.1.symm, start_le.trans low, high⟩
            · exact ⟨found, List.mem_cons_of_mem _ member, seg, low, high⟩
        · rename_i shorter
          rw [BitVec.lt_def] at shorter
          refine hypothesis (List.pairwise_cons.mpr ⟨below, tail⟩) ?_
          rcases List.mem_cons.mp member with rfl | member
          · exact ⟨_, List.mem_cons_self, seg, low, high⟩
          · rcases List.mem_cons.mp member with rfl | member
            · exact ⟨_, List.mem_cons_self, seg.trans meets.1.symm, by omega, by omega⟩
            · exact ⟨found, List.mem_cons_of_mem _ member, seg, low, high⟩
      · rcases List.mem_cons.mp member with rfl | member
        · exact ⟨found, List.mem_cons_self, seg, low, high⟩
        · obtain ⟨merged, merged_member, contains⟩ := hypothesis others ⟨found, member, seg, low, high⟩
          exact ⟨merged, List.mem_cons_of_mem _ merged_member, contains⟩

theorem Func.effectiveRegions_contains {func : Func} {addr : SegOff}
    (inside : ∃ region ∈ func.regions, region.contains addr = true) :
    ∃ region ∈ func.effectiveRegions, region.contains addr = true := by
  obtain ⟨found, member, contains⟩ := inside
  have some : func.regions ≠ [] := List.ne_nil_of_mem member
  have sorted := List.pairwise_insertionSort FuncRegion.before func.regions
  have same := List.perm_insertionSort FuncRegion.before func.regions
  rw [effectiveRegions, if_neg some, FuncRegion.sort]
  split
  · rename_i empty
    rw [empty] at same
    exact absurd same.nil_eq.symm some
  · rename_i region rest parts
    rw [parts] at sorted same
    refine mergeRegions_contains (sorted.imp fun {a b} ordered => FuncRegion.start_off_le ordered) ?_
    exact ⟨found, same.mem_iff.mpr member, contains⟩

namespace Config

variable {cfg : Config}

theorem insertData_covers {region : FuncRegion} {data : RangeSet} {text : TextSectionRegion} {x : Nat}
    (covered : RangeSet.Covers (insertData region data text) x) :
    RangeSet.Covers data x ∨ text.start.seg = region.start.seg ∧
      text.start.off.toNat ≤ x ∧ x < text.stop.off.toNat := by
  unfold insertData at covered
  split at covered
  · rename_i here
    rcases RangeSet.covers_insert covered with old | new
    · exact .inl old
    · exact .inr ⟨here.1, by omega, by omega⟩
  · exact .inl covered

theorem dataRanges_covers {region : FuncRegion} {x : Nat}
    (covered : RangeSet.Covers (cfg.dataRanges region) x) :
    ∃ text ∈ cfg.textSection, text.start.seg = region.start.seg ∧
      text.start.off.toNat ≤ x ∧ x < text.stop.off.toNat := by
  have general : ∀ (texts : List TextSectionRegion) (data : RangeSet),
      RangeSet.Covers (texts.foldl (insertData region) data) x → RangeSet.Covers data x ∨
        ∃ text ∈ texts, text.start.seg = region.start.seg ∧
          text.start.off.toNat ≤ x ∧ x < text.stop.off.toNat := by
    intro texts
    induction texts with
    | nil => exact fun data covered => .inl covered
    | cons text texts hypothesis =>
        intro data covered
        rcases hypothesis _ covered with covered | ⟨other, member, found⟩
        · refine (insertData_covers covered).imp_right fun here => ?_
          exact ⟨text, List.mem_cons_self, here⟩
        · exact .inr ⟨other, List.mem_cons_of_mem text member, found⟩
  rcases general cfg.textSection [] covered with ⟨r, member, _⟩ | found
  · cases member
  · exact found

theorem mem_codeRegions {regions : List FuncRegion} {code : FuncRegion} :
    code ∈ cfg.codeRegions regions ↔ ∃ region ∈ regions, ∃ gap ∈ (cfg.dataRanges region).gapsWithin
      region.start.off.toNat region.stop.off.toNat,
      code = ⟨⟨region.start.seg, .ofNat 16 gap.start⟩, ⟨region.start.seg, .ofNat 16 gap.stop⟩⟩ := by
  rw [codeRegions, FuncRegion.sort, (List.perm_insertionSort _ _).mem_iff]
  simp only [List.mem_flatMap, List.mem_map, eq_comm]

/-- A code region lies in one segment and is not empty. -/
theorem codeRegions_formed {regions : List FuncRegion} {code : FuncRegion}
    (inside : code ∈ cfg.codeRegions regions) :
    code.start.seg = code.stop.seg ∧ code.start.off.toNat < code.stop.off.toNat := by
  obtain ⟨region, _, gap, member, rfl⟩ := mem_codeRegions.mp inside
  have bounds := RangeSet.gapsWithin_bounds gap member
  have small := region.stop.off.isLt
  refine ⟨rfl, ?_⟩
  simp only [BitVec.toNat_ofNat]
  omega

/-- An address of a region that is not declared data lies in a code region. -/
theorem codeRegions_contains {regions : List FuncRegion} {addr : SegOff}
    (inside : ∃ region ∈ regions, region.contains addr = true)
    (free : cfg.dataRegionContaining addr = none) :
    ∃ code ∈ cfg.codeRegions regions, code.contains addr = true := by
  obtain ⟨region, member, contains⟩ := inside
  obtain ⟨seg, low, high⟩ := (FuncRegion.contains_iff _ _).mp contains
  have uncovered : ¬ RangeSet.Covers (cfg.dataRanges region) addr.off.toNat := by
    intro covered
    obtain ⟨text, listed, text_seg, text_low, text_high⟩ := dataRanges_covers covered
    have none := List.find?_eq_none.mp free text listed
    exact none ((TextSectionRegion.contains_iff _ _).mpr
      ⟨seg.trans text_seg.symm, text_low, text_high⟩)
  obtain ⟨gap, gap_member, gap_low, gap_high⟩ := RangeSet.gapsWithin_covers low high uncovered
  have bounds := RangeSet.gapsWithin_bounds gap gap_member
  have small := region.stop.off.isLt
  refine ⟨_, mem_codeRegions.mpr ⟨region, member, gap, gap_member, rfl⟩, ?_⟩
  refine (FuncRegion.contains_iff _ _).mpr ⟨seg, ?_, ?_⟩
  · simp only [BitVec.toNat_ofNat]
    omega
  · simp only [BitVec.toNat_ofNat]
    omega

end Config

end Dis86
