import Dis86.Config.RegionSets

namespace Dis86
open Asm (Seg SegOff)

structure Coverage where
  code : Nat
  data : Nat
  unknown : Nat
  total : Nat
deriving DecidableEq, Repr

namespace Coverage

def gapsSize (ranges : RangeSet) (start stop : Nat) : Nat :=
  ((ranges.gapsWithin start stop).map fun gap => gap.stop - gap.start).sum

def bytesIn (ranges : RangeSet) (start stop : Nat) : Nat := (stop - start) - gapsSize ranges start stop

/-- A region that lies in the segment is cut to the span. -/
def mark (seg : Seg) (segStart segEnd : Nat) (ranges : RangeSet) (start stop : SegOff) : RangeSet :=
  if start.seg = seg ∧ stop.seg = seg then
    if max start.off.toNat segStart < min stop.off.toNat segEnd then
      ranges.insert (max start.off.toNat segStart) (min stop.off.toNat segEnd)
    else ranges
  else ranges

def markCode (seg : Seg) (segStart segEnd : Nat) (cfg : Config) (ranges : RangeSet) (func : Func) : RangeSet :=
  if func.start.seg = seg then
    (cfg.codeRegions func.effectiveRegions).foldl
      (fun ranges region => mark seg segStart segEnd ranges region.start region.stop) ranges
  else ranges

def markData (seg : Seg) (segStart segEnd : Nat) (ranges : RangeSet) (region : TextSectionRegion) : RangeSet :=
  mark seg segStart segEnd ranges region.start region.stop

def forSpan (cfg : Config) (seg : Seg) (segStart segEnd : Nat) : Coverage :=
  let code := cfg.funcs.foldl (markCode seg segStart segEnd cfg) []
  let data := (cfg.textRegionsMatchingSegment seg).foldl (markData seg segStart segEnd) []
  -- what is known is marked along with the code and the data, in the same order
  let known := (cfg.textRegionsMatchingSegment seg).foldl (markData seg segStart segEnd) code
  { code := bytesIn code segStart segEnd
    data := bytesIn data segStart segEnd
    unknown := gapsSize known segStart segEnd
    total := segEnd - segStart }

variable {cfg : Config} {seg : Seg} {segStart segEnd x : Nat}

/-- The offset of an address of the segment that the body of one of its functions takes up and no data does. -/
def IsCode (cfg : Config) (seg : Seg) (x : Nat) : Prop :=
  ∃ off : BitVec 16, off.toNat = x ∧ (∃ func ∈ cfg.funcs, func.start.seg = seg ∧
    Holds func.effectiveRegions ⟨seg, off⟩) ∧ ¬ cfg.IsData ⟨seg, off⟩

/-- The offset of an address of the segment that declared data takes up. -/
def IsData (cfg : Config) (seg : Seg) (x : Nat) : Prop :=
  ∃ off : BitVec 16, off.toNat = x ∧ cfg.IsData ⟨seg, off⟩

theorem mark_adds (seg : Seg) (segStart segEnd : Nat) (ranges : RangeSet) (start stop : SegOff)
    (formed : RangeSet.Formed ranges) : RangeSet.Formed (mark seg segStart segEnd ranges start stop) ∧
      ∀ x, RangeSet.Covers (mark seg segStart segEnd ranges start stop) x ↔ RangeSet.Covers ranges x ∨
        (start.seg = seg ∧ stop.seg = seg) ∧ (segStart ≤ x ∧ x < segEnd) ∧ start.off.toNat ≤ x ∧ x < stop.off.toNat := by
  unfold mark
  split
  · rename_i within
    split
    · refine ⟨formed.insert _ _, fun x => ?_⟩
      rw [RangeSet.covers_insert_iff formed]
      apply or_congr_right
      constructor
      · intro inside
        exact ⟨within, by omega, by omega⟩
      · rintro ⟨_, span, inside⟩
        omega
    · refine ⟨formed, fun x => ?_⟩
      constructor
      · exact .inl
      · rintro (covered | ⟨_, span, inside⟩)
        · exact covered
        · omega
  · rename_i elsewhere
    refine ⟨formed, fun x => ?_⟩
    constructor
    · exact .inl
    · rintro (covered | ⟨within, _⟩)
      · exact covered
      · exact absurd within elsewhere

theorem markCode_adds (seg : Seg) (segStart segEnd : Nat) (cfg : Config) (func : Func) (ranges : RangeSet)
    (formed : RangeSet.Formed ranges) : RangeSet.Formed (markCode seg segStart segEnd cfg ranges func) ∧
      ∀ x, RangeSet.Covers (markCode seg segStart segEnd cfg ranges func) x ↔ RangeSet.Covers ranges x ∨
        (segStart ≤ x ∧ x < segEnd) ∧ func.start.seg = seg ∧ ∃ off : BitVec 16, off.toNat = x ∧
          Holds (cfg.codeRegions func.effectiveRegions) ⟨seg, off⟩ := by
  unfold markCode
  split
  · rename_i here
    obtain ⟨last, all⟩ := RangeSet.foldl_adds (fun region ranges formed =>
      mark_adds seg segStart segEnd ranges region.start region.stop formed)
      (cfg.codeRegions func.effectiveRegions) formed
    refine ⟨last, fun x => ?_⟩
    rw [all]
    apply or_congr_right
    constructor
    · rintro ⟨region, member, within, span, low, high⟩
      have small := region.stop.off.isLt
      have same : (BitVec.ofNat 16 x).toNat = x := Nat.mod_eq_of_lt (by omega)
      refine ⟨span, here, .ofNat 16 x, same, region, member, (FuncRegion.contains_iff _ _).mpr ?_⟩
      exact ⟨within.1.symm, same.symm ▸ low, same.symm ▸ high⟩
    · rintro ⟨span, _, off, rfl, region, member, contains⟩
      obtain ⟨begins, low, high⟩ := (FuncRegion.contains_iff _ _).mp contains
      have formed := (Config.codeRegions_formed member).1
      exact ⟨region, member, ⟨begins.symm, formed.symm.trans begins.symm⟩, span, low, high⟩
  · rename_i elsewhere
    refine ⟨formed, fun x => ?_⟩
    constructor
    · exact .inl
    · rintro (covered | ⟨_, here, _⟩)
      · exact covered
      · exact absurd here elsewhere

theorem markData_adds (seg : Seg) (segStart segEnd : Nat) (region : TextSectionRegion) (ranges : RangeSet)
    (formed : RangeSet.Formed ranges) : RangeSet.Formed (markData seg segStart segEnd ranges region) ∧
      ∀ x, RangeSet.Covers (markData seg segStart segEnd ranges region) x ↔ RangeSet.Covers ranges x ∨
        (segStart ≤ x ∧ x < segEnd) ∧ ∃ off : BitVec 16, off.toNat = x ∧
          Config.Within region seg ∧ region.contains ⟨seg, off⟩ = true := by
  obtain ⟨last, all⟩ := mark_adds seg segStart segEnd ranges region.start region.stop formed
  refine ⟨last, fun x => (all x).trans (or_congr_right ?_)⟩
  constructor
  · rintro ⟨within, span, low, high⟩
    have small := region.stop.off.isLt
    have same : (BitVec.ofNat 16 x).toNat = x := Nat.mod_eq_of_lt (by omega)
    refine ⟨span, .ofNat 16 x, same, within, (TextSectionRegion.contains_iff _ _).mpr ?_⟩
    exact ⟨within.1.symm, same.symm ▸ low, same.symm ▸ high⟩
  · rintro ⟨span, off, rfl, within, contains⟩
    obtain ⟨_, low, high⟩ := (TextSectionRegion.contains_iff _ _).mp contains
    exact ⟨within, span, low, high⟩

/-- What the regions of all functions mark is the code of the span. -/
theorem covers_code : let code := cfg.funcs.foldl (markCode seg segStart segEnd cfg) []
    RangeSet.Formed code ∧
      ∀ x, segStart ≤ x → x < segEnd → (RangeSet.Covers code x ↔ IsCode cfg seg x) := by
  obtain ⟨formed, all⟩ := RangeSet.foldl_adds (markCode_adds seg segStart segEnd cfg) cfg.funcs .nil
  refine ⟨formed, fun x low high => ?_⟩
  rw [all]
  constructor
  · rintro (⟨_, absent, _⟩ | ⟨func, listed, _, here, off, same, holds⟩)
    · cases absent
    · obtain ⟨inside, free⟩ := Config.holds_codeRegions.mp holds
      exact ⟨off, same, ⟨func, listed, here, inside⟩, free⟩
  · rintro ⟨off, same, ⟨func, listed, here, inside⟩, free⟩
    exact .inr ⟨func, listed, ⟨low, high⟩, here, off, same, Config.holds_codeRegions.mpr ⟨inside, free⟩⟩

/-- What the data regions add to the marked ranges is the data of the span. -/
theorem covers_data {ranges : RangeSet} (formed : RangeSet.Formed ranges) :
    let data := (cfg.textRegionsMatchingSegment seg).foldl (markData seg segStart segEnd) ranges
    RangeSet.Formed data ∧ ∀ x, segStart ≤ x → x < segEnd →
      (RangeSet.Covers data x ↔ RangeSet.Covers ranges x ∨ IsData cfg seg x) := by
  obtain ⟨last, all⟩ := RangeSet.foldl_adds (markData_adds seg segStart segEnd)
    (cfg.textRegionsMatchingSegment seg) formed
  refine ⟨last, fun x low high => ?_⟩
  rw [all]
  apply or_congr_right
  constructor
  · rintro ⟨region, among, _, off, same, within, contains⟩
    exact ⟨off, same, region, (List.mem_filter.mp among).1, within, contains⟩
  · rintro ⟨off, same, region, listed, within, contains⟩
    refine ⟨region, List.mem_filter.mpr ⟨listed, ?_⟩, ⟨low, high⟩, off, same, within, contains⟩
    exact decide_eq_true within.1.symm

theorem gapsSize_exact {ranges : RangeSet} {p : Nat → Prop} (formed : RangeSet.Formed ranges)
    (covers : ∀ x, segStart ≤ x → x < segEnd → (RangeSet.Covers ranges x ↔ p x)) :
    gapsSize ranges segStart segEnd = (RangeSet.offsets segStart segEnd fun x => ¬ p x).card := by
  have same := RangeSet.offsets_congr fun x low high => not_congr (covers x low high)
  rw [← same]
  exact formed.size_gapsWithin

theorem bytesIn_exact {ranges : RangeSet} {p : Nat → Prop} (formed : RangeSet.Formed ranges)
    (covers : ∀ x, segStart ≤ x → x < segEnd → (RangeSet.Covers ranges x ↔ p x)) :
    bytesIn ranges segStart segEnd = (RangeSet.offsets segStart segEnd p).card := by
  have all := RangeSet.card_offsets_add_not segStart segEnd p
  rw [bytesIn, gapsSize_exact formed covers]
  omega

/-- No offset is code and data. -/
theorem not_isCode_of_isData (data : IsData cfg seg x) : ¬ IsCode cfg seg x := by
  obtain ⟨off, same, taken⟩ := data
  rintro ⟨off', same', _, free⟩
  obtain rfl := BitVec.eq_of_toNat_eq (same.trans same'.symm)
  exact free taken

/-- Each term counts the offsets of its class. -/
theorem forSpan_counts (cfg : Config) (seg : Seg) (segStart segEnd : Nat) :
    forSpan cfg seg segStart segEnd =
      { code := (RangeSet.offsets segStart segEnd (IsCode cfg seg)).card
        data := (RangeSet.offsets segStart segEnd (IsData cfg seg)).card
        unknown := (RangeSet.offsets segStart segEnd fun x => ¬ (IsCode cfg seg x ∨ IsData cfg seg x)).card
        total := segEnd - segStart } := by
  obtain ⟨codeFormed, code⟩ := @covers_code cfg seg segStart segEnd
  obtain ⟨dataFormed, data⟩ := @covers_data cfg seg segStart segEnd [] .nil
  obtain ⟨knownFormed, known⟩ := @covers_data cfg seg segStart segEnd _ codeFormed
  unfold forSpan
  rw [Coverage.mk.injEq]
  refine ⟨bytesIn_exact codeFormed code, ?_, ?_, rfl⟩
  · apply bytesIn_exact dataFormed
    intro x low high
    rw [data x low high]
    exact or_iff_right fun ⟨_, absent, _⟩ => by cases absent
  · apply gapsSize_exact knownFormed
    intro x low high
    rw [known x low high]
    exact or_congr_left (code x low high)

/-- The three classes make up the span. -/
theorem forSpan_total (cfg : Config) (seg : Seg) (segStart segEnd : Nat) :
    let coverage := forSpan cfg seg segStart segEnd
    coverage.code + coverage.data + coverage.unknown = coverage.total := by
  have disjoint : Disjoint (RangeSet.offsets segStart segEnd (IsCode cfg seg))
      (RangeSet.offsets segStart segEnd (IsData cfg seg)) := by
    rw [Finset.disjoint_left]
    intro x code data
    exact not_isCode_of_isData (RangeSet.mem_offsets.mp data).2 (RangeSet.mem_offsets.mp code).2
  have either : RangeSet.offsets segStart segEnd (fun x => IsCode cfg seg x ∨ IsData cfg seg x) =
      RangeSet.offsets segStart segEnd (IsCode cfg seg) ∪ RangeSet.offsets segStart segEnd (IsData cfg seg) := by
    ext x
    simp only [Finset.mem_union, RangeSet.mem_offsets]
    exact and_or_left
  have all := RangeSet.card_offsets_add_not segStart segEnd fun x => IsCode cfg seg x ∨ IsData cfg seg x
  rw [either, Finset.card_union_of_disjoint disjoint] at all
  simp only [forSpan_counts]
  exact all

/-- Merging, subtraction and counting are exact. The body of a function is its list of regions, whatever their
order, or reaches to its end when it lists none; its code is the body without the data of the same segment; and a
span is made up of the code of the functions that begin in the segment, the data that lies in it, and the rest. -/
theorem region_arithmetic_exact (cfg : Config) (func : Func) :
    ((func.regions ≠ [] → ∀ addr, Holds func.effectiveRegions addr ↔ Holds func.regions addr) ∧
      (func.regions = [] →
        func.effectiveRegions = (func.stop.map fun stop => FuncRegion.mk func.start stop).toList) ∧
      Apart func.effectiveRegions ∧
      ∀ regions, regions.Perm func.regions → { func with regions }.effectiveRegions = func.effectiveRegions) ∧
    ((∀ addr, Holds (cfg.codeRegions func.effectiveRegions) addr ↔
        Holds func.effectiveRegions addr ∧ ¬ cfg.IsData addr) ∧
      Apart (cfg.codeRegions func.effectiveRegions)) ∧
    ∀ seg segStart segEnd, let coverage := forSpan cfg seg segStart segEnd
      coverage.code + coverage.data + coverage.unknown = coverage.total ∧ coverage =
        { code := (RangeSet.offsets segStart segEnd (IsCode cfg seg)).card
          data := (RangeSet.offsets segStart segEnd (IsData cfg seg)).card
          unknown := (RangeSet.offsets segStart segEnd fun x => ¬ (IsCode cfg seg x ∨ IsData cfg seg x)).card
          total := segEnd - segStart } := by
  refine ⟨⟨?_, ?_, ?_, ?_⟩, ⟨?_, ?_⟩, ?_⟩
  · exact fun listed addr => Func.holds_effectiveRegions listed
  · exact Func.effectiveRegions_unlisted
  · exact Func.effectiveRegions_apart
  · exact fun regions same => Func.effectiveRegions_perm rfl rfl same
  · exact fun addr => Config.holds_codeRegions
  · exact Config.codeRegions_apart Func.effectiveRegions_apart
  · exact fun seg segStart segEnd => ⟨forSpan_total cfg seg segStart segEnd, forSpan_counts cfg seg segStart segEnd⟩

/-- A function of segment 0 that lists the given regions. -/
def sampleFunc (regions : List FuncRegion) : Func :=
  { name := "f", start := ⟨.normal 0, 0⟩, stop := some ⟨.normal 0, 10⟩, entry := none, mode := .near, ret := none,
    args := none, regargs := none, regouts := none, clobbers := none, dontPopArgs := false, regions }

/-- A function whose only region lies in another segment. -/
def sampleConfig : Config :=
  { codeSegs := [], funcs := [sampleFunc [⟨⟨.normal 1, 12⟩, ⟨.normal 1, 14⟩⟩]], indirects := [], textSection := [] }

/-- Without a list of regions the body is not empty, and a region outside the segment of its function counts as
unknown. -/
theorem region_arithmetic_differs :
    (Holds (sampleFunc []).effectiveRegions ⟨.normal 0, 4⟩ ∧ ¬ Holds (sampleFunc []).regions ⟨.normal 0, 4⟩) ∧
    (∃ func ∈ sampleConfig.funcs, Holds (sampleConfig.codeRegions func.effectiveRegions) ⟨.normal 1, 12⟩) ∧
    forSpan sampleConfig (.normal 1) 0 20 = { code := 0, data := 0, unknown := 20, total := 20 } := by
  refine ⟨⟨⟨⟨⟨.normal 0, 0⟩, ⟨.normal 0, 10⟩⟩, by decide, by decide⟩, ?_⟩, ?_, by decide +kernel⟩
  · rintro ⟨_, absent, _⟩
    cases absent
  · exact ⟨_, List.mem_singleton_self _, ⟨⟨.normal 1, 12⟩, ⟨.normal 1, 14⟩⟩, by decide +kernel, by decide⟩

end Coverage

end Dis86
