import Dis86.Config.RangeSets

namespace Dis86
open Asm (Seg SegOff)

/-- One of the regions contains the address. -/
def Holds (regions : List FuncRegion) (addr : SegOff) : Prop := ∃ region ∈ regions, region.contains addr = true

/-- Regions in ascending order, no two of which contain one address. -/
structure Apart (regions : List FuncRegion) : Prop where
  ascending : regions.Pairwise fun a b => rankOf a.start ≤ rankOf b.start
  disjoint : regions.Pairwise fun a b => ∀ addr, ¬ (a.contains addr = true ∧ b.contains addr = true)

/-- A segment takes up one stretch of the addresses. -/
theorem seg_between {a b c : SegOff} (first : rankOf a ≤ rankOf b) (second : rankOf b ≤ rankOf c)
    (same : a.seg = c.seg) : b.seg = a.seg := by
  obtain ⟨seg, off⟩ := a
  obtain ⟨seg', off'⟩ := b
  obtain ⟨seg'', off''⟩ := c
  obtain rfl : seg = seg'' := same
  have small := off.isLt
  have small' := off'.isLt
  have small'' := off''.isLt
  change seg' = seg
  cases seg with
  | normal n =>
      have := n.isLt
      cases seg' with
      | normal n' =>
          simp only [rankOf] at first second
          rw [BitVec.eq_of_toNat_eq (show n'.toNat = n.toNat by omega)]
      | overlay n' =>
          simp only [rankOf] at first second
          omega
  | overlay n =>
      cases seg' with
      | normal n' =>
          have := n'.isLt
          simp only [rankOf] at first second
          omega
      | overlay n' =>
          simp only [rankOf] at first second
          rw [BitVec.eq_of_toNat_eq (show n'.toNat = n.toNat by omega)]

namespace Func

variable {last region : FuncRegion} {rest : List FuncRegion} {addr : SegOff}

/-- A merged region begins where one of the regions begins. -/
theorem mergeRegions_start (inside : region ∈ mergeRegions last rest) :
    ∃ other ∈ last :: rest, region.start = other.start := by
  induction rest generalizing last with
  | nil => exact ⟨region, inside, rfl⟩
  | cons next rest hypothesis =>
      have skip : ∀ first : FuncRegion, first.start = last.start → region ∈ mergeRegions first rest →
          ∃ other ∈ last :: next :: rest, region.start = other.start := by
        intro first same inside
        obtain ⟨other, member, begins⟩ := hypothesis inside
        rcases List.mem_cons.mp member with rfl | member
        · exact ⟨last, List.mem_cons_self, begins.trans same⟩
        · exact ⟨other, List.mem_cons_of_mem _ (List.mem_cons_of_mem _ member), begins⟩
      rw [mergeRegions] at inside
      split at inside
      · split at inside
        · exact skip { last with stop := next.stop } rfl inside
        · exact skip last rfl inside
      · rcases List.mem_cons.mp inside with rfl | inside
        · exact ⟨region, List.mem_cons_self, rfl⟩
        · obtain ⟨other, member, begins⟩ := hypothesis inside
          exact ⟨other, List.mem_cons_of_mem _ member, begins⟩

/-- What a merged region contains, one of the regions contains. -/
theorem holds_of_mergeRegions (holds : Holds (mergeRegions last rest) addr) : Holds (last :: rest) addr := by
  induction rest generalizing last with
  | nil => exact holds
  | cons next rest hypothesis =>
      rw [mergeRegions] at holds
      split at holds
      · rename_i meets
        have touches := BitVec.le_def.mp meets.2
        split at holds
        · obtain ⟨found, member, contains⟩ := hypothesis holds
          rcases List.mem_cons.mp member with rfl | member
          · obtain ⟨seg, low, high⟩ := (FuncRegion.contains_iff _ _).mp contains
            by_cases before : addr.off.toNat < last.stop.off.toNat
            · exact ⟨last, List.mem_cons_self, (FuncRegion.contains_iff _ _).mpr ⟨seg, low, before⟩⟩
            · refine ⟨next, List.mem_cons_of_mem _ List.mem_cons_self, (FuncRegion.contains_iff _ _).mpr ?_⟩
              exact ⟨seg.trans meets.1, by omega, high⟩
          · exact ⟨found, List.mem_cons_of_mem _ (List.mem_cons_of_mem _ member), contains⟩
        · obtain ⟨found, member, contains⟩ := hypothesis holds
          rcases List.mem_cons.mp member with rfl | member
          · exact ⟨found, List.mem_cons_self, contains⟩
          · exact ⟨found, List.mem_cons_of_mem _ (List.mem_cons_of_mem _ member), contains⟩
      · obtain ⟨found, member, contains⟩ := holds
        rcases List.mem_cons.mp member with rfl | member
        · exact ⟨found, List.mem_cons_self, contains⟩
        · obtain ⟨other, member, contains⟩ := hypothesis ⟨found, member, contains⟩
          exact ⟨other, List.mem_cons_of_mem _ member, contains⟩

/-- Merged regions stand apart. -/
theorem mergeRegions_apart
    (ordered : (last :: rest).Pairwise fun a b => rankOf a.start ≤ rankOf b.start) :
    Apart (mergeRegions last rest) := by
  induction rest generalizing last with
  | nil => exact ⟨List.pairwise_singleton _ _, List.pairwise_singleton _ _⟩
  | cons next rest hypothesis =>
      obtain ⟨first, others⟩ := List.pairwise_cons.mp ordered
      obtain ⟨second, tail⟩ := List.pairwise_cons.mp others
      have skipped : (last :: rest).Pairwise fun a b => rankOf a.start ≤ rankOf b.start :=
        List.pairwise_cons.mpr ⟨fun other member => first other (List.mem_cons_of_mem _ member), tail⟩
      rw [mergeRegions]
      split
      · split
        · exact hypothesis (List.pairwise_cons.mpr (List.pairwise_cons.mp skipped))
        · exact hypothesis skipped
      · rename_i apart
        obtain ⟨ascending, disjoint⟩ := hypothesis others
        have later : ∀ other ∈ mergeRegions next rest, rankOf next.start ≤ rankOf other.start := by
          intro other member
          obtain ⟨source, listed, same⟩ := mergeRegions_start member
          rw [same]
          rcases List.mem_cons.mp listed with rfl | listed
          · exact le_rfl
          · exact second source listed
        have least := first next List.mem_cons_self
        refine ⟨List.pairwise_cons.mpr ⟨fun other member => least.trans (later other member), ascending⟩,
          List.pairwise_cons.mpr ⟨fun other member addr both => ?_, disjoint⟩⟩
        obtain ⟨seg, low, high⟩ := (FuncRegion.contains_iff _ _).mp both.1
        obtain ⟨seg', low', high'⟩ := (FuncRegion.contains_iff _ _).mp both.2
        have same := seg_between least (later other member) (seg.symm.trans seg')
        have starts := (rankOf_le_iff (same.trans (seg.symm.trans seg'))).mp (later other member)
        apply apart
        refine ⟨same.symm, BitVec.le_def.mpr ?_⟩
        omega

section Effective

variable {func : Func}

theorem sort_ascending (regions : List FuncRegion) :
    (FuncRegion.sort regions).Pairwise fun a b => rankOf a.start ≤ rankOf b.start :=
  (List.pairwise_insertionSort FuncRegion.before regions).imp FuncRegion.start_le_of_before

/-- The effective regions contain just the addresses of the listed ones. -/
theorem holds_effectiveRegions (listed : func.regions ≠ []) :
    Holds func.effectiveRegions addr ↔ Holds func.regions addr := by
  constructor
  · intro holds
    have same := List.perm_insertionSort FuncRegion.before func.regions
    rw [effectiveRegions, if_neg listed, FuncRegion.sort] at holds
    split at holds
    · obtain ⟨_, absent, _⟩ := holds
      cases absent
    · rename_i region rest parts
      obtain ⟨found, member, contains⟩ := holds_of_mergeRegions holds
      exact ⟨found, same.mem_iff.mp (parts ▸ member), contains⟩
  · exact effectiveRegions_contains

/-- Without listed regions the body goes from the start of the function to its end. -/
theorem effectiveRegions_unlisted (unlisted : func.regions = []) :
    func.effectiveRegions = (func.stop.map fun stop => ⟨func.start, stop⟩).toList := by
  rw [effectiveRegions, if_pos unlisted]
  cases func.stop <;> rfl

theorem effectiveRegions_apart : Apart func.effectiveRegions := by
  unfold effectiveRegions
  split
  · split
    · exact ⟨List.pairwise_singleton _ _, List.pairwise_singleton _ _⟩
    · exact ⟨.nil, .nil⟩
  · split
    · exact ⟨.nil, .nil⟩
    · rename_i region rest parts
      have ordered := sort_ascending func.regions
      rw [parts] at ordered
      exact mergeRegions_apart ordered

instance : Std.Antisymm FuncRegion.before where
  antisymm a b first second := by
    have start := rankOf_injective (Nat.le_antisymm (FuncRegion.start_le_of_before first)
      (FuncRegion.start_le_of_before second))
    have least : ∀ {c d : FuncRegion}, c.before d → c.start = d.start → rankOf c.stop ≤ rankOf d.stop := by
      rintro c d (less | ⟨_, le⟩) same
      · rw [lt_iff_rankOf, same] at less
        exact absurd less (Nat.lt_irrefl _)
      · exact (le_iff_rankOf _ _).mp le
    have stop := rankOf_injective (Nat.le_antisymm (least first start) (least second start.symm))
    obtain ⟨_, _⟩ := a
    obtain ⟨_, _⟩ := b
    rw [FuncRegion.mk.injEq]
    exact ⟨start, stop⟩

/-- The order in which the regions are listed does not matter. -/
theorem effectiveRegions_perm {other : Func} (start : other.start = func.start) (stop : other.stop = func.stop)
    (same : other.regions.Perm func.regions) : other.effectiveRegions = func.effectiveRegions := by
  have sorted : FuncRegion.sort other.regions = FuncRegion.sort func.regions := by
    apply List.Perm.eq_of_pairwise' (List.pairwise_insertionSort FuncRegion.before other.regions)
      (List.pairwise_insertionSort FuncRegion.before func.regions)
    exact ((List.perm_insertionSort _ _).trans same).trans (List.perm_insertionSort _ _).symm
  have empty : other.regions = [] ↔ func.regions = [] := by
    constructor
    · intro none
      exact List.nil_perm.mp (none ▸ same)
    · intro none
      exact List.perm_nil.mp (none ▸ same)
  unfold effectiveRegions
  rw [sorted, start, stop]
  simp only [empty]

end Effective

end Func

namespace Config

variable {cfg : Config} {region : FuncRegion} {regions : List FuncRegion} {addr : SegOff} {x : Nat}

/-- Declared data that lies in one segment. -/
def Within (text : TextSectionRegion) (seg : Seg) : Prop := text.start.seg = seg ∧ text.stop.seg = seg

/-- Data that lies in the segment of an address contains it. -/
def IsData (cfg : Config) (addr : SegOff) : Prop :=
  ∃ text ∈ cfg.textSection, Within text addr.seg ∧ text.contains addr = true

theorem insertData_adds (region : FuncRegion) (text : TextSectionRegion) (data : RangeSet) (formed : RangeSet.Formed data) :
    RangeSet.Formed (insertData region data text) ∧ ∀ x, RangeSet.Covers (insertData region data text) x ↔
      RangeSet.Covers data x ∨ Within text region.start.seg ∧
        max text.start.off.toNat region.start.off.toNat ≤ x ∧ x < min text.stop.off.toNat region.stop.off.toNat := by
  unfold insertData
  split
  · rename_i here
    refine ⟨formed.insert _ _, fun x => ?_⟩
    rw [RangeSet.covers_insert_iff formed]
    exact or_congr_right (and_iff_right here).symm
  · rename_i elsewhere
    refine ⟨formed, fun x => ?_⟩
    constructor
    · exact .inl
    · rintro (covered | ⟨here, _⟩)
      · exact covered
      · exact absurd here elsewhere

theorem dataRanges_formed : RangeSet.Formed (cfg.dataRanges region) :=
  (RangeSet.foldl_adds (insertData_adds region) cfg.textSection .nil).1

/-- Inside a region the ranges cover just the declared data of its segment. -/
theorem covers_dataRanges (contains : region.contains addr = true) :
    RangeSet.Covers (cfg.dataRanges region) addr.off.toNat ↔ cfg.IsData addr := by
  obtain ⟨seg, low, high⟩ := (FuncRegion.contains_iff _ _).mp contains
  have all := (RangeSet.foldl_adds (insertData_adds region) cfg.textSection .nil).2 addr.off.toNat
  rw [dataRanges, all]
  constructor
  · rintro (⟨_, absent, _⟩ | ⟨text, listed, within, inside⟩)
    · cases absent
    · refine ⟨text, listed, seg ▸ within, (TextSectionRegion.contains_iff _ _).mpr ?_⟩
      exact ⟨seg.trans within.1.symm, by omega, by omega⟩
  · rintro ⟨text, listed, within, inside⟩
    obtain ⟨_, first, last⟩ := (TextSectionRegion.contains_iff _ _).mp inside
    exact .inr ⟨text, listed, seg ▸ within, by omega, by omega⟩

/-- A gap between the data of a region, as a region of its own. -/
theorem gap_contains_iff {gap : Range}
    (among : gap ∈ (cfg.dataRanges region).gapsWithin region.start.off.toNat region.stop.off.toNat) :
    FuncRegion.contains ⟨⟨region.start.seg, .ofNat 16 gap.start⟩, ⟨region.start.seg, .ofNat 16 gap.stop⟩⟩ addr =
      true ↔ addr.seg = region.start.seg ∧ gap.start ≤ addr.off.toNat ∧ addr.off.toNat < gap.stop := by
  have bounds := RangeSet.gapsWithin_bounds gap among
  have small := region.stop.off.isLt
  rw [FuncRegion.contains_iff]
  simp only [BitVec.toNat_ofNat]
  rw [Nat.mod_eq_of_lt (by omega), Nat.mod_eq_of_lt (by omega)]

/-- The code regions of some regions contain what these contain and no data takes. -/
theorem holds_codeRegions : Holds (cfg.codeRegions regions) addr ↔ Holds regions addr ∧ ¬ cfg.IsData addr := by
  constructor
  · rintro ⟨code, member, contains⟩
    obtain ⟨region, listed, gap, among, rfl⟩ := mem_codeRegions.mp member
    obtain ⟨seg, low, high⟩ := (gap_contains_iff among).mp contains
    obtain ⟨span, free⟩ := (RangeSet.covers_gapsWithin_iff dataRanges_formed).mp ⟨gap, among, low, high⟩
    have inside : region.contains addr = true := (FuncRegion.contains_iff _ _).mpr ⟨seg, span.1, span.2⟩
    exact ⟨⟨region, listed, inside⟩, fun data => free ((covers_dataRanges inside).mpr data)⟩
  · rintro ⟨⟨region, listed, inside⟩, free⟩
    obtain ⟨seg, low, high⟩ := (FuncRegion.contains_iff _ _).mp inside
    obtain ⟨gap, among, first, last⟩ := (RangeSet.covers_gapsWithin_iff dataRanges_formed).mpr
      ⟨⟨low, high⟩, fun covered => free ((covers_dataRanges inside).mp covered)⟩
    exact ⟨_, mem_codeRegions.mpr ⟨region, listed, gap, among, rfl⟩, (gap_contains_iff among).mpr ⟨seg, first, last⟩⟩

/-- The code regions of regions that stand apart stand apart. -/
theorem codeRegions_apart (apart : Apart regions) : Apart (cfg.codeRegions regions) := by
  refine ⟨Func.sort_ascending _, ?_⟩
  have symmetric : ∀ {a b : FuncRegion}, (∀ addr, ¬ (a.contains addr = true ∧ b.contains addr = true)) →
      ∀ addr, ¬ (b.contains addr = true ∧ a.contains addr = true) :=
    fun never addr both => never addr both.symm
  unfold codeRegions FuncRegion.sort
  rw [(List.perm_insertionSort _ _).pairwise_iff symmetric, List.pairwise_flatMap]
  constructor
  · intro region _
    rw [List.pairwise_map]
    apply (dataRanges_formed.gapsWithin).apart.imp_of_mem
    intro gap other first second less addr both
    have high := ((gap_contains_iff first).mp both.1).2.2
    have low := ((gap_contains_iff second).mp both.2).2.1
    omega
  · apply apart.disjoint.imp
    intro region other never code inside code' inside' addr both
    obtain ⟨gap, among, rfl⟩ := List.mem_map.mp inside
    obtain ⟨gap', among', rfl⟩ := List.mem_map.mp inside'
    obtain ⟨seg, low, high⟩ := (gap_contains_iff among).mp both.1
    obtain ⟨seg', low', high'⟩ := (gap_contains_iff among').mp both.2
    have bounds := RangeSet.gapsWithin_bounds gap among
    have bounds' := RangeSet.gapsWithin_bounds gap' among'
    apply never addr
    constructor
    · exact (FuncRegion.contains_iff _ _).mpr ⟨seg, by omega, by omega⟩
    · exact (FuncRegion.contains_iff _ _).mpr ⟨seg', by omega, by omega⟩

end Config

end Dis86
