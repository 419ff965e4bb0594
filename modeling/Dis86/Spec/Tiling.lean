import Dis86.Asm.Targets
import Dis86.Config.RegionSets
import Dis86.Spec.Regions

namespace Dis86.Asm
open Lib (Outcome)

/-- Instructions of a segment stand one behind the other, from one offset to another. -/
def Tiles (seg : Seg) : Nat → List (Instr × Bytes) → Nat → Prop
  | start, [], stop => start = stop
  | start, (ins, _) :: later, stop =>
      ins.addr.seg = seg ∧ ins.addr.off.toNat = start ∧ 1 ≤ ins.nBytes.toNat ∧
        Tiles seg (start + ins.nBytes.toNat) later stop

variable {seg : Seg} {start stop : Nat} {l : List (Instr × Bytes)} {bin : RegionIter}

theorem Tiles.le (tiles : Tiles seg start l stop) : start ≤ stop := by
  induction l generalizing start with
  | nil => exact tiles.le
  | cons pair later hypothesis =>
      obtain ⟨_, _, _, rest⟩ := tiles
      have := hypothesis rest
      omega

/-- An instruction lies between the two offsets. -/
theorem Tiles.inside (tiles : Tiles seg start l stop) {pair : Instr × Bytes} (member : pair ∈ l) :
    pair.1.addr.seg = seg ∧ start ≤ pair.1.addr.off.toNat ∧
      pair.1.addr.off.toNat + pair.1.nBytes.toNat ≤ stop := by
  induction l generalizing start with
  | nil => cases member
  | cons first later hypothesis =>
      obtain ⟨same, place, used, rest⟩ := tiles
      rcases List.mem_cons.mp member with rfl | member
      · exact ⟨same, place.ge, place ▸ rest.le⟩
      · obtain ⟨seg, low, high⟩ := hypothesis rest member
        exact ⟨seg, by omega, high⟩

theorem Decodes.tiles (decodes : Decodes bin l) (fits : bin.Fits) :
    Tiles bin.baseSeg (bin.baseOff.toNat + bin.off) l (bin.baseOff.toNat + bin.mem.length) := by
  induction decodes with
  | done ended =>
      have length := congrArg List.length ended
      have position := fits.position
      rw [RegionIter.length_rest, RegionIter.bytesRemaining, List.length_nil] at length
      rw [Tiles]
      omega
  | next ran rest hypothesis =>
      obtain ⟨stands, _⟩ := decodeOne_stands fits ran
      obtain ⟨addr, here, seg, off⟩ := RegionIter.addr_eq fits
      obtain rfl := Outcome.ok.inj (here.symm.trans stands.addr)
      refine ⟨seg, off, stands.used_pos, ?_⟩
      have later := hypothesis (stands.fits fits)
      rw [RegionIter.advanceBy_off, ← Nat.add_assoc] at later
      exact later

theorem Decodes.stands (decodes : Decodes bin l) (fits : bin.Fits) {pair : Instr × Bytes} (member : pair ∈ l) :
    ∃ place : RegionIter, place.Fits ∧ Stands place pair.1 pair.2 := by
  induction decodes with
  | done => cases member
  | next ran rest hypothesis =>
      obtain ⟨stands, _⟩ := decodeOne_stands fits ran
      rcases List.mem_cons.mp member with rfl | member
      · exact ⟨_, fits, stands⟩
      · exact hypothesis (stands.fits fits) member

end Dis86.Asm

namespace Dis86
open Asm (SegOff Bytes Tiles Decodes RegionIter directTarget hasFallthrough)
open Lib (Outcome)

variable {binary : Binary} {cfg : Config} {spec : Spec} {l : List (Asm.Instr × Bytes)}

/-- The instructions of a chunk cover it and keep out of declared data. -/
structure Tiled (cfg : Config) (chunk : SegOff × SegOff) (part : List (Asm.Instr × Bytes)) : Prop where
  same : chunk.2.seg = chunk.1.seg
  tiles : Tiles chunk.1.seg chunk.1.off.toNat part chunk.2.off.toNat
  outside : ∀ pair ∈ part, ∀ i < pair.1.nBytes.toNat, ¬ cfg.IsData (pair.1.addr.addOffset (.ofNat 16 i))
  targets : ∀ pair ∈ part, ∀ operand ∈ pair.1.operands, ∀ target, pair.1.namedAddr operand = some target →
    ∀ text ∈ cfg.textSection, ¬ text.contains target = true
  ends : ∀ last ∈ part.getLast?, hasFallthrough last.1.opcode = true →
    ∀ text ∈ cfg.textSection, ¬ text.contains chunk.2 = true

/-- A stretch of one of the code regions. -/
def CodeChunk (cfg : Config) (spec : Spec) (chunk : SegOff × SegOff) : Prop :=
  ∃ code ∈ cfg.codeRegions spec.regions, chunk.1.seg = code.start.seg ∧ chunk.2.seg = code.start.seg ∧
    code.start.off.toNat ≤ chunk.1.off.toNat ∧ chunk.1.off.toNat ≤ chunk.2.off.toNat ∧
      chunk.2.off.toNat ≤ code.stop.off.toNat

theorem chunks_code {entry : FuncRegion} (member : entry ∈ cfg.codeRegions spec.regions)
    (contains : entry.contains spec.start = true) :
    ∀ chunk ∈ entryChunks entry spec.start ++ otherChunks (cfg.codeRegions spec.regions) entry,
      CodeChunk cfg spec chunk := by
  obtain ⟨seg, low, high⟩ := (FuncRegion.contains_iff _ _).mp contains
  have formed := (Config.codeRegions_formed member).1
  intro chunk inside
  rcases List.mem_append.mp inside with first | other
  · rcases List.mem_cons.mp first with rfl | before
    · exact ⟨entry, member, seg, formed.symm, low, high.le, le_rfl⟩
    · split at before
      · obtain rfl := List.mem_singleton.mp before
        exact ⟨entry, member, rfl, seg, le_rfl, low, high.le⟩
      · cases before
  · obtain ⟨region, sorted, rfl⟩ := List.mem_map.mp other
    have kept := (List.perm_insertionSort FuncRegion.before _).mem_iff.mp sorted
    have listed := (List.mem_filter.mp kept).1
    obtain ⟨formed, nonempty⟩ := Config.codeRegions_formed listed
    exact ⟨region, listed, rfl, formed.symm, le_rfl, nonempty.le, le_rfl⟩

/-- No address of a stretch of code is declared data. -/
theorem CodeChunk.not_isData {chunk : SegOff × SegOff} (code : CodeChunk cfg spec chunk) {addr : SegOff}
    (seg : addr.seg = chunk.1.seg) (low : chunk.1.off.toNat ≤ addr.off.toNat)
    (high : addr.off.toNat < chunk.2.off.toNat) : ¬ cfg.IsData addr := by
  obtain ⟨region, member, first, _, begins, _, ends⟩ := code
  have contains : region.contains addr = true :=
    (FuncRegion.contains_iff _ _).mpr ⟨seg.trans first, by omega, by omega⟩
  exact (Config.holds_codeRegions.mp ⟨region, member, contains⟩).2

theorem not_contains_of_none {addr : SegOff} (free : cfg.dataRegionContaining addr = none) :
    ∀ text ∈ cfg.textSection, ¬ text.contains addr = true := fun text listed =>
  List.find?_eq_none.mp free text listed

theorem ChunkDecodes.tiled {chunk : SegOff × SegOff} {part : List (Asm.Instr × Bytes)}
    (decodes : ChunkDecodes binary cfg chunk.1 chunk.2 part) (code : CodeChunk cfg spec chunk)
    (free : ∀ pair ∈ part, targetData cfg pair.1 = none) : Tiled cfg chunk part := by
  obtain ⟨bin, made, ran⟩ := linearDecode_eq_ok.mp decodes.decoded
  have fits := Asm.regionIter_fits made
  obtain ⟨mem, region, same⟩ := Outcome.bind_eq_ok.mp made
  obtain rfl := Outcome.ok.inj same
  have length := Asm.region_length region
  have ⟨_, _, first, last, _, less, _⟩ := code
  have tiles := ran.tiles fits
  have stop : chunk.1.off.toNat + mem.length = chunk.2.off.toNat := by omega
  change Tiles chunk.1.seg (chunk.1.off.toNat + 0) part (chunk.1.off.toNat + mem.length) at tiles
  rw [stop, Nat.add_zero] at tiles
  refine ⟨last.trans first.symm, tiles, ?_, ?_, ?_⟩
  · intro pair member i less
    obtain ⟨seg, low, high⟩ := tiles.inside member
    have small := chunk.2.off.isLt
    have off : (pair.1.addr.addOffset (.ofNat 16 i)).off.toNat = pair.1.addr.off.toNat + i := by
      simp only [SegOff.addOffset, BitVec.toNat_add, BitVec.toNat_ofNat]
      omega
    exact code.not_isData seg (by omega) (by omega)
  · intro pair member operand held target named
    obtain ⟨place, valid, stands⟩ := ran.stands fits member
    have direct := stands.directTarget_eq valid held named
    have target_free := free pair member
    rw [targetData, direct, Option.bind_some] at target_free
    exact not_contains_of_none target_free
  · intro pair isLast falls
    have ends := decodes.ends
    cases data : cfg.dataRegionContaining chunk.2 with
    | none => exact not_contains_of_none data
    | some text =>
        rw [fallsInto, data, Option.mem_def.mp isLast] at ends
        simp [falls] at ends

/-- The parts of a successful decoding: the region of the entry first, cut at the start of the function, and the
other regions in ascending order. -/
theorem decodeRegions_tiles (decoded : decodeRegions binary cfg spec = .ok l) :
    ∃ entry ∈ cfg.codeRegions spec.regions, entry.contains spec.start = true ∧
      (otherChunks (cfg.codeRegions spec.regions) entry).Pairwise (fun a b => rankOf a.1 ≤ rankOf b.1) ∧
      (∃ parts, l = parts.flatten ∧ List.Forall₂ (Tiled cfg)
        (entryChunks entry spec.start ++ otherChunks (cfg.codeRegions spec.regions) entry) parts) ∧
      ∃ first later, l = first :: later ∧ first.1.addr = spec.start := by
  unfold decodeRegions at decoded
  split at decoded
  · cases decoded
  · simp only at decoded
    split at decoded
    · cases decoded
    · rename_i entry found
      obtain ⟨_, ran, _, checked, same⟩ := by
        simpa only [Outcome.bind_eq_ok] using decoded
      obtain rfl := Outcome.ok.inj same
      have member := List.mem_of_find?_eq_some found
      have contains := List.find?_some found
      have code := chunks_code member contains
      have free := checkTargets_eq_ok.mp checked
      obtain ⟨parts, decodes, rfl⟩ := decodeChunks_eq_ok.mp ran
      have tiled : List.Forall₂ (Tiled cfg)
          (entryChunks entry spec.start ++ otherChunks (cfg.codeRegions spec.regions) entry) parts := by
        apply Lib.forall₂_imp_mem decodes
        intro chunk inside part held part_decodes
        apply part_decodes.tiled (code chunk inside)
        exact fun pair among => free pair (List.mem_flatten.mpr ⟨part, held, among⟩)
      refine ⟨entry, member, contains, ?_, ⟨parts, rfl, tiled⟩, ?_⟩
      · rw [otherChunks, List.pairwise_map]
        exact Func.sort_ascending _
      · rw [entryChunks, List.cons_append] at tiled
        cases tiled with
        | cons first others =>
            rename_i part parts
            have high := ((FuncRegion.contains_iff _ _).mp contains).2.2
            cases part with
            | nil =>
                have still := first.tiles
                change spec.start.off.toNat = entry.stop.off.toNat at still
                omega
            | cons pair later =>
                obtain ⟨seg, place, _⟩ := first.tiles
                exact ⟨pair, later ++ parts.flatten, rfl, SegOff.ext_toNat seg place⟩

/-- Three instructions and a body that takes them up. -/
def sampleSpec : Spec := ⟨none, "f", ⟨.normal 0, 0⟩, ⟨.normal 0, 3⟩, [⟨⟨.normal 0, 0⟩, ⟨.normal 0, 3⟩⟩]⟩

def sampleBinary : Binary := { main := [0x90, 0x90, 0xc3], overlays := [], segmap := none, exe := none }

/-- Declared data that goes over the end of a segment is not cut out of the code. -/
def crossingConfig : Config :=
  { codeSegs := [], funcs := [], indirects := []
    textSection := [{ name := "cross", start := ⟨.normal 0, 1⟩, stop := ⟨.normal 1, 2⟩, typ := none, access := none }] }

def sampleInstrs : List (Asm.Instr × Bytes) :=
  [(⟨none, .NOP, [], ⟨.normal 0, 0⟩, 1, 0⟩, [0x90]), (⟨none, .NOP, [], ⟨.normal 0, 1⟩, 1, 0⟩, [0x90]),
    (⟨none, .RET, [], ⟨.normal 0, 2⟩, 1, 0⟩, [0xc3])]

theorem decodeRegions_tiles_sample :
    decodeRegions sampleBinary crossingConfig sampleSpec = .ok sampleInstrs ∧
      ∃ first later, sampleInstrs = first :: later ∧ first.1.addr = sampleSpec.start := by
  have decoded : decodeRegions sampleBinary crossingConfig sampleSpec = .ok sampleInstrs := by decide +kernel
  obtain ⟨_, _, _, _, _, first⟩ := decodeRegions_tiles decoded
  exact ⟨decoded, first⟩

/-- An instruction lies in data that begins in its segment and ends in another one. -/
theorem decodeRegions_crossing :
    decodeRegions sampleBinary crossingConfig sampleSpec = .ok sampleInstrs ∧
      ∃ pair ∈ sampleInstrs, ∃ text ∈ crossingConfig.textSection, text.contains pair.1.addr = true := by
  refine ⟨by decide +kernel, _, List.mem_cons_of_mem _ List.mem_cons_self, _, List.mem_cons_self, ?_⟩
  decide

end Dis86
