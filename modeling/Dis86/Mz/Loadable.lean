import Dis86.Mz.Total

namespace Dis86.Mz
open Lib (Outcome)

theorem byteAt_lt (data : Bytes) (off : Nat) : byteAt data off < 256 := (data.getD off 0).isLt

theorem word_lt (data : Bytes) (off : Nat) : word data off < 2 ^ 16 := by
  have low := byteAt_lt data off
  have high := byteAt_lt data (off + 1)
  unfold word
  omega

/-- Nothing that a loaded executable is asked for panics. -/
def Exe.Usable (exe : Exe) : Prop :=
  exe.exeData.Safe ∧ (∀ i < exe.numOverlaySegments, (exe.overlayData i).Safe) ∧
    (codeSegments exe).Returns fun segs => ∀ c ∈ segs, c.stop.Safe

/-- A segment of the table fits its offsets. -/
def SegInfo.Spans (s : SegInfo) : Prop := s.minoff + s.size < 2 ^ 16

def ordinarySegments (seginfo : List SegInfo) : List CodeSegment :=
  (seginfo.filter fun s => s.typ = SegInfoType.CODE ∧ s.size ≠ 0).map fun s => ⟨s.region, none⟩

theorem returns_collectSegments (seginfo : List SegInfo)
    (p : List CodeSegment × List Region → Prop) :
    (collectSegments seginfo).Returns p ↔ ((∀ s ∈ seginfo, s.Spans) →
      p (ordinarySegments seginfo, (stubEntries seginfo).map SegInfo.region)) := by
  induction seginfo generalizing p with
  | nil => simp [collectSegments, ordinarySegments, stubEntries]
  | cons s rest ih =>
      have isStub : SegInfoType.CODE ≠ SegInfoType.STUB := by decide
      unfold collectSegments
      simp only [Outcome.returns_bind, Outcome.returns_check, ih, List.forall_mem_cons]
      rw [and_imp]
      refine imp_congr_right fun spans => ?_
      by_cases code : s.typ = SegInfoType.CODE ∧ s.size ≠ 0
      · simp [ordinarySegments, stubEntries, code, isStub]
      · by_cases stub : s.typ = SegInfoType.STUB
        · simp [ordinarySegments, stubEntries, stub, isStub.symm]
        · simp [ordinarySegments, stubEntries, code, stub]

/-- The overlay segments of the entries, each with the stub segment of its position. -/
def overlaySegments (i : Nat) : List SegInfo → List OverlaySeg → List CodeSegment
  | s :: entries, seg :: segs =>
      ⟨⟨.overlay (.ofNat 16 i), 0, seg.segmentSize⟩, some s.region⟩ ::
        overlaySegments (i + 1) entries segs
  | _, _ => []

theorem returns_matchStubs (image : Bytes) (before : List Region) (entries : List SegInfo)
    (p : List CodeSegment → Prop) :
    (matchStubs (before ++ entries.map SegInfo.region) before.length
        (entries.map (SegInfo.overlaySeg image))).Returns p ↔
      (∀ s ∈ entries, s.minoff = 0) ∧
        p (overlaySegments before.length entries (entries.map (SegInfo.overlaySeg image))) := by
  induction entries generalizing before p with
  | nil => simp [matchStubs, overlaySegments]
  | cons s rest ih =>
      have here : (before ++ (s :: rest).map SegInfo.region)[before.length]? = some s.region := by
        simp
      have split : before ++ (s :: rest).map SegInfo.region =
          (before ++ [s.region]) ++ rest.map SegInfo.region := by simp
      have count : before.length + 1 = (before ++ [s.region]).length := by simp
      simp only [List.map_cons, matchStubs, Outcome.returns_bind, Outcome.returns_unwrap,
        Outcome.returns_require, Outcome.returns_pure]
      rw [← List.map_cons, here]
      simp only [Option.some.injEq, exists_eq_left', List.forall_mem_cons, overlaySegments]
      rw [split, count, ih (before ++ [s.region])]
      simp only [SegInfo.region, and_assoc]

theorem stop_safe (c : CodeSegment) :
    c.stop.Safe ↔ c.primary.skipOff + c.primary.size < 2 ^ 16 := by
  simp only [CodeSegment.stop, Outcome.Safe, Outcome.returns_bind, Outcome.returns_require,
    Outcome.returns_pure, and_true]

theorem overlaySegments_stop {image : Bytes} (i : Nat) (entries : List SegInfo) :
    ∀ c ∈ overlaySegments i entries (entries.map (SegInfo.overlaySeg image)), c.stop.Safe := by
  induction entries generalizing i with
  | nil => simp [overlaySegments]
  | cons s rest ih =>
      have bound : (s.overlaySeg image).segmentSize < 2 ^ 16 := word_lt _ _
      simp only [List.map_cons, overlaySegments, List.forall_mem_cons, stop_safe, Nat.zero_add]
      exact ⟨bound, fun c inside => (stop_safe c).mp (ih (i + 1) c inside)⟩

theorem ordinarySegments_stop {seginfo : List SegInfo} (spans : ∀ s ∈ seginfo, s.Spans) :
    ∀ c ∈ ordinarySegments seginfo, c.stop.Safe := by
  intro c found
  obtain ⟨s, inside, rfl⟩ := List.mem_map.mp found
  exact (stop_safe _).mpr (spans s (List.mem_of_mem_filter inside))

/-- The lookup of the segments asks the stub segments to start at zero, unless a segment of the
table is rejected first. -/
theorem returns_fromOverlayInfo {image : Bytes} {seginfo : List SegInfo} {ovr : OverlayInfo}
    (segs : ovr.segs = (stubEntries seginfo).map (SegInfo.overlaySeg image)) :
    ((fromOverlayInfo seginfo ovr).Returns fun found => ∀ c ∈ found, c.stop.Safe) ↔
      ((∀ s ∈ seginfo, s.Spans) → ∀ s ∈ stubEntries seginfo, s.minoff = 0) := by
  unfold fromOverlayInfo
  simp only [Outcome.returns_bind, returns_collectSegments, Outcome.returns_pure]
  refine imp_congr_right fun spans => ?_
  rw [segs]
  refine (returns_matchStubs image [] (stubEntries seginfo) _).trans ?_
  refine and_iff_left ?_
  intro c inside
  rcases List.mem_append.mp inside with inside | inside
  · exact ordinarySegments_stop spans c inside
  · exact overlaySegments_stop _ _ c inside

/-- What the accessors ask of an executable with overlays. -/
def OverlaysUsable (data : Bytes) (hdr : Header) (seginfo : List SegInfo) : Prop :=
  hdr.exeStart ≤ hdr.exeEnd ∧
    (∀ s ∈ stubEntries seginfo, hdr.exeEnd + 16 +
      (s.header (data.drop hdr.exeStart)).dataOffset +
      (s.header (data.drop hdr.exeStart)).segSize ≤ data.length) ∧
    ((∀ s ∈ seginfo, s.Spans) → ∀ s ∈ stubEntries seginfo, s.minoff = 0)

theorem exeData_safe (exe : Exe) :
    exe.exeData.Safe ↔ exe.exeStart ≤ exe.exeEnd ∧ exe.exeEnd ≤ exe.rawdata.length := by
  simp [Exe.exeData, Outcome.Safe]

theorem overlayData_safe {exe : Exe} {ovr : OverlayInfo} (known : exe.ovr = some ovr) :
    (∀ i < exe.numOverlaySegments, (exe.overlayData i).Safe) ↔
      ∀ seg ∈ ovr.segs, ovr.fileOffset + seg.dataOffset + seg.segmentSize ≤ exe.rawdata.length := by
  have each : ∀ i, (exe.overlayData i).Safe ↔ ∃ seg, ovr.segs[i]? = some seg ∧
      ovr.fileOffset + seg.dataOffset + seg.segmentSize ≤ exe.rawdata.length := by
    intro i
    simp [Exe.overlayData, Outcome.Safe, known]
  simp only [Exe.numOverlaySegments, known, Option.map_some, Option.getD_some, each]
  constructor
  · intro all seg inside
    obtain ⟨i, bound, rfl⟩ := List.getElem_of_mem inside
    obtain ⟨seg, same, room⟩ := all i bound
    rw [List.getElem?_eq_getElem bound] at same
    cases same
    exact room
  · intro all i bound
    exact ⟨_, List.getElem?_eq_getElem bound, all _ (List.getElem_mem bound)⟩

theorem plain_usable {exe : Exe} (plain : exe.ovr = none) (inside : exe.exeEnd ≤ exe.rawdata.length) :
    exe.Usable ↔ exe.exeStart ≤ exe.exeEnd := by
  have lookup : codeSegments exe = (do
      let image ← exe.exeData
      .check (image.length < 2 ^ 16) (.oversizedImage image.length)
      return [⟨⟨.normal 0, 0, image.length⟩, none⟩]) := by
    unfold codeSegments
    rw [plain]
    cases exe.seginfo <;> rfl
  unfold Exe.Usable
  rw [exeData_safe, lookup]
  simp [Exe.numOverlaySegments, plain, inside, Exe.exeData, CodeSegment.stop, Outcome.Safe]

theorem overlay_usable {exe : Exe} {seginfo : List SegInfo} {ovr : OverlayInfo} {image : Bytes}
    (table : exe.seginfo = some seginfo) (known : exe.ovr = some ovr)
    (segs : ovr.segs = (stubEntries seginfo).map (SegInfo.overlaySeg image))
    (inside : exe.exeEnd ≤ exe.rawdata.length) :
    exe.Usable ↔ exe.exeStart ≤ exe.exeEnd ∧
      (∀ s ∈ stubEntries seginfo, ovr.fileOffset + (s.header image).dataOffset +
        (s.header image).segSize ≤ exe.rawdata.length) ∧
      ((∀ s ∈ seginfo, s.Spans) → ∀ s ∈ stubEntries seginfo, s.minoff = 0) := by
  unfold Exe.Usable codeSegments
  rw [exeData_safe, overlayData_safe known, table, known]
  simp only [returns_fromOverlayInfo segs, segs, List.forall_mem_map, inside, and_true]
  rfl

/-- The segment table that a record points to. -/
def FBOV.table (data : Bytes) (fbov : FBOV) : List SegInfo :=
  (List.range fbov.segnum.toNat).map fun i => .read ((data.drop fbov.exeinfo).drop (i * 8))

/-- The segment table and the stub segments that a record points to lie in the file, up to the
first stub segment that the loader rejects. Without a record only the image has to be placed. -/
def RecordPlaced (data : Bytes) (hdr : Header) : Option FBOV → Prop
  | none => hdr.exeStart ≤ hdr.exeEnd
  | some fbov => 0 ≤ fbov.segnum → fbov.exeinfo ≤ data.length ∧
      (fbov.exeinfo + 8 * fbov.segnum.toNat ≤ data.length →
        hdr.exeStart ≤ data.length ∧
          StubsPlaced (data.drop hdr.exeStart) (OverlaysUsable data hdr (fbov.table data)) 0
            (stubEntries (fbov.table data)))

/-- The pieces that the header of an accepted file points to lie in the file. -/
def Header.Places (data : Bytes) (hdr : Header) : Prop :=
  hdr.PagesFit ∧ (hdr.exeEnd ≤ data.length → hdr.lfarlc ≤ data.length ∧
    (hdr.lfarlc + 4 * hdr.crlc ≤ data.length →
      RecordPlaced data hdr (decodeFbov (data.drop hdr.exeEnd))))

def Loadable (data : Bytes) : Prop :=
  28 ≤ data.length → (Header.read data).magic = [0x4d, 0x5a] → (Header.read data).Places data

theorem Header.exeEnd_lt (data : Bytes) : (Header.read data).exeEnd + 16 < 2 ^ 32 := by
  have pages : (Header.read data).cp < 2 ^ 16 := word_lt _ _
  unfold Header.exeEnd
  omega

/-- The overlays of a record are decoded and used without a panic exactly when they are placed. -/
theorem returns_decodeOverlays {data : Bytes} {hdr : Header} (fbov : Option FBOV)
    (small : hdr.exeEnd + 16 < 2 ^ 32) (inside : hdr.exeEnd ≤ data.length) (relocs : List Reloc) :
    ((decodeOverlays data hdr.exeStart hdr.exeEnd fbov).Returns fun r =>
        (Exe.mk hdr hdr.exeStart hdr.exeEnd relocs fbov r.1 r.2 data).Usable) ↔
      RecordPlaced data hdr fbov := by
  cases fbov with
  | none => exact plain_usable rfl inside
  | some fbov =>
      simp only [decodeOverlays, decodeSeginfo, decodeOverlayInfo, Outcome.returns_bind,
        Outcome.returns_check, Outcome.returns_require, Outcome.returns_pure, returns_sliceFrom,
        returns_trySlice, small, true_and, List.length_drop, RecordPlaced]
      refine imp_congr_right fun _ => and_congr_right fun start => ?_
      refine imp_congr (by omega) (and_congr_right fun _ => ?_)
      -- The use of the executable does not depend on the stubs, only on the overlay segments.
      refine (returns_decodeSegments (fbov.table data) (by decide) (by decide) fun segs =>
        (Exe.mk hdr hdr.exeStart hdr.exeEnd relocs (some fbov) (some (fbov.table data))
          (some ⟨hdr.exeEnd + 16, segs, []⟩) data).Usable).trans ?_
      exact StubsPlaced.congr (@overlay_usable ⟨_, _, _, _, _, _, _, _⟩ _ _ _ rfl rfl rfl inside) 0 _

/-- Decoding returns an executable that can be used, or an error, exactly when the pieces of the
file are placed. -/
theorem decode_total_iff (data : Bytes) :
    (Exe.decode data).Returns Exe.Usable ↔ Loadable data := by
  unfold Exe.decode Loadable Header.Places decodeHdr
  simp only [Outcome.returns_bind, Outcome.returns_check, Outcome.returns_pure,
    returns_exeRegionEnd, returns_sliceFrom, returns_tryStruct, returns_trySlice, List.length_drop]
  refine imp_congr_right fun _ => imp_congr_right fun _ => and_congr_right fun _ =>
    imp_congr_right fun inside => and_congr_right fun table => imp_congr (by omega) ?_
  rw [and_iff_right inside]
  exact returns_decodeOverlays _ (Header.exeEnd_lt data) inside _

/-- A header whose last page claims more bytes than a page has. -/
def overfullPage : Bytes := [0x4d, 0x5a, 0x01, 0x02, 0x01, 0x00] ++ List.replicate 22 0

/-- The byte count of the last page is subtracted from a page without a check. -/
theorem decode_overfullPage_panics :
    Exe.decode overfullPage = .panic ∧ ¬ (Exe.decode overfullPage).Returns Exe.Usable := by
  have panics : Exe.decode overfullPage = .panic := by decide
  refine ⟨panics, ?_⟩
  rw [panics]
  exact fun returns => returns

end Dis86.Mz
