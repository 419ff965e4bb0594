import Dis86.Mz.Exe

namespace Dis86.Mz
open Lib (Outcome)

@[simp] theorem returns_sliceFrom (data : Bytes) (off : Nat) (p : Bytes → Prop) :
    (sliceFrom data off).Returns p ↔ off ≤ data.length ∧ p (data.drop off) := by
  simp [sliceFrom]

@[simp] theorem returns_slice (data : Bytes) (start stop : Nat) (p : Bytes → Prop) :
    (slice data start stop).Returns p ↔
      (start ≤ stop ∧ stop ≤ data.length) ∧ p ((data.take stop).drop start) := by
  simp [slice]

@[simp] theorem returns_tryStruct {A : Type} (size : Nat) (read : Bytes → A) (data : Bytes)
    (p : A → Prop) :
    (tryStructFromBytes size read data).Returns p ↔ (size ≤ data.length → p (read data)) := by
  simp [tryStructFromBytes]

@[simp] theorem returns_trySlice {A : Type} (size nelts : Nat) (read : Bytes → A) (data : Bytes)
    (p : List A → Prop) :
    (trySliceFromBytes size read data nelts).Returns p ↔
      (nelts * size ≤ data.length →
        p ((List.range nelts).map fun i => read (data.drop (i * size)))) := by
  simp [trySliceFromBytes]

/-- Unwrapping an error asks for the room that a checked read would only test. -/
@[simp] theorem returns_unwrapStruct {A : Type} (size : Nat) (read : Bytes → A) (data : Bytes)
    (p : A → Prop) :
    (unwrapErr (tryStructFromBytes size read data)).Returns p ↔
      size ≤ data.length ∧ p (read data) := by
  by_cases room : size ≤ data.length <;>
    simp [tryStructFromBytes, Outcome.check, unwrapErr, room, bind, Outcome.bind, pure]

@[simp] theorem returns_unwrapSlice {A : Type} (size nelts : Nat) (read : Bytes → A)
    (data : Bytes) (p : List A → Prop) :
    (unwrapErr (trySliceFromBytes size read data nelts)).Returns p ↔
      nelts * size ≤ data.length ∧
        p ((List.range nelts).map fun i => read (data.drop (i * size))) := by
  by_cases room : nelts * size ≤ data.length <;>
    simp [trySliceFromBytes, Outcome.check, unwrapErr, room, bind, Outcome.bind, pure]

/-- The page counts give an end of the image. -/
def Header.PagesFit (hdr : Header) : Prop :=
  hdr.cblp = 0 ∨ hdr.cblp ≤ 512 ∧ 512 - hdr.cblp ≤ hdr.cp * 512

instance (hdr : Header) : Decidable hdr.PagesFit := inferInstanceAs (Decidable (_ ∨ _))

def Header.exeStart (hdr : Header) : Nat := hdr.cparhdr * 16

def Header.exeEnd (hdr : Header) : Nat :=
  hdr.cp * 512 - if hdr.cblp = 0 then 0 else 512 - hdr.cblp

theorem returns_exeRegionEnd (hdr : Header) (p : Nat → Prop) :
    (exeRegionEnd hdr).Returns p ↔ hdr.PagesFit ∧ p hdr.exeEnd := by
  unfold exeRegionEnd Header.PagesFit Header.exeEnd
  by_cases whole : hdr.cblp = 0
  · simp [whole]
  · simp [whole, and_assoc]

/-- The contents of a stub are what the loader accepts. -/
def CodeOverlayStub.Accepted (seg : CodeOverlaySeg) (stub : CodeOverlayStub) : Prop :=
  stub.interruptCode = codeOverlayStubInterruptCode ∧ stub.zeros = [0] ∧
    stub.callOffset < seg.segSize

theorem returns_decodeStubs (seg : CodeOverlaySeg) (segNum stubSegment i : Nat)
    (stubs : List CodeOverlayStub) (room : 32 + 5 * (i + stubs.length) ≤ 2 ^ 16)
    (q : Prop) :
    (decodeStubs seg segNum stubSegment i stubs).Returns (fun _ => q) ↔
      ((∀ stub ∈ stubs, stub.Accepted seg) → q) := by
  induction stubs generalizing i with
  | nil => simp [decodeStubs]
  | cons stub rest ih =>
      have next : 32 + 5 * (i + 1 + rest.length) ≤ 2 ^ 16 := by
        simp only [List.length_cons] at room
        omega
      have fits : 32 + 5 * i < 2 ^ 16 := by
        simp only [List.length_cons] at room
        omega
      simp only [decodeStubs, Outcome.returns_bind, Outcome.returns_check, Outcome.returns_require,
        Outcome.returns_pure, fits, true_and, ih (i + 1) next, List.forall_mem_cons]
      unfold CodeOverlayStub.Accepted
      tauto

namespace SegInfo

variable (image : Bytes)

/-- The stub header that an entry of the segment table points to. -/
def header (s : SegInfo) : CodeOverlaySeg := .read (image.drop (16 * s.seg))

def stubs (s : SegInfo) : List CodeOverlayStub :=
  (List.range ((s.maxoff - 32) / 5)).map fun i =>
    .read (((image.drop (16 * s.seg)).drop 32).drop (i * 5))

def overlaySeg (s : SegInfo) : OverlaySeg :=
  ⟨s.seg, (s.header image).segSize, (s.header image).dataOffset⟩

/-- The first segment after an entry. -/
def next (s : SegInfo) : Nat := s.seg + (s.maxoff + 15) / 16

/-- The entry follows the one before it, its size is that of a stub segment, and its header lies in
the image. -/
def Placed (nextSeg : Nat) (s : SegInfo) : Prop :=
  (nextSeg = 0 ∨ s.seg = nextSeg) ∧ s.maxoff + 15 < 2 ^ 16 ∧ s.next < 2 ^ 16 ∧ 32 ≤ s.maxoff ∧
    (s.maxoff - 32) % 5 = 0 ∧ 16 * s.seg + 32 ≤ image.length

def HeaderAccepted (s : SegInfo) : Prop :=
  (s.header image).interruptCode = codeOverlaySegInterruptCode ∧
    (s.header image).zeros = List.replicate 18 0

/-- The stubs of the entry lie in the image. -/
def StubsInside (s : SegInfo) : Prop := 16 * s.seg + s.maxoff ≤ image.length

def StubsAccepted (s : SegInfo) : Prop := ∀ stub ∈ s.stubs image, stub.Accepted (s.header image)

end SegInfo

/-- Each stub segment is placed until one of them is rejected; what is left to ask holds when none
is. -/
def StubsPlaced (image : Bytes) (rest : Prop) : Nat → List SegInfo → Prop
  | _, [] => rest
  | nextSeg, s :: entries =>
      s.Placed image nextSeg ∧ (s.HeaderAccepted image →
        s.StubsInside image ∧ (s.StubsAccepted image → StubsPlaced image rest s.next entries))

theorem StubsPlaced.congr {image : Bytes} {p q : Prop} (same : p ↔ q) (nextSeg : Nat)
    (entries : List SegInfo) :
    StubsPlaced image p nextSeg entries ↔ StubsPlaced image q nextSeg entries := by
  rw [propext same]

theorem returns_decodeStubSegment {image : Bytes} {nextSeg segNum : Nat} (s : SegInfo)
    (few : 2 * segNum ≤ nextSeg) (bounded : nextSeg < 2 ^ 16) (q : OverlaySeg → Nat → Prop) :
    (decodeStubSegment image nextSeg segNum s).Returns (fun r => q r.1 r.2.2) ↔
      s.Placed image nextSeg ∧ (s.HeaderAccepted image →
        s.StubsInside image ∧ (s.StubsAccepted image → q (s.overlaySeg image) s.next)) := by
  have number : segNum < 2 ^ 16 := by omega
  have stubCount : s.maxoff + 15 < 2 ^ 16 → 32 ≤ s.maxoff →
      32 + 5 * (0 + (List.range ((s.maxoff - 32) / 5)).length) ≤ 2 ^ 16 := by
    intro small large
    rw [List.length_range]
    omega
  unfold decodeStubSegment
  simp only [Outcome.returns_bind, Outcome.returns_require, Outcome.returns_check,
    returns_sliceFrom, returns_unwrapStruct, returns_unwrapSlice, Outcome.returns_pure, number,
    true_and, List.length_drop]
  constructor
  · rintro ⟨follows, small, nextSmall, start, large, fives, inside, rest⟩
    refine ⟨⟨follows, small, nextSmall, large, fives, by omega⟩, fun accepted => ?_⟩
    obtain ⟨_, body, rest⟩ := rest accepted.1 accepted.2
    refine ⟨by unfold SegInfo.StubsInside; omega, fun stubs => ?_⟩
    exact (returns_decodeStubs _ _ _ 0 _ (by simpa using stubCount small large) _).mp rest stubs
  · rintro ⟨⟨follows, small, nextSmall, large, fives, inside⟩, rest⟩
    refine ⟨follows, small, nextSmall, by omega, large, fives, by omega, fun code zeros => ?_⟩
    obtain ⟨stubsInside, rest⟩ := rest ⟨code, zeros⟩
    unfold SegInfo.StubsInside at stubsInside
    refine ⟨by omega, by omega, ?_⟩
    exact (returns_decodeStubs _ _ _ 0 _ (by simpa using stubCount small large) _).mpr rest

/-- The entries of the stub segments. -/
def stubEntries (seginfo : List SegInfo) : List SegInfo :=
  seginfo.filter fun s => s.typ = SegInfoType.STUB

theorem returns_decodeSegments {image : Bytes} (seginfo : List SegInfo) {nextSeg segNum : Nat}
    (few : 2 * segNum ≤ nextSeg) (bounded : nextSeg < 2 ^ 16) (q : List OverlaySeg → Prop) :
    (decodeSegments image nextSeg segNum seginfo).Returns (fun r => q r.1) ↔
      StubsPlaced image (q ((stubEntries seginfo).map (SegInfo.overlaySeg image))) nextSeg
        (stubEntries seginfo) := by
  induction seginfo generalizing nextSeg segNum q with
  | nil => simp [decodeSegments, stubEntries, StubsPlaced]
  | cons s rest ih =>
      unfold decodeSegments
      by_cases isStub : s.typ = SegInfoType.STUB
      · have entries : stubEntries (s :: rest) = s :: stubEntries rest := by
          simp [stubEntries, isStub]
        rw [if_neg (by simpa using isStub), entries]
        simp only [Outcome.returns_bind, Outcome.returns_pure]
        rw [returns_decodeStubSegment s few bounded fun seg next =>
          (decodeSegments image next (segNum + 1) rest).Returns fun r => q (seg :: r.1)]
        simp only [StubsPlaced, List.map_cons]
        refine and_congr_right fun placed => imp_congr_right fun _ =>
          and_congr_right fun _ => imp_congr_right fun _ => ?_
        obtain ⟨follows, _, small, large, _, _⟩ := placed
        refine ih ?_ small fun segs => q (s.overlaySeg image :: segs)
        unfold SegInfo.next
        omega
      · have entries : stubEntries (s :: rest) = stubEntries rest := by
          simp [stubEntries, isStub]
        rw [if_pos (by simpa using isStub), entries]
        exact ih few bounded q

end Dis86.Mz
