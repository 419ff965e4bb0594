import Dis86.Lib.Outcome
import Dis86.Asm.Instr

namespace Dis86.Mz
open Lib (Outcome)

abbrev Bytes := List (BitVec 8)

def byteAt (data : Bytes) (off : Nat) : Nat := (data.getD off 0).toNat

/-- Numbers have their low byte first. -/
def word (data : Bytes) (off : Nat) : Nat := byteAt data off + 256 * byteAt data (off + 1)

def dword (data : Bytes) (off : Nat) : Nat := word data off + 65536 * word data (off + 2)

def signedDword (data : Bytes) (off : Nat) : Int :=
  if dword data off < 2 ^ 31 then dword data off else dword data off - 2 ^ 32

inductive Error where
  | tooShort (got expected : Nat)
  | magicMismatch (got : Bytes)
  | exeBeyondData
  | negativeSegnum (segnum : Int)
  | segInterruptCode (got : Bytes)
  | segZeros (got : Bytes)
  | stubInterruptCode (got : Bytes)
  | stubZeros (got : Bytes)
  | stubCallOffset (callOffset segSize : Nat)
  | wrappedSegment (seg skipOff stop : Nat)
  | oversizedImage (size : Nat)
deriving DecidableEq, Repr

abbrev Decoded := Outcome Error

/-- A slice to the end panics when it starts beyond the data. -/
def sliceFrom (data : Bytes) (off : Nat) : Decoded Bytes := do
  .require (off ≤ data.length)
  return data.drop off

def slice (data : Bytes) (start stop : Nat) : Decoded Bytes := do
  .require (start ≤ stop ∧ stop ≤ data.length)
  return (data.take stop).drop start

/-- A structure is read from the start of the data. -/
def tryStructFromBytes {A : Type} (size : Nat) (read : Bytes → A) (data : Bytes) : Decoded A := do
  .check (size ≤ data.length) (.tooShort data.length size)
  return read data

def trySliceFromBytes {A : Type} (size : Nat) (read : Bytes → A) (data : Bytes) (nelts : Nat) :
    Decoded (List A) := do
  .check (nelts * size ≤ data.length) (.tooShort data.length (nelts * size))
  return (List.range nelts).map fun i => read (data.drop (i * size))

/-- An error is unwrapped into a panic. -/
def unwrapErr {A : Type} : Decoded A → Decoded A
  | .ok a => .ok a
  | .err _ => .panic
  | .panic => .panic

/-- The fields of the file header that place the image and the relocations. -/
structure Header where
  magic : Bytes
  cblp : Nat
  cp : Nat
  crlc : Nat
  cparhdr : Nat
  lfarlc : Nat
deriving DecidableEq, Repr

def Header.read (data : Bytes) : Header where
  magic := data.take 2
  cblp := word data 2
  cp := word data 4
  crlc := word data 6
  cparhdr := word data 8
  lfarlc := word data 24

structure Reloc where
  offset : Nat
  segment : Nat
deriving DecidableEq, Repr

def Reloc.read (data : Bytes) : Reloc := ⟨word data 0, word data 2⟩

/-- The record that follows the image of a program with overlays. -/
structure FBOV where
  magic : Bytes
  ovrsize : Nat
  exeinfo : Nat
  segnum : Int
deriving DecidableEq, Repr

def FBOV.read (data : Bytes) : FBOV := ⟨data.take 4, dword data 4, dword data 8, signedDword data 12⟩

structure SegInfo where
  seg : Nat
  maxoff : Nat
  typ : Nat
  minoff : Nat
deriving DecidableEq, Repr

def SegInfo.read (data : Bytes) : SegInfo := ⟨word data 0, word data 2, word data 4, word data 6⟩

namespace SegInfoType

def CODE : Nat := 1
def STUB : Nat := 3

end SegInfoType

/-- The size of a segment wraps at sixteen bits. -/
def SegInfo.size (s : SegInfo) : Nat := (s.maxoff + (65536 - s.minoff)) % 65536

/-- The header of the stubs of one overlay segment. -/
structure CodeOverlaySeg where
  interruptCode : Bytes
  dataOffset : Nat
  segSize : Nat
  zeros : Bytes
deriving DecidableEq, Repr

def CodeOverlaySeg.read (data : Bytes) : CodeOverlaySeg where
  interruptCode := data.take 4
  dataOffset := dword data 4
  segSize := word data 8
  zeros := (data.drop 14).take 18

structure CodeOverlayStub where
  interruptCode : Bytes
  callOffset : Nat
  zeros : Bytes
deriving DecidableEq, Repr

def CodeOverlayStub.read (data : Bytes) : CodeOverlayStub where
  interruptCode := data.take 2
  callOffset := word data 2
  zeros := (data.drop 4).take 1

structure OverlaySeg where
  stubSegment : Nat
  segmentSize : Nat
  dataOffset : Nat
deriving DecidableEq, Repr

structure OverlayStub where
  overlaySegNum : Nat
  stubSegment : Nat
  stubOffset : Nat
  destOffset : Nat
deriving DecidableEq, Repr

structure OverlayInfo where
  fileOffset : Nat
  segs : List OverlaySeg
  stubs : List OverlayStub
deriving DecidableEq, Repr

structure Exe where
  hdr : Header
  exeStart : Nat
  exeEnd : Nat
  relocs : List Reloc
  fbov : Option FBOV
  seginfo : Option (List SegInfo)
  ovr : Option OverlayInfo
  rawdata : Bytes
deriving DecidableEq, Repr

def codeOverlaySegInterruptCode : Bytes := [0xcd, 0x3f, 0x00, 0x00]

def codeOverlayStubInterruptCode : Bytes := [0xcd, 0x3f]

/-- The stubs of one segment are checked in order. -/
def decodeStubs (seg : CodeOverlaySeg) (segNum stubSegment : Nat) :
    Nat → List CodeOverlayStub → Decoded (List OverlayStub)
  | _, [] => return []
  | i, stub :: rest => do
      .check (stub.interruptCode = codeOverlayStubInterruptCode)
        (.stubInterruptCode stub.interruptCode)
      .check (stub.zeros = [0]) (.stubZeros stub.zeros)
      .check (stub.callOffset < seg.segSize) (.stubCallOffset stub.callOffset seg.segSize)
      .require (32 + 5 * i < 2 ^ 16)
      let stubs ← decodeStubs seg segNum stubSegment (i + 1) rest
      return ⟨segNum, stubSegment, 32 + 5 * i, stub.callOffset⟩ :: stubs

/-- One stub segment of the image: its place is asserted, its contents are checked. -/
def decodeStubSegment (exeData : Bytes) (nextSeg segNum : Nat) (s : SegInfo) :
    Decoded (OverlaySeg × List OverlayStub × Nat) := do
  .require (nextSeg = 0 ∨ s.seg = nextSeg)
  .require (s.maxoff + 15 < 2 ^ 16)
  let nSegs := (s.maxoff + 15) / 16
  .require (s.seg + nSegs < 2 ^ 16)
  let dat ← sliceFrom exeData (16 * s.seg)
  .require (32 ≤ s.maxoff)
  .require ((s.maxoff - 32) % 5 = 0)
  let seg ← unwrapErr (tryStructFromBytes 32 .read dat)
  .check (seg.interruptCode = codeOverlaySegInterruptCode) (.segInterruptCode seg.interruptCode)
  .check (seg.zeros = List.replicate 18 0) (.segZeros seg.zeros)
  .require (segNum < 2 ^ 16)
  let body ← sliceFrom dat 32
  let stubs ← unwrapErr (trySliceFromBytes 5 .read body ((s.maxoff - 32) / 5))
  let stubs ← decodeStubs seg segNum s.seg 0 stubs
  return (⟨s.seg, seg.segSize, seg.dataOffset⟩, stubs, s.seg + nSegs)

/-- The stub segments are decoded in the order of the segment table. -/
def decodeSegments (exeData : Bytes) : Nat → Nat → List SegInfo →
    Decoded (List OverlaySeg × List OverlayStub)
  | _, _, [] => return ([], [])
  | nextSeg, segNum, s :: rest =>
      if s.typ ≠ SegInfoType.STUB then decodeSegments exeData nextSeg segNum rest
      else do
        let (seg, stubs, next) ← decodeStubSegment exeData nextSeg segNum s
        let (segs, others) ← decodeSegments exeData next (segNum + 1) rest
        return (seg :: segs, stubs ++ others)

/-- The data of the overlays starts right after the record. -/
def decodeOverlayInfo (data : Bytes) (exeStart fbovOffset : Nat) (seginfo : List SegInfo) :
    Decoded OverlayInfo := do
  let exeData ← sliceFrom data exeStart
  let (segs, stubs) ← decodeSegments exeData 0 0 seginfo
  .require (fbovOffset + 16 < 2 ^ 32)
  return ⟨fbovOffset + 16, segs, stubs⟩

def decodeHdr (data : Bytes) : Decoded Header := do
  let hdr ← tryStructFromBytes 28 .read data
  .check (hdr.magic = [0x4d, 0x5a]) (.magicMismatch hdr.magic)
  return hdr

def decodeFbov (data : Bytes) : Option FBOV :=
  if 16 ≤ data.length ∧ (FBOV.read data).magic = [0x46, 0x42, 0x4f, 0x56] then some (.read data)
  else none

/-- The end of the image in the file; the subtractions underflow on bad page counts. -/
def exeRegionEnd (hdr : Header) : Decoded Nat :=
  if hdr.cblp ≠ 0 then do
    .require (hdr.cblp ≤ 512)
    .require (512 - hdr.cblp ≤ hdr.cp * 512)
    return hdr.cp * 512 - (512 - hdr.cblp)
  else return hdr.cp * 512

def decodeSeginfo (data : Bytes) (fbov : FBOV) : Decoded (List SegInfo) := do
  .check (0 ≤ fbov.segnum) (.negativeSegnum fbov.segnum)
  let table ← sliceFrom data fbov.exeinfo
  trySliceFromBytes 8 .read table fbov.segnum.toNat

/-- The executable from its pieces; the overlays need the record. -/
def decodeOverlays (data : Bytes) (exeStart exeEnd : Nat) :
    Option FBOV → Decoded (Option (List SegInfo) × Option OverlayInfo)
  | none => return (none, none)
  | some fbov => do
      let seginfo ← decodeSeginfo data fbov
      let ovr ← decodeOverlayInfo data exeStart exeEnd seginfo
      return (some seginfo, some ovr)

def Exe.decode (data : Bytes) : Decoded Exe := do
  let hdr ← decodeHdr data
  let exeStart := hdr.cparhdr * 16
  let exeEnd ← exeRegionEnd hdr
  .check (exeEnd ≤ data.length) .exeBeyondData
  let table ← sliceFrom data hdr.lfarlc
  let relocs ← trySliceFromBytes 4 .read table hdr.crlc
  let dataRem ← sliceFrom data exeEnd
  let fbov := decodeFbov dataRem
  let (seginfo, ovr) ← decodeOverlays data exeStart exeEnd fbov
  return ⟨hdr, exeStart, exeEnd, relocs, fbov, seginfo, ovr, data⟩

namespace Exe

def exeData (exe : Exe) : Decoded Bytes := slice exe.rawdata exe.exeStart exe.exeEnd

def overlayData (exe : Exe) (id : Nat) : Decoded Bytes := do
  let ovr ← .unwrap exe.ovr
  let seg ← .unwrap ovr.segs[id]?
  let start := ovr.fileOffset + seg.dataOffset
  slice exe.rawdata start (start + seg.segmentSize)

def numOverlaySegments (exe : Exe) : Nat := (exe.ovr.map fun ovr => ovr.segs.length).getD 0

end Exe

open Asm (Seg SegOff)

structure Region where
  seg : Seg
  skipOff : Nat
  size : Nat
deriving DecidableEq, Repr

structure CodeSegment where
  primary : Region
  stub : Option Region
deriving DecidableEq, Repr

namespace CodeSegment

def start (c : CodeSegment) : SegOff := ⟨c.primary.seg, .ofNat 16 c.primary.skipOff⟩

/-- The end of a segment must be an offset. -/
def stop (c : CodeSegment) : Decoded SegOff := do
  .require (c.primary.skipOff + c.primary.size < 2 ^ 16)
  return ⟨c.primary.seg, .ofNat 16 (c.primary.skipOff + c.primary.size)⟩

end CodeSegment

def SegInfo.region (s : SegInfo) : Region := ⟨.normal (.ofNat 16 s.seg), s.minoff, s.size⟩

/-- The ordinary segments and the stub segments, in the order of the table. -/
def collectSegments : List SegInfo → Decoded (List CodeSegment × List Region)
  | [] => return ([], [])
  | s :: rest => do
      .check (s.minoff + s.size < 2 ^ 16) (.wrappedSegment s.seg s.minoff (s.minoff + s.size))
      let (code, stubs) ← collectSegments rest
      if s.typ = SegInfoType.CODE ∧ s.size ≠ 0 then return (⟨s.region, none⟩ :: code, stubs)
      else if s.typ = SegInfoType.STUB then return (code, s.region :: stubs)
      else return (code, stubs)

/-- Each overlay segment is matched with the stub segment of its position. -/
def matchStubs (stubs : List Region) : Nat → List OverlaySeg → Decoded (List CodeSegment)
  | _, [] => return []
  | i, seg :: rest => do
      let stub ← .unwrap stubs[i]?
      .require (stub.skipOff = 0)
      let others ← matchStubs stubs (i + 1) rest
      return ⟨⟨.overlay (.ofNat 16 i), 0, seg.segmentSize⟩, some stub⟩ :: others

def fromOverlayInfo (seginfo : List SegInfo) (ovr : OverlayInfo) : Decoded (List CodeSegment) := do
  let (code, stubs) ← collectSegments seginfo
  let overlays ← matchStubs stubs 0 ovr.segs
  return code ++ overlays

/-- An image without a segment table is one segment when its offsets fit. -/
def codeSegments (exe : Exe) : Decoded (List CodeSegment) :=
  match exe.seginfo, exe.ovr with
  | some seginfo, some ovr => fromOverlayInfo seginfo ovr
  | _, _ => do
      let image ← exe.exeData
      .check (image.length < 2 ^ 16) (.oversizedImage image.length)
      return [⟨⟨.normal 0, 0, image.length⟩, none⟩]

end Dis86.Mz
