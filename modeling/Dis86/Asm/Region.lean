import Dis86.Asm.Instr
import Dis86.Lib.Cursor

namespace Dis86.Asm
open Lib (Outcome Run Cursor)

abbrev Bytes := List (BitVec 8)

/-- What the decoder reports about bytes that it cannot decode. -/
inductive DecodeError where
  | mismatchingSegments
  | belowRegion
  | beyondRegion
  | relativeSize (sz : Size)
  | registerSize
  | registerForMemory
  | unknownFormat (opcode1 : BitVec 8) (opcode2 : Option (BitVec 8)) (addr : SegOff)
  | invalidInstruction (addr : SegOff)
  | lockPrefix (addr : SegOff)
deriving DecidableEq, Repr

/-- Segments of the program come before overlays. -/
def Seg.lt : Seg → Seg → Bool
  | .normal a, .normal b => a < b
  | .normal _, .overlay _ => true
  | .overlay _, .normal _ => false
  | .overlay a, .overlay b => a < b

def SegOff.lt (a b : SegOff) : Bool := a.seg.lt b.seg || (a.seg = b.seg && a.off < b.off)

def SegOff.le (a b : SegOff) : Bool := a.lt b || a = b

def SegOff.offsetTo {E : Type} (addr other : SegOff) : Outcome E (BitVec 16) := do
  .require (addr.seg = other.seg)
  .require (addr.off ≤ other.off)
  return other.off - addr.off

structure RegionIter where
  mem : Bytes
  baseSeg : Seg
  baseOff : BitVec 16
  off : Nat
deriving DecidableEq, Repr

abbrev Decode := Run RegionIter DecodeError

namespace RegionIter

def new (mem : Bytes) (baseAddr : SegOff) : RegionIter := ⟨mem, baseAddr.seg, baseAddr.off, 0⟩

def getChecked (bin : RegionIter) (addr : SegOff) : Outcome DecodeError (BitVec 8) := do
  .check (addr.seg = bin.baseSeg) .mismatchingSegments
  .check (bin.baseOff.toNat ≤ addr.off.toNat) .belowRegion
  .check (addr.off.toNat < bin.baseOff.toNat + bin.mem.length) .beyondRegion
  .unwrap bin.mem[addr.off.toNat - bin.baseOff.toNat]?

def slice (bin : RegionIter) (addr : SegOff) (len : BitVec 16) : Outcome DecodeError Bytes := do
  .require (addr.seg = bin.baseSeg)
  .require (bin.baseOff.toNat ≤ addr.off.toNat)
  .require (addr.off.toNat + len.toNat ≤ bin.baseOff.toNat + bin.mem.length)
  return (bin.mem.drop (addr.off.toNat - bin.baseOff.toNat)).take len.toNat

def baseAddr (bin : RegionIter) : SegOff := ⟨bin.baseSeg, bin.baseOff⟩

/-- A position that does not fit in sixteen bits panics. -/
def addr (bin : RegionIter) : Outcome DecodeError SegOff := do
  .require (bin.off < 65536)
  return bin.baseAddr.addOffset (.ofNat 16 bin.off)

def endAddr (bin : RegionIter) : Outcome DecodeError SegOff := do
  .require (bin.mem.length < 65536)
  return bin.baseAddr.addOffset (.ofNat 16 bin.mem.length)

def bytesRemaining (bin : RegionIter) : Nat := bin.mem.length - bin.off

def advanceBy (bin : RegionIter) (n : Nat) : RegionIter := { bin with off := bin.off + n }

def resetAddr (bin : RegionIter) (addr : SegOff) : Outcome DecodeError RegionIter := do
  .require (bin.baseAddr.le addr)
  .require (addr.lt (← bin.endAddr))
  .require (bin.baseOff ≤ addr.off)
  return { bin with off := (addr.off - bin.baseOff).toNat }

def peekChecked : Decode (BitVec 8) := .ask fun bin => do bin.getChecked (← bin.addr)

def advance : Decode Unit := fun bin => (.ok (), bin.advanceBy 1)

def fetch : Decode (BitVec 8) := do
  let b ← peekChecked
  advance
  return b

def fetchSext : Decode (BitVec 16) := do
  let b ← fetch
  return b.signExtend 16

def fetchU16 : Decode (BitVec 16) := do
  let low ← fetch
  let high ← fetch
  return high.setWidth 16 <<< 8 ||| low.setWidth 16

end RegionIter

/-- The bytes of a loaded program. -/
structure Binary where
  main : Bytes
  overlays : List Bytes
deriving DecidableEq, Repr

namespace Binary

variable {E : Type}

def absNormal (seg off : BitVec 16) : Nat := seg.toNat * 16 + off.toNat

/-- A slice panics when it starts after its end or leaves the data. -/
def subslice (data : Bytes) (start stop : Nat) : Outcome E Bytes := do
  .require (start ≤ stop)
  .require (stop ≤ data.length)
  return (data.drop start).take (stop - start)

def region (bin : Binary) (start stop : SegOff) : Outcome E Bytes := do
  .require (start.seg = stop.seg)
  match start.seg with
  | .normal seg => subslice bin.main (absNormal seg start.off) (absNormal seg stop.off)
  | .overlay seg => do
      let data ← Outcome.unwrap bin.overlays[seg.toNat]?
      subslice data start.off.toNat stop.off.toNat

def regionIter (bin : Binary) (start stop : SegOff) : Outcome E RegionIter := do
  return .new (← bin.region start stop) start

end Binary

namespace RegionIter

/-- The region lies in one segment, and the position is not past its end. -/
structure Fits (bin : RegionIter) : Prop where
  segment : bin.baseOff.toNat + bin.mem.length < 65536
  position : bin.off ≤ bin.mem.length

def rest (bin : RegionIter) : Bytes := bin.mem.drop bin.off

@[simp] theorem length_rest (bin : RegionIter) : bin.rest.length = bin.bytesRemaining := by
  simp [rest, bytesRemaining]

@[simp] theorem advanceBy_mem (bin : RegionIter) (n : Nat) : (bin.advanceBy n).mem = bin.mem := rfl

@[simp] theorem advanceBy_off (bin : RegionIter) (n : Nat) :
    (bin.advanceBy n).off = bin.off + n := rfl

/-- A region iterator moves over the bytes of its region. -/
def cursor : Cursor RegionIter (BitVec 8) where
  Valid := Fits
  rest := rest
  advance := advanceBy
  advance_zero _ := rfl
  advance_add bin m n := by simp [advanceBy, Nat.add_assoc]
  rest_advance bin n := by simp [rest, advanceBy, List.drop_drop]
  valid_advance bin n fits inside := by
    have position := fits.position
    rw [length_rest, bytesRemaining] at inside
    exact ⟨fits.segment, by simp only [advanceBy]; omega⟩

theorem addr_eq {bin : RegionIter} (fits : bin.Fits) :
    ∃ addr, bin.addr = .ok addr ∧ addr.seg = bin.baseSeg ∧
      addr.off.toNat = bin.baseOff.toNat + bin.off := by
  have segment := fits.segment
  have position := fits.position
  refine ⟨bin.baseAddr.addOffset (.ofNat 16 bin.off), ?_, rfl, ?_⟩
  · simp only [addr, Outcome.require, if_pos (show bin.off < 65536 by omega)]
    rfl
  · simp only [SegOff.addOffset, baseAddr, BitVec.toNat_add, BitVec.toNat_ofNat]
    omega

theorem endAddr_eq {bin : RegionIter} (fits : bin.Fits) :
    ∃ addr, bin.endAddr = .ok addr ∧ addr.seg = bin.baseSeg ∧
      addr.off.toNat = bin.baseOff.toNat + bin.mem.length := by
  have segment := fits.segment
  refine ⟨bin.baseAddr.addOffset (.ofNat 16 bin.mem.length), ?_, rfl, ?_⟩
  · simp only [endAddr, Outcome.require, if_pos (show bin.mem.length < 65536 by omega)]
    rfl
  · simp only [SegOff.addOffset, baseAddr, BitVec.toNat_add, BitVec.toNat_ofNat]
    omega

end RegionIter

theorem SegOff.ext_toNat {a b : SegOff} (seg : a.seg = b.seg) (off : a.off.toNat = b.off.toNat) :
    a = b := by
  obtain ⟨seg₁, off₁⟩ := a
  obtain ⟨seg₂, off₂⟩ := b
  simp only at seg off
  rw [seg, BitVec.eq_of_toNat_eq off]

end Dis86.Asm
