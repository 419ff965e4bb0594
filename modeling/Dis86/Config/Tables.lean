import Dis86.Asm.Region
import Dis86.IR.Def
import Dis86.Mz.Exe

namespace Dis86
open Asm (Reg Seg SegOff)

inductive CallMode where
  | near | far
deriving DecidableEq, Repr

/-- A part of a function body, without its end. -/
structure FuncRegion where
  start : SegOff
  stop : SegOff
deriving DecidableEq, Repr

def FuncRegion.contains (region : FuncRegion) (addr : SegOff) : Bool :=
  addr.seg = region.start.seg && region.start.off ≤ addr.off && addr.off < region.stop.off

/-- The annotation of a function. An unknown argument count or return type is absent, and a body
without regions runs from the start to the end. -/
structure Func where
  name : String
  start : SegOff
  stop : Option SegOff
  entry : Option SegOff
  mode : CallMode
  ret : Option Typ
  args : Option (BitVec 16)
  regargs : Option (List Reg)
  regouts : Option (List Reg)
  clobbers : Option (List Reg)
  dontPopArgs : Bool
  regions : List FuncRegion
deriving DecidableEq, Repr

namespace Func

def entryAddr (func : Func) : SegOff := func.entry.getD func.start

/-- Without an annotation a function may return a double word. -/
def returnTypeDefaulted (func : Func) : Typ := func.ret.getD .u32

end Func

structure Indirect where
  addr : SegOff
  ret : Typ
  args : BitVec 16
deriving DecidableEq, Repr

/-- A typed region is a jump table, an untyped one plain data. -/
structure TextSectionRegion where
  name : String
  start : SegOff
  stop : SegOff
  typ : Option Typ
  access : Option SegOff
deriving DecidableEq, Repr

def TextSectionRegion.contains (region : TextSectionRegion) (addr : SegOff) : Bool :=
  addr.seg = region.start.seg && region.start.off ≤ addr.off && addr.off < region.stop.off

structure CodeSeg where
  seg : Seg
  name : String
deriving DecidableEq, Repr

/-- The annotations of a program. -/
structure Config where
  codeSegs : List CodeSeg
  funcs : List Func
  indirects : List Indirect
  textSection : List TextSectionRegion
deriving DecidableEq, Repr

namespace Config

def codeSegLookup (cfg : Config) (seg : Seg) : Option CodeSeg :=
  cfg.codeSegs.find? fun codeSeg => seg = codeSeg.seg

def funcLookup (cfg : Config) (addr : SegOff) : Option Func :=
  cfg.funcs.find? fun func => addr = func.entryAddr

def indirectLookup (cfg : Config) (addr : SegOff) : Option Indirect :=
  cfg.indirects.find? fun indirect => addr = indirect.addr

/-- A region is found by its start, else by the access that uses it. -/
def textRegionLookup (cfg : Config) (start access : SegOff) : Option TextSectionRegion :=
  match cfg.textSection.find? fun region => start = region.start with
  | some region => some region
  | none => cfg.textSection.find? fun region => region.access = some access

def textRegionsMatchingSegment (cfg : Config) (seg : Seg) : List TextSectionRegion :=
  cfg.textSection.filter fun region => seg = region.start.seg

def dataRegionContaining (cfg : Config) (addr : SegOff) : Option TextSectionRegion :=
  cfg.textSection.find? fun region => region.contains addr

end Config

/-- The loaded image with its overlays, the segment table of the executable, and the executable
from which it was loaded. -/
structure Binary extends Asm.Binary where
  segmap : Option (List (BitVec 16))
  exe : Option Mz.Exe

namespace Binary

/-- A far call from an overlay names an entry of the segment table. -/
def remapToSegment {E : Type} (binary : Binary) (old : BitVec 16) : Lib.Outcome E Seg := do
  let segmap ← .unwrap binary.segmap
  .require (old.toNat % 8 = 0)
  let seg ← .unwrap segmap[old.toNat / 8]?
  return .normal seg

def containsAddr (binary : Binary) (addr : SegOff) : Bool :=
  match addr.seg with
  | .normal seg => Asm.Binary.absNormal seg addr.off < binary.main.length
  | .overlay seg => binary.overlays[seg.toNat]?.any fun data => addr.off.toNat < data.length

def containsRegion (binary : Binary) (start stop : SegOff) : Bool :=
  start.seg = stop.seg && start.le stop &&
    match start.seg with
    | .normal seg => Asm.Binary.absNormal seg stop.off ≤ binary.main.length
    | .overlay seg => binary.overlays[seg.toNat]?.any fun data => stop.off.toNat ≤ data.length

end Binary

end Dis86
