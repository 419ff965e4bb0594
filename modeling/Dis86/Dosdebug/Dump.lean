import Dis86.Lib.PartialReads

namespace Dis86.Dosdebug
open Lib (Reader Reading)
open Lib.Reader (expect find findSub skipWhile)

abbrev Byte := BitVec 8

def bytes (text : String) : List Byte := text.toList.map fun c => .ofNat 8 c.toNat

def newline : Byte := 0x0a

/-- The name of a field with the sign after it. -/
def label (name : String) : List Byte := bytes name ++ [0x3d]

def hexval (c : Byte) : Option Nat :=
  if 0x30 ≤ c ∧ c ≤ 0x39 then some (c.toNat - 0x30)
  else if 0x61 ≤ c ∧ c ≤ 0x66 then some (c.toNat - 0x61 + 10)
  else if 0x41 ≤ c ∧ c ≤ 0x46 then some (c.toNat - 0x41 + 10)
  else none

def isHex (c : Byte) : Bool := (hexval c).isSome

def hexNumber (digits : List Byte) : Nat := digits.foldl (fun v c => v <<< 4 ||| (hexval c).getD 0) 0

/-- Exactly so many hexadecimal digits. More may still arrive when there are fewer. -/
def parseHex (count : Nat) : Reader Byte Nat := fun s =>
  if (s.take count).length = count ∧ (s.take count).all isHex ∧ (s.drop count).head?.all (!isHex ·) then
    .ok (hexNumber (s.take count)) (s.drop count)
  else .incomplete

def parseHex4 : Reader Byte (BitVec 16) := do return .ofNat 16 (← parseHex 4)

def parseHex8 : Reader Byte (BitVec 32) := do return .ofNat 32 (← parseHex 8)

def isSpace (c : Byte) : Bool := c = 0x20 || c = 0x09

def skipSpaces : Reader Byte Unit := skipWhile isSpace

structure Regs where
  ax : BitVec 16
  bx : BitVec 16
  cx : BitVec 16
  dx : BitVec 16
  si : BitVec 16
  di : BitVec 16
  sp : BitVec 16
  bp : BitVec 16
  ds : BitVec 16
  es : BitVec 16
  ss : BitVec 16
  flags : BitVec 16
  cs : BitVec 16
  ip : BitVec 16
deriving DecidableEq, Repr

def gnames : List String := ["AX", "BX", "CX", "DX", "SI", "DI", "SP", "BP"]

def snames : List String := ["DS", "ES", "FS", "GS"]

/-- A register of sixteen bits, with the spaces after it. -/
def cell (name : String) : Reader Byte (BitVec 16) := do
  expect (label name)
  let value ← parseHex4
  skipSpaces
  return value

def cells : List String → Reader Byte (List (BitVec 16))
  | [] => pure []
  | name :: names => do
      let value ← cell name
      let values ← cells names
      return value :: values

/-- A segment and an offset. -/
def parsePair : Reader Byte (BitVec 16 × BitVec 16) := do
  let seg ← parseHex4
  expect (bytes ":")
  let off ← parseHex4
  return (seg, off)

/-- The stack pointer is on the line of the instruction pointer. Once that line is complete it cannot arrive. -/
def findStack : Reader Byte Unit := fun s =>
  match findSub (label "SS:SP") s with
  | some rest => .ok () (rest.drop 6)
  | none => if newline ∈ s then .garbage else .incomplete

/-- The line of the instruction pointer is consumed, with the line after it. -/
def consume (r : List Byte) : Reader Byte Unit := fun _ =>
  match findSub [newline] r with
  | none => .incomplete
  | some line =>
      match findSub [newline] (line.drop 1) with
      | some next => .ok () (next.drop 1)
      | none => .ok () (line.drop 1)

/-- The flags that the program sees. Its interrupt flag is the virtual one. -/
def visibleFlags (rawFl : BitVec 32) : BitVec 16 :=
  let flags := rawFl.setWidth 16 &&& ~~~0x200
  if rawFl &&& 0x80000 ≠ 0 then flags ||| 0x200 else flags

/-- The line of the segments and the flags, wherever it begins. -/
def parseSegments : Reader Byte (List (BitVec 16) × BitVec 32) := do
  find (label "DS")
  let seg ← cells snames
  expect (label "FL")
  let rawFl ← parseHex8
  return (seg, rawFl)

/-- The two lines of the registers and the flags. -/
def parseRows : Reader Byte (List (BitVec 16) × List (BitVec 16) × BitVec 32) := do
  find (label "AX")
  let gpr ← cells gnames
  let row ← parseSegments
  return (gpr, row)

/-- The line of the instruction pointer, from its place on. -/
def parsePosition (gpr seg : List (BitVec 16)) (rawFl : BitVec 32) : Reader Byte Regs := fun r =>
  (do expect (label "CS:IP")
      let position ← parsePair
      findStack
      let stack ← parsePair
      consume r
      return { ax := gpr.getD 0 0, bx := gpr.getD 1 0, cx := gpr.getD 2 0, dx := gpr.getD 3 0, si := gpr.getD 4 0
               di := gpr.getD 5 0, sp := gpr.getD 6 0, bp := gpr.getD 7 0, ds := seg.getD 0 0, es := seg.getD 1 0
               ss := stack.1, flags := visibleFlags rawFl, cs := position.1, ip := position.2 } : Reader Byte Regs) r

def parseRegsFromBuffer : Reader Byte Regs := do
  let rows ← parseRows
  find (label "CS:IP")
  parsePosition rows.1 rows.2.1 rows.2.2

def bufSize : Nat := 8192

/-- The buffer is read until it holds a dump. A chunk may be empty, and what does not fit is never read, as the buffer
is full then. When no chunk is left the time runs out. -/
def readDumpBlock (buf : List Byte) : List (List Byte) → Option Regs
  | [] =>
      match parseRegsFromBuffer buf with
      | .ok regs _ => some regs
      | _ => none
  | chunk :: chunks =>
      match parseRegsFromBuffer buf with
      | .ok regs _ => some regs
      | .garbage => none
      | .incomplete =>
          if buf.length = bufSize then none
          else readDumpBlock (buf ++ chunk.take (bufSize - buf.length)) chunks

end Dis86.Dosdebug
