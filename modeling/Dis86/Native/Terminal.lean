import Dis86.Hydra.Machine

namespace Dis86.Native
open Hydra (U8 U16 U32 Registers)

/-- The text window that a backend renders. -/
structure Geometry where
  base : U32
  mode : U8
  rows : U8
  cols : U8
deriving DecidableEq, Repr

/-- A cell is a character with its attribute. -/
structure Cell where
  ch : U8
  attr : U8
deriving DecidableEq, Repr

/-- The entries of a backend's table that the text services use. -/
structure Backend (S : Type) where
  textGeometry : S → Option Geometry
  getCell : U8 → U8 → S → Option Cell × S
  putcharText : U8 → U8 → Cell → S → S

/-- The terminal keeps a shadow of the text screen, row after row. -/
structure Terminal where
  ch : Nat → U8
  attr : Nat → U8
  rows : U8
  cols : U8
  mode : U8
  curRow : U8
  curCol : U8
  dirty : Bool
  cursorDirty : Bool

namespace Terminal

/-- The place of a cell in the two buffers. -/
def index (t : Terminal) (row col : Nat) : Nat := row * t.cols.toNat + col

def cell (t : Terminal) (row col : Nat) : Cell := ⟨t.ch (t.index row col), t.attr (t.index row col)⟩

def clear (t : Terminal) : Terminal :=
  { t with
    ch := fun _ => 0x20
    attr := fun _ => 0x07
    curRow := 0
    curCol := 0
    dirty := true
    cursorDirty := true }

/-- Each row takes over the row below it, and the last row becomes blank. -/
def scrollBuffer (t : Terminal) (blank : U8) (buffer : Nat → U8) : Nat → U8 := fun i =>
  let last := (t.rows.toNat - 1) * t.cols.toNat
  if i < last then buffer (i + t.cols.toNat)
  else if i < last + t.cols.toNat then blank
  else buffer i

def scroll (t : Terminal) : Terminal :=
  { t with
    ch := t.scrollBuffer 0x20 t.ch
    attr := t.scrollBuffer 0x07 t.attr
    dirty := true }

def newline (t : Terminal) : Terminal :=
  let t := { t with curCol := 0, cursorDirty := true }
  if t.curRow.toNat + 1 < t.rows.toNat then { t with curRow := t.curRow + 1 } else t.scroll

/-- The terminal starts in mode 3 with 25 rows of 80 columns. -/
def init : Terminal :=
  clear {
    ch := fun _ => 0
    attr := fun _ => 0
    rows := 25
    cols := 80
    mode := 0x03
    curRow := 0
    curCol := 0
    dirty := false
    cursorDirty := false }

/-- Only text modes are supported, and two of them have forty columns. -/
def setVideoMode (t : Terminal) (mode : U8) : Option Terminal :=
  if mode ≤ 0x03 ∨ mode = 0x07 then
    some { t with mode, cols := if mode ≤ 0x01 then 40 else 80 }.clear
  else none

/-- A control character moves the cursor, and another one fills the cell under it. -/
def teletype (t : Terminal) (ch attr : U8) : Terminal :=
  if ch = 0x0d then
    if t.curCol ≠ 0 then { t with curCol := 0, cursorDirty := true } else t
  else if ch = 0x0a then t.newline
  else if ch = 0x08 then
    if 0 < t.curCol.toNat then { t with curCol := t.curCol - 1, cursorDirty := true } else t
  else
    let idx := t.index t.curRow.toNat t.curCol.toNat
    let t := { t with
      ch := Function.update t.ch idx ch
      attr := Function.update t.attr idx (if attr ≠ 0 then attr else 0x07)
      dirty := true
      curCol := t.curCol + 1 }
    if t.cols ≤ t.curCol then t.newline else t

/-- A cell outside the screen is not written. -/
def putcharText (row col : U8) (cell : Cell) (t : Terminal) : Terminal :=
  if t.rows ≤ row ∨ t.cols ≤ col then t
  else
    let idx := t.index row.toNat col.toNat
    { t with
      ch := Function.update t.ch idx cell.ch
      attr := Function.update t.attr idx cell.attr
      dirty := true }

def textGeometry (t : Terminal) : Option Geometry :=
  if t.mode ≤ 0x03 then some ⟨0xB8000, t.mode, t.rows, t.cols⟩
  else if t.mode = 0x07 then some ⟨0xB0000, t.mode, t.rows, t.cols⟩
  else none

def getCell (row col : U8) (t : Terminal) : Option Cell :=
  if t.rows ≤ row ∨ t.cols ≤ col then none else some (t.cell row.toNat col.toNat)

theorem index_injective (t : Terminal) {row col row' col' : Nat} (inside : col < t.cols.toNat)
    (inside' : col' < t.cols.toNat) (same : t.index row col = t.index row' col') :
    row = row' ∧ col = col' := by
  simp only [index] at same
  have rows := congrArg (· / t.cols.toNat) same
  have cols := congrArg (· % t.cols.toNat) same
  have positive : 0 < t.cols.toNat := by omega
  simp only [Nat.mul_comm _ t.cols.toNat, Nat.mul_add_div positive, Nat.div_eq_of_lt inside,
    Nat.div_eq_of_lt inside', Nat.add_zero] at rows
  simp only [Nat.mul_comm _ t.cols.toNat, Nat.mul_add_mod, Nat.mod_eq_of_lt inside,
    Nat.mod_eq_of_lt inside'] at cols
  exact ⟨rows, cols⟩

/-- A written cell is the only cell of the screen that changes. -/
theorem cell_putcharText (t : Terminal) {row col : U8} (cell : Cell) (rowInside : row < t.rows)
    (colInside : col < t.cols) {row' col' : Nat} (inside : col' < t.cols.toNat) :
    (t.putcharText row col cell).cell row' col' =
      if row' = row.toNat ∧ col' = col.toNat then cell else t.cell row' col' := by
  have fits : ¬(t.rows ≤ row ∨ t.cols ≤ col) := by
    simp only [BitVec.le_def, BitVec.lt_def] at *
    omega
  simp only [putcharText, if_neg fits]
  split
  · rename_i here
    obtain ⟨rfl, rfl⟩ := here
    simp [Terminal.cell, index]
  · rename_i elsewhere
    have away : t.index row' col' ≠ t.index row.toNat col.toNat := fun same =>
      elsewhere (t.index_injective inside (BitVec.lt_def.mp colInside) same)
    have kept : t.index row' col' = row' * t.cols.toNat + col' := rfl
    simp only [Terminal.cell]
    change (⟨Function.update t.ch _ _ (t.index row' col'), Function.update t.attr _ _ (t.index row' col')⟩ : Cell) = _
    rw [Function.update_of_ne away, Function.update_of_ne away]

end Terminal

/-- The text entries of the terminal backend. -/
def terminal : Backend Terminal where
  textGeometry := Terminal.textGeometry
  getCell row col t := (t.getCell row col, t)
  putcharText := Terminal.putcharText

end Dis86.Native
