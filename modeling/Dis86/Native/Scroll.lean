import Dis86.Native.Terminal
import Dis86.Lib.CounterLoop
import Dis86.Lib.Fuel
import Dis86.Lib.ParallelAssign
import Mathlib.Data.List.Nodup
import Mathlib.Data.List.ProdSigma

namespace Dis86.Native
open Lib
open Hydra (U8 U16 U32 Registers)

/-- The window, the line count and the attribute that the registers request. -/
structure Request where
  lines : U8
  attr : U8
  top : U8
  left : U8
  bottom : U8
  right : U8

def request (regs : Registers) : Request where
  lines := regs.ax.setWidth 8
  attr := (regs.bx >>> 8).setWidth 8
  top := (regs.cx >>> 8).setWidth 8
  left := regs.cx.setWidth 8
  bottom := (regs.dx >>> 8).setWidth 8
  right := regs.dx.setWidth 8

section Service

variable {S : Type} (be : Backend S)

/-- The service stops the process when the backend has no such cell. -/
def getCellOrFail (row col : U8) (s : S) : Option (Cell × S) := do
  let (cell, s) := be.getCell row col s
  return (← cell, s)

def putcellOrFail (row col : U8) (cell : Cell) (s : S) : Option S := some (be.putcharText row col cell s)

def blankWindow (top left bottom right attr : U8) (fuel : Nat) (s : S) : Option S :=
  loopUp (fun r => loopUp (fun c => putcellOrFail be r c ⟨0x20, attr⟩) right fuel left) bottom fuel top s

/-- A cell takes over the contents of another one. -/
def copyCell (fromRow row col : U8) (s : S) : Option S := do
  let (cell, s) ← getCellOrFail be fromRow col s
  putcellOrFail be row col cell s

/-- The window services of INT 10h. The fuel bounds the turns of each loop. -/
def vScroll (regs : Registers) (up : Bool) (fuel : Nat) (s : S) : Option S := do
  let geo ← be.textGeometry s
  guard (geo.rows ≠ 0 ∧ geo.cols ≠ 0)
  let ⟨lines, attr, top, left, bottom, right⟩ := request regs
  guard (top ≤ bottom ∧ left ≤ right ∧ bottom < geo.rows ∧ right < geo.cols)
  let height := bottom - top + 1
  if lines = 0 ∨ height ≤ lines then blankWindow be top left bottom right attr fuel s
  else if up then
    let s ← loopUp (fun r => loopUp (fun c => copyCell be (r + lines) r c) right fuel left)
      (bottom - lines) fuel top s
    blankWindow be (bottom - lines + 1) left bottom right attr fuel s
  else
    let s ← loopDown (fun r => loopUp (fun c => copyCell be (r - lines) r c) right fuel left)
      (top + lines) fuel bottom s
    blankWindow be top left (top + lines - 1) right attr fuel s

end Service

/-- An access of one cell. -/
inductive Access where
  | read (row col : U8)
  | write (row col : U8)
deriving DecidableEq, Repr

def Access.place : Access → U8 × U8
  | .read row col | .write row col => (row, col)

/-- A backend that also records the accesses, the earliest one first. -/
def recording {S : Type} (be : Backend S) : Backend (S × List Access) where
  textGeometry s := be.textGeometry s.1
  getCell row col s :=
    let (cell, after) := be.getCell row col s.1
    (cell, after, s.2 ++ [.read row col])
  putcharText row col cell s := (be.putcharText row col cell s.1, s.2 ++ [.write row col])

/-- Each row of a window takes over another row or becomes blank. -/
def fillCell {S : Type} (be : Backend S) (attr : U8) (rowSource : U8 → Option U8) (s : S) (place : U8 × U8) :
    Option S :=
  match rowSource place.1 with
  | some row => copyCell be row place.1 place.2 s
  | none => putcellOrFail be place.1 place.2 ⟨0x20, attr⟩ s

/-- The cells of the listed rows and columns are filled one after the other. -/
def fillRows {S : Type} (be : Backend S) (attr : U8) (rowSource : U8 → Option U8) (rows cols : List U8) (s : S) :
    Option S :=
  (rows ×ˢ cols).foldlM (fillCell be attr rowSource) s

section Loops

variable {S : Type} {be : Backend S} {attr : U8} {rowSource : U8 → Option U8}

theorem fillRows_eq (rows cols : List U8) (s : S) : fillRows be attr rowSource rows cols s =
    rows.foldlM (fun s r => cols.foldlM (fun s c => fillCell be attr rowSource s (r, c)) s) s := by
  induction rows generalizing s with
  | nil => rfl
  | cons r rest ih =>
      rw [fillRows, List.product_cons, List.foldlM_append, List.foldlM_map, List.foldlM_cons]
      congr 1
      funext s
      exact ih s

theorem fillRows_append (rows rows' cols : List U8) (s : S) :
    fillRows be attr rowSource (rows ++ rows') cols s =
      (fillRows be attr rowSource rows cols s).bind (fillRows be attr rowSource rows' cols) := by
  simp only [fillRows_eq, List.foldlM_append]
  rfl

/-- The values from one bound to the other. -/
def span (first last : U8) : List U8 := countUp 8 first.toNat (last.toNat + 1 - first.toNat)

theorem mem_span {first last counter : U8} : counter ∈ span first last ↔
    first.toNat ≤ counter.toNat ∧ counter.toNat ≤ last.toNat := by
  have small := last.isLt
  by_cases ordered : first.toNat ≤ last.toNat + 1
  · rw [span, mem_countUp (by omega)]
    omega
  · rw [span, Nat.sub_eq_zero_of_le (by omega)]
    simp only [countUp, List.range'_zero, List.map_nil, List.not_mem_nil, false_iff]
    omega

/-- A loop over a span below the greatest value folds its body along the span. -/
theorem loopUp_span {body : U8 → S → Option S} {first last : U8} {fuel : Nat}
    (ordered : first.toNat ≤ last.toNat + 1) (room : last.toNat < 255) (enough : 256 ≤ fuel) (s : S) :
    loopUp body last fuel first s = (span first last).foldlM (fun s i => body i s) s :=
  loopUp_eq body (by omega) (by omega) (by omega) s

theorem loopDown_span {body : U8 → S → Option S} {first last : U8} {fuel : Nat} (positive : 0 < first.toNat)
    (ordered : first.toNat ≤ last.toNat + 1) (room : last.toNat < 255) (enough : 256 ≤ fuel) (s : S) :
    loopDown body first fuel last s = (span first last).reverse.foldlM (fun s i => body i s) s :=
  loopDown_eq body positive (by omega) (by omega) s

/-- Rows without a source become blank. -/
theorem blankWindow_eq {top left bottom right : U8} {fuel : Nat} (rows : top.toNat ≤ bottom.toNat + 1)
    (cols : left.toNat ≤ right.toNat) (rowRoom : bottom.toNat < 255) (colRoom : right.toNat < 255)
    (enough : 256 ≤ fuel) (blank : ∀ r ∈ span top bottom, rowSource r = none) (s : S) :
    blankWindow be top left bottom right attr fuel s =
      fillRows be attr rowSource (span top bottom) (span left right) s := by
  rw [blankWindow, loopUp_span rows rowRoom enough, fillRows_eq]
  refine foldlM_congr (fun r inside s => ?_) s
  rw [loopUp_span (by omega) colRoom enough]
  refine foldlM_congr (fun c _ s => ?_) s
  simp only [fillCell, blank r inside]

/-- Rows with a source are copied. -/
theorem copyRows_eq (attr : U8) (rowSource : U8 → Option U8) {left right : U8} {fuel : Nat} {rows : List U8}
    {shifted : U8 → U8} (cols : left.toNat ≤ right.toNat) (colRoom : right.toNat < 255) (enough : 256 ≤ fuel)
    (copied : ∀ r ∈ rows, rowSource r = some (shifted r)) (s : S) :
    rows.foldlM (fun s r => loopUp (fun c => copyCell be (shifted r) r c) right fuel left s) s =
      fillRows be attr rowSource rows (span left right) s := by
  rw [fillRows_eq]
  refine foldlM_congr (fun r inside s => ?_) s
  rw [loopUp_span (by omega) colRoom enough]
  refine foldlM_congr (fun c _ s => ?_) s
  simp only [fillCell, copied r inside]

end Loops

/-- A valid window is not empty and lies inside the screen. -/
structure Request.Valid (req : Request) (geo : Geometry) : Prop where
  rows : req.top ≤ req.bottom
  cols : req.left ≤ req.right
  below : req.bottom < geo.rows
  aside : req.right < geo.cols

/-- The row of the window that a row takes over. -/
def Request.rowSource (req : Request) (up : Bool) (r : U8) : Option U8 :=
  if req.lines = 0 then none
  else if up then
    if r.toNat + req.lines.toNat ≤ req.bottom.toNat then some (r + req.lines) else none
  else if req.top.toNat + req.lines.toNat ≤ r.toNat then some (r - req.lines) else none

/-- The order in which the rows of the window are filled. -/
def Request.order (req : Request) (up : Bool) : List U8 :=
  if req.lines = 0 ∨ up ∨ req.bottom - req.top + 1 ≤ req.lines then span req.top req.bottom
  else (span (req.top + req.lines) req.bottom).reverse ++ span req.top (req.top + req.lines - 1)

theorem span_append {first middle last : U8} (below : first.toNat ≤ middle.toNat + 1)
    (above : middle.toNat ≤ last.toNat) (room : last.toNat < 255) :
    span first middle ++ span (middle + 1) last = span first last := by
  have next : (middle + 1).toNat = middle.toNat + 1 := by
    rw [BitVec.toNat_add]
    simp
    omega
  simp only [span, countUp, ← List.map_append, next]
  rw [show middle.toNat + 1 = first.toNat + (middle.toNat + 1 - first.toNat) by omega,
    show first.toNat + (middle.toNat + 1 - first.toNat) - first.toNat = middle.toNat + 1 - first.toNat by omega,
    List.range'_append_1]
  congr 2
  omega

section Window

variable {S : Type} {be : Backend S} {req : Request} {fuel : Nat}

/-- A line count of zero or of at least the height clears the window. -/
theorem rowSource_cleared (up : Bool) (clears : req.lines = 0 ∨ req.bottom - req.top + 1 ≤ req.lines)
    (room : req.bottom.toNat < 255) {r : U8} (inside : r ∈ span req.top req.bottom) :
    req.rowSource up r = none := by
  obtain ⟨above, below⟩ := mem_span.mp inside
  rcases clears with zero | many
  · simp [Request.rowSource, zero]
  · simp only [BitVec.le_def, BitVec.toNat_add, BitVec.toNat_sub] at many
    have all : req.bottom.toNat + 1 ≤ req.top.toNat + req.lines.toNat := by
      simp at many
      omega
    unfold Request.rowSource
    split
    · rfl
    · split
      · rw [if_neg (by omega)]
      · rw [if_neg (by omega)]

/-- Fewer lines than the height leave rows to copy. -/
theorem lines_lt (few : ¬(req.lines = 0 ∨ req.bottom - req.top + 1 ≤ req.lines)) (rows : req.top ≤ req.bottom) :
    0 < req.lines.toNat ∧ req.top.toNat + req.lines.toNat ≤ req.bottom.toNat := by
  obtain ⟨some, few⟩ := not_or.mp few
  have positive : 0 < req.lines.toNat := by
    rcases Nat.eq_zero_or_pos req.lines.toNat with zero | positive
    · exact absurd (BitVec.eq_of_toNat_eq zero) some
    · exact positive
  simp only [BitVec.le_def, BitVec.toNat_add, BitVec.toNat_sub] at few rows
  simp at few
  omega

theorem scrollUp_eq (few : ¬(req.lines = 0 ∨ req.bottom - req.top + 1 ≤ req.lines)) (rows : req.top ≤ req.bottom)
    (cols : req.left ≤ req.right) (rowRoom : req.bottom.toNat < 255) (colRoom : req.right.toNat < 255)
    (enough : 256 ≤ fuel) (s : S) :
    (loopUp (fun r => loopUp (fun c => copyCell be (r + req.lines) r c) req.right fuel req.left)
        (req.bottom - req.lines) fuel req.top s).bind
      (blankWindow be (req.bottom - req.lines + 1) req.left req.bottom req.right req.attr fuel) =
    fillRows be req.attr (req.rowSource true) (span req.top req.bottom) (span req.left req.right) s := by
  obtain ⟨positive, short⟩ := lines_lt few rows
  have some : req.lines ≠ 0 := (not_or.mp few).1
  have last : (req.bottom - req.lines).toNat = req.bottom.toNat - req.lines.toNat := by
    rw [BitVec.toNat_sub]
    omega
  have next : (req.bottom - req.lines + 1).toNat = req.bottom.toNat - req.lines.toNat + 1 := by
    rw [BitVec.toNat_add, last]
    simp
    omega
  have columns := BitVec.le_def.mp cols
  have halves : span req.top (req.bottom - req.lines) ++ span (req.bottom - req.lines + 1) req.bottom =
      span req.top req.bottom := span_append (by omega) (by omega) rowRoom
  rw [← halves, fillRows_append, loopUp_span (by omega) (by omega) enough,
    copyRows_eq req.attr (req.rowSource true) columns colRoom enough]
  · congr 1
    funext s
    refine blankWindow_eq (by omega) columns rowRoom colRoom enough (fun r inside => ?_) s
    obtain ⟨above, below⟩ := mem_span.mp inside
    rw [Request.rowSource, if_neg some, if_pos rfl, if_neg (by omega)]
  · intro r inside
    obtain ⟨above, below⟩ := mem_span.mp inside
    rw [Request.rowSource, if_neg some, if_pos rfl, if_pos (by omega)]

theorem scrollDown_eq (few : ¬(req.lines = 0 ∨ req.bottom - req.top + 1 ≤ req.lines)) (rows : req.top ≤ req.bottom)
    (cols : req.left ≤ req.right) (rowRoom : req.bottom.toNat < 255) (colRoom : req.right.toNat < 255)
    (enough : 256 ≤ fuel) (s : S) :
    (loopDown (fun r => loopUp (fun c => copyCell be (r - req.lines) r c) req.right fuel req.left)
        (req.top + req.lines) fuel req.bottom s).bind
      (blankWindow be req.top req.left (req.top + req.lines - 1) req.right req.attr fuel) =
    fillRows be req.attr (req.rowSource false)
      ((span (req.top + req.lines) req.bottom).reverse ++ span req.top (req.top + req.lines - 1))
      (span req.left req.right) s := by
  obtain ⟨positive, short⟩ := lines_lt few rows
  have some : req.lines ≠ 0 := (not_or.mp few).1
  have first : (req.top + req.lines).toNat = req.top.toNat + req.lines.toNat := by
    rw [BitVec.toNat_add]
    omega
  have last : (req.top + req.lines - 1).toNat = req.top.toNat + req.lines.toNat - 1 := by
    rw [BitVec.toNat_sub, first]
    simp
    omega
  have columns := BitVec.le_def.mp cols
  rw [fillRows_append, loopDown_span (by omega) (by omega) rowRoom enough,
    copyRows_eq req.attr (req.rowSource false) columns colRoom enough]
  · congr 1
    funext s
    refine blankWindow_eq (by omega) columns (by omega) colRoom enough (fun r inside => ?_) s
    obtain ⟨above, below⟩ := mem_span.mp inside
    rw [Request.rowSource, if_neg some, if_neg (by simp), if_neg (by omega)]
  · intro r inside
    obtain ⟨above, below⟩ := mem_span.mp (List.mem_reverse.mp inside)
    rw [Request.rowSource, if_neg some, if_neg (by simp), if_pos (by omega)]

end Window

/-- The service fills the rows of the window. -/
theorem vScroll_eq {S : Type} (be : Backend S) {regs : Registers} {up : Bool} {geo : Geometry} {s : S}
    (geometry : be.textGeometry s = some geo) (valid : (request regs).Valid geo) {fuel : Nat} (enough : 256 ≤ fuel) :
    vScroll be regs up fuel s = fillRows be (request regs).attr ((request regs).rowSource up)
      ((request regs).order up) (span (request regs).left (request regs).right) s := by
  obtain ⟨rows, cols, below, aside⟩ := valid
  have present : geo.rows ≠ 0 ∧ geo.cols ≠ 0 := by
    constructor
    · rintro zero
      simp [zero] at below
    · rintro zero
      simp [zero] at aside
  simp only [vScroll, geometry, Option.bind_eq_bind, Option.bind_some, if_pos present, guard, pure]
  generalize request regs = req at *
  rw [if_pos ⟨rows, cols, below, aside⟩, Option.bind_some]
  have rowRoom : req.bottom.toNat < 255 := by
    have small := geo.rows.isLt
    have under := BitVec.lt_def.mp below
    omega
  have colRoom : req.right.toNat < 255 := by
    have small := geo.cols.isLt
    have under := BitVec.lt_def.mp aside
    omega
  by_cases clears : req.lines = 0 ∨ req.bottom - req.top + 1 ≤ req.lines
  · have order : req.order up = span req.top req.bottom := by
      rw [Request.order, if_pos (by tauto)]
    have rows' := BitVec.le_def.mp rows
    rw [if_pos clears, order]
    exact blankWindow_eq (by omega) (BitVec.le_def.mp cols) rowRoom colRoom enough
      (fun r inside => rowSource_cleared up clears rowRoom inside) s
  · rw [if_neg clears]
    cases up with
    | true =>
        rw [if_pos rfl, scrollUp_eq clears rows cols rowRoom colRoom enough, Request.order, if_pos (by tauto)]
    | false =>
        rw [if_neg (by simp), scrollDown_eq clears rows cols rowRoom colRoom enough, Request.order,
          if_neg (by simpa using clears)]

/-- The move that fills one cell. -/
def fillMove (attr : U8) (rowSource : U8 → Option U8) (place : U8 × U8) : Move (U8 × U8) Cell where
  target := place
  source env := match rowSource place.1 with
    | some row => env (row, place.2)
    | none => ⟨0x20, attr⟩
  reads x := ∃ row, rowSource place.1 = some row ∧ x = (row, place.2)
  confined := by
    intro env env' same
    cases found : rowSource place.1 with
    | none => rfl
    | some row => exact same _ ⟨row, found, rfl⟩

/-- The accesses that fill one cell. -/
def fillAccesses (rowSource : U8 → Option U8) (place : U8 × U8) : List Access :=
  match rowSource place.1 with
  | some row => [.read row place.2, .write place.1 place.2]
  | none => [.write place.1 place.2]

/-- The screen shows the cells of an environment. -/
def Terminal.Shows (t : Terminal) (env : U8 × U8 → Cell) : Prop :=
  ∀ row col, row < t.rows → col < t.cols → t.cell row.toNat col.toNat = env (row, col)

/-- The cursor and the size of the screen, which no cell access touches. -/
structure Terminal.SameFrame (t t' : Terminal) : Prop where
  rows : t'.rows = t.rows
  cols : t'.cols = t.cols
  mode : t'.mode = t.mode
  curRow : t'.curRow = t.curRow
  curCol : t'.curCol = t.curCol

theorem Terminal.sameFrame_putcharText (t : Terminal) (row col : U8) (cell : Cell) :
    t.SameFrame (t.putcharText row col cell) := by
  unfold Terminal.putcharText
  split <;> exact ⟨rfl, rfl, rfl, rfl, rfl⟩

section Screen

variable {t : Terminal} {env : U8 × U8 → Cell} {rowSource : U8 → Option U8}

theorem Terminal.Shows.putcharText (shows : t.Shows env) {row col : U8} (cell : Cell) (rowInside : row < t.rows)
    (colInside : col < t.cols) :
    (t.putcharText row col cell).Shows (Function.update env (row, col) cell) := by
  intro row' col' inside inside'
  have frame := t.sameFrame_putcharText row col cell
  rw [frame.rows] at inside
  rw [frame.cols] at inside'
  rw [t.cell_putcharText cell rowInside colInside (BitVec.lt_def.mp inside')]
  by_cases same : row' = row ∧ col' = col
  · obtain ⟨rfl, rfl⟩ := same
    simp
  · have away : ¬(row'.toNat = row.toNat ∧ col'.toNat = col.toNat) := fun h =>
      same ⟨BitVec.eq_of_toNat_eq h.1, BitVec.eq_of_toNat_eq h.2⟩
    have apart : (row', col') ≠ (row, col) := fun h => same (Prod.mk.injEq .. ▸ h)
    rw [if_neg away, Function.update_of_ne apart, shows row' col' inside inside']

/-- One cell of the screen is filled, and the accesses are recorded. -/
theorem fillCell_recording (attr : U8) (log : List Access) (shows : t.Shows env) {place : U8 × U8}
    (rowInside : place.1 < t.rows) (colInside : place.2 < t.cols)
    (sourceInside : ∀ row, rowSource place.1 = some row → row < t.rows) :
    ∃ t', fillCell (recording terminal) attr rowSource (t, log) place =
        some (t', log ++ fillAccesses rowSource place) ∧
      t'.Shows (Function.update env place ((fillMove attr rowSource place).source env)) ∧ t.SameFrame t' := by
  obtain ⟨row, col⟩ := place
  cases found : rowSource row with
  | none =>
      refine ⟨t.putcharText row col ⟨0x20, attr⟩, ?_, ?_, t.sameFrame_putcharText _ _ _⟩
      · simp [fillCell, fillAccesses, found, putcellOrFail, recording, terminal]
      · simpa [fillMove, found] using shows.putcharText ⟨0x20, attr⟩ rowInside colInside
  | some source =>
      have inside := sourceInside source found
      have present : t.getCell source col = some (env (source, col)) := by
        have fits : ¬(t.rows ≤ source ∨ t.cols ≤ col) := by
          simp only [BitVec.le_def, BitVec.lt_def] at *
          omega
        rw [Terminal.getCell, if_neg fits, shows source col inside colInside]
      refine ⟨t.putcharText row col (env (source, col)), ?_, ?_, t.sameFrame_putcharText _ _ _⟩
      · simp [fillCell, fillAccesses, found, copyCell, getCellOrFail, putcellOrFail, recording, terminal, present]
      · simpa [fillMove, found] using shows.putcharText (env (source, col)) rowInside colInside

theorem Terminal.SameFrame.trans {t' t'' : Terminal} (first : t.SameFrame t') (second : t'.SameFrame t'') :
    t.SameFrame t'' :=
  ⟨second.rows.trans first.rows, second.cols.trans first.cols, second.mode.trans first.mode,
    second.curRow.trans first.curRow, second.curCol.trans first.curCol⟩

/-- A list of cells is filled like the sequence of its moves. -/
theorem fillCells_recording (attr : U8) (log : List Access) (shows : t.Shows env) {places : List (U8 × U8)}
    (inside : ∀ place ∈ places, place.1 < t.rows ∧ place.2 < t.cols ∧
      ∀ row, rowSource place.1 = some row → row < t.rows) :
    ∃ t', places.foldlM (fillCell (recording terminal) attr rowSource) (t, log) =
        some (t', log ++ places.flatMap (fillAccesses rowSource)) ∧
      t'.Shows (sequence env (places.map (fillMove attr rowSource))) ∧ t.SameFrame t' := by
  induction places generalizing t env log with
  | nil => exact ⟨t, by simp, shows, ⟨rfl, rfl, rfl, rfl, rfl⟩⟩
  | cons place rest ih =>
      obtain ⟨rowInside, colInside, sourceInside⟩ := inside place List.mem_cons_self
      obtain ⟨middle, filled, shows', frame⟩ :=
        fillCell_recording attr log shows rowInside colInside sourceInside
      have remaining : ∀ other ∈ rest, other.1 < middle.rows ∧ other.2 < middle.cols ∧
          ∀ row, rowSource other.1 = some row → row < middle.rows := fun other listed => by
        rw [frame.rows, frame.cols]
        exact inside other (List.mem_cons_of_mem _ listed)
      obtain ⟨t', others, shows'', frame'⟩ := ih (log ++ fillAccesses rowSource place) shows' remaining
      refine ⟨t', ?_, shows'', frame.trans frame'⟩
      rw [List.foldlM_cons, filled, List.flatMap_cons, ← List.append_assoc]
      exact others

end Screen

end Dis86.Native
