import Dis86.Native.Terminal

namespace Dis86.Native
open Hydra (U8 U16 U32)

def memSize : Nat := 1024 * 1024

def textWindowScanStart : Nat := 0xA0000

def textWindowScanEnd : Nat := 0xC0000

section Stores

variable {S : Type} (be : Backend S)

/-- The window that the backend renders, with its length in bytes. -/
def textWindowBackend (st : S) : Option (Geometry × U32) := do
  let geo ← be.textGeometry st
  guard (geo.rows ≠ 0 ∧ geo.cols ≠ 0)
  return (geo, geo.rows.setWidth 32 * geo.cols.setWidth 32 * 2)

/-- One byte of a cell changes, and the other one is written back as it was. -/
def textWindowByte (geo : Geometry) (off : U32) (val : U8) (st : S) : S :=
  let cell := off / 2
  let row : U8 := (cell / geo.cols.setWidth 32).setWidth 8
  let col : U8 := (cell % geo.cols.setWidth 32).setWidth 8
  match be.getCell row col st with
  | (none, st) => st
  | (some old, st) =>
      be.putcharText row col (if off &&& 1 ≠ 0 then { old with attr := val } else { old with ch := val }) st

/-- The byte of a store at a distance from its address reaches the backend when it falls into the window. -/
def textWindowStoreByte (geo : Geometry) (windowBytes addr : U32) (val : U16) (st : S) (i : Nat) : S :=
  let pos := addr + .ofNat 32 i
  if pos < geo.base ∨ windowBytes ≤ pos - geo.base then st
  else textWindowByte be geo (pos - geo.base) ((val >>> (8 * i)).setWidth 8) st

/-- A word that covers one cell is written at once, and other stores are mirrored byte by byte. -/
def textWindowStore (addr : U32) (width : Nat) (val : U16) (st : S) : S :=
  if addr.toNat + width ≤ textWindowScanStart ∨ textWindowScanEnd ≤ addr.toNat then st
  else
    match textWindowBackend be st with
    | none => st
    | some (geo, windowBytes) =>
        let off := addr - geo.base
        if width = 2 ∧ geo.base ≤ addr ∧ off &&& 1 = 0 ∧ off + 2 ≤ windowBytes then
          let cell := off / 2
          be.putcharText ((cell / geo.cols.setWidth 32).setWidth 8) ((cell % geo.cols.setWidth 32).setWidth 8)
            ⟨val.setWidth 8, (val >>> 8).setWidth 8⟩ st
        else (List.range width).foldl (textWindowStoreByte be geo windowBytes addr val) st

/-- The whole window is written from the memory. -/
def textWindowReproject (mem : Nat → U8) (st : S) : S :=
  match textWindowBackend be st with
  | none => st
  | some (geo, windowBytes) =>
      if memSize < geo.base.toNat + windowBytes.toNat then st
      else
        (List.range geo.rows.toNat).foldl (fun st row =>
          (List.range geo.cols.toNat).foldl (fun st col =>
            let off := (row * geo.cols.toNat + col) * 2
            be.putcharText (.ofNat 8 row) (.ofNat 8 col)
              ⟨mem (geo.base.toNat + off), mem (geo.base.toNat + off + 1)⟩ st) st) st

end Stores

/-- A cursor outside the screen is refused. -/
def Terminal.setCursor (row col : U8) (t : Terminal) : Option Terminal :=
  if t.rows ≤ row ∨ t.cols ≤ col then none
  else if t.curRow ≠ row ∨ t.curCol ≠ col then some { t with curRow := row, curCol := col, cursorDirty := true }
  else some t

/-- The guest memory stands beside the terminal that renders it. -/
structure Host where
  mem : Nat → U8
  term : Terminal

def memBoundsCheck (addr : U32) (width : Nat) : Option Unit := guard (addr.toNat + width ≤ memSize)

def nativeMemWrite8 (addr : U32) (val : U8) (host : Host) : Option Host := do
  memBoundsCheck addr 1
  return { mem := Function.update host.mem addr.toNat val
           term := textWindowStore terminal addr 1 (val.setWidth 16) host.term }

def nativeMemWrite16 (addr : U32) (val : U16) (host : Host) : Option Host := do
  memBoundsCheck addr 2
  return { mem := Function.update (Function.update host.mem addr.toNat (val.setWidth 8)) (addr.toNat + 1)
             ((val >>> 8).setWidth 8)
           term := textWindowStore terminal addr 2 val host.term }

/-- A restored image replaces the memory, and the window is projected again. -/
def nativeStateRestore (image : Nat → U8) (host : Host) : Host :=
  { mem := image, term := textWindowReproject terminal image host.term }

/-- What can change the screen. -/
inductive ScreenEvent where
  | store8 (addr : U32) (val : U8)
  | store16 (addr : U32) (val : U16)
  | restore (image : Nat → U8)
  | setMode (mode : U8)
  | setCursor (row col : U8)
  | teletype (ch attr : U8)
  | putchar (row col : U8) (cell : Cell)

/-- An event that the host refuses stops the process. -/
def Host.step (host : Host) : ScreenEvent → Option Host
  | .store8 addr val => nativeMemWrite8 addr val host
  | .store16 addr val => nativeMemWrite16 addr val host
  | .restore image => some (nativeStateRestore image host)
  | .setMode mode => (host.term.setVideoMode mode).map fun term => { host with term }
  | .setCursor row col => (host.term.setCursor row col).map fun term => { host with term }
  | .teletype ch attr => some { host with term := host.term.teletype ch attr }
  | .putchar row col cell => some { host with term := host.term.putcharText row col cell }

/-- A host starts with some memory and a cleared screen. -/
def Host.start (mem : Nat → U8) : Host := ⟨mem, .init⟩

def Host.run (host : Host) (events : List ScreenEvent) : Option Host := events.foldlM Host.step host

namespace Terminal

/-- The modes, the sizes and the cursors that a terminal reaches. -/
structure Supported (t : Terminal) : Prop where
  mode : t.mode ≤ 0x03 ∨ t.mode = 0x07
  rows : t.rows = 25
  cols : t.cols = 40 ∨ t.cols = 80
  curRow : t.curRow < t.rows
  curCol : t.curCol < t.cols

/-- The address of the window. -/
def base (t : Terminal) : Nat := if t.mode ≤ 0x03 then 0xB8000 else 0xB0000

def cells (t : Terminal) : Nat := t.rows.toNat * t.cols.toNat

/-- The byte of the screen at some distance from the start of the window. -/
def shownByte (t : Terminal) (off : Nat) : U8 := if off % 2 = 0 then t.ch (off / 2) else t.attr (off / 2)

/-- The byte at a distance from the start of the window changes. -/
def putByte (t : Terminal) (off : Nat) (val : U8) : Terminal :=
  { t with
    ch := if off % 2 = 0 then Function.update t.ch (off / 2) val else t.ch
    attr := if off % 2 = 0 then t.attr else Function.update t.attr (off / 2) val
    dirty := true }

/-- A byte stored at an address reaches the screen only in the window. -/
def storeByte (t : Terminal) (pos : Nat) (val : U8) : Terminal :=
  if t.base ≤ pos ∧ pos < t.base + 2 * t.cells then t.putByte (pos - t.base) val else t

theorem shownByte_putByte (t : Terminal) (off : Nat) (val : U8) (other : Nat) :
    (t.putByte off val).shownByte other = if other = off then val else t.shownByte other := by
  unfold shownByte putByte
  by_cases same : other = off
  · subst same
    split <;> simp [*]
  · rw [if_neg same]
    by_cases even : off % 2 = 0
    · by_cases even' : other % 2 = 0
      · have apart : other / 2 ≠ off / 2 := by omega
        simp [even, even', Function.update_of_ne apart]
      · simp [even, even']
    · by_cases even' : other % 2 = 0
      · simp [even, even']
      · have apart : other / 2 ≠ off / 2 := by omega
        simp [even, even', Function.update_of_ne apart]

/-- A cell is two bytes. -/
theorem putByte_putByte (t : Terminal) (cell : Nat) (lo hi : U8) :
    (t.putByte (2 * cell) lo).putByte (2 * cell + 1) hi =
      { t with ch := Function.update t.ch cell lo, attr := Function.update t.attr cell hi, dirty := true } := by
  have half : (2 * cell + 1) / 2 = cell := by omega
  simp [putByte, half]

theorem Supported.geometry {t : Terminal} (supported : t.Supported) :
    t.textGeometry = some ⟨.ofNat 32 t.base, t.mode, t.rows, t.cols⟩ := by
  unfold textGeometry base
  rcases supported.mode with low | seven
  · rw [if_pos low, if_pos low]
    rfl
  · have high : ¬(t.mode ≤ 0x03) := by rw [seven]; decide
    rw [if_neg high, if_neg high, if_pos seven]
    rfl

theorem Supported.size {t : Terminal} (supported : t.Supported) :
    t.rows.toNat = 25 ∧ (t.cols.toNat = 40 ∨ t.cols.toNat = 80) := by
  rw [supported.rows]
  refine ⟨rfl, ?_⟩
  rcases supported.cols with narrow | wide
  · exact .inl (by rw [narrow]; rfl)
  · exact .inr (by rw [wide]; rfl)

theorem base_cases (t : Terminal) : t.base = 0xB8000 ∨ t.base = 0xB0000 := by
  unfold base
  split
  · exact .inl rfl
  · exact .inr rfl

/-- The row and the column of a cell number lead back to the cell. -/
theorem Supported.cell_place {t : Terminal} (supported : t.Supported) {cell : U32} (inside : cell.toNat < t.cells) :
    let row : U8 := (cell / t.cols.setWidth 32).setWidth 8
    let col : U8 := (cell % t.cols.setWidth 32).setWidth 8
    ¬(t.rows ≤ row ∨ t.cols ≤ col) ∧ t.index row.toNat col.toNat = cell.toNat := by
  intro row col
  obtain ⟨rows, cols⟩ := supported.size
  have positive : 0 < t.cols.toNat := by omega
  have width : (t.cols.setWidth 32).toNat = t.cols.toNat := by
    rw [BitVec.toNat_setWidth]
    exact Nat.mod_eq_of_lt (by omega)
  have above : cell.toNat / t.cols.toNat < 25 := by
    rw [cells, rows] at inside
    exact (Nat.div_lt_iff_lt_mul positive).mpr inside
  have aside := Nat.mod_lt cell.toNat positive
  have rowNat : row.toNat = cell.toNat / t.cols.toNat := by
    simp only [row, BitVec.toNat_setWidth, BitVec.toNat_udiv, width]
    exact Nat.mod_eq_of_lt (by omega)
  have colNat : col.toNat = cell.toNat % t.cols.toNat := by
    simp only [col, BitVec.toNat_setWidth, BitVec.toNat_umod, width]
    exact Nat.mod_eq_of_lt (by omega)
  constructor
  · rw [BitVec.le_def, BitVec.le_def, rowNat, colNat, rows]
    omega
  · rw [index, rowNat, colNat]
    exact Nat.div_add_mod' cell.toNat t.cols.toNat

theorem Supported.putcharText_cell {t : Terminal} (supported : t.Supported) {cell : U32}
    (inside : cell.toNat < t.cells) (lo hi : U8) :
    t.putcharText ((cell / t.cols.setWidth 32).setWidth 8) ((cell % t.cols.setWidth 32).setWidth 8) ⟨lo, hi⟩ =
      (t.putByte (2 * cell.toNat) lo).putByte (2 * cell.toNat + 1) hi := by
  obtain ⟨fits, place⟩ := supported.cell_place inside
  rw [putcharText, if_neg fits, putByte_putByte, place]

end Terminal

section Windows

variable {t : Terminal}

theorem and_one_eq_zero (off : U32) : off &&& 1 = 0 ↔ off.toNat % 2 = 0 := by
  have value : (off &&& 1).toNat = off.toNat % 2 := by
    rw [BitVec.toNat_and]
    exact Nat.and_one_is_mod off.toNat
  constructor
  · intro zero
    rw [← value, zero]
    rfl
  · intro even
    exact BitVec.eq_of_toNat_eq (value.trans even)

theorem textWindowByte_terminal (supported : t.Supported) {geo : Geometry} (cols : geo.cols = t.cols) {off : U32}
    (inside : off.toNat < 2 * t.cells) (val : U8) :
    textWindowByte terminal geo off val t = t.putByte off.toNat val := by
  have half : (off / 2).toNat = off.toNat / 2 := by
    rw [BitVec.toNat_udiv]
    rfl
  have cell : (off / 2).toNat < t.cells := by omega
  obtain ⟨fits, place⟩ := supported.cell_place cell
  simp only [textWindowByte, cols, terminal, Terminal.getCell, if_neg fits]
  by_cases even : off.toNat % 2 = 0
  · have low : ¬(off &&& 1 ≠ 0) := not_not.mpr ((and_one_eq_zero off).mpr even)
    have same : off.toNat = 2 * (off.toNat / 2) := by omega
    rw [if_neg low, Terminal.putcharText, if_neg fits, place, Terminal.cell, place, half]
    simp [Terminal.putByte, even]
  · have high : off &&& 1 ≠ 0 := fun zero => even ((and_one_eq_zero off).mp zero)
    rw [if_pos high, Terminal.putcharText, if_neg fits, place, Terminal.cell, place, half]
    simp [Terminal.putByte, even]

theorem textWindowBackend_terminal (supported : t.Supported) :
    ∃ windowBytes : U32, textWindowBackend terminal t =
        some (⟨.ofNat 32 t.base, t.mode, t.rows, t.cols⟩, windowBytes) ∧ windowBytes.toNat = 2 * t.cells := by
  obtain ⟨rows, cols⟩ := supported.size
  have present : t.rows ≠ 0 ∧ t.cols ≠ 0 := by
    constructor
    · intro zero
      simp [zero] at rows
    · intro zero
      simp [zero] at cols
  have geometry : terminal.textGeometry t = _ := supported.geometry
  refine ⟨t.rows.setWidth 32 * t.cols.setWidth 32 * 2, ?_, ?_⟩
  · simp only [textWindowBackend, geometry, Option.bind_eq_bind, Option.bind_some, if_pos present, guard, pure]
  · rw [Terminal.cells, rows]
    simp only [BitVec.toNat_mul, BitVec.toNat_setWidth, rows]
    rcases cols with narrow | wide
    · rw [narrow]
      rfl
    · rw [wide]
      rfl

/-- A byte that a store changes leaves the window where it is. -/
theorem Terminal.Supported.storeByte (supported : t.Supported) (pos : Nat) (val : U8) :
    (t.storeByte pos val).Supported ∧ (t.storeByte pos val).base = t.base ∧
      (t.storeByte pos val).cells = t.cells ∧ (t.storeByte pos val).cols = t.cols := by
  unfold Terminal.storeByte
  split
  · exact ⟨⟨supported.mode, supported.rows, supported.cols, supported.curRow, supported.curCol⟩, rfl, rfl, rfl⟩
  · exact ⟨supported, rfl, rfl, rfl⟩

theorem textWindowStoreByte_terminal (supported : t.Supported) (geo : Geometry) (cols : geo.cols = t.cols)
    (base : geo.base.toNat = t.base) {windowBytes : U32} (size : windowBytes.toNat = 2 * t.cells) {addr : U32} {i : Nat}
    (low : addr.toNat + i < memSize) (val : U16) :
    textWindowStoreByte terminal geo windowBytes addr val t i =
      t.storeByte (addr.toNat + i) ((val >>> (8 * i)).setWidth 8) := by
  have top : memSize < 2 ^ 32 := by decide
  have pos : (addr + .ofNat 32 i).toNat = addr.toNat + i := by
    rw [BitVec.toNat_add, BitVec.toNat_ofNat, Nat.mod_eq_of_lt (show i < 2 ^ 32 by omega)]
    exact Nat.mod_eq_of_lt (by omega)
  unfold Terminal.storeByte
  by_cases inside : t.base ≤ addr.toNat + i ∧ addr.toNat + i < t.base + 2 * t.cells
  · have off : (addr + .ofNat 32 i - geo.base).toNat = addr.toNat + i - t.base := by
      rw [BitVec.toNat_sub_of_le (BitVec.le_def.mpr (by omega)), pos, base]
    have within : ¬(addr + .ofNat 32 i < geo.base ∨ windowBytes ≤ addr + .ofNat 32 i - geo.base) := by
      rw [BitVec.lt_def, BitVec.le_def, off, pos, base, size]
      omega
    rw [if_pos inside, textWindowStoreByte, if_neg within, textWindowByte_terminal supported cols (by omega), off]
  · have outside : addr + .ofNat 32 i < geo.base ∨ windowBytes ≤ addr + .ofNat 32 i - geo.base := by
      by_cases below : addr.toNat + i < t.base
      · exact .inl (BitVec.lt_def.mpr (by omega))
      · right
        rw [BitVec.le_def, BitVec.toNat_sub_of_le (BitVec.le_def.mpr (by omega)), pos, base, size]
        omega
    rw [if_neg inside, textWindowStoreByte, if_pos outside]

/-- The window lies in the range of addresses that is scanned. -/
theorem Terminal.Supported.scanned (supported : t.Supported) {pos : Nat}
    (outside : pos < textWindowScanStart ∨ textWindowScanEnd ≤ pos) (val : U8) : t.storeByte pos val = t := by
  have size := supported.size
  have cells : t.cells ≤ 2000 := by
    rw [Terminal.cells, size.1]
    omega
  have base := t.base_cases
  rw [textWindowScanStart, textWindowScanEnd] at outside
  rw [Terminal.storeByte, if_neg (by omega)]

theorem textWindowStore_one (supported : t.Supported) {addr : U32} (low : addr.toNat + 1 ≤ memSize) (val : U16) :
    textWindowStore terminal addr 1 val t = t.storeByte addr.toNat (val.setWidth 8) := by
  obtain ⟨windowBytes, window, size⟩ := textWindowBackend_terminal supported
  unfold textWindowStore
  split
  · rename_i skipped
    exact (supported.scanned (by omega) _).symm
  · have base : (BitVec.ofNat 32 t.base).toNat = t.base := by
      rcases t.base_cases with same | same <;> rw [same] <;> rfl
    have narrow : ¬(1 = 2 ∧ BitVec.ofNat 32 t.base ≤ addr ∧ (addr - BitVec.ofNat 32 t.base) &&& 1 = 0 ∧
        addr - BitVec.ofNat 32 t.base + 2 ≤ windowBytes) := fun fast => absurd fast.1 (by decide)
    simp only [window, if_neg narrow, List.range_one, List.foldl_cons, List.foldl_nil]
    exact textWindowStoreByte_terminal supported _ rfl base size (by omega) val

/-- A word reaches the screen like its two bytes. -/
theorem textWindowStore_two (supported : t.Supported) {addr : U32} (low : addr.toNat + 2 ≤ memSize) (val : U16) :
    textWindowStore terminal addr 2 val t =
      (t.storeByte addr.toNat (val.setWidth 8)).storeByte (addr.toNat + 1) ((val >>> 8).setWidth 8) := by
  obtain ⟨windowBytes, window, size⟩ := textWindowBackend_terminal supported
  have first := supported.storeByte addr.toNat (val.setWidth 8)
  have top : memSize < 2 ^ 32 := by decide
  unfold textWindowStore
  split
  · rename_i skipped
    rw [first.1.scanned (by omega), supported.scanned (by omega)]
  · have base : (BitVec.ofNat 32 t.base).toNat = t.base := by
      rcases t.base_cases with same | same <;> rw [same] <;> rfl
    simp only [window]
    split
    · rename_i fast
      obtain ⟨-, above, even, fits⟩ := fast
      have off : (addr - BitVec.ofNat 32 t.base).toNat = addr.toNat - t.base := by
        rw [BitVec.toNat_sub_of_le above, base]
      have after := BitVec.le_def.mp above
      rw [base] at after
      rw [and_one_eq_zero, off] at even
      rw [BitVec.le_def, BitVec.toNat_add, off, size, Nat.mod_eq_of_lt (by simp; omega)] at fits
      have last : addr.toNat - t.base + 2 ≤ 2 * t.cells := fits
      have half : ((addr - BitVec.ofNat 32 t.base) / 2).toNat = (addr.toNat - t.base) / 2 := by
        rw [BitVec.toNat_udiv, off]
        rfl
      have place : 2 * ((addr.toNat - t.base) / 2) = addr.toNat - t.base := by omega
      have low' : t.base ≤ addr.toNat ∧ addr.toNat < t.base + 2 * t.cells := by omega
      have high' : t.base ≤ addr.toNat + 1 ∧ addr.toNat + 1 < t.base + 2 * t.cells := by omega
      have inside : ((addr - BitVec.ofNat 32 t.base) / 2).toNat < t.cells := by omega
      have written := supported.putcharText_cell inside (val.setWidth 8) ((val >>> 8).setWidth 8)
      rw [half, place] at written
      refine written.trans ?_
      rw [Terminal.storeByte, first.2.1, first.2.2.1, if_pos high', Terminal.storeByte, if_pos low',
        show addr.toNat + 1 - t.base = addr.toNat - t.base + 1 by omega]
    · have second := textWindowStoreByte_terminal first.1 ⟨.ofNat 32 t.base, t.mode, t.rows, t.cols⟩
        first.2.2.2.symm (base.trans first.2.1.symm) (size.trans (congrArg (2 * ·) first.2.2.1.symm))
        (show addr.toNat + 1 < memSize by omega) val
      have one := textWindowStoreByte_terminal supported ⟨.ofNat 32 t.base, t.mode, t.rows, t.cols⟩ rfl base size
        (show addr.toNat + 0 < memSize by omega) val
      simp only [List.range_succ, List.range_zero, List.nil_append, List.singleton_append, List.foldl_cons,
        List.foldl_nil, one]
      simpa using second

end Windows

end Dis86.Native
