import Dis86.Native.TextWindow

namespace Dis86.Native
open Hydra (U8 U16 U32)

/-- A cleared cell is a space in the default attribute. -/
def blankByte (addr : Nat) : U8 := if addr % 2 = 0 then 0x20 else 0x07

/-- A cell puts its two bytes at the place of the cell. -/
def cellPut (place : Nat) (cell : Cell) (addr : Nat) : Option U8 :=
  if addr = place then some cell.ch else if addr = place + 1 then some cell.attr else none

/-- What stands at each address after some bytes have been put there. -/
def overlay (put : Nat → Option U8) (shown : Nat → U8) (addr : Nat) : U8 := (put addr).getD (shown addr)

namespace Terminal

/-- The address of a cell. -/
def place (t : Terminal) (row col : Nat) : Nat := t.base + 2 * t.index row col

/-- In a scrolled window each row takes over the row below it, and the last one is blank. -/
def scrolledByte (t : Terminal) (shown : Nat → U8) (addr : Nat) : U8 :=
  if addr < t.base + 2 * ((t.rows.toNat - 1) * t.cols.toNat) then shown (addr + 2 * t.cols.toNat) else blankByte addr

/-- A new line in the last row scrolls the window. -/
def newlinePut (t : Terminal) (shown : Nat → U8) (addr : Nat) : Option U8 :=
  if t.curRow.toNat + 1 < t.rows.toNat then none else some (t.scrolledByte shown addr)

/-- The byte that an event puts at an address of the window. -/
def put (t : Terminal) (shown : Nat → U8) (event : ScreenEvent) (addr : Nat) : Option U8 :=
  match event with
  | .store8 at8 val => if addr = at8.toNat then some val else none
  | .store16 at16 val => cellPut at16.toNat ⟨val.setWidth 8, (val >>> 8).setWidth 8⟩ addr
  | .restore image => some (image addr)
  | .setMode _ => some (blankByte addr)
  | .setCursor _ _ => none
  | .putchar row col cell =>
      if row < t.rows ∧ col < t.cols then cellPut (t.place row.toNat col.toNat) cell addr else none
  | .teletype ch attr =>
      if ch = 0x0d ∨ ch = 0x08 then none
      else if ch = 0x0a then t.newlinePut shown addr
      else
        let written := cellPut (t.place t.curRow.toNat t.curCol.toNat) ⟨ch, if attr ≠ 0 then attr else 0x07⟩
        if t.cols ≤ t.curCol + 1 then (t.newlinePut (overlay written shown) addr).or (written addr)
        else written addr

/-- The screen shows the bytes of the window. -/
def Mirrors (t : Terminal) (shown : Nat → U8) : Prop := ∀ off < 2 * t.cells, t.shownByte off = shown (t.base + off)

end Terminal

/-- The byte that a run has put last at each address. -/
def lastPut (host : Host) (shown : Nat → U8) : List ScreenEvent → Nat → U8
  | [] => shown
  | event :: rest =>
      match host.step event with
      | some host' => lastPut host' (overlay (host.term.put shown event) shown) rest
      | none => shown

namespace Terminal

variable {t : Terminal} {shown : Nat → U8}

theorem mirrors_storeByte (mirrors : t.Mirrors shown) (supported : t.Supported) (pos : Nat) (val : U8) :
    (t.storeByte pos val).Mirrors (Function.update shown pos val) := by
  obtain ⟨-, base, cells, -⟩ := supported.storeByte pos val
  intro off inside
  rw [cells] at inside
  rw [base]
  unfold storeByte
  split
  · rename_i within
    rw [shownByte_putByte]
    by_cases here : off = pos - t.base
    · rw [if_pos here, show t.base + off = pos by omega, Function.update_self]
    · rw [if_neg here, Function.update_of_ne (by omega)]
      exact mirrors off inside
  · rename_i without
    rw [Function.update_of_ne (by omega)]
    exact mirrors off inside

theorem mirrors_cell (mirrors : t.Mirrors shown) (supported : t.Supported) (place : Nat) (cell : Cell) :
    ((t.storeByte place cell.ch).storeByte (place + 1) cell.attr).Mirrors (overlay (cellPut place cell) shown) := by
  have both := mirrors_storeByte (mirrors_storeByte mirrors supported place cell.ch)
    (supported.storeByte place cell.ch).1 (place + 1) cell.attr
  convert both using 1
  funext addr
  unfold overlay cellPut
  by_cases first : addr = place
  · subst first
    rw [if_pos rfl, Function.update_of_ne (by omega), Function.update_self]
    rfl
  · by_cases second : addr = place + 1
    · subst second
      rw [if_neg first, if_pos rfl, Function.update_self]
      rfl
    · rw [if_neg first, if_neg second, Function.update_of_ne second, Function.update_of_ne first]
      rfl

theorem index_lt (t : Terminal) {row col : Nat} (rowInside : row < t.rows.toNat) (colInside : col < t.cols.toNat) :
    t.index row col < t.cells := by
  have rows := Nat.mul_le_mul_right t.cols.toNat (Nat.succ_le_of_lt rowInside)
  rw [Nat.succ_mul] at rows
  rw [index, cells]
  omega

/-- An explicit cell reaches the screen like its two bytes at its place. -/
theorem putcharText_storeByte {row col : U8} (rowInside : row < t.rows) (colInside : col < t.cols) (cell : Cell) :
    t.putcharText row col cell =
      (t.storeByte (t.place row.toNat col.toNat) cell.ch).storeByte (t.place row.toNat col.toNat + 1) cell.attr := by
  have inside := t.index_lt (BitVec.lt_def.mp rowInside) (BitVec.lt_def.mp colInside)
  have fits : ¬(t.rows ≤ row ∨ t.cols ≤ col) := by
    simp only [BitVec.le_def, BitVec.lt_def] at *
    omega
  have first : t.storeByte (t.place row.toNat col.toNat) cell.ch =
      t.putByte (2 * t.index row.toNat col.toNat) cell.ch := by
    rw [storeByte, place, if_pos (by omega), Nat.add_sub_cancel_left]
  have second : (t.putByte (2 * t.index row.toNat col.toNat) cell.ch).storeByte (t.place row.toNat col.toNat + 1)
      cell.attr = (t.putByte (2 * t.index row.toNat col.toNat) cell.ch).putByte
        (2 * t.index row.toNat col.toNat + 1) cell.attr := by
    have base : (t.putByte (2 * t.index row.toNat col.toNat) cell.ch).base = t.base := rfl
    have cells : (t.putByte (2 * t.index row.toNat col.toNat) cell.ch).cells = t.cells := rfl
    rw [storeByte, base, cells, place, if_pos (by omega), Nat.add_assoc, Nat.add_sub_cancel_left]
  rw [first, second, putByte_putByte, putcharText, if_neg fits]

/-- What each turn of a counted loop adds holds for all of them after the loop. -/
theorem foldl_range {S : Type} (done : Nat → S → Prop) {f : S → Nat → S} {count : Nat} {s : S} (start : done 0 s)
    (turn : ∀ i < count, ∀ s, done i s → done (i + 1) (f s i)) : done count ((List.range count).foldl f s) := by
  induction count with
  | zero => exact start
  | succ count ih =>
      rw [List.range_succ, List.foldl_append]
      exact turn count (by omega) _ (ih fun i less => turn i (by omega))

/-- The first cells of the window show an image. -/
structure Projected (t : Terminal) (image : Nat → U8) (count : Nat) (t' : Terminal) : Prop where
  supported : t'.Supported
  base : t'.base = t.base
  rows : t'.rows = t.rows
  cols : t'.cols = t.cols
  shown : ∀ off < 2 * count, t'.shownByte off = image (t.base + off)

theorem Projected.next {image : Nat → U8} {row col : Nat} {t' : Terminal} (rowInside : row < t.rows.toNat)
    (colInside : col < t.cols.toNat) (projected : t.Projected image (t.index row col) t') :
    t.Projected image (t.index row col + 1) (t'.putcharText (.ofNat 8 row) (.ofNat 8 col)
      ⟨image (t.base + 2 * t.index row col), image (t.base + 2 * t.index row col + 1)⟩) := by
  obtain ⟨supported, base, rows, cols, shown⟩ := projected
  have rowNat : (BitVec.ofNat 8 row).toNat = row := by
    rw [BitVec.toNat_ofNat]
    exact Nat.mod_eq_of_lt (by have := t.rows.isLt; omega)
  have colNat : (BitVec.ofNat 8 col).toNat = col := by
    rw [BitVec.toNat_ofNat]
    exact Nat.mod_eq_of_lt (by have := t.cols.isLt; omega)
  have fits : ¬(t'.rows ≤ .ofNat 8 row ∨ t'.cols ≤ .ofNat 8 col) := by
    rw [BitVec.le_def, BitVec.le_def, rowNat, colNat, rows, cols]
    omega
  have index : t'.index row col = t.index row col := by rw [Terminal.index, Terminal.index, cols]
  rw [putcharText, if_neg fits, rowNat, colNat, index, ← putByte_putByte]
  refine ⟨⟨supported.mode, supported.rows, supported.cols, supported.curRow, supported.curCol⟩, base, rows, cols, ?_⟩
  intro off inside
  rw [shownByte_putByte, shownByte_putByte]
  by_cases second : off = 2 * t.index row col + 1
  · rw [if_pos second, second, Nat.add_assoc]
  · by_cases first : off = 2 * t.index row col
    · rw [if_neg second, if_pos first, first]
    · rw [if_neg second, if_neg first]
      exact shown off (by omega)

/-- A projection shows the whole image. -/
theorem mirrors_reproject (supported : t.Supported) (image : Nat → U8) :
    (textWindowReproject terminal image t).Supported ∧ (textWindowReproject terminal image t).Mirrors image := by
  obtain ⟨windowBytes, window, size⟩ := textWindowBackend_terminal supported
  obtain ⟨rows, cols⟩ := supported.size
  have base : (BitVec.ofNat 32 t.base).toNat = t.base := by
    rcases t.base_cases with same | same <;> rw [same] <;> rfl
  have below : ¬(memSize < t.base + windowBytes.toNat) := by
    have bases := t.base_cases
    rw [memSize, size, cells, rows]
    omega
  have started : t.Projected image 0 t := ⟨supported, rfl, rfl, rfl, fun off inside => absurd inside (by omega)⟩
  have projected : t.Projected image t.cells (textWindowReproject terminal image t) := by
    simp only [textWindowReproject, window, base, if_neg below]
    apply foldl_range (fun row => t.Projected image (row * t.cols.toNat))
    · rw [Nat.zero_mul]
      exact started
    · intro row rowInside t' projected
      rw [Nat.succ_mul]
      apply foldl_range (fun col => t.Projected image (row * t.cols.toNat + col))
      · exact projected
      · intro col colInside t'' projected'
        rw [Nat.mul_comm _ 2]
        exact projected'.next rowInside colInside
  refine ⟨projected.supported, fun off inside => ?_⟩
  rw [projected.base]
  rw [cells, projected.rows, projected.cols] at inside
  exact projected.shown off inside

theorem mirrors_setVideoMode (supported : t.Supported) {mode : U8} {t' : Terminal}
    (accepted : t.setVideoMode mode = some t') : t'.Supported ∧ t'.Mirrors blankByte := by
  unfold setVideoMode at accepted
  split at accepted
  · rename_i known
    obtain rfl := Option.some.inj accepted
    constructor
    · refine ⟨known, supported.rows, ?_, ?_, ?_⟩
      · simp only [clear]
        split
        · exact .inl rfl
        · exact .inr rfl
      · simp only [clear, supported.rows]
        decide
      · simp only [clear]
        split <;> decide
    · intro off inside
      have even : ∀ t : Terminal, (t.base + off) % 2 = off % 2 := fun t => by
        rcases t.base_cases with same | same <;> rw [same] <;> omega
      rw [blankByte, even]
      rfl
  · exact absurd accepted (by simp)

theorem mirrors_scroll (mirrors : t.Mirrors shown) (supported : t.Supported) :
    t.scroll.Mirrors (t.scrolledByte shown) := by
  intro off inside
  obtain ⟨rows, cols⟩ := supported.size
  have even : (t.base + off) % 2 = off % 2 := by
    rcases t.base_cases with same | same <;> rw [same] <;> omega
  have cells : t.cells = (t.rows.toNat - 1) * t.cols.toNat + t.cols.toNat := by
    rw [Terminal.cells, rows]
    omega
  have within : off < 2 * t.cells := inside
  have base : t.scroll.base = t.base := rfl
  rw [base, scrolledByte]
  by_cases above : off / 2 < (t.rows.toNat - 1) * t.cols.toNat
  · have old := mirrors (off + 2 * t.cols.toNat) (by omega)
    rw [if_pos (show t.base + off < t.base + 2 * ((t.rows.toNat - 1) * t.cols.toNat) by omega), Nat.add_assoc, ← old]
    have parity : (off + 2 * t.cols.toNat) % 2 = off % 2 := by omega
    have half : (off + 2 * t.cols.toNat) / 2 = off / 2 + t.cols.toNat := by omega
    simp only [shownByte, scroll, scrollBuffer, if_pos above, parity, half]
  · rw [if_neg (show ¬(t.base + off < t.base + 2 * ((t.rows.toNat - 1) * t.cols.toNat)) by omega), blankByte, even]
    have last : off / 2 < (t.rows.toNat - 1) * t.cols.toNat + t.cols.toNat := by omega
    simp only [shownByte, scroll, scrollBuffer, if_neg above, if_pos last]

theorem mirrors_newline (mirrors : t.Mirrors shown) (supported : t.Supported) :
    t.newline.Supported ∧ t.newline.Mirrors (overlay (t.newlinePut shown) shown) := by
  have column : (0 : U8) < t.cols := by
    rcases supported.cols with narrow | wide
    · rw [narrow]; decide
    · rw [wide]; decide
  unfold newline newlinePut
  by_cases above : t.curRow.toNat + 1 < t.rows.toNat
  · have next : t.curRow + 1 < t.rows := by
      rw [BitVec.lt_def, BitVec.toNat_add, Nat.mod_eq_of_lt (by have := t.rows.isLt; simp; omega)]
      exact above
    simp only [if_pos above]
    exact ⟨⟨supported.mode, supported.rows, supported.cols, next, column⟩, mirrors⟩
  · simp only [if_neg above]
    have moved : ({ t with curCol := 0, cursorDirty := true } : Terminal).Supported :=
      ⟨supported.mode, supported.rows, supported.cols, supported.curRow, column⟩
    refine ⟨⟨supported.mode, supported.rows, supported.cols, supported.curRow, column⟩, ?_⟩
    exact mirrors_scroll mirrors moved

theorem overlay_or (first second : Nat → Option U8) (shown : Nat → U8) :
    overlay (fun addr => (second addr).or (first addr)) shown = overlay second (overlay first shown) := by
  funext addr
  simp only [overlay]
  cases second addr <;> rfl

/-- A printed character fills the cell under the cursor, and at the end of the row a new line follows. -/
theorem mirrors_teletype (mirrors : t.Mirrors shown) (supported : t.Supported) (ch attr : U8) :
    (t.teletype ch attr).Supported ∧
      (t.teletype ch attr).Mirrors (overlay (t.put shown (.teletype ch attr)) shown) := by
  have column : (0 : U8) < t.cols := by
    rcases supported.cols with narrow | wide
    · rw [narrow]; decide
    · rw [wide]; decide
  by_cases carriage : ch = 0x0d
  · have nothing : overlay (t.put shown (.teletype ch attr)) shown = shown := by
      funext addr
      simp [overlay, put, carriage]
    rw [nothing, teletype, if_pos carriage]
    split
    · exact ⟨⟨supported.mode, supported.rows, supported.cols, supported.curRow, column⟩, mirrors⟩
    · exact ⟨supported, mirrors⟩
  by_cases line : ch = 0x0a
  · have feed : t.put shown (.teletype ch attr) = t.newlinePut shown := by
      funext addr
      simp [put, line]
    rw [feed, teletype, if_neg carriage, if_pos line]
    exact mirrors_newline mirrors supported
  by_cases back : ch = 0x08
  · have nothing : overlay (t.put shown (.teletype ch attr)) shown = shown := by
      funext addr
      simp [overlay, put, back]
    rw [nothing, teletype, if_neg carriage, if_neg line, if_pos back]
    split
    · rename_i behind
      have before : t.curCol - 1 < t.cols := by
        have inside := BitVec.lt_def.mp supported.curCol
        rw [BitVec.lt_def, BitVec.toNat_sub]
        simp
        omega
      exact ⟨⟨supported.mode, supported.rows, supported.cols, supported.curRow, before⟩, mirrors⟩
    · exact ⟨supported, mirrors⟩
  · let cell : Cell := ⟨ch, if attr ≠ 0 then attr else 0x07⟩
    let written := cellPut (t.place t.curRow.toNat t.curCol.toNat) cell
    have printed : (t.putcharText t.curRow t.curCol cell).Mirrors (overlay written shown) := by
      rw [putcharText_storeByte supported.curRow supported.curCol]
      exact mirrors_cell mirrors supported _ _
    have fits : ¬(t.rows ≤ t.curRow ∨ t.cols ≤ t.curCol) := by
      have below := BitVec.lt_def.mp supported.curRow
      have aside := BitVec.lt_def.mp supported.curCol
      simp only [BitVec.le_def]
      omega
    rw [putcharText, if_neg fits] at printed
    rw [teletype, if_neg carriage, if_neg line, if_neg back]
    by_cases full : t.cols ≤ t.curCol + 1
    · have put : overlay (t.put shown (.teletype ch attr)) shown =
          overlay (t.newlinePut (overlay written shown)) (overlay written shown) := by
        rw [← overlay_or]
        funext addr
        simp only [overlay, put, carriage, line, back, or_self, if_false, if_pos full, written, cell]
      let returned : Terminal := { t with
        ch := Function.update t.ch (t.index t.curRow.toNat t.curCol.toNat) cell.ch
        attr := Function.update t.attr (t.index t.curRow.toNat t.curCol.toNat) cell.attr
        dirty := true
        curCol := 0 }
      have supported' : returned.Supported :=
        ⟨supported.mode, supported.rows, supported.cols, supported.curRow, column⟩
      have mirrors' : returned.Mirrors (overlay written shown) := printed
      have resumed := mirrors_newline mirrors' supported'
      simp only [if_pos full, put]
      exact resumed
    · have put : overlay (t.put shown (.teletype ch attr)) shown = overlay written shown := by
        funext addr
        simp only [overlay, put, carriage, line, back, or_self, if_false, if_neg full, written, cell]
      simp only [if_neg full, put]
      have next : t.curCol + 1 < t.cols := BitVec.not_le.mp full
      exact ⟨⟨supported.mode, supported.rows, supported.cols, supported.curRow, next⟩, printed⟩

end Terminal

section Run

variable {host host' : Host} {shown : Nat → U8}

/-- After an event the window shows what the event puts there, and otherwise what it showed before. -/
theorem mirrors_step (supported : host.term.Supported) (mirrors : host.term.Mirrors shown) {event : ScreenEvent}
    (stepped : host.step event = some host') :
    host'.term.Supported ∧ host'.term.Mirrors (overlay (host.term.put shown event) shown) := by
  cases event with
  | store8 addr val =>
      simp only [Host.step, nativeMemWrite8, memBoundsCheck, Option.bind_eq_bind, Option.bind_eq_some_iff,
        Option.guard_eq_some', Option.pure_def, Option.some.injEq] at stepped
      obtain ⟨-, low, rfl⟩ := stepped
      have byte : (val.setWidth 16).setWidth 8 = val := by simp
      simp only [textWindowStore_one supported low, byte]
      refine ⟨(supported.storeByte _ _).1, ?_⟩
      convert Terminal.mirrors_storeByte mirrors supported addr.toNat val using 1
      funext pos
      simp only [overlay, Terminal.put]
      by_cases here : pos = addr.toNat
      · rw [if_pos here, here, Function.update_self]
        rfl
      · rw [if_neg here, Function.update_of_ne here]
        rfl
  | store16 addr val =>
      simp only [Host.step, nativeMemWrite16, memBoundsCheck, Option.bind_eq_bind, Option.bind_eq_some_iff,
        Option.guard_eq_some', Option.pure_def, Option.some.injEq] at stepped
      obtain ⟨-, low, rfl⟩ := stepped
      simp only [textWindowStore_two supported low]
      exact ⟨((supported.storeByte _ _).1.storeByte _ _).1,
        Terminal.mirrors_cell mirrors supported addr.toNat ⟨val.setWidth 8, (val >>> 8).setWidth 8⟩⟩
  | restore image =>
      obtain rfl := Option.some.inj stepped
      exact Terminal.mirrors_reproject supported image
  | setMode mode =>
      obtain ⟨term, accepted, rfl⟩ := Option.map_eq_some_iff.mp stepped
      exact Terminal.mirrors_setVideoMode supported accepted
  | setCursor row col =>
      obtain ⟨term, accepted, rfl⟩ := Option.map_eq_some_iff.mp stepped
      unfold Terminal.setCursor at accepted
      split at accepted
      · exact absurd accepted (by simp)
      · rename_i inside
        obtain ⟨above, aside⟩ := not_or.mp inside
        split at accepted <;> obtain rfl := Option.some.inj accepted
        · exact ⟨⟨supported.mode, supported.rows, supported.cols, BitVec.not_le.mp above, BitVec.not_le.mp aside⟩,
            mirrors⟩
        · exact ⟨supported, mirrors⟩
  | teletype ch attr =>
      obtain rfl := Option.some.inj stepped
      exact Terminal.mirrors_teletype mirrors supported ch attr
  | putchar row col cell =>
      obtain rfl := Option.some.inj stepped
      by_cases inside : row < host.term.rows ∧ col < host.term.cols
      · have put : host.term.put shown (.putchar row col cell) =
            cellPut (host.term.place row.toNat col.toNat) cell := by
          funext addr
          simp only [Terminal.put, if_pos inside]
        simp only [put, Terminal.putcharText_storeByte inside.1 inside.2]
        exact ⟨((supported.storeByte _ _).1.storeByte _ _).1, Terminal.mirrors_cell mirrors supported _ _⟩
      · have put : overlay (host.term.put shown (.putchar row col cell)) shown = shown := by
          funext addr
          simp only [overlay, Terminal.put, if_neg inside]
          rfl
        have outside : host.term.rows ≤ row ∨ host.term.cols ≤ col := by
          simp only [BitVec.lt_def, BitVec.le_def] at *
          omega
        rw [put, Terminal.putcharText, if_pos outside]
        exact ⟨supported, mirrors⟩

/-- After a run the window shows what the run has put there last. -/
theorem mirrors_run (supported : host.term.Supported) (mirrors : host.term.Mirrors shown)
    {events : List ScreenEvent} (ran : host.run events = some host') :
    host'.term.Supported ∧ host'.term.Mirrors (lastPut host shown events) := by
  induction events generalizing host shown with
  | nil =>
      obtain rfl := Option.some.inj ran
      exact ⟨supported, mirrors⟩
  | cons event rest ih =>
      rw [Host.run, List.foldlM_cons] at ran
      obtain ⟨middle, stepped, others⟩ := Option.bind_eq_some_iff.mp ran
      obtain ⟨supported', mirrors'⟩ := mirrors_step supported mirrors stepped
      rw [lastPut, stepped]
      exact ih supported' mirrors' others

theorem init_supported : Terminal.init.Supported := ⟨by decide, by decide, by decide, by decide, by decide⟩

theorem init_mirrors : Terminal.init.Mirrors blankByte := by
  intro off _
  have base : Terminal.init.base = 0xB8000 := rfl
  have even : (0xB8000 + off) % 2 = off % 2 := by omega
  rw [base, blankByte, even]
  rfl

theorem storeByte_outside {t : Terminal} {pos : Nat} (outside : ¬(t.base ≤ pos ∧ pos < t.base + 2 * t.cells))
    (val : U8) : t.storeByte pos val = t := by
  rw [Terminal.storeByte, if_neg outside]

/-- A word store does what the stores of its two bytes do. -/
theorem step_store16 (supported : host.term.Supported) (addr : U32) (val : U16) :
    host.step (.store16 addr val) = (host.step (.store8 addr (val.setWidth 8))).bind fun host =>
      host.step (.store8 (addr + 1) ((val >>> 8).setWidth 8)) := by
  have top : memSize < 2 ^ 32 := by decide
  have lowByte : ((val.setWidth 8).setWidth 16).setWidth 8 = val.setWidth 8 := by simp
  have highByte : (((val >>> 8).setWidth 8).setWidth 16).setWidth 8 = (val >>> 8).setWidth 8 := by simp
  by_cases inside : addr.toNat + 1 ≤ memSize
  · have next : (addr + 1).toNat = addr.toNat + 1 := by
      rw [BitVec.toNat_add]
      simp
      omega
    have first := supported.storeByte addr.toNat (val.setWidth 8)
    by_cases room : addr.toNat + 2 ≤ memSize
    · simp only [Host.step, nativeMemWrite16, nativeMemWrite8, memBoundsCheck, guard, if_pos inside, if_pos room, next,
        Option.bind_eq_bind, pure, Option.bind_some, textWindowStore_two supported room,
        textWindowStore_one supported inside, lowByte]
      rw [textWindowStore_one first.1 (by omega), next, highByte]
    · simp only [Host.step, nativeMemWrite16, nativeMemWrite8, memBoundsCheck, guard, if_pos inside, if_neg room, next,
        Option.bind_eq_bind, pure, Option.bind_some, failure, Option.bind_none]
  · have room : ¬(addr.toNat + 2 ≤ memSize) := by omega
    simp only [Host.step, nativeMemWrite16, nativeMemWrite8, memBoundsCheck, guard, if_neg inside, if_neg room,
      Option.bind_eq_bind, failure, Option.bind_none]

end Run

/-- An address belongs to the window. -/
def Geometry.Covers (geo : Geometry) (pos : Nat) : Prop :=
  geo.base.toNat ≤ pos ∧ pos < geo.base.toNat + 2 * (geo.rows.toNat * geo.cols.toNat)

/-- In every run each cell of the active window shows the bytes that were put last at its two addresses, a store
outside the window changes no cell, and a word store does what the stores of its two bytes do. -/
theorem text_window_mirror_exact (mem : Nat → U8) {events : List ScreenEvent} {host : Host}
    (ran : (Host.start mem).run events = some host) :
    ∃ geo, host.term.textGeometry = some geo ∧
      (∀ row < geo.rows.toNat, ∀ col < geo.cols.toNat,
        let pos := geo.base.toNat + 2 * (row * geo.cols.toNat + col)
        host.term.cell row col =
          ⟨lastPut (Host.start mem) blankByte events pos, lastPut (Host.start mem) blankByte events (pos + 1)⟩) ∧
      (∀ addr val host', host.step (.store8 addr val) = some host' → ¬geo.Covers addr.toNat →
        host'.term = host.term) ∧
      (∀ addr val host', host.step (.store16 addr val) = some host' → ¬geo.Covers addr.toNat →
        ¬geo.Covers (addr.toNat + 1) → host'.term = host.term) ∧
      ∀ addr val, host.step (.store16 addr val) = (host.step (.store8 addr (val.setWidth 8))).bind fun host =>
        host.step (.store8 (addr + 1) ((val >>> 8).setWidth 8)) := by
  obtain ⟨supported, mirrors⟩ := mirrors_run init_supported init_mirrors ran
  have base : (BitVec.ofNat 32 host.term.base).toNat = host.term.base := by
    rcases host.term.base_cases with same | same <;> rw [same] <;> rfl
  have outside : ∀ pos,
      ¬(⟨.ofNat 32 host.term.base, host.term.mode, host.term.rows, host.term.cols⟩ : Geometry).Covers pos →
      ¬(host.term.base ≤ pos ∧ pos < host.term.base + 2 * host.term.cells) := by
    intro pos uncovered
    rw [Geometry.Covers, base] at uncovered
    exact uncovered
  refine ⟨_, supported.geometry, ?_, ?_, ?_, step_store16 supported⟩
  · intro row rowInside col colInside pos
    have inside := host.term.index_lt rowInside colInside
    have lower := mirrors (2 * host.term.index row col) (by omega)
    have upper := mirrors (2 * host.term.index row col + 1) (by omega)
    have odd : (2 * host.term.index row col + 1) % 2 ≠ 0 := by omega
    have half : (2 * host.term.index row col + 1) / 2 = host.term.index row col := by omega
    rw [Terminal.shownByte, if_pos (Nat.mul_mod_right 2 _), Nat.mul_div_cancel_left _ (by decide)] at lower
    rw [Terminal.shownByte, if_neg odd, half] at upper
    have place : pos = host.term.base + 2 * host.term.index row col := by
      simp only [pos, base]
      rfl
    rw [Terminal.cell, lower, upper, place, Nat.add_assoc]
  · intro addr val host' stepped uncovered
    simp only [Host.step, nativeMemWrite8, memBoundsCheck, Option.bind_eq_bind, Option.bind_eq_some_iff,
      Option.guard_eq_some', Option.pure_def, Option.some.injEq] at stepped
    obtain ⟨-, low, rfl⟩ := stepped
    exact (textWindowStore_one supported low _).trans (storeByte_outside (outside _ uncovered) _)
  · intro addr val host' stepped uncovered uncovered'
    simp only [Host.step, nativeMemWrite16, memBoundsCheck, Option.bind_eq_bind, Option.bind_eq_some_iff,
      Option.guard_eq_some', Option.pure_def, Option.some.injEq] at stepped
    obtain ⟨-, low, rfl⟩ := stepped
    refine (textWindowStore_two supported low _).trans ?_
    rw [storeByte_outside (outside _ uncovered), storeByte_outside (outside _ uncovered')]

/-- A letter that the guest stores in the first cell of the monochrome window is shown there. -/
theorem stored_letter_is_shown :
    ∃ host, (Host.start fun _ => 0).run [.setMode 0x07, .store16 0xB0000 0x1741] = some host ∧
      host.term.cell 0 0 = ⟨0x41, 0x17⟩ := by
  refine ⟨_, rfl, ?_⟩
  obtain ⟨geo, geometry, shown, -⟩ := text_window_mirror_exact (fun _ => 0)
    (rfl : (Host.start fun _ => 0).run [.setMode 0x07, .store16 0xB0000 0x1741] = some _)
  obtain rfl := Option.some.inj geometry
  exact (shown 0 (by decide) 0 (by decide)).trans (by decide)

end Dis86.Native
