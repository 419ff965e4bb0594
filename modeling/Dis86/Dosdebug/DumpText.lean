import Dis86.Dosdebug.Dump

namespace Dis86.Dosdebug
open Lib (Reader Reading)
open Lib.Reader (expect find findSub skipWhile)

/-- Some hexadecimal digits. -/
structure Digits (count : Nat) where
  text : List Byte
  length : text.length = count
  hex : ∀ c ∈ text, isHex c = true

def Digits.word (digits : Digits 4) : BitVec 16 := .ofNat 16 (hexNumber digits.text)

def Digits.doubleWord (digits : Digits 8) : BitVec 32 := .ofNat 32 (hexNumber digits.text)

def isBlank (c : Byte) : Bool := isSpace c || c = 0x0d || c = newline

/-- The spaces between two fields. -/
structure Gap where
  text : List Byte
  some : text ≠ []
  spaces : ∀ c ∈ text, isSpace c = true

/-- The end of a line, with the spaces around it. -/
structure LineEnd where
  text : List Byte
  ends : newline ∈ text
  blanks : ∀ c ∈ text, isBlank c = true

/-- What stands between the fields of a dump. -/
structure Layout where
  gprGaps : Fin 7 → Gap
  gprEnd : LineEnd
  segGaps : Fin 4 → Gap
  segEnd : LineEnd
  middle : List Byte
  middleBlanks : ∀ c ∈ middle, isBlank c = true
  tail : List Byte
  tailSpaces : ∀ c ∈ tail, isSpace c = true ∨ c = 0x0d

/-- The fields of a dump. -/
structure Dump where
  gpr : Fin 8 → Digits 4
  seg : Fin 4 → Digits 4
  fl : Digits 8
  cs : Digits 4
  ip : Digits 4
  ss : Digits 4

/-- The registers that are read from a dump. -/
def Dump.regs (dump : Dump) : Regs where
  ax := (dump.gpr 0).word
  bx := (dump.gpr 1).word
  cx := (dump.gpr 2).word
  dx := (dump.gpr 3).word
  si := (dump.gpr 4).word
  di := (dump.gpr 5).word
  sp := (dump.gpr 6).word
  bp := (dump.gpr 7).word
  ds := (dump.seg 0).word
  es := (dump.seg 1).word
  ss := dump.ss.word
  flags := visibleFlags dump.fl.doubleWord
  cs := dump.cs.word
  ip := dump.ip.word

/-- A field of a row: its name, its digits, and the spaces after it. -/
structure Cell where
  name : String
  digits : Digits 4
  gap : List Byte

def Cell.text (field : Cell) : List Byte := label field.name ++ (field.digits.text ++ field.gap)

def rowText (row : List Cell) : List Byte := row.flatMap Cell.text

section Texts

variable (layout : Layout) (dump : Dump)

def gprRow : List Cell :=
  [⟨"AX", dump.gpr 0, (layout.gprGaps 0).text⟩, ⟨"BX", dump.gpr 1, (layout.gprGaps 1).text⟩,
   ⟨"CX", dump.gpr 2, (layout.gprGaps 2).text⟩, ⟨"DX", dump.gpr 3, (layout.gprGaps 3).text⟩,
   ⟨"SI", dump.gpr 4, (layout.gprGaps 4).text⟩, ⟨"DI", dump.gpr 5, (layout.gprGaps 5).text⟩,
   ⟨"SP", dump.gpr 6, (layout.gprGaps 6).text⟩]

/-- The last field of the row, with the spaces before its line ends. -/
def gprLast : Cell := ⟨"BP", dump.gpr 7, layout.gprEnd.text.takeWhile isSpace⟩

def segRow : List Cell :=
  [⟨"DS", dump.seg 0, (layout.segGaps 0).text⟩, ⟨"ES", dump.seg 1, (layout.segGaps 1).text⟩,
   ⟨"FS", dump.seg 2, (layout.segGaps 2).text⟩]

def segLast : Cell := ⟨"GS", dump.seg 3, (layout.segGaps 3).text⟩

/-- The two lines of the registers and the flags. -/
def rowsText : List Byte :=
  rowText (gprRow layout dump ++ [gprLast layout dump]) ++ (layout.gprEnd.text.dropWhile isSpace ++
    (rowText (segRow layout dump ++ [segLast layout dump]) ++ (label "FL" ++ dump.fl.text)))

/-- The line of the instruction pointer up to its stack pointer. -/
def pointerText : List Byte := label "CS:IP" ++ (dump.cs.text ++ (bytes ":" ++ dump.ip.text))

def stackText : List Byte := label "SS:SP" ++ (dump.ss.text ++ (bytes ":" ++ (dump.gpr 6).text))

/-- A complete register dump. -/
def Dump.text : List Byte :=
  rowsText layout dump ++ (layout.segEnd.text ++ (pointerText dump ++ (layout.middle ++ (stackText dump ++
    (layout.tail ++ [newline])))))

end Texts

/-- The registers are those of a dump. The interrupt flag is the virtual one, and the other flags are as they are. -/
structure Shows (dump : Dump) (regs : Regs) : Prop where
  gpr : [regs.ax, regs.bx, regs.cx, regs.dx, regs.si, regs.di, regs.sp, regs.bp] =
    List.ofFn fun i => (dump.gpr i).word
  ds : regs.ds = (dump.seg 0).word
  es : regs.es = (dump.seg 1).word
  ss : regs.ss = dump.ss.word
  cs : regs.cs = dump.cs.word
  ip : regs.ip = dump.ip.word
  flags : ∀ bit < 16, regs.flags.getLsbD bit = dump.fl.doubleWord.getLsbD (if bit = 9 then 19 else bit)

theorem virtualFlag (rawFl : BitVec 32) : rawFl &&& 0x80000 ≠ 0 ↔ rawFl.getLsbD 19 = true := by
  have mask : (0x80000 : BitVec 32) = BitVec.twoPow 32 19 := by decide
  rw [mask, BitVec.and_twoPow]
  cases rawFl.getLsbD 19 <;> decide

theorem visibleFlags_bit (rawFl : BitVec 32) (bit : Nat) (inside : bit < 16) :
    (visibleFlags rawFl).getLsbD bit = rawFl.getLsbD (if bit = 9 then 19 else bit) := by
  have mask : (0x200 : BitVec 16).getLsbD bit = decide (bit = 9) := by
    revert bit
    decide
  unfold visibleFlags
  by_cases interrupt : rawFl &&& 0x80000 ≠ 0
  · have set := (virtualFlag rawFl).mp interrupt
    simp only [if_pos interrupt, BitVec.getLsbD_or, BitVec.getLsbD_and, BitVec.getLsbD_not, BitVec.getLsbD_setWidth,
      mask, inside]
    by_cases nine : bit = 9
    · simpa [nine] using set
    · simp [nine]
  · have clear : rawFl.getLsbD 19 = false := by
      rw [← Bool.not_eq_true]
      exact fun set => interrupt ((virtualFlag rawFl).mpr set)
    simp only [if_neg interrupt, BitVec.getLsbD_and, BitVec.getLsbD_not, BitVec.getLsbD_setWidth, mask, inside]
    by_cases nine : bit = 9
    · simpa [nine] using clear
    · simp [nine]

theorem isBlank_cases {c : Byte} (blank : isBlank c = true) : c = 0x20 ∨ c = 0x09 ∨ c = 0x0d ∨ c = newline := by
  unfold isBlank isSpace at blank
  simpa [or_assoc] using blank

theorem not_isHex_of_isBlank {c : Byte} (blank : isBlank c = true) : isHex c = false := by
  rcases isBlank_cases blank with rfl | rfl | rfl | rfl <;> rfl

theorem isBlank_of_isSpace {c : Byte} (space : isSpace c = true) : isBlank c = true := by
  rw [isBlank, space]
  rfl

section Fields

variable {next : Byte → Prop}

open Lib.Reader (Takes Quiet)

theorem takes_parseHex {count : Nat} (digits : Digits count) :
    (parseHex count).Takes digits.text (hexNumber digits.text) (fun c => isHex c = false) := by
  constructor
  · intro rest follows
    have front : (digits.text ++ rest).take count = digits.text := List.take_left' digits.length
    have back : (digits.text ++ rest).drop count = rest := List.drop_left' digits.length
    have all : digits.text.all isHex = true := List.all_eq_true.mpr digits.hex
    have stops : rest.head?.all (!isHex ·) = true := by
      cases rest with
      | nil => rfl
      | cons c rest => simp [follows c rfl]
    rw [parseHex, front, back, if_pos ⟨digits.length, all, stops⟩]
  · intro before inside other
    have short : before.length < count := by
      rw [← digits.length]
      exact lt_of_le_of_ne inside.length_le fun same => other (inside.eq_of_length same)
    refine .inl (if_neg fun full => ?_)
    have most := List.length_take_le' count before
    omega

theorem quiet_parseHex {count : Nat} (some : 0 < count) : (parseHex count).Quiet := by
  refine Lib.Reader.quiet_of_incomplete (if_neg fun full => ?_)
  have none : ([] : List Byte).take count = [] := List.take_nil
  rw [none] at full
  have empty : 0 = count := full.1
  omega

theorem takes_parseHex4 (digits : Digits 4) : parseHex4.Takes digits.text digits.word (fun c => isHex c = false) :=
  (takes_parseHex digits).map (BitVec.ofNat 16)

theorem takes_parseHex8 (digits : Digits 8) :
    parseHex8.Takes digits.text digits.doubleWord (fun c => isHex c = false) :=
  (takes_parseHex digits).map (BitVec.ofNat 32)

theorem quiet_parseHex4 : parseHex4.Quiet := (quiet_parseHex (by omega)).bind fun _ => Lib.Reader.quiet_pure _

theorem quiet_parseHex8 : parseHex8.Quiet := (quiet_parseHex (by omega)).bind fun _ => Lib.Reader.quiet_pure _

theorem quiet_expect_some {text : List Byte} (some : text ≠ []) : (expect text).Quiet := by
  obtain ⟨c, rest, letters⟩ := List.exists_cons_of_ne_nil some
  rw [letters]
  exact Lib.Reader.quiet_expect

theorem label_ne_nil (name : String) : label name ≠ [] :=
  List.append_ne_nil_of_right_ne_nil _ (by decide)

theorem quiet_cell (name : String) : (cell name).Quiet :=
  (quiet_expect_some (label_ne_nil name)).bind fun _ =>
    quiet_parseHex4.bind fun _ => (Lib.Reader.quiet_skipWhile isSpace).bind fun _ => Lib.Reader.quiet_pure _

theorem takes_cell (field : Cell) (spaces : ∀ c ∈ field.gap, isSpace c = true) :
    (cell field.name).Takes field.text field.digits.word
      (fun c => isSpace c = false ∧ (field.gap = [] → isHex c = false)) := by
  have gap : (skipSpaces >>= fun _ => (pure field.digits.word : Reader Byte (BitVec 16))).Takes field.gap
      field.digits.word (fun c => isSpace c = false) :=
    (Lib.Reader.takes_skipWhile spaces).map fun _ => field.digits.word
  have value : (parseHex4 >>= fun value => skipSpaces >>= fun _ => (pure value : Reader Byte (BitVec 16))).Takes
      (field.digits.text ++ field.gap) field.digits.word
      (fun c => isSpace c = false ∧ (field.gap = [] → isHex c = false)) := by
    refine (takes_parseHex4 field.digits).bind (gap.weaken fun c may => may.1) ?_ ?_ ?_
    · exact fun _ => (Lib.Reader.quiet_skipWhile isSpace).bind fun _ => Lib.Reader.quiet_pure _
    · intro c first
      exact not_isHex_of_isBlank (isBlank_of_isSpace (spaces c (List.mem_of_mem_head? first)))
    · exact fun none c may => may.2 none
  have name : (expect (label field.name)).Takes _ () (fun _ => True) := Lib.Reader.takes_expect _
  refine name.bind value ?_ ?_ ?_
  · exact fun _ => quiet_parseHex4.bind fun _ => (Lib.Reader.quiet_skipWhile isSpace).bind fun _ =>
      Lib.Reader.quiet_pure _
  · exact fun _ _ => trivial
  · exact fun _ _ _ => trivial

theorem quiet_cells (names : List String) : (cells names).Quiet := by
  induction names with
  | nil => exact Lib.Reader.quiet_pure _
  | cons name names ih => exact (quiet_cell name).bind fun _ => ih.bind fun _ => Lib.Reader.quiet_pure _

/-- A name does not begin with a space. -/
def Named (name : String) : Prop := (label name).head?.all (!isSpace ·) = true

theorem named_names : ∀ name ∈ gnames ++ snames, Named name := by
  unfold Named
  decide

theorem Named.head {field : Cell} (named : Named field.name) {rest : List Byte} :
    ∀ c ∈ (field.text ++ rest).head?, isSpace c = false := by
  intro c first
  have some := label_ne_nil field.name
  unfold Named at named
  rw [Cell.text, List.append_assoc] at first
  cases letters : label field.name with
  | nil => exact absurd letters some
  | cons letter letters' =>
      rw [letters] at first named
      obtain rfl := Option.some.inj first
      simpa using named

theorem starts_rowText (field : Cell) (row : List Cell) (rest : List Byte) :
    label field.name <+: rowText (field :: row) ++ rest := by
  refine ⟨field.digits.text ++ field.gap ++ (rowText row ++ rest), ?_⟩
  rw [rowText, rowText, List.flatMap_cons, Cell.text]
  simp only [List.append_assoc]

theorem rowText_ne_nil (row : List Cell) (last : Cell) : rowText (row ++ [last]) ≠ [] := by
  have some : last.text ≠ [] := List.append_ne_nil_of_left_ne_nil (label_ne_nil last.name) _
  rw [rowText, List.flatMap_append]
  exact List.append_ne_nil_of_right_ne_nil _ (by simpa using some)

theorem takes_cells (row : List Cell) (last : Cell) (gaps : ∀ field ∈ row, field.gap ≠ [])
    (spaces : ∀ field ∈ row ++ [last], ∀ c ∈ field.gap, isSpace c = true)
    (named : ∀ field ∈ row ++ [last], Named field.name) :
    (cells ((row ++ [last]).map Cell.name)).Takes (rowText (row ++ [last])) ((row ++ [last]).map fun f => f.digits.word)
      (fun c => isSpace c = false ∧ (last.gap = [] → isHex c = false)) := by
  induction row with
  | nil =>
      have one := takes_cell last (spaces last (by simp))
      have text : rowText ([] ++ [last]) = last.text := List.append_nil _
      rw [text]
      exact one.map fun value => [value]
  | cons field row ih =>
      have rest := ih (fun f inside => gaps f (List.mem_cons_of_mem _ inside))
        (fun f inside => spaces f (List.mem_cons_of_mem _ inside))
        (fun f inside => named f (List.mem_cons_of_mem _ inside))
      have one : (cell field.name).Takes field.text field.digits.word (fun c => isSpace c = false) :=
        (takes_cell field (spaces field (by simp))).weaken
          fun c may => ⟨may, fun none => absurd none (gaps field (by simp))⟩
      have text : rowText (field :: row ++ [last]) = field.text ++ rowText (row ++ [last]) := rfl
      rw [text]
      refine one.bind (rest.map fun values => field.digits.word :: values) ?_ ?_ ?_
      · exact fun _ => (quiet_cells _).bind fun _ => Lib.Reader.quiet_pure _
      · obtain ⟨first, others, shape⟩ := List.exists_cons_of_ne_nil (List.concat_ne_nil last row)
        rw [shape]
        exact (named first (by rw [List.cons_append, shape]; simp)).head
      · exact fun none => absurd none (rowText_ne_nil row last)

/-- A line end goes on with a blank that is no space. -/
theorem LineEnd.breaks (lineEnd : LineEnd) : ∃ c rest, lineEnd.text.dropWhile isSpace = c :: rest ∧
    isSpace c = false ∧ isHex c = false := by
  cases shape : lineEnd.text.dropWhile isSpace with
  | nil =>
      have all := List.dropWhile_eq_nil_iff.mp shape newline lineEnd.ends
      cases all
  | cons c rest =>
      have first := List.head?_dropWhile_not isSpace lineEnd.text
      rw [shape] at first
      have inside : c ∈ lineEnd.text := by
        apply (List.dropWhile_suffix isSpace).subset
        rw [shape]
        exact List.mem_cons_self
      exact ⟨c, rest, rfl, first, not_isHex_of_isBlank (lineEnd.blanks c inside)⟩

/-- No field begins in blanks. -/
theorem absent_blanks {blanks name : List Byte} {c : Byte} (all : ∀ b ∈ blanks, isBlank b = true)
    (letter : isBlank c = false) : ¬name ++ [c] <:+: blanks := by
  intro inside
  have blank := all c (inside.subset (by simp))
  rw [letter] at blank
  cases blank

end Fields

section Rows

variable (layout : Layout) (dump : Dump) {pre : List Byte}

def gprWords : List (BitVec 16) := (gprRow layout dump ++ [gprLast layout dump]).map fun f => f.digits.word

def segWords : List (BitVec 16) := (segRow layout dump ++ [segLast layout dump]).map fun f => f.digits.word

theorem takes_gprs : (cells gnames).Takes (rowText (gprRow layout dump ++ [gprLast layout dump]))
    (gprWords layout dump) (fun c => isSpace c = false ∧ isHex c = false) := by
  have last : ∀ c ∈ (gprLast layout dump).gap, isSpace c = true := fun c inside => List.mem_takeWhile_imp inside
  have row := takes_cells (gprRow layout dump) (gprLast layout dump) ?_ ?_ ?_
  · exact row.weaken fun c may => ⟨may.1, fun _ => may.2⟩
  · intro field inside
    simp only [gprRow, List.mem_cons, List.not_mem_nil, or_false] at inside
    rcases inside with rfl | rfl | rfl | rfl | rfl | rfl | rfl <;> exact (layout.gprGaps _).some
  · intro field inside
    simp only [gprRow, List.cons_append, List.nil_append, List.mem_cons, List.not_mem_nil, or_false] at inside
    rcases inside with rfl | rfl | rfl | rfl | rfl | rfl | rfl | rfl
    case inr.inr.inr.inr.inr.inr.inr => exact last
    all_goals exact (layout.gprGaps _).spaces
  · intro field inside
    have listed : field.name ∈ gnames := List.mem_map_of_mem inside
    exact named_names _ (List.mem_append_left _ listed)

theorem takes_segs : (cells snames).Takes (rowText (segRow layout dump ++ [segLast layout dump]))
    (segWords layout dump) (fun c => isSpace c = false) := by
  have row := takes_cells (segRow layout dump) (segLast layout dump) ?_ ?_ ?_
  · exact row.weaken fun c may => ⟨may, fun none => absurd none (layout.segGaps 3).some⟩
  · intro field inside
    simp only [segRow, List.mem_cons, List.not_mem_nil, or_false] at inside
    rcases inside with rfl | rfl | rfl <;> exact (layout.segGaps _).some
  · intro field inside
    simp only [segRow, List.cons_append, List.nil_append, List.mem_cons, List.not_mem_nil, or_false] at inside
    rcases inside with rfl | rfl | rfl | rfl <;> exact (layout.segGaps _).spaces
  · intro field inside
    have listed : field.name ∈ snames := List.mem_map_of_mem inside
    exact named_names _ (List.mem_append_right _ listed)

theorem quiet_flags (seg : List (BitVec 16)) : (expect (label "FL") >>= fun _ => parseHex8 >>= fun rawFl =>
    (pure (seg, rawFl) : Reader Byte _)).Quiet :=
  (quiet_expect_some (by decide)).bind fun _ => quiet_parseHex8.bind fun _ => Lib.Reader.quiet_pure _

theorem quiet_parseSegments : parseSegments.Quiet :=
  (Lib.Reader.quiet_find _ (by decide)).bind fun _ => (quiet_cells _).bind quiet_flags

theorem takes_segments {before : List Byte} (blanks : ∀ b ∈ before, isBlank b = true) : parseSegments.Takes
    (before ++ (rowText (segRow layout dump ++ [segLast layout dump]) ++ (label "FL" ++ dump.fl.text)))
    (segWords layout dump, dump.fl.doubleWord) (fun c => isHex c = false) := by
  have flags (seg : List (BitVec 16)) : (expect (label "FL") >>= fun _ => parseHex8 >>= fun rawFl =>
      (pure (seg, rawFl) : Reader Byte _)).Takes (label "FL" ++ dump.fl.text) (seg, dump.fl.doubleWord)
      (fun c => isHex c = false) := by
    have name : (expect (label "FL")).Takes _ () (fun _ => True) := Lib.Reader.takes_expect _
    refine name.bind ((takes_parseHex8 dump.fl).map fun rawFl => (seg, rawFl)) ?_ ?_ ?_
    · exact fun _ => quiet_parseHex8.bind fun _ => Lib.Reader.quiet_pure _
    · exact fun _ _ => trivial
    · exact fun _ _ _ => trivial
  have row : (cells snames >>= fun seg => expect (label "FL") >>= fun _ => parseHex8 >>= fun rawFl =>
      (pure (seg, rawFl) : Reader Byte _)).Takes
      (rowText (segRow layout dump ++ [segLast layout dump]) ++ (label "FL" ++ dump.fl.text))
      (segWords layout dump, dump.fl.doubleWord) (fun c => isHex c = false) := by
    refine (takes_segs layout dump).bind (flags _) quiet_flags ?_ ?_
    · intro c first
      obtain rfl := Option.some.inj first
      rfl
    · intro none
      cases none
  have absent : ¬label "DS" <:+: before := absent_blanks blanks rfl
  have starts : label "DS" <+: rowText (segRow layout dump ++ [segLast layout dump]) ++ (label "FL" ++ dump.fl.text) :=
    starts_rowText ⟨"DS", dump.seg 0, (layout.segGaps 0).text⟩ _ _
  exact Lib.Reader.takes_find (by decide) absent starts row

/-- The two lines are taken after a text in which no dump begins. -/
theorem takes_rows (absent : ¬label "AX" <:+: pre) : parseRows.Takes (pre ++ rowsText layout dump)
    (gprWords layout dump, segWords layout dump, dump.fl.doubleWord) (fun c => isHex c = false) := by
  have blanks : ∀ b ∈ layout.gprEnd.text.dropWhile isSpace, isBlank b = true :=
    fun b inside => layout.gprEnd.blanks b ((List.dropWhile_suffix _).subset inside)
  have segs := takes_segments layout dump blanks
  obtain ⟨letter, more, shape, space, hex⟩ := layout.gprEnd.breaks
  have row : (cells gnames >>= fun gpr => parseSegments >>= fun row => (pure (gpr, row) : Reader Byte _)).Takes
      (rowsText layout dump) (gprWords layout dump, segWords layout dump, dump.fl.doubleWord)
      (fun c => isHex c = false) := by
    refine (takes_gprs layout dump).bind (segs.map fun row => (gprWords layout dump, row)) ?_ ?_ ?_
    · exact fun _ => quiet_parseSegments.bind fun _ => Lib.Reader.quiet_pure _
    · intro c first
      rw [shape] at first
      obtain rfl := Option.some.inj first
      exact ⟨space, hex⟩
    · rw [shape]
      intro none
      cases none
  have starts : label "AX" <+: rowsText layout dump :=
    starts_rowText ⟨"AX", dump.gpr 0, (layout.gprGaps 0).text⟩ _ _
  exact Lib.Reader.takes_find (by decide) absent starts row

end Rows

open Lib.Reader (Takes Keeps Quiet)

section Position

theorem takes_parsePair (seg off : Digits 4) : parsePair.Takes (seg.text ++ (bytes ":" ++ off.text))
    (seg.word, off.word) (fun c => isHex c = false) := by
  have second : (expect (bytes ":") >>= fun _ => parseHex4 >>= fun off => (pure (seg.word, off) : Reader Byte _)).Takes
      (bytes ":" ++ off.text) (seg.word, off.word) (fun c => isHex c = false) := by
    have colon : (expect (bytes ":")).Takes _ () (fun _ => True) := Lib.Reader.takes_expect _
    refine colon.bind ((takes_parseHex4 off).map fun off => (seg.word, off)) ?_ ?_ ?_
    · exact fun _ => quiet_parseHex4.bind fun _ => Lib.Reader.quiet_pure _
    · exact fun _ _ => trivial
    · exact fun _ _ _ => trivial
  refine (takes_parseHex4 seg).bind second ?_ ?_ ?_
  · exact fun _ => (quiet_expect_some (by decide)).bind fun _ => quiet_parseHex4.bind fun _ => Lib.Reader.quiet_pure _
  · intro c first
    obtain rfl := Option.some.inj first
    rfl
  · intro none
    cases none

/-- A text without the end of a line. -/
def Unfinished (s : List Byte) : Prop := newline ∉ s

theorem keeps_parseHex (count : Nat) : (parseHex count).Keeps Unfinished := by
  intro s unfinished
  unfold parseHex
  split
  · exact .inr ⟨_, _, rfl, fun inside => unfinished (List.mem_of_mem_drop inside)⟩
  · exact .inl rfl

theorem keeps_parseHex4 : parseHex4.Keeps Unfinished := (keeps_parseHex 4).bind fun _ => Lib.Reader.keeps_pure _

theorem keeps_expect (text : List Byte) : (expect text).Keeps Unfinished := by
  intro s unfinished
  unfold expect
  split
  · exact .inr ⟨_, _, rfl, fun inside => unfinished (List.mem_of_mem_drop inside)⟩
  · exact .inl rfl

theorem keeps_parsePair : parsePair.Keeps Unfinished :=
  keeps_parseHex4.bind fun _ => (keeps_expect _).bind fun _ => keeps_parseHex4.bind fun _ => Lib.Reader.keeps_pure _

theorem keeps_findStack : findStack.Keeps Unfinished := by
  intro s unfinished
  unfold findStack
  split
  · rename_i rest found
    obtain ⟨before, rfl, -⟩ := Lib.Reader.findSub_spec found
    exact .inr ⟨_, _, rfl, fun inside => unfinished (List.mem_append_right _ (List.mem_of_mem_drop inside))⟩
  · rw [if_neg unfinished]
    exact .inl rfl

variable (gpr seg : List (BitVec 16)) (rawFl : BitVec 32)

/-- Before its line has arrived the position is not read. -/
theorem parsePosition_unfinished {s : List Byte} (unfinished : Unfinished s) :
    parsePosition gpr seg rawFl s = .incomplete := by
  have none : findSub [newline] s = none :=
    Lib.Reader.findSub_eq_none.mpr fun inside => unfinished (inside.subset List.mem_cons_self)
  have waits : ∀ rest, consume s rest = .incomplete := by
    intro rest
    rw [consume, none]
  unfold parsePosition
  refine (keeps_expect _).waits (fun _ => keeps_parsePair.waits fun _ => keeps_findStack.waits fun _ =>
    keeps_parsePair.waits fun _ rest _ => ?_) s unfinished
  exact Lib.Reader.bind_incomplete (waits rest)

variable (layout : Layout) (dump : Dump)

theorem Dump.shows_regs : Shows dump dump.regs :=
  ⟨rfl, rfl, rfl, rfl, rfl, rfl, fun bit inside => visibleFlags_bit _ bit inside⟩

/-- The line of the position has its stack pointer after blanks. -/
theorem findStack_blanks {rest : List Byte} : findStack (layout.middle ++ (label "SS:SP" ++ rest)) = .ok () rest := by
  have absent : ¬label "SS:SP" <:+: layout.middle ++ bytes "SS:SP" :=
    Lib.Reader.absent_append (by decide) (absent_blanks layout.middleBlanks rfl)
  have found : findSub (label "SS:SP") (layout.middle ++ (label "SS:SP" ++ rest)) = some (label "SS:SP" ++ rest) :=
    Lib.Reader.findSub_first (List.prefix_append _ _) absent
  rw [findStack, found]
  rfl

theorem parsePair_pair (seg off : Digits 4) {c : Byte} (rest : List Byte) (stops : isHex c = false) :
    parsePair (seg.text ++ (bytes ":" ++ off.text) ++ c :: rest) = .ok (seg.word, off.word) (c :: rest) := by
  apply (takes_parsePair seg off).whole
  intro c' first
  obtain rfl := Option.some.inj first
  exact stops

theorem expect_label (name : String) (rest : List Byte) : expect (label name) (label name ++ rest) = .ok () rest := by
  have takes : (expect (label name)).Takes (label name) () (fun _ => True) := Lib.Reader.takes_expect _
  exact takes.whole rest fun _ _ => trivial

/-- After the instruction pointer come blanks, and the end of the line at the latest. -/
theorem not_isHex_head {blanks : List Byte} (all : ∀ b ∈ blanks, isBlank b = true) {c : Byte} {rest : List Byte}
    (stops : isHex c = false) : ∃ c' rest', blanks ++ c :: rest = c' :: rest' ∧ isHex c' = false := by
  cases blanks with
  | nil => exact ⟨c, rest, rfl, stops⟩
  | cons b blanks => exact ⟨b, blanks ++ c :: rest, rfl, not_isHex_of_isBlank (all b List.mem_cons_self)⟩

theorem consume_line {r : List Byte} (line : newline ∈ r) : ∃ left, ∀ s, consume r s = .ok () left := by
  have found : findSub ([] ++ [newline]) r ≠ none := by
    intro none
    apply Lib.Reader.findSub_eq_none.mp none
    obtain ⟨before, after, rfl⟩ := List.append_of_mem line
    exact ⟨before, after, by simp⟩
  obtain ⟨ends, place⟩ := Option.ne_none_iff_exists'.mp found
  rw [List.nil_append] at place
  cases next : findSub [newline] (ends.drop 1) with
  | none => exact ⟨ends.drop 1, fun s => by simp only [consume, place, next]⟩
  | some more => exact ⟨more.drop 1, fun s => by simp only [consume, place, next]⟩

/-- The whole line is read. -/
theorem parsePosition_whole : ∃ rest, parsePosition (gprWords layout dump) (segWords layout dump) dump.fl.doubleWord
    (pointerText dump ++ (layout.middle ++ (stackText dump ++ (layout.tail ++ [newline])))) = .ok dump.regs rest := by
  have blanks : ∀ b ∈ layout.tail, isBlank b = true := by
    intro b inside
    rcases layout.tailSpaces b inside with space | rfl
    · exact isBlank_of_isSpace space
    · rfl
  obtain ⟨c, rest, shape, stops⟩ : ∃ c rest, layout.middle ++ (stackText dump ++ (layout.tail ++ [newline])) =
      c :: rest ∧ isHex c = false := not_isHex_head layout.middleBlanks rfl
  obtain ⟨c', rest', shape', stops'⟩ : ∃ c' rest', layout.tail ++ [newline] = c' :: rest' ∧ isHex c' = false :=
    not_isHex_head blanks rfl
  have position := parsePair_pair dump.cs dump.ip rest stops
  have stack := parsePair_pair dump.ss (dump.gpr 6) rest' stops'
  rw [← shape] at position
  rw [← shape'] at stack
  have pointer : findStack (layout.middle ++ (stackText dump ++ (layout.tail ++ [newline]))) =
      .ok () (dump.ss.text ++ (bytes ":" ++ (dump.gpr 6).text) ++ (layout.tail ++ [newline])) := by
    rw [stackText, List.append_assoc]
    exact findStack_blanks layout
  generalize line : pointerText dump ++ (layout.middle ++ (stackText dump ++ (layout.tail ++ [newline]))) = r
  obtain ⟨left, consumed⟩ : ∃ left, ∀ s, consume r s = .ok () left := consume_line (by simp [← line])
  have name : expect (label "CS:IP") r = .ok () (dump.cs.text ++ (bytes ":" ++ dump.ip.text) ++
      (layout.middle ++ (stackText dump ++ (layout.tail ++ [newline])))) := by
    rw [← line, pointerText, List.append_assoc]
    exact expect_label "CS:IP" _
  refine ⟨left, ?_⟩
  unfold parsePosition
  rw [Lib.Reader.bind_ok name, Lib.Reader.bind_ok position, Lib.Reader.bind_ok pointer, Lib.Reader.bind_ok stack,
    Lib.Reader.bind_ok (consumed _)]
  rfl

/-- A line that ends before its stack pointer is given up. -/
theorem parsePosition_garbage {before : List Byte} (blanks : ∀ b ∈ before, isBlank b = true) :
    parsePosition gpr seg rawFl (pointerText dump ++ (before ++ [newline])) = .garbage := by
  obtain ⟨c, rest, shape, stops⟩ : ∃ c rest, before ++ [newline] = c :: rest ∧ isHex c = false :=
    not_isHex_head blanks rfl
  have position := parsePair_pair dump.cs dump.ip rest stops
  rw [← shape] at position
  have absent : findSub (label "SS:SP") (before ++ [newline]) = none := by
    apply Lib.Reader.findSub_eq_none.mpr
    apply absent_blanks
    · intro b inside
      rcases List.mem_append.mp inside with early | last
      · exact blanks b early
      · rw [List.mem_singleton.mp last]
        rfl
    · rfl
  have stack : findStack (before ++ [newline]) = .garbage := by
    rw [findStack, absent]
    exact if_pos (by simp)
  unfold parsePosition
  rw [pointerText, List.append_assoc, Lib.Reader.bind_ok (expect_label "CS:IP" _), Lib.Reader.bind_ok position,
    Lib.Reader.bind_garbage stack]

end Position

end Dis86.Dosdebug
