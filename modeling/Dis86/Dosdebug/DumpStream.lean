import Dis86.Dosdebug.DumpText

namespace Dis86.Dosdebug
open Lib (Reader Reading)
open Lib.Reader (expect find findSub)

section Parts

variable {layout : Layout} {dump : Dump} {pre : List Byte}

/-- After the rows the line of the position is looked for. -/
theorem parse_afterRows (absent : ¬label "AX" <:+: pre) (rest : List Byte)
    (stops : ∀ c ∈ rest.head?, isHex c = false) : parseRegsFromBuffer (pre ++ rowsText layout dump ++ rest) =
      (find (label "CS:IP") >>= fun _ =>
        parsePosition (gprWords layout dump) (segWords layout dump) dump.fl.doubleWord) rest := by
  rw [parseRegsFromBuffer, Lib.Reader.bind_ok ((takes_rows layout dump absent).whole rest stops)]

theorem parse_beforeRows (absent : ¬label "AX" <:+: pre) {part : List Byte}
    (inside : part <+: pre ++ rowsText layout dump) (other : part ≠ pre ++ rowsText layout dump) :
    parseRegsFromBuffer part = .incomplete := by
  rcases (takes_rows layout dump absent).part part inside other with more | ⟨rows, none⟩
  · exact Lib.Reader.bind_incomplete more
  · rw [parseRegsFromBuffer, Lib.Reader.bind_ok none]
    exact Lib.Reader.bind_incomplete rfl

theorem segEnd_head (layout : Layout) (rest : List Byte) :
    ∀ c ∈ (layout.segEnd.text ++ rest).head?, isHex c = false := by
  intro c first
  cases shape : layout.segEnd.text with
  | nil =>
      have ends := layout.segEnd.ends
      rw [shape] at ends
      cases ends
  | cons c' blanks =>
      rw [shape] at first
      obtain rfl := Option.some.inj first
      exact not_isHex_of_isBlank (layout.segEnd.blanks c' (by rw [shape]; exact List.mem_cons_self))

theorem segEnd_absent (layout : Layout) : ¬label "CS:IP" <:+: layout.segEnd.text ++ bytes "CS:IP" :=
  Lib.Reader.absent_append (by decide) (absent_blanks layout.segEnd.blanks rfl)

/-- The line of the position is read from its place. -/
theorem parse_atLine (absent : ¬label "AX" <:+: pre) {line : List Byte} (starts : label "CS:IP" <+: line) :
    parseRegsFromBuffer (pre ++ rowsText layout dump ++ (layout.segEnd.text ++ line)) =
      parsePosition (gprWords layout dump) (segWords layout dump) dump.fl.doubleWord line := by
  have found : find (label "CS:IP") (layout.segEnd.text ++ line) = .ok () line := by
    rw [find]
    have place : findSub (label "CS:IP") (layout.segEnd.text ++ line) = some line :=
      Lib.Reader.findSub_first starts (segEnd_absent layout)
    rw [place]
  rw [parse_afterRows absent _ (segEnd_head layout _), Lib.Reader.bind_ok found]

/-- A part of a dump up to its last line is not complete, or it is read like the line. -/
theorem parse_part (absent : ¬label "AX" <:+: pre) {line part : List Byte} (starts : label "CS:IP" <+: line)
    (inside : part <+: pre ++ rowsText layout dump ++ (layout.segEnd.text ++ line)) :
    parseRegsFromBuffer part = .incomplete ∨ ∃ begun, begun <+: line ∧
      part = pre ++ rowsText layout dump ++ (layout.segEnd.text ++ begun) ∧ parseRegsFromBuffer part =
        parsePosition (gprWords layout dump) (segWords layout dump) dump.fl.doubleWord begun := by
  rcases List.prefix_or_prefix_of_prefix inside (List.prefix_append _ _) with early | late
  · by_cases all : part = pre ++ rowsText layout dump
    · refine .inl ?_
      rw [all, ← List.append_nil (pre ++ rowsText layout dump), parse_afterRows absent [] fun c first => nomatch first]
      exact Lib.Reader.bind_incomplete rfl
    · exact .inl (parse_beforeRows absent early all)
  · obtain ⟨rest, rfl⟩ := late
    have within := (List.prefix_append_right_inj _).mp inside
    by_cases named : layout.segEnd.text ++ label "CS:IP" <+: rest
    · obtain ⟨more, rfl⟩ := named
      rw [List.append_assoc layout.segEnd.text] at within ⊢
      exact .inr ⟨_, (List.prefix_append_right_inj _).mp within, rfl, parse_atLine absent (List.prefix_append _ _)⟩
    · refine .inl ?_
      have upTo : layout.segEnd.text ++ label "CS:IP" <+: layout.segEnd.text ++ line :=
        (List.prefix_append_right_inj _).mpr starts
      have short := (List.prefix_or_prefix_of_prefix within upTo).resolve_right named
      have shorter : rest <+: layout.segEnd.text ++ bytes "CS:IP" := by
        rw [label, ← List.append_assoc] at short named
        rcases List.prefix_concat_iff.mp short with all | shorter
        · exact absurd (all ▸ List.prefix_rfl) named
        · exact shorter
      have missing : findSub (label "CS:IP") rest = none :=
        Lib.Reader.findSub_eq_none.mpr fun again => segEnd_absent layout (again.trans shorter.isInfix)
      have stops : ∀ c ∈ rest.head?, isHex c = false := by
        obtain ⟨more, same⟩ := within
        intro c first
        apply segEnd_head layout line c
        rw [← same]
        cases rest with
        | nil => cases first
        | cons c' rest => exact first
      rw [parse_afterRows absent rest stops]
      apply Lib.Reader.bind_incomplete
      rw [find, missing]

theorem not_newline_digits {count : Nat} (digits : Digits count) : Unfinished digits.text := by
  intro inside
  have hex := digits.hex newline inside
  cases hex

theorem unfinished_append {s t : List Byte} (first : Unfinished s) (second : Unfinished t) : Unfinished (s ++ t) := by
  intro inside
  rcases List.mem_append.mp inside with left | right
  · exact first left
  · exact second right

theorem unfinished_pair (name : String) (seg off : Digits 4) (plain : Unfinished (label name)) :
    Unfinished (label name ++ (seg.text ++ (bytes ":" ++ off.text))) := by
  have colon : Unfinished (bytes ":") := by
    unfold Unfinished
    decide
  exact unfinished_append plain
    (unfinished_append (not_newline_digits seg) (unfinished_append colon (not_newline_digits off)))

theorem unfinished_pointerText (dump : Dump) : Unfinished (pointerText dump) :=
  unfinished_pair "CS:IP" dump.cs dump.ip (by unfold Unfinished; decide)

theorem unfinished_stackText (dump : Dump) : Unfinished (stackText dump) :=
  unfinished_pair "SS:SP" dump.ss (dump.gpr 6) (by unfold Unfinished; decide)

theorem unfinished_tail (layout : Layout) : Unfinished layout.tail := by
  intro inside
  rcases layout.tailSpaces newline inside with space | other
  · cases space
  · exact absurd other (by decide)

/-- A line whose end has not arrived is not complete. -/
theorem parse_unended (absent : ¬label "AX" <:+: pre) {line part : List Byte} (starts : label "CS:IP" <+: line)
    (unfinished : Unfinished line)
    (inside : part <+: pre ++ rowsText layout dump ++ (layout.segEnd.text ++ (line ++ [newline])))
    (other : part ≠ pre ++ rowsText layout dump ++ (layout.segEnd.text ++ (line ++ [newline]))) :
    parseRegsFromBuffer part = .incomplete := by
  rcases parse_part absent (starts.trans (List.prefix_append _ _)) inside with more | ⟨begun, within, rfl, read⟩
  · exact more
  · rw [read]
    apply parsePosition_unfinished
    rcases List.prefix_concat_iff.mp within with all | short
    · exact absurd (by rw [all]) other
    · exact fun ends => unfinished (short.subset ends)

/-- The line of the position without its end. -/
def positionText (layout : Layout) (dump : Dump) : List Byte :=
  pointerText dump ++ (layout.middle ++ (stackText dump ++ layout.tail))

theorem text_eq (layout : Layout) (dump : Dump) (pre : List Byte) : pre ++ dump.text layout =
    pre ++ rowsText layout dump ++ (layout.segEnd.text ++ (positionText layout dump ++ [newline])) := by
  simp only [Dump.text, positionText, List.append_assoc]

theorem starts_pointerText (dump : Dump) (rest : List Byte) : label "CS:IP" <+: pointerText dump ++ rest :=
  (List.prefix_append (label "CS:IP") _).trans (List.prefix_append _ _)

/-- A complete dump is read. -/
theorem parse_whole (layout : Layout) (dump : Dump) (absent : ¬label "AX" <:+: pre) :
    ∃ rest, parseRegsFromBuffer (pre ++ dump.text layout) = .ok dump.regs rest := by
  obtain ⟨rest, whole⟩ := parsePosition_whole layout dump
  refine ⟨rest, ?_⟩
  have line : positionText layout dump ++ [newline] =
      pointerText dump ++ (layout.middle ++ (stackText dump ++ (layout.tail ++ [newline]))) := by
    simp only [positionText, List.append_assoc]
  rw [text_eq, line, parse_atLine absent (starts_pointerText dump _), whole]

/-- A part of a dump is not read, as long as its last line ends behind the stack pointer. -/
theorem parse_unfinished (absent : ¬label "AX" <:+: pre) (oneLine : newline ∉ layout.middle) {part : List Byte}
    (inside : part <+: pre ++ dump.text layout) (other : part ≠ pre ++ dump.text layout) :
    parseRegsFromBuffer part = .incomplete := by
  rw [text_eq] at inside other
  have unfinished : Unfinished (positionText layout dump) :=
    unfinished_append (unfinished_pointerText dump)
      (unfinished_append oneLine (unfinished_append (unfinished_stackText dump) (unfinished_tail layout)))
  exact parse_unended absent (starts_pointerText dump _) unfinished inside other

end Parts

/-- Every dump of a layout is read after some output, however the stream is cut, and no part of it is. -/
structure ReadsDumps (pre : List Byte) (layout : Layout) : Prop where
  reads : ∀ (dump : Dump) (buf : List Byte) (chunks : List (List Byte)),
    buf ++ chunks.flatten = pre ++ dump.text layout →
    buf.length ≤ bufSize → ∃ regs, readDumpBlock buf chunks = some regs ∧ Shows dump regs
  waits : ∀ (dump : Dump) (part : List Byte), part <+: pre ++ dump.text layout → part ≠ pre ++ dump.text layout →
    ∀ regs rest, parseRegsFromBuffer part ≠ .ok regs rest

section Streams

variable {layout : Layout} {dump : Dump} {pre : List Byte}

theorem readDumpBlock_whole (absent : ¬label "AX" <:+: pre) (oneLine : newline ∉ layout.middle)
    (fits : (pre ++ dump.text layout).length ≤ bufSize) {chunks : List (List Byte)} {buf : List Byte}
    (stream : buf ++ chunks.flatten = pre ++ dump.text layout) : readDumpBlock buf chunks = some dump.regs := by
  obtain ⟨rest, whole⟩ := parse_whole layout dump absent
  induction chunks generalizing buf with
  | nil =>
      rw [List.flatten_nil, List.append_nil] at stream
      rw [readDumpBlock, stream, whole]
  | cons chunk chunks ih =>
      rw [readDumpBlock]
      by_cases complete : buf = pre ++ dump.text layout
      · rw [complete, whole]
      · have part : buf <+: pre ++ dump.text layout := ⟨_, stream⟩
        have lengths := congrArg List.length stream
        rw [List.flatten_cons, List.length_append, List.length_append] at lengths
        have shorter : buf.length < (pre ++ dump.text layout).length :=
          lt_of_le_of_ne part.length_le fun same => complete (part.eq_of_length same)
        have taken : chunk.take (bufSize - buf.length) = chunk := List.take_of_length_le (by omega)
        rw [parse_unfinished absent oneLine part complete, if_neg (by omega), taken]
        apply ih
        rw [← stream, List.flatten_cons, List.append_assoc]

theorem parse_nil : parseRegsFromBuffer [] = .incomplete := rfl

theorem readDumpBlock_first (chunk : List Byte) (chunks : List (List Byte)) :
    readDumpBlock [] (chunk :: chunks) = readDumpBlock (chunk.take bufSize) chunks := by
  rw [readDumpBlock, parse_nil, if_neg (by decide)]
  rfl

/-- What fits the buffer is read at once. -/
theorem readDumpBlock_once {stream : List Byte} {regs : Regs} (read : readDumpBlock [] [stream] = some regs) :
    ∃ rest, parseRegsFromBuffer (stream.take bufSize) = .ok regs rest := by
  rw [readDumpBlock_first, readDumpBlock] at read
  cases parsed : parseRegsFromBuffer (stream.take bufSize) with
  | ok found rest =>
      rw [parsed] at read
      rw [Option.some.inj read]
      exact ⟨rest, rfl⟩
  | incomplete =>
      rw [parsed] at read
      cases read
  | garbage =>
      rw [parsed] at read
      cases read

/-- A dump that does not fit the buffer is not read. -/
theorem fits_of_reads (absent : ¬label "AX" <:+: pre) (oneLine : newline ∉ layout.middle)
    (reads : ReadsDumps pre layout) (dump : Dump) : (pre ++ dump.text layout).length ≤ bufSize := by
  by_contra long
  obtain ⟨regs, read, -⟩ := reads.reads dump [] [pre ++ dump.text layout] (by simp) (by simp)
  obtain ⟨rest, parsed⟩ := readDumpBlock_once read
  have part : (pre ++ dump.text layout).take bufSize <+: pre ++ dump.text layout := List.take_prefix _ _
  have other : (pre ++ dump.text layout).take bufSize ≠ pre ++ dump.text layout := by
    intro same
    have lengths := congrArg List.length same
    rw [List.length_take] at lengths
    omega
  rw [parse_unfinished absent oneLine part other] at parsed
  cases parsed

/-- A dump whose last line is cut before its stack pointer is given up. -/
theorem oneLine_of_reads (absent : ¬label "AX" <:+: pre) (reads : ReadsDumps pre layout) (dump : Dump) :
    newline ∉ layout.middle := by
  intro cut
  obtain ⟨before, after, middle, first⟩ := List.eq_append_cons_of_mem cut
  have blanks : ∀ b ∈ before, isBlank b = true := by
    intro b inside
    exact layout.middleBlanks b (by rw [middle]; exact List.mem_append_left _ inside)
  let start := pre ++ rowsText layout dump ++ (layout.segEnd.text ++ (pointerText dump ++ before ++ [newline]))
  have stream : start ++ (after ++ (stackText dump ++ (layout.tail ++ [newline]))) = pre ++ dump.text layout := by
    rw [text_eq]
    simp only [start, positionText, middle, List.append_assoc, List.cons_append, List.nil_append]
  obtain ⟨regs, read, -⟩ := reads.reads dump [] [start, after ++ (stackText dump ++ (layout.tail ++ [newline]))]
    (by simpa using stream) (by simp)
  rw [readDumpBlock_first, readDumpBlock] at read
  by_cases fits : start.length ≤ bufSize
  · have garbage : parseRegsFromBuffer start = .garbage := by
      rw [parse_atLine absent (by rw [List.append_assoc]; exact starts_pointerText dump _), List.append_assoc]
      exact parsePosition_garbage _ _ _ dump blanks
    rw [List.take_of_length_le fits, garbage] at read
    cases read
  · have full : (start.take bufSize).length = bufSize := by
      rw [List.length_take]
      omega
    have other : start.take bufSize ≠ start := by
      intro same
      rw [same] at full
      omega
    have unfinished : Unfinished (pointerText dump ++ before) :=
      unfinished_append (unfinished_pointerText dump) first
    rw [parse_unended absent (starts_pointerText dump _) unfinished (List.take_prefix _ _) other] at read
    simp only [full] at read
    cases read

/-- The first register is the one behind the first name. -/
theorem parse_ax {part rest : List Byte} {regs : Regs} (read : parseRegsFromBuffer part = .ok regs rest) :
    ∃ named rest', findSub (label "AX") part = some named ∧ parseHex4 (named.drop 3) = .ok regs.ax rest' := by
  obtain ⟨rows, middle, readRows, read⟩ := Lib.Reader.bind_eq_ok read
  obtain ⟨_, line, -, read⟩ := Lib.Reader.bind_eq_ok read
  unfold parsePosition at read
  obtain ⟨_, _, -, read⟩ := Lib.Reader.bind_eq_ok read
  obtain ⟨_, _, -, read⟩ := Lib.Reader.bind_eq_ok read
  obtain ⟨_, _, -, read⟩ := Lib.Reader.bind_eq_ok read
  obtain ⟨_, _, -, read⟩ := Lib.Reader.bind_eq_ok read
  obtain ⟨_, _, -, read⟩ := Lib.Reader.bind_eq_ok read
  obtain ⟨rfl, -⟩ := Reading.ok.inj read
  obtain ⟨_, named, found, readRows⟩ := Lib.Reader.bind_eq_ok readRows
  obtain ⟨gpr, _, readGpr, readRows⟩ := Lib.Reader.bind_eq_ok readRows
  obtain ⟨_, _, -, readRows⟩ := Lib.Reader.bind_eq_ok readRows
  obtain ⟨rfl, -⟩ := Reading.ok.inj readRows
  obtain ⟨ax, _, readCell, readGpr⟩ := Lib.Reader.bind_eq_ok readGpr
  obtain ⟨others, _, -, readGpr⟩ := Lib.Reader.bind_eq_ok readGpr
  obtain ⟨rfl, -⟩ := Reading.ok.inj readGpr
  obtain ⟨_, digits, name, readCell⟩ := Lib.Reader.bind_eq_ok readCell
  obtain ⟨value, left, readValue, readCell⟩ := Lib.Reader.bind_eq_ok readCell
  obtain ⟨_, _, -, readCell⟩ := Lib.Reader.bind_eq_ok readCell
  obtain ⟨rfl, -⟩ := Reading.ok.inj readCell
  refine ⟨named, left, ?_, ?_⟩
  · unfold find at found
    split at found
    · rename_i place
      rw [place, (Reading.ok.inj found).2]
    · cases found
  · unfold expect at name
    split at name
    · have behind : named.drop 3 = digits := (Reading.ok.inj name).2
      rw [behind]
      exact readValue
    · cases name

/-- The digits of a register come first, and nothing else is read. -/
theorem parseHex4_eq_ok {s rest : List Byte} {value : BitVec 16} (read : parseHex4 s = .ok value rest) :
    (s.take 4).length = 4 ∧ (∀ c ∈ s.take 4, isHex c = true) ∧ value = .ofNat 16 (hexNumber (s.take 4)) := by
  obtain ⟨number, _, parsed, read⟩ := Lib.Reader.bind_eq_ok read
  obtain ⟨rfl, -⟩ := Reading.ok.inj read
  unfold parseHex at parsed
  split at parsed
  · rename_i digits
    obtain ⟨rfl, -⟩ := Reading.ok.inj parsed
    exact ⟨digits.1, List.all_eq_true.mp digits.2.1, rfl⟩
  · cases parsed

theorem starts_text (layout : Layout) (dump : Dump) : label "AX" <+: dump.text layout := by
  have starts := starts_rowText ⟨"AX", dump.gpr 0, (layout.gprGaps 0).text⟩
    ((gprRow layout dump).drop 1 ++ [gprLast layout dump])
    (layout.gprEnd.text.dropWhile isSpace ++ (rowText (segRow layout dump ++ [segLast layout dump]) ++
      (label "FL" ++ dump.fl.text)))
  exact starts.trans (List.prefix_append _ _)

theorem take_eq_of_begins {A : Type} {part whole : List A} (inside : part <+: whole) {count : Nat}
    (long : count ≤ part.length) : part.take count = whole.take count := by
  obtain ⟨more, rfl⟩ := inside
  rw [List.take_append_of_le_length long]

/-- Where the output names the first register, its digits do not come from the dump. -/
theorem ax_of_output (layout : Layout) (named : label "AX" <:+: pre) (count : Nat) :
    ∃ ax, ∀ (dump : Dump) (regs : Regs) (rest : List Byte),
    parseRegsFromBuffer ((pre ++ dump.text layout).take count) = .ok regs rest → regs.ax = ax := by
  by_cases early : count ≤ pre.length
  · have same : ∀ dump : Dump, (pre ++ dump.text layout).take count = pre.take count :=
      fun dump => List.take_append_of_le_length early
    cases parsed : parseRegsFromBuffer (pre.take count) with
    | ok regs' rest' =>
        refine ⟨regs'.ax, fun dump regs rest read => ?_⟩
        rw [same, parsed] at read
        rw [(Reading.ok.inj read).1]
    | incomplete => exact ⟨0, fun dump regs rest read => by rw [same, parsed] at read; cases read⟩
    | garbage => exact ⟨0, fun dump regs rest read => by rw [same, parsed] at read; cases read⟩
  · obtain ⟨place, found⟩ : ∃ place, findSub (label "AX") pre = some place := by
      apply Option.ne_none_iff_exists'.mp
      exact fun none => Lib.Reader.findSub_eq_none.mp none named
    obtain ⟨before, -, ⟨begun, rfl⟩, -⟩ := Lib.Reader.findSub_spec found
    refine ⟨.ofNat 16 (hexNumber ((begun ++ label "AX").take 4)), fun dump regs rest read => ?_⟩
    rw [List.take_append, List.take_of_length_le (by omega)] at read
    obtain ⟨named', left, found', value⟩ := parse_ax read
    have again := Lib.Reader.findSub_append found ((dump.text layout).take (count - pre.length))
    obtain rfl := Option.some.inj (found'.symm.trans again)
    obtain ⟨full, hex, value⟩ := parseHex4_eq_ok value
    have digits : (label "AX" ++ begun ++ (dump.text layout).take (count - pre.length)).drop 3 =
        begun ++ (dump.text layout).take (count - pre.length) := by
      rw [List.append_assoc]
      rfl
    rw [show bytes "AX" ++ [0x3d] ++ begun = label "AX" ++ begun from rfl, digits] at full hex value
    have part : begun ++ (dump.text layout).take (count - pre.length) <+: begun ++ dump.text layout :=
      (List.prefix_append_right_inj _).mpr (List.take_prefix _ _)
    have first : begun ++ label "AX" <+: begun ++ dump.text layout :=
      (List.prefix_append_right_inj _).mpr (starts_text layout dump)
    rw [List.length_take] at full
    have same : _ = (begun ++ dump.text layout).take 4 := take_eq_of_begins part (by omega)
    rw [value, same]
    by_cases empty : begun = []
    · -- The name of the dump itself is no number.
      obtain ⟨more, text⟩ := starts_text layout dump
      have letter : (0x58 : Byte) ∈ (begun ++ dump.text layout).take 4 := by
        rw [empty, ← text]
        exact List.mem_cons_of_mem _ List.mem_cons_self
      rw [← same] at letter
      have digit := hex _ letter
      cases digit
    · have some := List.length_pos_iff.mpr empty
      have longer : 4 ≤ (begun ++ label "AX").length := by
        rw [List.length_append]
        have three : (label "AX").length = 3 := rfl
        omega
      rw [take_eq_of_begins first longer]

/-- A dump of one digit. -/
def flatDigits (c : Byte) (hex : isHex c = true) (count : Nat) : Digits count where
  text := List.replicate count c
  length := List.length_replicate
  hex := fun _ inside => (List.eq_of_mem_replicate inside) ▸ hex

def flatDump (c : Byte) (hex : isHex c = true) : Dump where
  gpr := fun _ => flatDigits c hex 4
  seg := fun _ => flatDigits c hex 4
  fl := flatDigits c hex 8
  cs := flatDigits c hex 4
  ip := flatDigits c hex 4
  ss := flatDigits c hex 4

/-- Output that names the first register hides the dump. -/
theorem absent_of_reads (reads : ReadsDumps pre layout) : ¬label "AX" <:+: pre := by
  intro named
  obtain ⟨ax, only⟩ := ax_of_output layout named bufSize
  have given : ∀ dump : Dump, ax = (dump.gpr 0).word := by
    intro dump
    obtain ⟨regs, read, shows⟩ := reads.reads dump [] [pre ++ dump.text layout] (by simp) (by simp)
    obtain ⟨rest, parsed⟩ := readDumpBlock_once read
    rw [← only dump regs rest parsed]
    exact (List.cons.inj shows.gpr).1
  have zero := given (flatDump 0x30 rfl)
  have one := given (flatDump 0x31 rfl)
  rw [zero] at one
  exact absurd one (by decide)

end Streams

/-- The dumps of a layout are read after some output exactly when the output does not name the first register, the
stack pointer is on the line of the instruction pointer, and the output and the dump fit the buffer. -/
theorem reads_dumps_iff (pre : List Byte) (layout : Layout) : ReadsDumps pre layout ↔
    ¬label "AX" <:+: pre ∧ newline ∉ layout.middle ∧ ∀ dump : Dump, (pre ++ dump.text layout).length ≤ bufSize := by
  constructor
  · intro reads
    have absent := absent_of_reads reads
    have oneLine := oneLine_of_reads absent reads (flatDump 0x30 rfl)
    exact ⟨absent, oneLine, fits_of_reads absent oneLine reads⟩
  · intro ⟨absent, oneLine, fits⟩
    constructor
    · intro dump buf chunks stream _
      exact ⟨dump.regs, readDumpBlock_whole absent oneLine (fits dump) stream, dump.shows_regs⟩
    · intro dump part inside other regs rest read
      rw [parse_unfinished absent oneLine inside other] at read
      cases read

/-- Single spaces and lines. -/
def plainLayout : Layout where
  gprGaps := fun _ => ⟨[0x20], by simp, by decide⟩
  gprEnd := ⟨[newline], by simp, by decide⟩
  segGaps := fun _ => ⟨[0x20], by simp, by decide⟩
  segEnd := ⟨[newline], by simp, by decide⟩
  middle := [0x20]
  middleBlanks := by decide
  tail := []
  tailSpaces := by simp

/-- After the first line of another dump the registers of that line are returned with the segments of the dump. -/
theorem earlier_line_is_mixed_in :
    let line := bytes "AX=1111 BX=1111 CX=1111 DX=1111 SI=1111 DI=1111 SP=1111 BP=1111" ++ [newline]
    let stream := line ++ (flatDump 0x30 rfl).text plainLayout
    (readDumpBlock [] [stream]).map (fun regs => (regs.ax, regs.bp, regs.ds, regs.cs)) = some (0x1111, 0x1111, 0, 0) ∧
      ¬ReadsDumps line plainLayout := by
  intro line stream
  have mixed : (readDumpBlock [] [stream]).map (fun regs => (regs.ax, regs.bp, regs.ds, regs.cs)) =
      some (0x1111, 0x1111, 0, 0) := by decide +kernel
  refine ⟨mixed, fun reads => ?_⟩
  obtain ⟨regs, read, shows⟩ := reads.reads (flatDump 0x30 rfl) [] [stream] (by simp [stream]) (by decide)
  rw [read] at mixed
  have ax : regs.ax = 0x1111 := congrArg (fun shown => shown.1) (Option.some.inj mixed)
  have zero := (List.cons.inj shows.gpr).1
  rw [ax] at zero
  exact absurd zero (by decide)

end Dis86.Dosdebug
