import Dis86.Bsl.Table
import Dis86.Confgen.BackendsExact
import Dis86.Config.Names
import Dis86.Config.Numbers

namespace Dis86.Confgen
open Annotation (Annotated)
open Bsl (Node Token Value Word Writes isVisible)

structure CodeSegment where
  seg : Int
  name : String

structure Member where
  name : String
  typ : Annotated
  off : Int

structure Structure where
  name : String
  size : Nat
  members : List Member

structure Global where
  name : String
  typ : Annotated
  off : Int

/-- Data without a type is a hole, which declares no access. -/
structure TextData where
  name : String
  startAddr : Addr
  endAddr : Addr
  typ : Option Annotated
  accessAt : Option Addr
  hole : typ = none → accessAt = none

/-- The tables of an annotation file. -/
structure Annotations where
  codeSegments : List CodeSegment
  functions : List Function
  structures : List Structure
  dataSection : List Global
  textSection : List TextData

/-- The bounds of an array behind its base. -/
def typeStr (typ : Annotated) : String :=
  String.ofList (typ.basetype ++ typ.dimensions.flatMap fun n => '[' :: (n.elim [] (Nat.toDigits 10) ++ [']']))

def padRight (width : Nat) (s : String) : String := s ++ String.ofList (List.replicate (width - s.length) ' ')

/-- A line of the parts of a format. -/
def emit (parts : List String) : List Char := parts.flatMap String.toList ++ ['\n']

def genCodeSegments (codeSegments : List CodeSegment) : List Char :=
  emit ["  code_segments \x7b"] ++
    codeSegments.zipIdx.flatMap (fun entry => emit ["    ", "_" ++ formatInt 10 4 entry.2, " \x7b seg ",
      formatInt 10 0 entry.1.seg, " name ", padRight 15 entry.1.name, "  \x7d"]) ++
    emit ["  \x7d"]

def regionParts (region : (Addr × Addr) × Nat) : List String :=
  ["_" ++ formatInt 10 0 region.2, " \x7b start ", region.1.1.str, " end ", region.1.2.str, " \x7d"]

/-- What a function has beyond the properties of every function. -/
def extraParts (func : BslFunction) : List String :=
  (if func.dontPopArgs then ["dont_pop_args 1 "] else []) ++
    (if func.indirectCallLocation then ["indirect_call_location 1 "] else []) ++
    func.entry.elim [] (fun entry => ["entry ", entry.str, " "]) ++
    func.regargs.elim [] (fun regargs => ["regargs ", regargs, " "]) ++
    func.regouts.elim [] (fun regouts => ["regouts ", regouts, " "]) ++
    func.clobbers.elim [] (fun clobbers => ["clobbers ", clobbers, " "]) ++
    (if func.retKindUnknown then ["ret_kind_unknown 1 "] else []) ++
    (if func.regions = [] then []
      else ["regions \x7b "] ++ List.intercalate [" "] (func.regions.zipIdx.map regionParts) ++ [" \x7d "])

def functionParts (func : BslFunction) : List String :=
  ["    ", padRight 30 func.name, " \x7b start ", func.start.str, " end ", func.stop.elim "\"\"" Addr.str, " mode ",
    func.mode, " ret ", func.ret, " args ", func.args.elim "None" (formatInt 10 0), " "] ++ extraParts func ++ ["\x7d "]

def genFunctionsText (functions : List Function) : List Char :=
  emit ["  functions \x7b"] ++ (genFunctions functions).flatMap (fun func => emit (functionParts func)) ++
    emit ["  \x7d"]

def genStructures (structures : List Structure) : List Char :=
  emit ["  structures \x7b"] ++
    structures.flatMap (fun struct =>
      emit ["    ", padRight 15 struct.name, " \x7b size ", formatInt 10 0 struct.size, " members \x7b"] ++
        struct.members.flatMap (fun mbr => emit ["      ", padRight 20 mbr.name, " \x7b type ",
          padRight 15 (typeStr mbr.typ), " off ", "0x" ++ formatInt 16 2 mbr.off, " \x7d"]) ++
        emit ["    \x7d\x7d"]) ++
    emit ["  \x7d"]

def genDataSection (dataSection : List Global) : List Char :=
  emit ["  globals \x7b"] ++
    dataSection.flatMap (fun var => emit ["    ", padRight 30 var.name, " \x7b off ", "0x" ++ formatInt 16 4 var.off,
      "  type ", padRight 20 (typeStr var.typ), " \x7d"]) ++
    emit ["  \x7d"]

def textParts (var : TextData) : List String :=
  match var.typ with
  | none => ["    ", padRight 30 var.name, " \x7b start ", var.startAddr.str, "  end ", var.endAddr.str, " \x7d"]
  | some typ =>
      ["    ", padRight 30 var.name, " \x7b start ", var.startAddr.str, "  end ", var.endAddr.str, " type ",
        padRight 20 (typeStr typ), " "] ++ var.accessAt.elim [] (fun access => ["access ", access.str, " "]) ++ ["\x7d"]

def genTextSection (textSection : List TextData) : List Char :=
  emit ["  text_section \x7b"] ++ textSection.flatMap (fun var => emit (textParts var)) ++ emit ["  \x7d"]

/-- The configuration file. -/
def genConf (data : Annotations) : List Char :=
  emit ["dis86 \x7b"] ++ genCodeSegments data.codeSegments ++ genFunctionsText data.functions ++
    genStructures data.structures ++ genDataSection data.dataSection ++ genTextSection data.textSection ++ emit ["\x7d"]

/-- The entries of the tables, in the order of the file. -/
def codeSegmentEntry (entry : CodeSegment × Nat) : String × Value :=
  ("_" ++ formatInt 10 4 entry.2,
    .node (.ofEntries [("seg", .str (formatInt 10 0 entry.1.seg)), ("name", .str entry.1.name)]))

def regionEntry (region : (Addr × Addr) × Nat) : String × Value :=
  ("_" ++ formatInt 10 0 region.2,
    .node (.ofEntries [("start", .str region.1.1.str), ("end", .str region.1.2.str)]))

def extraEntries (func : BslFunction) : List (String × Value) :=
  (if func.dontPopArgs then [("dont_pop_args", .str "1")] else []) ++
    (if func.indirectCallLocation then [("indirect_call_location", .str "1")] else []) ++
    func.entry.elim [] (fun entry => [("entry", .str entry.str)]) ++
    func.regargs.elim [] (fun regargs => [("regargs", .str regargs)]) ++
    func.regouts.elim [] (fun regouts => [("regouts", .str regouts)]) ++
    func.clobbers.elim [] (fun clobbers => [("clobbers", .str clobbers)]) ++
    (if func.retKindUnknown then [("ret_kind_unknown", .str "1")] else []) ++
    (if func.regions = [] then []
      else [("regions", .node (.ofEntries (func.regions.zipIdx.map regionEntry)))])

def functionEntries (func : BslFunction) : List (String × Value) :=
  [("start", .str func.start.str), ("end", .str (func.stop.elim "" Addr.str)), ("mode", .str func.mode),
    ("ret", .str func.ret), ("args", .str (func.args.elim "None" (formatInt 10 0)))] ++ extraEntries func

def functionEntry (func : BslFunction) : String × Value := (func.name, .node (.ofEntries (functionEntries func)))

def memberEntry (mbr : Member) : String × Value :=
  (mbr.name, .node (.ofEntries [("type", .str (typeStr mbr.typ)), ("off", .str ("0x" ++ formatInt 16 2 mbr.off))]))

def structureEntry (struct : Structure) : String × Value :=
  (struct.name, .node (.ofEntries [("size", .str (formatInt 10 0 struct.size)),
    ("members", .node (.ofEntries (struct.members.map memberEntry)))]))

def globalEntry (var : Global) : String × Value :=
  (var.name, .node (.ofEntries [("off", .str ("0x" ++ formatInt 16 4 var.off)), ("type", .str (typeStr var.typ))]))

def textEntry (var : TextData) : String × Value :=
  (var.name, .node (.ofEntries ([("start", .str var.startAddr.str), ("end", .str var.endAddr.str)] ++
    var.typ.elim [] (fun typ => [("type", .str (typeStr typ))]) ++
    var.accessAt.elim [] (fun access => [("access", .str access.str)]))))

def confTables (data : Annotations) : List (String × Value) :=
  [("code_segments", .node (.ofEntries (data.codeSegments.zipIdx.map codeSegmentEntry))),
    ("functions", .node (.ofEntries ((genFunctions data.functions).map functionEntry))),
    ("structures", .node (.ofEntries (data.structures.map structureEntry))),
    ("globals", .node (.ofEntries (data.dataSection.map globalEntry))),
    ("text_section", .node (.ofEntries (data.textSection.map textEntry)))]

/-- The tree of the configuration file. -/
def confNode (data : Annotations) : Node := .ofEntries [("dis86", .node (.ofEntries (confTables data)))]

/-- What is written without quotes is one word. -/
structure BslFunction.Words (func : BslFunction) : Prop where
  name : Word func.name
  mode : Word func.mode
  ret : Word func.ret
  regargs : ∀ regs ∈ func.regargs, Word regs
  regouts : ∀ regs ∈ func.regouts, Word regs
  clobbers : ∀ regs ∈ func.clobbers, Word regs

/-- The names and the types of the annotations are single words. -/
structure Annotations.Words (data : Annotations) : Prop where
  codeSegments : ∀ cs ∈ data.codeSegments, Word cs.name
  functions : ∀ func ∈ genFunctions data.functions, func.Words
  structures : ∀ struct ∈ data.structures, Word struct.name ∧
    ∀ mbr ∈ struct.members, Word mbr.name ∧ Word (typeStr mbr.typ)
  dataSection : ∀ var ∈ data.dataSection, Word var.name ∧ Word (typeStr var.typ)
  textSection : ∀ var ∈ data.textSection, Word var.name ∧ ∀ typ ∈ var.typ, Word (typeStr typ)

section Words

def isPlain (c : Char) : Bool := isVisible c && c ≠ '{' && c ≠ '}' && c ≠ '"'

def plainText (text : String) : Bool := text.toList.all isPlain

theorem word_of_plain {text : String} (some : text ≠ "") (plain : plainText text = true) : Word text := by
  have parts {c : Char} (inside : c ∈ text.toList) : isVisible c = true ∧ c ≠ '{' ∧ c ≠ '}' ∧ c ≠ '"' := by
    have known := List.all_eq_true.mp plain c inside
    simpa [isPlain, and_assoc] using known
  exact ⟨some, fun c inside => (parts inside).1, fun c first => (parts (List.mem_of_mem_head? first)).2⟩

theorem plainText_append {first second : String} (one : plainText first = true) (two : plainText second = true) :
    plainText (first ++ second) = true := by
  rw [plainText, String.toList_append, List.all_append, Bool.and_eq_true]
  exact ⟨one, two⟩

theorem plainText_formatInt {radix : Nat} (two : 1 < radix) (small : radix ≤ 16) (width : Nat) (n : Int) :
    plainText (formatInt radix width n) = true := by
  have digits (width k : Nat) : ∀ c ∈ zeroPad width (Nat.toDigits radix k), isPlain c = true := by
    intro c inside
    obtain ⟨d, digit, rfl⟩ := mem_zeroPad two inside
    have known := digitChar_plain (digit.trans_le small)
    simp [isPlain, known]
  rw [plainText, formatInt, String.toList_ofList, List.all_eq_true]
  intro c inside
  split at inside
  · cases inside with
    | head => rfl
    | tail _ later => exact digits _ _ c later
  · exact digits _ _ c inside

theorem append_ne_empty {first second : String} (some : second ≠ "") : first ++ second ≠ "" := by
  intro empty
  have chars := congrArg String.toList empty
  rw [String.toList_append] at chars
  exact some (String.toList_inj.mp (List.append_eq_nil_iff.mp chars).2)

theorem formatInt_ne_empty (radix width : Nat) (n : Int) : formatInt radix width n ≠ "" := by
  intro empty
  have chars := congrArg String.toList empty
  rw [formatInt, String.toList_ofList] at chars
  split at chars
  · cases chars
  · exact zeroPad_ne_nil chars

theorem word_formatInt {radix : Nat} (two : 1 < radix) (small : radix ≤ 16) (width : Nat) (n : Int) :
    Word (formatInt radix width n) :=
  word_of_plain (formatInt_ne_empty _ _ _) (plainText_formatInt two small width n)

/-- A number behind a mark is still one word. -/
theorem word_marked {radix : Nat} {mark : String} (plain : plainText mark = true) (two : 1 < radix)
    (small : radix ≤ 16) (width : Nat) (n : Int) : Word (mark ++ formatInt radix width n) :=
  word_of_plain (append_ne_empty (formatInt_ne_empty _ _ _))
    (plainText_append plain (plainText_formatInt two small width n))

theorem word_addr (addr : Addr) : Word addr.str := by
  have mark : plainText (if addr.overlay then "overlay_" else "") = true := by cases addr.overlay <;> rfl
  have colon : plainText ":" = true := rfl
  have numbers (n : Int) := plainText_formatInt (show 1 < 16 by omega) le_rfl 4 n
  exact word_of_plain (append_ne_empty (formatInt_ne_empty _ _ _))
    (plainText_append (plainText_append (plainText_append mark (numbers _)) colon) (numbers _))

end Words

section Lines

variable {after : List Char} {more tokens : List Token}

/-- A word of a table, with the spaces up to its width. -/
theorem writes_padded {word : String} (width : Nat) (plain : Word word)
    (starts : Bsl.startsWhite after = true) (writes : Writes after more) :
    Writes ((padRight width word).toList ++ after) (.str word :: more) := by
  rw [padRight, String.toList_append, String.toList_ofList, List.append_assoc]
  have white : ∀ c ∈ List.replicate (width - word.length) ' ', Bsl.isWhite c = true := by
    intro c inside
    rw [List.eq_of_mem_replicate inside]
    rfl
  have padded : Writes (List.replicate (width - word.length) ' ' ++ after) more := by
    intro rest others later
    rw [List.append_assoc]
    exact (writes rest others later).spaces white
  refine plain.writes ?_ padded
  cases width - word.length with
  | zero => exact starts
  | succ k => exact rfl

theorem writes_line {parts : List String} (writes : Writes (parts.flatMap String.toList ++ ['\n']) tokens) :
    Writes (emit parts) tokens := writes

theorem writes_newline : Writes ['\n'] [] := by
  have closed : Bsl.constant "\n" [] = true := by decide
  exact Writes.constant closed .nil

theorem writes_constant {text : String} (closed : Bsl.constant (text ++ "\n") tokens = true) :
    Writes (emit [text]) tokens := by
  have writes := Writes.constant closed .nil
  rw [List.append_nil, List.append_nil, String.toList_append] at writes
  rw [emit, List.flatMap_singleton]
  exact writes

/-- A table between its braces, with a line for each entry. -/
theorem writes_section {A : Type} {l : List A} {line : A → List Char} {entry : A → String × Value}
    {name opening closing : String} (opens : Bsl.constant (opening ++ "\n") [.str name, .openBrace] = true)
    (closes : Bsl.constant (closing ++ "\n") [.closeBrace] = true)
    (each : ∀ a ∈ l, Writes (line a) (Bsl.entryTokens (entry a))) :
    Writes (emit [opening] ++ l.flatMap line ++ emit [closing])
      (Bsl.entryTokens (name, .node (.ofEntries (l.map entry)))) := by
  have whole := ((writes_constant opens).append (Writes.flatMap each)).append (writes_constant closes)
  simpa [Bsl.entryTokens, Value.tokens, Node.tokens_ofEntries, List.flatMap_map] using whole

/-- A property that is always the same. -/
theorem writes_flag (on : Bool) {text key value : String}
    (closed : Bsl.constant text [.str key, .str value] = true) (writes : Writes after more) :
    Writes ((if on = true then [text] else []).flatMap String.toList ++ after)
      ((if on = true then [(key, Value.str value)] else []).flatMap Bsl.entryTokens ++ more) := by
  cases on with
  | false => exact writes
  | true =>
      rw [if_pos rfl, if_pos rfl, List.flatMap_singleton, List.flatMap_singleton]
      exact Writes.constant closed writes

/-- A property that may be absent. -/
theorem writes_property {A : Type} (given : Option A) (spell : A → String) {text key : String}
    (words : ∀ a ∈ given, Word (spell a)) (closed : Bsl.constant text [.str key] = true)
    (writes : Writes after more) :
    Writes ((given.elim [] fun a => [text, spell a, " "]).flatMap String.toList ++ after)
      ((given.elim [] fun a => [(key, Value.str (spell a))]).flatMap Bsl.entryTokens ++ more) := by
  cases given with
  | none => exact writes
  | some a =>
      have space : Bsl.constant " " [] = true := by decide
      have behind := Writes.constant space writes
      have value := (words a rfl).writes rfl behind
      have whole := Writes.constant closed value
      simpa [Bsl.entryTokens, Value.tokens] using whole

/-- A constant part with a word behind it. -/
theorem writes_field {text word : String} (closed : Bsl.constant text tokens = true) (plain : Word word)
    (starts : Bsl.startsWhite after = true) (writes : Writes after more) :
    Writes (text.toList ++ (word.toList ++ after)) (tokens ++ .str word :: more) :=
  Writes.constant closed (plain.writes starts writes)

/-- An address that may be absent stands between quotes then. -/
theorem writes_stop (stop : Option Addr) (starts : Bsl.startsWhite after = true)
    (writes : Writes after more) :
    Writes ((stop.elim "\"\"" Addr.str).toList ++ after) (.str (stop.elim "" Addr.str) :: more) := by
  cases stop with
  | none => exact writes.empty
  | some addr => exact (word_addr addr).writes starts writes

theorem word_decimal (n : Int) : Word (formatInt 10 0 n) := word_formatInt (by omega) (by omega) 0 n

theorem word_args (args : Option Int) : Word (args.elim "None" (formatInt 10 0)) := by
  cases args with
  | none => exact word_of_plain (by decide) rfl
  | some n => exact word_decimal n

theorem word_index (width : Nat) (n : Int) : Word ("_" ++ formatInt 10 width n) :=
  word_marked rfl (by omega) (by omega) width n

theorem word_hex (width : Nat) (n : Int) : Word ("0x" ++ formatInt 16 width n) :=
  word_marked rfl (by omega) (by omega) width n

theorem writes_region (region : (Addr × Addr) × Nat) (writes : Writes after more) :
    Writes ((regionParts region).flatMap String.toList ++ after) (Bsl.entryTokens (regionEntry region) ++ more) := by
  have closes := writes.closing
  have stop := writes_field (show Bsl.constant " end " [.str "end"] = true by decide) (word_addr region.1.2)
    rfl closes
  have start := writes_field (show Bsl.constant " \x7b start " [.openBrace, .str "start"] = true by decide)
    (word_addr region.1.1) rfl stop
  have whole := (word_index 0 region.2).writes rfl start
  simpa [regionParts, regionEntry, Bsl.entryTokens, Value.tokens, Node.tokens_ofEntries] using whole

theorem writes_regions (regions : List ((Addr × Addr) × Nat)) (writes : Writes (' ' :: '}' :: after) more) :
    Writes ((List.intercalate [" "] (regions.map regionParts)).flatMap String.toList ++ ' ' :: '}' :: after)
      ((regions.map regionEntry).flatMap Bsl.entryTokens ++ more) := by
  induction regions with
  | nil => exact writes
  | cons region regions hypothesis =>
      cases regions with
      | nil => simpa using writes_region region writes
      | cons next regions =>
          have space : Bsl.constant " " [] = true := by decide
          have whole := writes_region region (Writes.constant space hypothesis)
          simpa [List.intercalate_cons_cons] using whole

theorem writes_extra {func : BslFunction} (words : func.Words) (writes : Writes after more) :
    Writes ((extraParts func).flatMap String.toList ++ after)
      ((extraEntries func).flatMap Bsl.entryTokens ++ more) := by
  have regions : Writes ((if func.regions = [] then []
        else ["regions \x7b "] ++ List.intercalate [" "] (func.regions.zipIdx.map regionParts) ++
          [" \x7d "]).flatMap String.toList ++ after)
      ((if func.regions = [] then [] else [("regions",
        Value.node (.ofEntries (func.regions.zipIdx.map regionEntry)))]).flatMap Bsl.entryTokens ++ more) := by
    split
    · exact writes
    · have space : Bsl.constant " " [] = true := by decide
      have closes := (Writes.constant space writes).closing
      have opens : Bsl.constant "regions \x7b " [.str "regions", .openBrace] = true := by decide
      have whole := Writes.constant opens (writes_regions func.regions.zipIdx closes)
      simpa [Bsl.entryTokens, Value.tokens, Node.tokens_ofEntries] using whole
  have kind := writes_flag func.retKindUnknown
    (show Bsl.constant "ret_kind_unknown 1 " [.str "ret_kind_unknown", .str "1"] = true by decide) regions
  have clobbers := writes_property func.clobbers id words.clobbers
    (show Bsl.constant "clobbers " [.str "clobbers"] = true by decide) kind
  have regouts := writes_property func.regouts id words.regouts
    (show Bsl.constant "regouts " [.str "regouts"] = true by decide) clobbers
  have regargs := writes_property func.regargs id words.regargs
    (show Bsl.constant "regargs " [.str "regargs"] = true by decide) regouts
  have entry := writes_property func.entry Addr.str (fun addr _ => word_addr addr)
    (show Bsl.constant "entry " [.str "entry"] = true by decide) regargs
  have indirect := writes_flag func.indirectCallLocation
    (show Bsl.constant "indirect_call_location 1 " [.str "indirect_call_location", .str "1"] = true by decide) entry
  have whole := writes_flag func.dontPopArgs
    (show Bsl.constant "dont_pop_args 1 " [.str "dont_pop_args", .str "1"] = true by decide) indirect
  simpa only [extraParts, extraEntries, List.flatMap_append, List.append_assoc, id_eq] using whole

end Lines

/-- The line of a function is read as its entry. -/
theorem writes_function {func : BslFunction} (words : func.Words) :
    Writes (emit (functionParts func)) (Bsl.entryTokens (functionEntry func)) := by
  have closes := Writes.constant (show Bsl.constant "\x7d " [.closeBrace] = true by decide) writes_newline
  have space : Bsl.constant " " [] = true := by decide
  have extra := Writes.constant space (writes_extra words closes)
  have args := writes_field (show Bsl.constant " args " [.str "args"] = true by decide) (word_args func.args) rfl extra
  have ret := writes_field (show Bsl.constant " ret " [.str "ret"] = true by decide) words.ret rfl args
  have mode := writes_field (show Bsl.constant " mode " [.str "mode"] = true by decide) words.mode rfl ret
  have stop := Writes.constant (show Bsl.constant " end " [.str "end"] = true by decide)
    (writes_stop func.stop rfl mode)
  have start := writes_field (show Bsl.constant " \x7b start " [.openBrace, .str "start"] = true by decide)
    (word_addr func.start) rfl stop
  have whole := Writes.constant (show Bsl.constant "    " [] = true by decide) (writes_padded 30 words.name rfl start)
  simpa [emit, functionParts, functionEntry, functionEntries, Bsl.entryTokens, Value.tokens,
    Node.tokens_ofEntries] using whole

theorem writes_codeSegment (entry : CodeSegment × Nat) (word : Word entry.1.name) :
    Writes (emit ["    ", "_" ++ formatInt 10 4 entry.2, " \x7b seg ", formatInt 10 0 entry.1.seg, " name ",
      padRight 15 entry.1.name, "  \x7d"]) (Bsl.entryTokens (codeSegmentEntry entry)) := by
  have closes : Bsl.constant "  \x7d\n" [.closeBrace] = true := by decide
  have name := writes_padded 15 word rfl (Writes.constant closes .nil)
  have seg := writes_field (show Bsl.constant " \x7b seg " [.openBrace, .str "seg"] = true by decide)
    (word_decimal entry.1.seg) rfl
    (Writes.constant (show Bsl.constant " name " [.str "name"] = true by decide) name)
  have whole := writes_field (show Bsl.constant "    " [] = true by decide) (word_index 4 entry.2) rfl seg
  simpa [emit, codeSegmentEntry, Bsl.entryTokens, Value.tokens, Node.tokens_ofEntries] using whole

theorem writes_member {mbr : Member} (name : Word mbr.name) (typ : Word (typeStr mbr.typ)) :
    Writes (emit ["      ", padRight 20 mbr.name, " \x7b type ", padRight 15 (typeStr mbr.typ), " off ",
      "0x" ++ formatInt 16 2 mbr.off, " \x7d"]) (Bsl.entryTokens (memberEntry mbr)) := by
  have off := writes_field (show Bsl.constant " off " [.str "off"] = true by decide) (word_hex 2 mbr.off) rfl
    writes_newline.closing
  have typed := Writes.constant (show Bsl.constant " \x7b type " [.openBrace, .str "type"] = true by decide)
    (writes_padded 15 typ rfl off)
  have whole := Writes.constant (show Bsl.constant "      " [] = true by decide) (writes_padded 20 name rfl typed)
  simpa [emit, memberEntry, Bsl.entryTokens, Value.tokens, Node.tokens_ofEntries] using whole

theorem writes_structure {struct : Structure} (name : Word struct.name)
    (members : ∀ mbr ∈ struct.members, Word mbr.name ∧ Word (typeStr mbr.typ)) :
    Writes (emit ["    ", padRight 15 struct.name, " \x7b size ", formatInt 10 0 struct.size, " members \x7b"] ++
      struct.members.flatMap (fun mbr => emit ["      ", padRight 20 mbr.name, " \x7b type ",
        padRight 15 (typeStr mbr.typ), " off ", "0x" ++ formatInt 16 2 mbr.off, " \x7d"]) ++
      emit ["    \x7d\x7d"]) (Bsl.entryTokens (structureEntry struct)) := by
  have closes : Writes (emit ["    \x7d\x7d"]) [.closeBrace, .closeBrace] := writes_constant (by decide)
  have lines := (Writes.flatMap fun mbr inside =>
    writes_member (members mbr inside).1 (members mbr inside).2).append closes
  have opens : Bsl.constant " members \x7b\n" [.str "members", .openBrace] = true := by decide
  have size := writes_field (show Bsl.constant " \x7b size " [.openBrace, .str "size"] = true by decide)
    (word_decimal struct.size) rfl (Writes.constant opens lines)
  have whole := Writes.constant (show Bsl.constant "    " [] = true by decide) (writes_padded 15 name rfl size)
  simpa [emit, structureEntry, Bsl.entryTokens, Value.tokens, Node.tokens_ofEntries, List.flatMap_map] using whole

theorem writes_global {var : Global} (name : Word var.name) (typ : Word (typeStr var.typ)) :
    Writes (emit ["    ", padRight 30 var.name, " \x7b off ", "0x" ++ formatInt 16 4 var.off, "  type ",
      padRight 20 (typeStr var.typ), " \x7d"]) (Bsl.entryTokens (globalEntry var)) := by
  have typed := Writes.constant (show Bsl.constant "  type " [.str "type"] = true by decide)
    (writes_padded 20 typ rfl writes_newline.closing)
  have off := writes_field (show Bsl.constant " \x7b off " [.openBrace, .str "off"] = true by decide)
    (word_hex 4 var.off) rfl typed
  have whole := Writes.constant (show Bsl.constant "    " [] = true by decide) (writes_padded 30 name rfl off)
  simpa [emit, globalEntry, Bsl.entryTokens, Value.tokens, Node.tokens_ofEntries] using whole

theorem writes_text {var : TextData} (name : Word var.name) (typ : ∀ typ ∈ var.typ, Word (typeStr typ)) :
    Writes (emit (textParts var)) (Bsl.entryTokens (textEntry var)) := by
  have opens : Bsl.constant " \x7b start " [.openBrace, .str "start"] = true := by decide
  have ends : Bsl.constant "  end " [.str "end"] = true := by decide
  have margin : Bsl.constant "    " [] = true := by decide
  cases shape : var.typ with
  | none =>
      have stop := writes_field ends (word_addr var.endAddr) rfl writes_newline.closing
      have start := writes_field opens (word_addr var.startAddr) rfl stop
      have whole := Writes.constant margin (writes_padded 30 name rfl start)
      simpa [emit, textParts, textEntry, shape, var.hole shape, Bsl.entryTokens, Value.tokens,
        Node.tokens_ofEntries] using whole
  | some typed =>
      have closes : Writes ('}' :: ['\n']) [.closeBrace] := by
        have closed : Bsl.constant "\x7d\n" [.closeBrace] = true := by decide
        exact Writes.constant closed .nil
      have access := writes_property var.accessAt Addr.str (fun addr _ => word_addr addr)
        (show Bsl.constant "access " [.str "access"] = true by decide) closes
      have space : Bsl.constant " " [] = true := by decide
      have base := Writes.constant (show Bsl.constant " type " [.str "type"] = true by decide)
        (writes_padded 20 (typ typed shape) rfl (Writes.constant space access))
      have stop := writes_field ends (word_addr var.endAddr) rfl base
      have start := writes_field opens (word_addr var.startAddr) rfl stop
      have whole := Writes.constant margin (writes_padded 30 name rfl start)
      simpa [emit, textParts, textEntry, shape, Bsl.entryTokens, Value.tokens, Node.tokens_ofEntries] using whole

/-- The configuration file is read as the tree of its tables: no entry is lost, split or joined with another. -/
theorem genConf_parses {data : Annotations} (words : data.Words) :
    Bsl.bslParseNew (genConf data) = .ok (confNode data) := by
  have end_ : Bsl.constant ("  \x7d" ++ "\n") [.closeBrace] = true := by decide
  have codeSegments := writes_section
    (show Bsl.constant ("  code_segments \x7b" ++ "\n") [.str "code_segments", .openBrace] = true by decide) end_
    fun entry (inside : entry ∈ data.codeSegments.zipIdx) =>
      writes_codeSegment entry (words.codeSegments entry.1 (List.fst_mem_of_mem_zipIdx inside))
  have functions := writes_section
    (show Bsl.constant ("  functions \x7b" ++ "\n") [.str "functions", .openBrace] = true by decide) end_
    fun func inside => writes_function (words.functions func inside)
  have structures := writes_section
    (show Bsl.constant ("  structures \x7b" ++ "\n") [.str "structures", .openBrace] = true by decide) end_
    fun struct inside => writes_structure (words.structures struct inside).1 (words.structures struct inside).2
  have globals := writes_section
    (show Bsl.constant ("  globals \x7b" ++ "\n") [.str "globals", .openBrace] = true by decide) end_
    fun var inside => writes_global (words.dataSection var inside).1 (words.dataSection var inside).2
  have text := writes_section
    (show Bsl.constant ("  text_section \x7b" ++ "\n") [.str "text_section", .openBrace] = true by decide) end_
    fun var inside => writes_text (words.textSection var inside).1 (words.textSection var inside).2
  have opens : Writes (emit ["dis86 \x7b"]) [.str "dis86", .openBrace] := writes_constant (by decide)
  have closes : Writes (emit ["\x7d"]) [.closeBrace] := writes_constant (by decide)
  have nothing : Bsl.Lexes [] [] := .blank (List.forall_mem_nil _)
  have whole := (((((opens.append codeSegments).append functions).append structures).append globals).append text).append
    closes _ _ nothing
  refine Bsl.bslParseNew_eq_ok.mpr ?_
  simpa [genConf, genCodeSegments, genFunctionsText, genStructures, genDataSection, genTextSection, confNode,
    confTables, Bsl.entryTokens, Value.tokens, Node.tokens_ofEntries] using whole

end Dis86.Confgen
