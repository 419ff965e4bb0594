import Dis86.Bsl.Parser

namespace Dis86.Bsl

inductive Value where
  | str (text : String)
  | node (node : Node)
deriving DecidableEq, Repr

def Value.asNode : Value → Option Node
  | .node inner => some inner
  | .str _ => none

def Value.asStr : Value → Option String
  | .str text => some text
  | .node _ => none

namespace Node

/-- The entries in the order in which they are iterated. -/
def entries : Node → List (String × Value)
  | .nil => []
  | .str key text rest => (key, .str text) :: rest.entries
  | .child key node rest => (key, .node node) :: rest.entries

/-- The first entry with a key. -/
def get (node : Node) (key : String) : Option Value := node.entries.lookup key

/-- The entry at the end of a path. Every key but the last must be that of a node. -/
def getPath : Node → List String → Option Value
  | _, [] => none
  | node, [key] => node.get key
  | node, key :: keys =>
      match node.get key with
      | some (.node inner) => inner.getPath keys
      | _ => none

def getGeneric (node : Node) (key : String) : Option Value :=
  if key = "" then none else node.getPath ((key.toList.splitOn '.').map String.ofList)

def getStr (node : Node) (key : String) : Option String :=
  match node.getGeneric key with
  | some (.str text) => some text
  | _ => none

def getNode (node : Node) (key : String) : Option Node :=
  match node.getGeneric key with
  | some (.node inner) => some inner
  | _ => none

variable {node : Node} {path first second : String}

theorem getPath_cons {key : String} {keys : List String} (more : keys ≠ []) :
    node.getPath (key :: keys) = ((node.get key).bind Value.asNode).bind fun inner => inner.getPath keys := by
  cases keys with
  | nil => exact absurd rfl more
  | cons next keys =>
      cases found : node.get key with
      | none => simp [getPath, found]
      | some value => cases value <;> simp [getPath, found, Value.asNode]

theorem getPath_append {keys more : List String} (some : keys ≠ []) (later : more ≠ []) :
    node.getPath (keys ++ more) = ((node.getPath keys).bind Value.asNode).bind fun inner => inner.getPath more := by
  induction keys generalizing node with
  | nil => exact absurd rfl some
  | cons key keys hypothesis =>
      cases keys with
      | nil => exact getPath_cons later
      | cons next keys =>
          rw [List.cons_append, getPath_cons (by simp), getPath_cons (by simp)]
          cases (node.get key).bind Value.asNode with
          | none => rfl
          | some inner => exact hypothesis (by simp)

theorem getNode_eq : node.getNode path = (node.getGeneric path).bind Value.asNode := by
  rw [getNode]
  cases node.getGeneric path with
  | none => rfl
  | some value => cases value <;> rfl

theorem getStr_eq : node.getStr path = (node.getGeneric path).bind Value.asStr := by
  rw [getStr]
  cases node.getGeneric path with
  | none => rfl
  | some value => cases value <;> rfl

theorem ne_empty_of_toList {text : String} (some : text ≠ "") : text.toList ≠ [] := by
  intro empty
  exact some (String.toList_inj.mp empty)

/-- A path leads through a node as its two halves do, one after the other. -/
theorem getGeneric_dot (begins : first ≠ "") (goes : second ≠ "") :
    node.getGeneric (first ++ "." ++ second) = (node.getNode first).bind fun inner => inner.getGeneric second := by
  have whole : first ++ "." ++ second ≠ "" := by
    intro empty
    have lengths := congrArg String.toList empty
    simp at lengths
  have split : (first ++ "." ++ second).toList.splitOn '.' =
      first.toList.splitOn '.' ++ second.toList.splitOn '.' := by
    rw [String.toList_append, String.toList_append, List.append_assoc]
    exact List.splitOn_append_cons_self _ _
  have halves (text : String) : (text.toList.splitOn '.').map String.ofList ≠ [] := by
    simp [List.splitOn_ne_nil]
  rw [getNode_eq, getGeneric, getGeneric, if_neg whole, if_neg begins, split, List.map_append,
    getPath_append (halves first) (halves second)]
  congr 1
  funext inner
  rw [getGeneric, if_neg goes]

/-- A key without dots is that of an entry of the node itself. -/
theorem getGeneric_key {key : String} (some : key ≠ "") (plain : '.' ∉ key.toList) :
    node.getGeneric key = node.get key := by
  rw [getGeneric, if_neg some, List.splitOn_eq_singleton plain, List.map_singleton, String.ofList_toList]
  rfl

end Node

/-- A node with the given entries. -/
def Node.ofEntries : List (String × Value) → Node
  | [] => .nil
  | (key, .str text) :: entries => .str key text (ofEntries entries)
  | (key, .node node) :: entries => .child key node (ofEntries entries)

@[simp] theorem Node.entries_ofEntries (entries : List (String × Value)) : (ofEntries entries).entries = entries := by
  induction entries with
  | nil => rfl
  | cons entry entries hypothesis =>
      obtain ⟨key, value⟩ := entry
      cases value <;> simp [ofEntries, Node.entries, hypothesis]

@[simp] theorem Node.get_ofEntries (entries : List (String × Value)) (key : String) :
    (ofEntries entries).get key = entries.lookup key := by
  rw [get, entries_ofEntries]

def Value.tokens : Value → List Token
  | .str text => [.str text]
  | .node inner => .openBrace :: (inner.tokens ++ [.closeBrace])

def entryTokens (entry : String × Value) : List Token := .str entry.1 :: entry.2.tokens

theorem Node.tokens_ofEntries (entries : List (String × Value)) :
    (ofEntries entries).tokens = entries.flatMap entryTokens := by
  induction entries with
  | nil => rfl
  | cons entry entries hypothesis =>
      obtain ⟨key, value⟩ := entry
      cases value <;> simp [ofEntries, Node.tokens, Value.tokens, entryTokens, hypothesis]

/-- A string that can stand without quotes. -/
structure Word (text : String) : Prop where
  some : text ≠ ""
  visible : ∀ c ∈ text.toList, isVisible c = true
  plain : ∀ c ∈ text.toList.head?, c ≠ '{' ∧ c ≠ '}' ∧ c ≠ '"'

/-- A part of a text that is read as some words, whatever stands behind it. -/
def Writes (text : List Char) (tokens : List Token) : Prop :=
  ∀ rest more, Lexes rest more → Lexes (text ++ rest) (tokens ++ more)

section Writing

variable {text after space : List Char} {tokens more : List Token}

theorem Lexes.spaces (white : ∀ c ∈ space, isWhite c = true) (lexed : Lexes text tokens) :
    Lexes (space ++ text) tokens := by
  have both {first : List Char} (also : ∀ c ∈ first, isWhite c = true) : ∀ c ∈ space ++ first, isWhite c = true := by
    intro c inside
    rcases List.mem_append.mp inside with early | late
    · exact white c early
    · exact also c late
  cases lexed with
  | blank also => exact .blank (both also)
  | openBrace also later =>
      rw [← List.append_assoc]
      exact .openBrace (both also) later
  | closeBrace also later =>
      rw [← List.append_assoc]
      exact .closeBrace (both also) later
  | quoted also inside later =>
      rw [← List.append_assoc]
      exact .quoted (both also) inside later
  | bare also some visible plain ends later =>
      rw [← List.append_assoc]
      exact .bare (both also) some visible plain ends later

/-- A text that does not end inside a string can be followed by others. -/
theorem Lexes.writes (lexed : Lexes text tokens) (ends : ∀ c ∈ text.getLast?, isWhite c = true) :
    Writes text tokens := by
  intro rest more later
  induction lexed with
  | blank white => exact later.spaces white
  | @openBrace space rest' tokens white inner hypothesis =>
      have last : ∀ c ∈ rest'.getLast?, isWhite c = true := by
        intro c member
        apply ends c
        rw [List.getLast?_append, List.getLast?_cons]
        rw [Option.mem_def] at member
        simp [member]
      rw [List.append_assoc, List.cons_append]
      exact .openBrace white (hypothesis last)
  | @closeBrace space rest' tokens white inner hypothesis =>
      have last : ∀ c ∈ rest'.getLast?, isWhite c = true := by
        intro c member
        apply ends c
        rw [List.getLast?_append, List.getLast?_cons]
        rw [Option.mem_def] at member
        simp [member]
      rw [List.append_assoc, List.cons_append]
      exact .closeBrace white (hypothesis last)
  | @quoted space text rest' tokens white inside inner hypothesis =>
      have last : ∀ c ∈ rest'.getLast?, isWhite c = true := by
        intro c member
        apply ends c
        rw [Option.mem_def] at member
        simp [List.getLast?_append, List.getLast?_cons, member]
      rw [List.append_assoc, List.cons_append, List.append_assoc, List.cons_append]
      exact .quoted white inside (hypothesis last)
  | @bare space text rest' tokens white some visible plain stops inner hypothesis =>
      cases rest' with
      | nil =>
          have final : text.getLast some ∈ (space ++ (text ++ [])).getLast? := by
            rw [List.append_nil, List.getLast?_append_of_ne_nil _ some, List.getLast?_eq_getLast_of_ne_nil some]
            rfl
          have shown := visible_not_white (visible _ (List.getLast_mem some))
          rw [ends _ final] at shown
          cases shown
      | cons c rest' =>
          have last : ∀ d ∈ (c :: rest').getLast?, isWhite d = true := by
            intro d member
            apply ends d
            rw [Option.mem_def] at member
            simp [List.getLast?_append, member]
          rw [List.append_assoc, List.append_assoc]
          exact .bare white some visible plain stops (hypothesis last)

theorem Writes.append (first : Writes text tokens) (second : Writes after more) :
    Writes (text ++ after) (tokens ++ more) := by
  intro rest others later
  rw [List.append_assoc, List.append_assoc]
  exact first _ _ (second _ _ later)

theorem Writes.nil : Writes [] [] := fun _ _ later => later

theorem Writes.flatMap {A : Type} {l : List A} {write : A → List Char} {words : A → List Token}
    (each : ∀ a ∈ l, Writes (write a) (words a)) : Writes (l.flatMap write) (l.flatMap words) := by
  induction l with
  | nil => exact .nil
  | cons a l hypothesis =>
      rw [List.flatMap_cons, List.flatMap_cons]
      exact (each a List.mem_cons_self).append (hypothesis fun b inside => each b (List.mem_cons_of_mem a inside))

def startsWhite (text : List Char) : Bool := text.head?.any isWhite

theorem startsWhite_iff : startsWhite text = true ↔ ∃ c rest, text = c :: rest ∧ isWhite c = true := by
  cases text with
  | nil => simp [startsWhite]
  | cons c rest => simp [startsWhite]

/-- A word is followed by white space. -/
theorem Word.writes {word : String} (plain : Word word) (starts : startsWhite after = true)
    (writes : Writes after more) : Writes (word.toList ++ after) (.str word :: more) := by
  intro rest others later
  obtain ⟨c, behind, rfl, white⟩ := startsWhite_iff.mp starts
  have hidden : isVisible c = false := by
    cases visible : isVisible c with
    | false => rfl
    | true =>
        rw [visible_not_white visible] at white
        cases white
  have nothing : ∀ c ∈ ([] : List Char), isWhite c = true := List.forall_mem_nil _
  have lexed := Lexes.bare nothing (Node.ne_empty_of_toList plain.some) plain.visible
    plain.plain (by intro d first; cases first; exact hidden) (writes rest others later)
  rw [String.ofList_toList] at lexed
  rw [List.append_assoc]
  exact lexed

/-- The words of a text are read one after the other. -/
def reads (text : List Char) : List Token → Bool
  | [] =>
      match tokNext text with
      | .ok p => p.tok = .eof
      | .error _ => false
  | token :: tokens =>
      match tokNext text with
      | .ok p => p.tok = token && token ≠ .eof && reads p.rest tokens
      | .error _ => false

theorem lexes_of_reads (read : reads text tokens = true) : Lexes text tokens := by
  induction tokens generalizing text with
  | nil =>
      cases next : tokNext text with
      | error failure => simp [reads, next] at read
      | ok p =>
          simp only [reads, next, decide_eq_true_eq] at read
          exact tokNext_lexes next read
  | cons token tokens hypothesis =>
      cases next : tokNext text with
      | error failure => simp [reads, next] at read
      | ok p =>
          simp only [reads, next, Bool.and_eq_true, decide_eq_true_eq] at read
          exact tokNext_lexes next ⟨read.1.1, read.1.2, hypothesis read.2⟩

/-- A constant part of a text that ends with white space. -/
def constant (text : String) (tokens : List Token) : Bool :=
  reads text.toList tokens && text.toList.getLast?.all isWhite

theorem Writes.constant {text : String} (closed : constant text tokens = true) (writes : Writes after more) :
    Writes (text.toList ++ after) (tokens ++ more) := by
  rw [Bsl.constant, Bool.and_eq_true] at closed
  refine (Lexes.writes (lexes_of_reads closed.1) ?_).append writes
  intro c last
  rw [Option.mem_def.mp last] at closed
  exact closed.2

theorem Writes.closing (writes : Writes after more) : Writes (' ' :: '}' :: after) (.closeBrace :: more) := by
  intro rest others later
  have white : ∀ c ∈ [' '], isWhite c = true := List.forall_mem_singleton.mpr rfl
  exact Lexes.closeBrace white (writes rest others later)

/-- An empty string in quotes. -/
theorem Writes.empty (writes : Writes after more) : Writes ('"' :: '"' :: after) (.str "" :: more) := by
  intro rest others later
  have nothing : ∀ c ∈ ([] : List Char), isWhite c = true := List.forall_mem_nil _
  have lexed := Lexes.quoted nothing (List.forall_mem_nil _) (writes rest others later)
  exact lexed

end Writing

end Dis86.Bsl
