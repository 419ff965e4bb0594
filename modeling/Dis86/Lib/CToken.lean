import Dis86.Lib.Text

namespace Dis86.Lib.C

/-- The tokens of an expression. -/
inductive Token where
  | ident (name : List Char)
  | number (text : List Char)
  | punct (text : List Char)
deriving DecidableEq, Repr

def isIdentStart (c : Char) : Bool := c.isAlpha || c = '_'

def isIdentChar (c : Char) : Bool := c.isAlphanum || c = '_'

def isSpace (c : Char) : Bool := c = ' ' || c = '\t' || c = '\n'

/-- The punctuators, the longer ones first. -/
def punctuators : List (List Char) :=
  [['<', '<', '='], ['>', '>', '='], ['.', '.', '.'],
    ['-', '>'], ['+', '+'], ['-', '-'], ['<', '<'], ['>', '>'], ['<', '='], ['>', '='], ['=', '='],
    ['!', '='], ['&', '&'], ['|', '|'], ['*', '='], ['/', '='], ['%', '='], ['+', '='], ['-', '='],
    ['&', '='], ['^', '='], ['|', '='], ['#', '#'],
    ['['], [']'], ['('], [')'], ['{'], ['}'], ['.'], ['&'], ['*'], ['+'], ['-'], ['~'], ['!'], ['/'],
    ['%'], ['<'], ['>'], ['^'], ['|'], ['?'], [':'], [';'], ['='], [','], ['#']]

/-- The rest of a number: letters, digits, points, and a sign after an exponent. -/
def numberRest (last : Char) : List Char → List Char × List Char
  | [] => ([], [])
  | c :: rest =>
      if isIdentChar c || c = '.' || (c = '+' || c = '-') && last ∈ ['e', 'E', 'p', 'P'] then
        (c :: (numberRest c rest).1, (numberRest c rest).2)
      else ([], c :: rest)

def afterComment : List Char → Option (List Char)
  | [] => none
  | '*' :: '/' :: rest => some rest
  | _ :: rest => afterComment rest

/-- The longest token at the front, or a space or comment that is skipped. -/
def munch : List Char → Option (Option Token × List Char)
  | [] => none
  | c :: rest =>
      if isSpace c then some (none, rest)
      else if isIdentStart c then
        some (some (.ident (c :: rest.takeWhile isIdentChar)), rest.dropWhile isIdentChar)
      else if c.isDigit || c = '.' && rest.head?.any Char.isDigit then
        some (some (.number (c :: (numberRest c rest).1)), (numberRest c rest).2)
      else if c = '/' && rest.head? = some '*' then (afterComment rest.tail).map fun rest => (none, rest)
      else if c = '/' && rest.head? = some '/' then some (none, rest.dropWhile (· ≠ '\n'))
      else (punctuators.find? (·.isPrefixOf (c :: rest))).map fun text =>
        (some (.punct text), (c :: rest).drop text.length)

/-- A text is cut into tokens, each the longest at its place. -/
inductive Lexes : List Char → List Token → Prop where
  | done : Lexes [] []
  | next {text rest : List Char} {token : Option Token} {tokens : List Token}
      (munched : munch text = some (token, rest)) (later : Lexes rest tokens) :
      Lexes text (token.toList ++ tokens)

theorem Lexes.unique {text : List Char} {tokens other : List Token} (one : Lexes text tokens)
    (two : Lexes text other) : tokens = other := by
  induction one generalizing other with
  | done =>
      cases two with
      | done => rfl
      | next munched => cases munched
  | next munched _ inductionHypothesis =>
      cases two with
      | done => cases munched
      | next munched' later =>
          obtain ⟨rfl, rfl⟩ := Prod.mk.inj (Option.some.inj (munched.symm.trans munched'))
          rw [inductionHypothesis later]

section Munch

variable {c : Char} {name text rest : List Char} {tokens : List Token}

/-- No longer word and no longer number goes on here. -/
def Ends (rest : List Char) : Prop := ∀ c ∈ rest.head?, isIdentChar c = false ∧ c ≠ '.'

theorem isIdentStart_char (start : isIdentStart c = true) : isIdentChar c = true := by
  simp only [isIdentStart, isIdentChar, Char.isAlphanum, Bool.or_eq_true] at start ⊢
  tauto

theorem takeWhile_word (word : ∀ c ∈ name, isIdentChar c = true)
    (ends : ∀ c ∈ rest.head?, isIdentChar c = false) :
    (name ++ rest).takeWhile isIdentChar = name ∧ (name ++ rest).dropWhile isIdentChar = rest := by
  induction name with
  | nil =>
      cases rest with
      | nil => exact ⟨rfl, rfl⟩
      | cons c rest => simp [ends c rfl]
  | cons c name inductionHypothesis =>
      obtain ⟨here, later⟩ := List.forall_mem_cons.mp word
      obtain ⟨taken, dropped⟩ := inductionHypothesis later
      simp [here, taken, dropped]

theorem isSpace_ident (char : isIdentChar c = true) : isSpace c = false := by
  rw [Bool.eq_false_iff]
  intro space
  simp only [isSpace, Bool.or_eq_true, decide_eq_true_iff] at space
  rcases space with (rfl | rfl) | rfl <;> revert char <;> decide

theorem munch_ident (start : isIdentStart c = true) (word : ∀ c ∈ name, isIdentChar c = true)
    (ends : ∀ c ∈ rest.head?, isIdentChar c = false) :
    munch (c :: name ++ rest) = some (some (.ident (c :: name)), rest) := by
  obtain ⟨taken, dropped⟩ := takeWhile_word word ends
  have noSpace := isSpace_ident (isIdentStart_char start)
  simp [munch, noSpace, start, taken, dropped]

theorem numberRest_word (last : Char) (word : ∀ c ∈ text, isIdentChar c = true ∨ c = '.')
    (ends : Ends rest) (sign : ∀ c ∈ rest.head?, c ≠ '+' ∧ c ≠ '-') :
    numberRest last (text ++ rest) = (text, rest) := by
  induction text generalizing last with
  | nil =>
      cases rest with
      | nil => rfl
      | cons c rest =>
          obtain ⟨noChar, noPoint⟩ := ends c rfl
          obtain ⟨noPlus, noMinus⟩ := sign c rfl
          simp [numberRest, noChar, noPoint, noPlus, noMinus]
  | cons c text inductionHypothesis =>
      obtain ⟨here, later⟩ := List.forall_mem_cons.mp word
      have goes : (isIdentChar c || decide (c = '.')) = true := by
        rw [Bool.or_eq_true, decide_eq_true_iff]
        exact here
      rw [List.cons_append, numberRest, goes, Bool.true_or, if_pos rfl, inductionHypothesis c later]

theorem digit_ident (digit : c.isDigit = true) : isIdentChar c = true := by
  simp [isIdentChar, Char.isAlphanum, digit]

theorem munch_number (digit : c.isDigit = true) (noStart : isIdentStart c = false)
    (word : ∀ c ∈ text, isIdentChar c = true ∨ c = '.') (ends : Ends rest)
    (sign : ∀ c ∈ rest.head?, c ≠ '+' ∧ c ≠ '-') :
    munch (c :: text ++ rest) = some (some (.number (c :: text)), rest) := by
  have noSpace := isSpace_ident (digit_ident digit)
  have taken := numberRest_word c word ends sign
  simp [munch, noSpace, noStart, digit, taken]

/-- A punctuator of one character, when it begins no longer one here. -/
theorem munch_punct (single : [c] ∈ punctuators) (noSpace : isSpace c = false)
    (noStart : isIdentStart c = false) (noDigit : c.isDigit = false) (noSlash : c ≠ '/')
    (noPoint : c ≠ '.' ∨ ∀ d ∈ rest.head?, d.isDigit = false)
    (apart : ∀ d ∈ rest.head?, ∀ more, c :: d :: more ∉ punctuators) :
    munch (c :: rest) = some (some (.punct [c]), rest) := by
  have only : ∀ text ∈ punctuators, text.isPrefixOf (c :: rest) = true → text = [c] := by
    intro text inside front
    rw [List.isPrefixOf_iff_prefix] at front
    rcases text with _ | ⟨a, _ | ⟨d, more⟩⟩
    · exact absurd inside (by decide)
    · rw [List.cons_prefix_cons] at front
      rw [front.1]
    · obtain ⟨rfl, behind⟩ := List.cons_prefix_cons.mp front
      refine absurd inside (apart d ?_ more)
      obtain ⟨after, same⟩ := behind
      rw [← same]
      rfl
  have here : punctuators.find? (·.isPrefixOf (c :: rest)) = some [c] := by
    cases search : punctuators.find? (·.isPrefixOf (c :: rest)) with
    | none =>
        have := List.find?_eq_none.mp search [c] single
        simp at this
    | some text =>
        have front : text.isPrefixOf (c :: rest) = true := by simpa using List.find?_some search
        rw [only text (List.mem_of_find?_eq_some search) front]
  have noNumber : (c.isDigit || decide (c = '.') && rest.head?.any Char.isDigit) = false := by
    rw [noDigit, Bool.false_or, Bool.and_eq_false_iff]
    rcases noPoint with other | none_
    · exact .inl (by simpa using other)
    · right
      rw [Option.any_eq_false]
      simpa using none_
  simp [munch, noSpace, noStart, noNumber, noSlash, here]

/-- A digit begins no word. -/
theorem digit_start (digit : c.isDigit = true) : isIdentStart c = false := by
  simp only [Char.isDigit, Bool.and_eq_true, decide_eq_true_iff, ge_iff_le, UInt32.le_iff_toNat_le] at digit
  have small : c.toNat ≤ 57 := digit.2
  have noLetter : c.isAlpha = false := by
    rw [Bool.eq_false_iff, ne_eq, isAlpha_iff]
    omega
  have noScore : c ≠ '_' := by
    rintro rfl
    revert digit
    decide
  simp [isIdentStart, noLetter, noScore]

/-- A point in front of a word is a token on its own. -/
theorem munch_point (start : rest.head?.any isIdentStart = true) :
    munch ('.' :: rest) = some (some (.punct ['.']), rest) := by
  have all : (punctuators.all fun token =>
      !(token.head? == some '.') || token.tail.head?.all fun d => d == '.') = true := by decide
  obtain ⟨d, first, start⟩ := (Option.any_eq_true _ _).mp start
  refine munch_punct (by decide) rfl rfl rfl (by decide) (.inr ?_) ?_
  · intro d' same
    obtain rfl := Option.some.inj (first.symm.trans same)
    rw [Bool.eq_false_iff]
    intro digit
    rw [digit_start digit] at start
    cases start
  · intro d' same more inside
    obtain rfl := Option.some.inj (first.symm.trans same)
    have point := List.all_eq_true.mp all _ inside
    simp only [List.head?_cons, List.tail_cons, beq_self_eq_true, Bool.not_true, Bool.false_or, Option.all_some,
      beq_iff_eq] at point
    subst point
    cases start

/-- The characters of the prefix operators. -/
def prefixChars : List Char := ['-', '*', '!', '~', '&']

/-- The characters that an operand may begin with. -/
def opensOperand (c : Char) : Bool := isIdentChar c || ['(', '-', '*', '!', '~'].contains c

/-- An operator in front of an operand is a token on its own, but for two minuses. -/
theorem prefix_apart {d : Char} {more : List Char} (front : c ∈ prefixChars) (opens : opensOperand d = true)
    (inside : c :: d :: more ∈ punctuators) : c = '-' ∧ d = '-' := by
  have all : (punctuators.all fun token => token.head?.all fun c => token.tail.head?.all fun d =>
      !(prefixChars.contains c) || !(opensOperand d) || (c == '-' && d == '-')) = true := by decide
  have minuses := List.all_eq_true.mp all _ inside
  simpa [front, opens] using minuses

theorem munch_front (front : c ∈ prefixChars) (opens : ∃ d more, rest = d :: more ∧ opensOperand d = true ∧
    (c ≠ '-' ∨ d ≠ '-')) : munch (c :: rest) = some (some (.punct [c]), rest) := by
  obtain ⟨d, more, rfl, opens, single⟩ := opens
  have only : [c] ∈ punctuators ∧ isSpace c = false ∧ isIdentStart c = false ∧ c.isDigit = false ∧ c ≠ '/' ∧
      c ≠ '.' := by
    simp only [prefixChars, List.mem_cons, List.not_mem_nil, or_false] at front
    rcases front with rfl | rfl | rfl | rfl | rfl <;> decide
  obtain ⟨known, noSpace, noStart, noDigit, noSlash, noPoint⟩ := only
  refine munch_punct known noSpace noStart noDigit noSlash (.inl noPoint) ?_
  rintro d' same more' inside
  obtain rfl := Option.some.inj same
  obtain ⟨rfl, rfl⟩ := prefix_apart front opens inside
  exact single.elim (fun other => other rfl) fun other => other rfl

end Munch

section Rules

variable {text rest : List Char} {tokens : List Token}

theorem Lexes.space (later : Lexes rest tokens) : Lexes (' ' :: rest) tokens :=
  .next (show munch (' ' :: rest) = some (none, rest) from rfl) later

theorem Lexes.front {token : Token} (munched : munch text = some (some token, rest))
    (later : Lexes rest tokens) : Lexes text (token :: tokens) := .next munched later

end Rules

end Dis86.Lib.C
