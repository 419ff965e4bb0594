import Dis86.Ast.Gen

namespace Dis86.Ast
open Lib Lib.C

section Pieces

variable {members : List (List Char)} {rest text : List Char} {after : List Token} {minus : Bool}

/-- No word and no number goes on behind an expression. -/
def Bounded (rest : List Char) : Prop := ∀ c ∈ rest.head?, c ∈ [' ', ')', ']', ',', '[', '(']

theorem Bounded.cons {c : Char} (known : c ∈ [' ', ')', ']', ',', '[', '(']) : Bounded (c :: rest) := by
  rintro d same
  obtain rfl := Option.some.inj same
  exact known

theorem Bounded.ends (bounded : Bounded rest) : Ends rest := by
  intro c first
  have known := bounded c first
  simp only [List.mem_cons, List.not_mem_nil, or_false] at known
  rcases known with rfl | rfl | rfl | rfl | rfl | rfl <;> exact ⟨rfl, by decide⟩

theorem Bounded.sign (bounded : Bounded rest) : ∀ c ∈ rest.head?, c ≠ '+' ∧ c ≠ '-' := by
  intro c first
  have known := bounded c first
  simp only [List.mem_cons, List.not_mem_nil, or_false] at known
  rcases known with rfl | rfl | rfl | rfl | rfl | rfl <;> exact ⟨by decide, by decide⟩

theorem Bounded.behind (bounded : Bounded rest) :
    ∀ c ∈ (memberText members ++ rest).head?, isIdentChar c = false := by
  cases members with
  | nil => exact fun c first => (bounded.ends c first).1
  | cons name members =>
      intro c first
      obtain rfl := Option.some.inj first
      rfl

theorem word_lexes {name : List Char} (start : name.head?.any isIdentStart = true)
    (word : name.all isIdentChar = true) (ends : ∀ c ∈ rest.head?, isIdentChar c = false)
    (later : Lexes rest after) : Lexes (name ++ rest) (.ident name :: after) := by
  cases name with
  | nil => cases start
  | cons c name =>
      have more := List.all_eq_true.mp word
      exact .front (munch_ident start (fun d inside => more d (List.mem_cons_of_mem _ inside)) ends) later

theorem members_lex (all : ∀ name ∈ members, isMember name = true) (bounded : Bounded rest)
    (later : Lexes rest after) : Lexes (memberText members ++ rest) (memberTokens members ++ after) := by
  induction members with
  | nil => exact later
  | cons name members inductionHypothesis =>
      obtain ⟨here, others⟩ := List.forall_mem_cons.mp all
      simp only [isMember, Bool.and_eq_true] at here
      obtain ⟨⟨start, word⟩, _⟩ := here
      have behind := word_lexes start word bounded.behind (inductionHypothesis others)
      have first : (name ++ (memberText members ++ rest)).head?.any isIdentStart = true := by
        cases name with
        | nil => cases start
        | cons c name => exact start
      have whole := Lexes.front (munch_point first) behind
      simpa [memberText, memberTokens] using whole

/-- A number goes on with the members behind it. -/
theorem number_lexes {c : Char} {digits : List Char} (digit : c.isDigit = true)
    (word : ∀ d ∈ digits, isIdentChar d = true) (all : ∀ name ∈ members, isMember name = true)
    (bounded : Bounded rest) (later : Lexes rest after) :
    Lexes (c :: digits ++ (memberText members ++ rest))
      (.number (c :: digits ++ memberText members) :: after) := by
  have more : ∀ d ∈ digits ++ memberText members, isIdentChar d = true ∨ d = '.' := by
    intro d inside
    rcases List.mem_append.mp inside with here | behind
    · exact .inl (word d here)
    · obtain ⟨name, member, place⟩ := List.mem_flatMap.mp behind
      rcases List.mem_cons.mp place with point | letter
      · exact .inr point
      · have known := all name member
        simp only [isMember, Bool.and_eq_true, List.all_eq_true] at known
        exact .inl (known.1.2 d letter)
  have whole := Lexes.front (munch_number digit (digit_start digit) more bounded.ends bounded.sign) later
  simpa using whole

theorem opens_ident {c : Char} (char : isIdentChar c = true) : opensOperand c = true := by
  simp [opensOperand, char]

/-- A minus in front of a text that begins with no minus. -/
theorem dash_lexes {inner : List Token} (opens : ∃ c more, text = c :: more ∧ opensOperand c = true ∧ c ≠ '-')
    (later : Lexes text (inner ++ after)) : Lexes (dashText minus ++ text) (dash minus inner ++ after) := by
  obtain ⟨c, more, same, opens, single⟩ := opens
  cases minus with
  | false => exact later
  | true => exact .front (munch_front (by decide) ⟨c, more, same, opens, .inr single⟩) later

theorem hexDigit_ident : ∀ m < 16, isIdentChar m.digitChar = true := by decide

theorem hexDigits_ident (n : Nat) : ∀ d ∈ Nat.toDigits 16 n, isIdentChar d = true := by
  induction n using Nat.strongRecOn with
  | ind n inductionHypothesis =>
      intro d inside
      rw [Nat.toDigits_eq_if (by decide)] at inside
      split at inside
      · rename_i small
        rw [List.mem_singleton.mp inside]
        exact hexDigit_ident n small
      · rename_i large
        rcases List.mem_append.mp inside with front | last
        · exact inductionHypothesis (n / 16) (by omega) d front
        · rw [List.mem_singleton.mp last]
          exact hexDigit_ident (n % 16) (Nat.mod_lt _ (by decide))

theorem hexText_word (k : BitVec 16) :
    ∃ digits, hexText k = '0' :: digits ∧ ∀ d ∈ digits, isIdentChar d = true := by
  refine ⟨'x' :: Nat.toDigits 16 k.toNat, rfl, ?_⟩
  intro d inside
  rcases List.mem_cons.mp inside with rfl | digit
  · rfl
  · exact hexDigits_ident _ d digit

theorem decimal_word (n : Nat) :
    ∃ c digits, Nat.toDigits 10 n = c :: digits ∧ c.isDigit = true ∧ ∀ d ∈ digits, isIdentChar d = true := by
  have all (d : Char) (inside : d ∈ Nat.toDigits 10 n) : d.isDigit = true :=
    Nat.isDigit_of_mem_toDigits (by decide) (by decide) inside
  cases written : Nat.toDigits 10 n with
  | nil => exact absurd written Nat.toDigits_ne_nil
  | cons c digits =>
      rw [written] at all
      exact ⟨c, digits, rfl, all c List.mem_cons_self,
        fun d inside => digit_ident (all d (List.mem_cons_of_mem _ inside))⟩

theorem paren_lexes (later : Lexes rest after) : Lexes ('(' :: rest) (.punct ['('] :: after) :=
  .front (show munch ('(' :: rest) = some (some (.punct ['(']), rest) from rfl) later

theorem close_lexes (later : Lexes rest after) : Lexes (')' :: rest) (.punct [')'] :: after) :=
  .front (show munch (')' :: rest) = some (some (.punct [')']), rest) from rfl) later

theorem comma_lexes (later : Lexes rest after) : Lexes (',' :: ' ' :: rest) (.punct [','] :: after) :=
  .front (show munch (',' :: ' ' :: rest) = some (some (.punct [',']), ' ' :: rest) from rfl) later.space

theorem bracket_lexes (later : Lexes rest after) : Lexes ('[' :: rest) (.punct ['['] :: after) :=
  .front (show munch ('[' :: rest) = some (some (.punct ['[']), rest) from rfl) later

theorem unbracket_lexes (later : Lexes rest after) : Lexes (']' :: rest) (.punct [']'] :: after) :=
  .front (show munch (']' :: rest) = some (some (.punct [']']), rest) from rfl) later

/-- A binary operator stands between spaces. -/
theorem operator_lexes (op : BinaryOperator) (later : Lexes rest after) :
    Lexes (' ' :: (op.asOperatorStr ++ ' ' :: rest)) (.punct op.asOperatorStr :: after) := by
  have munched : munch (op.asOperatorStr ++ ' ' :: rest) = some (some (.punct op.asOperatorStr), ' ' :: rest) := by
    cases op <;> rfl
  exact (Lexes.front munched later.space).space

/-- A prefix operator in front of an operand. -/
theorem prefix_lexes {p : Char} (front : p ∈ prefixChars) (single : p ≠ '-')
    (opens : ∃ d more, rest = d :: more ∧ opensOperand d = true) (later : Lexes rest after) :
    Lexes (p :: rest) (.punct [p] :: after) := by
  obtain ⟨d, more, same, opens⟩ := opens
  exact .front (munch_front front ⟨d, more, same, opens, .inl single⟩) later

theorem relocated_lexes (k : BitVec 16) (later : Lexes rest after) :
    Lexes (relocatedText k ++ rest) (relocatedTokens k ++ after) := by
  obtain ⟨digits, written, word⟩ := hexText_word k
  have close := close_lexes later
  have number : Lexes (hexText k ++ (')' :: rest)) (.number (hexText k) :: .punct [')'] :: after) := by
    rw [written]
    have noMembers : ∀ name ∈ ([] : List (List Char)), isMember name = true := by simp
    have lexed := number_lexes (c := '0') rfl word noMembers (Bounded.cons (by simp)) close
    simpa [memberText] using lexed
  have plus : Lexes ('+' :: ' ' :: (hexText k ++ (')' :: rest)))
      (.punct ['+'] :: .number (hexText k) :: .punct [')'] :: after) :=
    .front (show munch ('+' :: ' ' :: (hexText k ++ (')' :: rest))) =
      some (some (.punct ['+']), ' ' :: (hexText k ++ (')' :: rest))) from rfl) number.space
  have name : Lexes (codeStart ++ ' ' :: '+' :: ' ' :: (hexText k ++ (')' :: rest)))
      (.ident codeStart :: .punct ['+'] :: .number (hexText k) :: .punct [')'] :: after) :=
    word_lexes (by decide) (by decide) (fun c first => ((Bounded.cons (by simp)).ends c first).1) plus.space
  have whole := paren_lexes name
  simpa [relocatedText, relocatedTokens] using whole

theorem stars_lex (count : Nat) (later : Lexes rest after) :
    Lexes (List.replicate count '*' ++ ')' :: rest)
      (List.replicate count (.punct ['*']) ++ .punct [')'] :: after) := by
  induction count with
  | zero => exact close_lexes later
  | succ count inductionHypothesis =>
      have munched : munch ('*' :: (List.replicate count '*' ++ ')' :: rest)) =
          some (some (.punct ['*']), List.replicate count '*' ++ ')' :: rest) := by
        cases count <;> rfl
      exact .front munched inductionHypothesis

theorem cast_lexes {typ : Typ} (known : (cType typ).isSome = true) (later : Lexes rest after) :
    Lexes ('(' :: (typ.display.toList ++ ')' :: rest)) (castTokens typ ++ after) := by
  obtain ⟨⟨name, count⟩, found⟩ := Option.isSome_iff_exists.mp known
  obtain ⟨displayed, start, word, _⟩ := cType_display found
  have stars := stars_lex count later
  have ends : ∀ c ∈ (List.replicate count '*' ++ ')' :: rest).head?, isIdentChar c = false := by
    cases count with
    | zero =>
        intro c first
        obtain rfl := Option.some.inj first
        rfl
    | succ count =>
        intro c first
        obtain rfl := Option.some.inj first
        rfl
  have whole := paren_lexes (word_lexes start word ends stars)
  simpa [castTokens, found, displayed] using whole

/-- A comment is no token. -/
theorem marker_lexes (op : String) (later : Lexes rest after) : Lexes (marker op ++ rest) after := by
  unfold marker
  split
  · have comment : Lexes ("/* UNIMPL op */".toList ++ rest) after :=
      .next (show munch ("/* UNIMPL op */".toList ++ rest) = some (none, rest) from rfl) later
    exact comment.space
  · have comment : Lexes ("/* UNIMPL flags */".toList ++ rest) after :=
      .next (show munch ("/* UNIMPL flags */".toList ++ rest) = some (none, rest) from rfl) later
    exact comment.space
  · exact later

end Pieces

section Expressions

theorem opens_front {text rest : List Char} (opens : ∃ c more, text = c :: more ∧ opensOperand c = true) :
    ∃ c more, text ++ rest = c :: more ∧ opensOperand c = true := by
  obtain ⟨c, more, rfl, known⟩ := opens
  exact ⟨c, more ++ rest, rfl, known⟩

theorem ident_opens {name : List Char} (ident : isIdent name = true) :
    ∃ c more, name = c :: more ∧ opensOperand c = true := by
  cases name with
  | nil => cases ident
  | cons c more =>
      simp only [isIdent, Bool.and_eq_true] at ident
      exact ⟨c, more, rfl, opens_ident (isIdentStart_char ident.1.1)⟩

theorem decimal_opens (n : Nat) : ∃ c more, Nat.toDigits 10 n = c :: more ∧ opensOperand c = true := by
  obtain ⟨c, digits, written, digit, _⟩ := decimal_word n
  exact ⟨c, digits, written, opens_ident (digit_ident digit)⟩

/-- The text of an expression begins like an operand. -/
theorem gen_opens (flavor : Flavor) : ∀ (e : Expr) (plain nested : Bool), spelled e = true →
    ∃ c more, gen flavor plain nested e = c :: more ∧ opensOperand c = true
  | .unary op rhs, plain, nested, names => by
      cases op <;> exact ⟨_, _, rfl, rfl⟩
  | .binary op lhs rhs, plain, nested, names => by
      simp only [spelled, Bool.and_eq_true] at names
      cases nested with
      | true => exact ⟨_, _, rfl, rfl⟩
      | false =>
          simp only [gen, Bool.false_eq_true, if_false, List.nil_append, List.append_assoc]
          exact opens_front (gen_opens flavor lhs plain true names.1)
  | .hexConst k, plain, nested, names => by
      simp only [gen]
      split
      · exact ⟨_, _, rfl, rfl⟩
      · exact ⟨_, _, rfl, rfl⟩
  | .decimalConst k, plain, nested, names => by
      simp only [gen]
      split
      · exact ⟨_, _, rfl, rfl⟩
      · split
        · exact ⟨_, _, rfl, rfl⟩
        · exact decimal_opens _
  | .name n, plain, nested, names => ident_opens names
  | .cast typ rhs, plain, nested, names => ⟨_, _, rfl, rfl⟩
  | .deref pointer, plain, nested, names => ⟨_, _, rfl, rfl⟩
  | .guestMem seg off width, plain, nested, names => ⟨_, _, rfl, rfl⟩
  | .call callee args, plain, nested, names => by
      simp only [spelled, Bool.and_eq_true] at names
      simp only [gen, List.append_assoc]
      exact opens_front (gen_opens flavor callee plain true names.1)
  | .abstract op args, plain, nested, names => by
      simp only [spelled, Bool.and_eq_true] at names
      simp only [gen, List.append_assoc]
      exact opens_front (ident_opens names.1)
  | .arrayAccess lhs idx, plain, nested, names => by
      simp only [spelled, Bool.and_eq_true] at names
      simp only [gen, List.append_assoc]
      exact opens_front (gen_opens flavor lhs plain true names.1)
  | .structAccess lhs mbr, plain, nested, names => by
      simp only [spelled, Bool.and_eq_true] at names
      simp only [gen, List.append_assoc]
      exact opens_front (gen_opens flavor lhs plain true names.1)

theorem addr_lexes {text : List Char} {after : List Token}
    (opens : ∃ c more, text = c :: more ∧ opensOperand c = true) (later : Lexes text after) :
    Lexes (UnaryOperator.addr.asOperatorStr ++ text) (UnaryOperator.addr.tokens ++ after) := by
  have operand := prefix_lexes (p := '&') (by decide) (by decide) opens later
  have stars := stars_lex 1 operand
  have name : Lexes (['u', '8'] ++ _) (.ident ['u', '8'] :: _) := word_lexes (by decide) (by decide)
    (fun c first => by obtain rfl := Option.some.inj first; rfl) stars
  exact paren_lexes name

/-- A constant that is no address may be relocated. -/
theorem constant_lexes {members : List (List Char)} {rest : List Char} {after : List Token} {minus : Bool}
    (relocated : Bool) (k : BitVec 16) {text : List Char}
    (digits : ∃ c more, text = c :: more ∧ c.isDigit = true ∧ ∀ d ∈ more, isIdentChar d = true)
    (all : ∀ name ∈ members, isMember name = true) (bounded : Bounded rest) (later : Lexes rest after) :
    Lexes (dashText minus ++ ((if relocated then relocatedText k else text) ++ (memberText members ++ rest)))
      (dash minus (if relocated then relocatedTokens k ++ memberTokens members
        else [.number (text ++ memberText members)]) ++ after) := by
  cases relocated with
  | true =>
      refine dash_lexes ⟨_, _, rfl, rfl, by decide⟩ ?_
      simp only [if_true, List.append_assoc]
      exact relocated_lexes k (members_lex all bounded later)
  | false =>
      obtain ⟨c, more, rfl, digit, word⟩ := digits
      refine dash_lexes ⟨c, _, rfl, opens_ident (digit_ident digit), ?_⟩ ?_
      · rintro rfl
        cases digit
      · exact number_lexes digit word all bounded later

mutual

/-- The text of an expression is cut into its tokens, whatever it stands between. -/
theorem gen_lexes (flavor : Flavor) : ∀ (e : Expr) (plain nested minus : Bool) (members : List (List Char))
    (rest : List Char) (after : List Token), spelled e = true → (nested = true ∨ minus = false ∧ members = []) →
    (∀ name ∈ members, isMember name = true) → Bounded rest → Lexes rest after →
    Lexes (dashText minus ++ (gen flavor plain nested e ++ (memberText members ++ rest)))
      (tokens flavor plain nested minus members e ++ after)
  | .unary op rhs, plain, nested, minus, members, rest, after, names, outer, all, bounded, later => by
      have inner (minus : Bool) := gen_lexes flavor rhs plain true minus members rest after names (.inl rfl) all
        bounded later
      have opens : ∃ c more, gen flavor plain true rhs ++ (memberText members ++ rest) = c :: more ∧
          opensOperand c = true := opens_front (gen_opens flavor rhs plain true names)
      cases op with
      | neg =>
          cases minus with
          | false => exact inner true
          | true =>
              have munched (text : List Char) : munch ('-' :: '-' :: text) = some (some (.punct ['-', '-']), text) := rfl
              exact .front (munched _) (inner false)
      | addr =>
          refine dash_lexes ⟨_, _, rfl, rfl, by decide⟩ ?_
          simp only [List.append_assoc]
          exact addr_lexes opens (inner false)
      | logicalNot => exact dash_lexes ⟨_, _, rfl, rfl, by decide⟩ (prefix_lexes (by decide) (by decide) opens (inner false))
      | bitwiseNot => exact dash_lexes ⟨_, _, rfl, rfl, by decide⟩ (prefix_lexes (by decide) (by decide) opens (inner false))
  | .binary op lhs rhs, plain, nested, minus, members, rest, after, names, outer, all, bounded, later => by
      simp only [spelled, Bool.and_eq_true] at names
      have right (rest : List Char) (after : List Token) := gen_lexes flavor rhs plain true false [] rest after names.2
        (.inl rfl) (by simp)
      have left (rest : List Char) (after : List Token) := gen_lexes flavor lhs plain true false [] rest after names.1
        (.inl rfl) (by simp)
      have both {rest : List Char} {after : List Token} (bounded : Bounded rest) (later : Lexes rest after) :=
        left _ _ (.cons (by simp)) (operator_lexes op (right _ _ bounded later))
      cases nested with
      | true =>
          have inner := paren_lexes (both (.cons (by simp)) (close_lexes (members_lex all bounded later)))
          have opened : tokens flavor plain true minus members (.binary op lhs rhs) ++ after =
              dash minus [.punct ['(']] ++ (tokens flavor plain true false [] lhs ++ .punct op.asOperatorStr ::
                (tokens flavor plain true false [] rhs ++ .punct [')'] :: (memberTokens members ++ after))) := by
            simp [tokens]
          rw [opened]
          refine dash_lexes ⟨'(', _, rfl, rfl, by decide⟩ ?_
          simpa [gen, dashText, memberText] using inner
      | false =>
          obtain ⟨rfl, rfl⟩ := outer.resolve_left (by simp)
          have inner := both bounded later
          simpa [gen, tokens, dashText, memberText] using inner
  | .hexConst k, plain, _, _, _, _, _, _, _, all, bounded, later => by
      obtain ⟨digits, written, word⟩ := hexText_word k
      exact constant_lexes (relocates flavor plain k) k ⟨_, _, written, rfl, word⟩ all bounded later
  | .decimalConst k, plain, _, minus, members, rest, after, _, _, all, bounded, later => by
      have digits := decimal_word k.toInt.natAbs
      simp only [gen, tokens]
      split
      · obtain ⟨c, more, written, digit, word⟩ := digits
        have number := number_lexes digit word all bounded later
        rw [← written] at number
        cases minus with
        | false =>
            have single : c ≠ '-' := by
              rintro rfl
              cases digit
            exact .front (munch_front (by decide) ⟨c, _, by rw [written]; rfl, opens_ident (digit_ident digit),
              .inr single⟩) number
        | true =>
            have munched (text : List Char) : munch ('-' :: '-' :: text) = some (some (.punct ['-', '-']), text) := rfl
            exact .front (munched _) number
      · exact constant_lexes (relocates flavor plain k) k digits all bounded later
  | .name n, _, _, _, _, _, _, names, _, all, bounded, later => by
      obtain ⟨c, more, same, opens⟩ := ident_opens names
      simp only [spelled, isIdent, Bool.and_eq_true] at names
      have single : c ≠ '-' := by
        rintro rfl
        rw [same] at names
        cases names.1.1
      exact dash_lexes ⟨c, _, by rw [gen, same]; rfl, opens, single⟩
        (word_lexes names.1.1 names.1.2 bounded.behind (members_lex all bounded later))
  | .cast typ rhs, plain, _, _, members, rest, after, names, _, all, bounded, later => by
      simp only [spelled, Bool.and_eq_true] at names
      have inner := gen_lexes flavor rhs plain true false members rest after names.2 (.inl rfl) all bounded later
      refine dash_lexes ⟨_, _, rfl, rfl, by decide⟩ ?_
      simpa [gen, dashText] using cast_lexes names.1 inner
  | .deref pointer, plain, _, _, members, rest, after, names, _, all, bounded, later => by
      have inner := gen_lexes flavor pointer plain true false members rest after names (.inl rfl) all bounded later
      have opens : ∃ c more, gen flavor plain true pointer ++ (memberText members ++ rest) = c :: more ∧
          opensOperand c = true := opens_front (gen_opens flavor pointer plain true names)
      exact dash_lexes ⟨_, _, rfl, rfl, by decide⟩ (prefix_lexes (by decide) (by decide) opens inner)
  | .guestMem seg off width, plain, _, _, members, rest, after, names, _, all, bounded, later => by
      simp only [spelled, Bool.and_eq_true] at names
      have offset := gen_lexes flavor off true false false [] _ _ names.2 (.inr ⟨rfl, rfl⟩) (by simp) (.cons (by simp))
        (close_lexes (members_lex all bounded later))
      have segment := gen_lexes flavor seg plain false false [] _ _ names.1 (.inr ⟨rfl, rfl⟩) (by simp)
        (.cons (by simp)) (comma_lexes offset)
      have word : (loadName width).all isIdentChar = true := by
        rw [loadName, List.all_append, Bool.and_eq_true]
        refine ⟨rfl, List.all_eq_true.mpr fun d inside => ?_⟩
        exact digit_ident (Nat.isDigit_of_mem_toDigits (by decide) (by decide) inside)
      have called : Lexes (loadName width ++ _) (.ident (loadName width) :: _) := word_lexes rfl word
        (fun c first => ((Bounded.cons (by simp)).ends c first).1) (paren_lexes segment)
      refine dash_lexes ⟨_, _, rfl, rfl, by decide⟩ ?_
      simpa [gen, dashText, memberText] using called
  | .call callee args, plain, _, minus, members, rest, after, names, _, all, bounded, later => by
      simp only [spelled, Bool.and_eq_true] at names
      have behind := members_lex all bounded later
      have callee (rest : List Char) (after : List Token) := gen_lexes flavor callee plain true minus [] rest after
        names.1 (.inl rfl) (by simp)
      cases flavor with
      | standard =>
          have inner := genArgs_lex .standard args plain plain _ _ names.2 behind
          have called := callee _ _ (.cons (by simp)) (paren_lexes inner)
          simpa [gen, tokens, memberText] using called
      | hydra segs =>
          obtain ⟨ends, inner⟩ := genRest_lex (.hydra segs) args plain _ _ names.2 behind
          have machine : Lexes (['m'] ++ _) (.ident ['m'] :: _) := word_lexes rfl rfl (fun c first => (ends.ends c first).1) inner
          have called := callee _ _ (.cons (by simp)) (paren_lexes machine)
          simpa [gen, tokens, memberText] using called
  | .abstract op args, plain, _, _, members, rest, after, names, _, all, bounded, later => by
      simp only [spelled, Bool.and_eq_true] at names
      obtain ⟨c, more, same, opens⟩ := ident_opens names.1
      simp only [isIdent, Bool.and_eq_true] at names
      have single : c ≠ '-' := by
        rintro rfl
        rw [same] at names
        cases names.1.1.1
      have inner := genArgs_lex flavor args plain (plain || plainRest op) _ _ names.2
        (marker_lexes op (members_lex all bounded later))
      have called := word_lexes names.1.1.1 names.1.1.2
        (fun c first => ((Bounded.cons (by simp)).ends c first).1) (paren_lexes inner)
      refine dash_lexes ⟨c, _, by rw [gen, same]; rfl, opens, single⟩ ?_
      simpa [gen] using called
  | .arrayAccess lhs idx, plain, _, minus, members, rest, after, names, _, all, bounded, later => by
      simp only [spelled, Bool.and_eq_true] at names
      have index := gen_lexes flavor idx true true false [] _ _ names.2 (.inl rfl) (by simp) (.cons (by simp))
        (unbracket_lexes (members_lex all bounded later))
      have indexed := gen_lexes flavor lhs plain true minus [] _ _ names.1 (.inl rfl) (by simp) (.cons (by simp))
        (bracket_lexes index)
      simpa [gen, tokens, dashText, memberText] using indexed
  | .structAccess lhs mbr, plain, _, minus, members, rest, after, names, _, all, bounded, later => by
      simp only [spelled, Bool.and_eq_true] at names
      have every : ∀ name ∈ memberName mbr :: members, isMember name = true :=
        List.forall_mem_cons.mpr ⟨names.2, all⟩
      have inner := gen_lexes flavor lhs plain true minus (memberName mbr :: members) rest after names.1 (.inl rfl) every
        bounded later
      have member : gen flavor plain true mbr = memberName mbr := by
        cases mbr with
        | name n => rfl
        | _ => cases names.2
      simpa [gen, tokens, member, memberText] using inner

/-- Some arguments with commas between them, and a parenthesis behind. -/
theorem genArgs_lex (flavor : Flavor) : ∀ (args : List Expr) (plain more : Bool) (rest : List Char)
    (after : List Token), allSpelled args = true → Lexes rest after →
    Lexes (genArgs flavor plain more args ++ ')' :: rest)
      (argTokens flavor plain more args ++ .punct [')'] :: after)
  | [], plain, more, rest, after, names, later => close_lexes later
  | arg :: args, plain, more, rest, after, names, later => by
      simp only [allSpelled, Bool.and_eq_true] at names
      obtain ⟨bounded, behind⟩ := genRest_lex flavor args more rest after names.2 later
      have whole := gen_lexes flavor arg plain false false [] _ _ names.1 (.inr ⟨rfl, rfl⟩) (by simp) bounded behind
      simpa [genArgs, argTokens, dashText, memberText] using whole

theorem genRest_lex (flavor : Flavor) : ∀ (args : List Expr) (plain : Bool) (rest : List Char)
    (after : List Token), allSpelled args = true → Lexes rest after →
    Bounded (genRest flavor plain args ++ ')' :: rest) ∧
      Lexes (genRest flavor plain args ++ ')' :: rest) (restTokens flavor plain args ++ .punct [')'] :: after)
  | [], plain, rest, after, names, later => ⟨.cons (by simp), close_lexes later⟩
  | arg :: args, plain, rest, after, names, later => by
      simp only [allSpelled, Bool.and_eq_true] at names
      obtain ⟨bounded, behind⟩ := genRest_lex flavor args plain rest after names.2 later
      have whole := gen_lexes flavor arg plain false false [] _ _ names.1 (.inr ⟨rfl, rfl⟩) (by simp) bounded behind
      refine ⟨.cons (by simp), ?_⟩
      simpa [genRest, restTokens, dashText, memberText] using comma_lexes whole

end

end Expressions

end Dis86.Ast
