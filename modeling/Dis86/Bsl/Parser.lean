import Dis86.Lib.Text

namespace Dis86.Bsl

/-- Why the parser stops the program. -/
inductive Failure where
  | quotedEnd
  | badToken
  | closing
  | value
  | expectedEof
  | depth
deriving DecidableEq, Repr

inductive Token where
  | eof
  | openBrace
  | closeBrace
  | str (text : String)
deriving DecidableEq, Repr

/-- The current token and the text behind it. The characters that the parser looks for are all single bytes. -/
structure Parser where
  tok : Token
  rest : List Char
deriving DecidableEq, Repr

def isWhite (c : Char) : Bool := c = ' ' || c = '\t' || c = '\n'

def isVisible (c : Char) : Bool := 33 ≤ c.toNat && c.toNat ≤ 126

/-- The text up to the closing quote. A zero byte counts as the end of the text. -/
def quoted : List Char → Except Failure (List Char × List Char)
  | [] => .error .quotedEnd
  | c :: rest =>
      if c = '\x00' then .error .quotedEnd
      else if c = '"' then .ok ([], rest)
      else do
        let (text, rest) ← quoted rest
        return (c :: text, rest)

def tokNext (text : List Char) : Except Failure Parser :=
  match text.dropWhile isWhite with
  | [] => .ok ⟨.eof, []⟩
  | c :: rest =>
      if c = '{' then .ok ⟨.openBrace, rest⟩
      else if c = '}' then .ok ⟨.closeBrace, rest⟩
      else if c = '"' then do
        let (text, rest) ← quoted rest
        return ⟨.str (String.ofList text), rest⟩
      else if isVisible c then
        .ok ⟨.str (String.ofList (c :: rest.takeWhile isVisible)), rest.dropWhile isVisible⟩
      else .error .badToken

/-- The entries of a node in their order. A value is a string or a node of its own. -/
inductive Node where
  | nil
  | str (key text : String) (rest : Node)
  | child (key : String) (node rest : Node)
deriving DecidableEq, Repr

/-- The entries up to the first token that is no key. The depth bounds the recursion. -/
def parseNode : Nat → Parser → Except Failure (Node × Parser)
  | 0, _ => .error .depth
  | depth + 1, p =>
      match p.tok with
      | .str key => do
          let p ← tokNext p.rest
          match p.tok with
          | .str text => do
              let p ← tokNext p.rest
              let (rest, p) ← parseNode depth p
              return (.str key text rest, p)
          | .openBrace => do
              let p ← tokNext p.rest
              let (node, p) ← parseNode depth p
              if p.tok = .closeBrace then
                let p ← tokNext p.rest
                let (rest, p) ← parseNode depth p
                return (.child key node rest, p)
              else .error .closing
          | _ => .error .value
      | _ => .ok (.nil, p)

def bslParseNew (text : List Char) : Except Failure Node := do
  let p ← tokNext text
  let (node, p) ← parseNode (text.length + 1) p
  if p.tok = .eof then return node else .error .expectedEof

/-- The words of a text: strings in quotes, strings of visible characters, and braces, with white space around them.
A string without quotes reaches up to the first character that is not visible, whatever it is. -/
inductive Lexes : List Char → List Token → Prop where
  | blank {space : List Char} (white : ∀ c ∈ space, isWhite c = true) : Lexes space []
  | openBrace {space rest : List Char} {tokens : List Token} (white : ∀ c ∈ space, isWhite c = true)
      (later : Lexes rest tokens) : Lexes (space ++ '{' :: rest) (.openBrace :: tokens)
  | closeBrace {space rest : List Char} {tokens : List Token} (white : ∀ c ∈ space, isWhite c = true)
      (later : Lexes rest tokens) : Lexes (space ++ '}' :: rest) (.closeBrace :: tokens)
  | quoted {space text rest : List Char} {tokens : List Token} (white : ∀ c ∈ space, isWhite c = true)
      (inside : ∀ c ∈ text, c ≠ '"' ∧ c ≠ '\x00') (later : Lexes rest tokens) :
      Lexes (space ++ '"' :: (text ++ '"' :: rest)) (.str (String.ofList text) :: tokens)
  | bare {space text rest : List Char} {tokens : List Token} (white : ∀ c ∈ space, isWhite c = true)
      (some : text ≠ []) (visible : ∀ c ∈ text, isVisible c = true)
      (plain : ∀ c ∈ text.head?, c ≠ '{' ∧ c ≠ '}' ∧ c ≠ '"') (ends : ∀ c ∈ rest.head?, isVisible c = false)
      (later : Lexes rest tokens) : Lexes (space ++ (text ++ rest)) (.str (String.ofList text) :: tokens)

/-- The words of a node. -/
def Node.tokens : Node → List Token
  | .nil => []
  | .str key text rest => .str key :: .str text :: rest.tokens
  | .child key node rest => .str key :: .openBrace :: (node.tokens ++ .closeBrace :: rest.tokens)

/-- What the parser has still before it, with its current token. -/
def Ahead (p : Parser) : List Token → Prop
  | [] => p.tok = .eof
  | token :: tokens => p.tok = token ∧ token ≠ .eof ∧ Lexes p.rest tokens

section Tokens

variable {text rest : List Char} {p : Parser} {tokens : List Token}

theorem quoted_append (inside : ∀ c ∈ text, c ≠ '"' ∧ c ≠ '\x00') :
    quoted (text ++ '"' :: rest) = .ok (text, rest) := by
  induction text with
  | nil => rfl
  | cons c text hypothesis =>
      have first := inside c List.mem_cons_self
      rw [List.cons_append, quoted, if_neg first.2, if_neg first.1,
        hypothesis fun d member => inside d (List.mem_cons_of_mem c member)]
      rfl

theorem quoted_eq_ok {before : List Char} (read : quoted before = .ok (text, rest)) :
    before = text ++ '"' :: rest ∧ ∀ c ∈ text, c ≠ '"' ∧ c ≠ '\x00' := by
  induction before generalizing text with
  | nil => cases read
  | cons c before hypothesis =>
      rw [quoted] at read
      split at read
      · cases read
      rename_i nonzero
      split at read
      · rename_i closes
        cases read
        exact ⟨by rw [closes, List.nil_append], List.forall_mem_nil _⟩
      rename_i different
      cases inner : quoted before with
      | error failure => rw [inner] at read; cases read
      | ok pair =>
          rw [inner] at read
          cases read
          have known := hypothesis inner
          refine ⟨by rw [known.1, List.cons_append], ?_⟩
          intro d member
          cases member with
          | head => exact ⟨different, nonzero⟩
          | tail _ later => exact known.2 d later

theorem quoted_length {before : List Char} (read : quoted before = .ok (text, rest)) :
    rest.length < before.length := by
  rw [(quoted_eq_ok read).1, List.length_append, List.length_cons]
  omega

theorem spaces_split (text : List Char) : text.takeWhile isWhite ++ text.dropWhile isWhite = text ∧
    ∀ c ∈ text.takeWhile isWhite, isWhite c = true :=
  ⟨List.takeWhile_append_dropWhile, fun _ inside => List.mem_takeWhile_imp inside⟩

/-- White space before a word is skipped. -/
theorem tokNext_spaces {space : List Char} (white : ∀ c ∈ space, isWhite c = true)
    (head : ∀ c ∈ text.head?, isWhite c = false) : (space ++ text).dropWhile isWhite = text := by
  rw [List.dropWhile_append_of_pos white, Lib.dropWhile_eq_self head]

theorem visible_not_white {c : Char} (visible : isVisible c = true) : isWhite c = false := by
  cases white : isWhite c with
  | false => rfl
  | true =>
      simp only [isWhite, Bool.or_eq_true, decide_eq_true_eq] at white
      rcases white with (rfl | rfl) | rfl <;> exact absurd visible (by decide)

/-- A word that was read stands at the beginning of the text. -/
theorem tokNext_lexes (read : tokNext text = .ok p) (stream : Ahead p tokens) : Lexes text tokens := by
  have whole := spaces_split text
  rw [← whole.1]
  unfold tokNext at read
  split at read
  · rename_i nothing
    cases read
    cases tokens with
    | nil =>
        rw [nothing, List.append_nil]
        exact .blank whole.2
    | cons token tokens => exact absurd stream.1.symm stream.2.1
  · rename_i c rest found
    rw [found]
    split at read
    · rename_i opens
      cases read
      cases tokens with
      | nil => cases stream
      | cons token tokens =>
          rw [opens, ← stream.1]
          exact .openBrace whole.2 stream.2.2
    split at read
    · rename_i closes
      cases read
      cases tokens with
      | nil => cases stream
      | cons token tokens =>
          rw [closes, ← stream.1]
          exact .closeBrace whole.2 stream.2.2
    split at read
    · rename_i quote
      cases inner : quoted rest with
      | error failure => rw [inner] at read; cases read
      | ok pair =>
          rw [inner] at read
          cases read
          cases tokens with
          | nil => cases stream
          | cons token tokens =>
              have known := quoted_eq_ok inner
              rw [quote, known.1, ← stream.1]
              exact .quoted whole.2 known.2 stream.2.2
    split at read
    · rename_i noOpen noClose noQuote visible
      cases read
      cases tokens with
      | nil => cases stream
      | cons token tokens =>
          have parts : c :: rest.takeWhile isVisible ++ rest.dropWhile isVisible = c :: rest := by
            rw [List.cons_append, List.takeWhile_append_dropWhile]
          rw [← parts, ← stream.1]
          refine .bare whole.2 (List.cons_ne_nil _ _) ?_ ?_ ?_ stream.2.2
          · intro d member
            cases member with
            | head => exact visible
            | tail _ later => exact List.mem_takeWhile_imp later
          · intro d first
            cases first
            exact ⟨noOpen, noClose, noQuote⟩
          · exact Lib.head_dropWhile isVisible rest
    · cases read

/-- The first word of a text is read, with what stands behind it. -/
theorem Lexes.exists_tokNext (lexed : Lexes text tokens) : ∃ p, tokNext text = .ok p ∧ Ahead p tokens := by
  cases lexed with
  | blank white =>
      refine ⟨⟨.eof, []⟩, ?_, rfl⟩
      rw [tokNext, List.dropWhile_eq_nil_iff.mpr white]
  | @openBrace space rest tokens white later =>
      refine ⟨⟨.openBrace, rest⟩, ?_, rfl, by simp, later⟩
      rw [tokNext, tokNext_spaces white (by intro c first; cases first; rfl)]
      rfl
  | @closeBrace space rest tokens white later =>
      refine ⟨⟨.closeBrace, rest⟩, ?_, rfl, by simp, later⟩
      rw [tokNext, tokNext_spaces white (by intro c first; cases first; rfl)]
      rfl
  | @quoted space inner rest tokens white inside later =>
      refine ⟨⟨.str (String.ofList inner), rest⟩, ?_, rfl, by simp, later⟩
      rw [tokNext, tokNext_spaces white (by intro c first; cases first; rfl)]
      simp only [Char.reduceEq, if_false, if_true, quoted_append inside]
      rfl
  | @bare space word rest tokens white some visible plain ends later =>
      refine ⟨⟨.str (String.ofList word), rest⟩, ?_, rfl, by simp, later⟩
      cases word with
      | nil => exact absurd rfl some
      | cons c word =>
          have first := plain c rfl
          have shown := visible c List.mem_cons_self
          have cut := Lib.takeWhile_append rest (fun d member => visible d (List.mem_cons_of_mem c member)) ends
          rw [tokNext, tokNext_spaces white (by intro d head; cases head; exact visible_not_white shown),
            List.cons_append]
          simp only [if_neg first.1, if_neg first.2.1, if_neg first.2.2, shown, if_true, cut.1, cut.2]

theorem tokNext_length (read : tokNext text = .ok p) : p.rest.length ≤ text.length ∧
    (p.tok ≠ .eof → p.rest.length < text.length) := by
  have shorter : (text.dropWhile isWhite).length ≤ text.length := (List.dropWhile_suffix _).length_le
  unfold tokNext at read
  split at read
  · cases read
    exact ⟨Nat.zero_le _, fun ends => absurd rfl ends⟩
  · rename_i c rest found
    rw [found, List.length_cons] at shorter
    have strict : p.rest.length < text.length := by
      split at read
      · cases read; exact shorter
      split at read
      · cases read; exact shorter
      split at read
      · cases inner : quoted rest with
        | error failure => rw [inner] at read; cases read
        | ok pair =>
            rw [inner] at read
            cases read
            exact (quoted_length inner).trans shorter
      split at read
      · cases read
        have cut : (rest.dropWhile isVisible).length ≤ rest.length := (List.dropWhile_suffix _).length_le
        exact lt_of_le_of_lt cut shorter
      · cases read
    exact ⟨strict.le, fun _ => strict⟩

end Tokens

section Nodes

variable {depth : Nat} {p next : Parser} {node : Node} {tokens : List Token} {text : List Char}

/-- A node ends before a token that is no key, or it begins with an entry. -/
theorem parseNode_cases (parsed : parseNode (depth + 1) p = .ok (node, next)) :
    (node = .nil ∧ next = p) ∨
    (∃ key p₁ value p₂ rest, p.tok = .str key ∧ tokNext p.rest = .ok p₁ ∧ p₁.tok = .str value ∧
      tokNext p₁.rest = .ok p₂ ∧ parseNode depth p₂ = .ok (rest, next) ∧ node = .str key value rest) ∨
    (∃ key p₁ p₂ child p₃ p₄ rest, p.tok = .str key ∧ tokNext p.rest = .ok p₁ ∧ p₁.tok = .openBrace ∧
      tokNext p₁.rest = .ok p₂ ∧ parseNode depth p₂ = .ok (child, p₃) ∧ p₃.tok = .closeBrace ∧
      tokNext p₃.rest = .ok p₄ ∧ parseNode depth p₄ = .ok (rest, next) ∧ node = .child key child rest) := by
  rw [parseNode] at parsed
  split at parsed
  · rename_i key named
    obtain ⟨p₁, read₁, parsed⟩ := Lib.except_bind_eq_ok.mp parsed
    split at parsed
    · rename_i value valued
      obtain ⟨p₂, read₂, parsed⟩ := Lib.except_bind_eq_ok.mp parsed
      obtain ⟨pair, inner, parsed⟩ := Lib.except_bind_eq_ok.mp parsed
      cases parsed
      exact .inr (.inl ⟨key, p₁, value, p₂, pair.1, named, read₁, valued, read₂, inner, rfl⟩)
    · rename_i opened
      obtain ⟨p₂, read₂, parsed⟩ := Lib.except_bind_eq_ok.mp parsed
      obtain ⟨pair, inner, parsed⟩ := Lib.except_bind_eq_ok.mp parsed
      dsimp only at parsed
      split at parsed
      · rename_i closed
        obtain ⟨p₄, read₄, parsed⟩ := Lib.except_bind_eq_ok.mp parsed
        obtain ⟨last, others, parsed⟩ := Lib.except_bind_eq_ok.mp parsed
        cases parsed
        exact .inr (.inr ⟨key, p₁, p₂, pair.1, pair.2, p₄, last.1, named, read₁, opened, read₂, inner, closed, read₄,
          others, rfl⟩)
      · cases parsed
    · cases parsed
  · cases parsed
    exact .inl ⟨rfl, rfl⟩

/-- A token is before the parser when what follows it is. -/
theorem stream_cons {token : Token} (tok : p.tok = token) (real : token ≠ .eof) (read : tokNext p.rest = .ok next)
    (later : Ahead next tokens) : Ahead p (token :: tokens) := ⟨tok, real, tokNext_lexes read later⟩

theorem parseNode_sound (parsed : parseNode depth p = .ok (node, next)) (later : Ahead next tokens) :
    Ahead p (node.tokens ++ tokens) := by
  induction depth generalizing p node next tokens with
  | zero => cases parsed
  | succ depth hypothesis =>
      rcases parseNode_cases parsed with nothing | string | nested
      · rw [nothing.1]
        rw [← nothing.2]
        exact later
      · obtain ⟨key, p₁, value, p₂, rest, named, read₁, valued, read₂, inner, rfl⟩ := string
        exact stream_cons named (by simp) read₁ (stream_cons valued (by simp) read₂ (hypothesis inner later))
      · obtain ⟨key, p₁, p₂, child, p₃, p₄, rest, named, read₁, opened, read₂, inner, closed, read₄, others, rfl⟩ :=
          nested
        have behind := stream_cons closed (by simp) read₄ (hypothesis others later)
        have whole := stream_cons named (by simp) read₁ (stream_cons opened (by simp) read₂ (hypothesis inner behind))
        simpa only [Node.tokens, List.cons_append, List.append_assoc] using whole

/-- The words of a node are read as the node when no key follows them. -/
theorem parseNode_complete (deep : node.tokens.length < depth) (stream : Ahead p (node.tokens ++ tokens))
    (ends : ∀ key, tokens.head? ≠ some (.str key)) :
    ∃ next, parseNode depth p = .ok (node, next) ∧ Ahead next tokens := by
  induction node generalizing depth p tokens with
  | nil =>
      cases depth with
      | zero => cases deep
      | succ depth =>
          refine ⟨p, ?_, stream⟩
          have noKey : ∀ key, p.tok ≠ .str key := by
            intro key named
            cases tokens with
            | nil =>
                have done : p.tok = .eof := stream
                rw [named] at done
                cases done
            | cons token tokens => exact ends key (by rw [List.head?_cons, ← stream.1, named])
          rw [parseNode]
          split
          · rename_i key named
            exact absurd named (noKey key)
          · rfl
  | str key value rest restHypothesis =>
      cases depth with
      | zero => cases deep
      | succ depth =>
          obtain ⟨p₁, read₁, stream₁⟩ := stream.2.2.exists_tokNext
          obtain ⟨p₂, read₂, stream₂⟩ := stream₁.2.2.exists_tokNext
          have short : rest.tokens.length < depth := by
            rw [Node.tokens, List.length_cons, List.length_cons] at deep
            omega
          obtain ⟨next, inner, later⟩ := restHypothesis short stream₂ ends
          refine ⟨next, ?_, later⟩
          simp only [parseNode, stream.1, read₁, stream₁.1, read₂, inner, Except.bind, bind, pure, Except.pure]
  | child key node rest nodeHypothesis restHypothesis =>
      cases depth with
      | zero => cases deep
      | succ depth =>
          have sizes : node.tokens.length < depth ∧ rest.tokens.length < depth := by
            simp only [Node.tokens, List.length_cons, List.length_append] at deep
            omega
          rw [Node.tokens, List.cons_append, List.cons_append, List.append_assoc, List.cons_append] at stream
          obtain ⟨p₁, read₁, stream₁⟩ := stream.2.2.exists_tokNext
          obtain ⟨p₂, read₂, stream₂⟩ := stream₁.2.2.exists_tokNext
          obtain ⟨p₃, inner, stream₃⟩ := nodeHypothesis sizes.1 stream₂ (by simp)
          obtain ⟨p₄, read₄, stream₄⟩ := stream₃.2.2.exists_tokNext
          obtain ⟨next, others, later⟩ := restHypothesis sizes.2 stream₄ ends
          refine ⟨next, ?_, later⟩
          simp only [parseNode, stream.1, read₁, stream₁.1, read₂, inner, stream₃.1, read₄, others, Except.bind, bind,
            pure, Except.pure, if_true]

/-- How much of the text the parser has still before it. -/
def weight (p : Parser) : Nat := p.rest.length + if p.tok = .eof then 0 else 1

theorem weight_tokNext (read : tokNext text = .ok p) : weight p ≤ text.length := by
  have lengths := tokNext_length read
  unfold weight
  split
  · exact lengths.1
  · rename_i more
    exact lengths.2 more

theorem lt_weight {key : String} (named : p.tok = .str key) : p.rest.length < weight p := by
  rw [weight, named]
  exact Nat.lt_succ_self _

theorem weight_parseNode (parsed : parseNode depth p = .ok (node, next)) : weight next ≤ weight p := by
  induction depth generalizing p node next with
  | zero => cases parsed
  | succ depth hypothesis =>
      rcases parseNode_cases parsed with nothing | string | nested
      · rw [nothing.2]
      · obtain ⟨key, p₁, value, p₂, rest, named, read₁, valued, read₂, inner, _⟩ := string
        have first := weight_tokNext read₁
        have second := weight_tokNext read₂
        have third := hypothesis inner
        have before := lt_weight named
        have between := lt_weight valued
        omega
      · obtain ⟨key, p₁, p₂, child, p₃, p₄, rest, named, read₁, _, read₂, inner, _, read₄, others, _⟩ := nested
        have first := weight_tokNext read₁
        have second := weight_tokNext read₂
        have third := hypothesis inner
        have fourth := weight_tokNext read₄
        have fifth := hypothesis others
        have before := lt_weight named
        have inside : p₁.rest.length ≤ weight p₁ ∧ p₃.rest.length ≤ weight p₃ :=
          ⟨Nat.le_add_right _ _, Nat.le_add_right _ _⟩
        omega

theorem quoted_ne_depth (text : List Char) : quoted text ≠ .error .depth := by
  induction text with
  | nil => simp [quoted]
  | cons c text hypothesis =>
      rw [quoted]
      split
      · simp
      split
      · simp
      · cases inner : quoted text with
        | error failure =>
            rw [inner] at hypothesis
            exact hypothesis
        | ok pair =>
            intro wrong
            cases wrong

theorem bind_ne_depth {A B : Type} {x : Except Failure A} {f : A → Except Failure B} (first : x ≠ .error .depth)
    (later : ∀ a, x = .ok a → f a ≠ .error .depth) : (x >>= f) ≠ .error .depth := by
  cases x with
  | error failure =>
      intro wrong
      have same : failure = .depth := Except.error.inj wrong
      exact first (by rw [same])
  | ok a => exact later a rfl

theorem tokNext_ne_depth (text : List Char) : tokNext text ≠ .error .depth := by
  unfold tokNext
  split
  · simp
  · split
    · simp
    split
    · simp
    split
    · refine bind_ne_depth (quoted_ne_depth _) fun pair _ => ?_
      intro wrong
      cases wrong
    split <;> simp

/-- The recursion is not deeper than the text is long. -/
theorem parseNode_ne_depth (deep : weight p < depth) : parseNode depth p ≠ .error .depth := by
  induction depth generalizing p with
  | zero => cases deep
  | succ depth hypothesis =>
      rw [parseNode]
      split
      · rename_i key named
        have before := lt_weight named
        refine bind_ne_depth (tokNext_ne_depth _) fun p₁ read₁ => ?_
        have first := weight_tokNext read₁
        have inside : p₁.rest.length ≤ weight p₁ := Nat.le_add_right _ _
        split
        · refine bind_ne_depth (tokNext_ne_depth _) fun p₂ read₂ => ?_
          have second := weight_tokNext read₂
          refine bind_ne_depth (hypothesis (by omega)) fun pair _ => ?_
          intro wrong
          cases wrong
        · refine bind_ne_depth (tokNext_ne_depth _) fun p₂ read₂ => ?_
          have second := weight_tokNext read₂
          refine bind_ne_depth (hypothesis (by omega)) fun pair parsed => ?_
          have third : weight pair.2 ≤ weight p₂ := weight_parseNode parsed
          have after : pair.2.rest.length ≤ weight pair.2 := Nat.le_add_right _ _
          dsimp only
          split
          · refine bind_ne_depth (tokNext_ne_depth _) fun p₄ read₄ => ?_
            have fourth := weight_tokNext read₄
            refine bind_ne_depth (hypothesis (by omega)) fun pair _ => ?_
            intro wrong
            cases wrong
          · simp
        · simp
      · simp

end Nodes

/-- Every word takes a character at least. -/
theorem Lexes.length_le {text : List Char} {tokens : List Token} (lexed : Lexes text tokens) :
    tokens.length ≤ text.length := by
  induction lexed with
  | blank white => exact Nat.zero_le _
  | openBrace white later hypothesis =>
      simp only [List.length_cons, List.length_append]
      omega
  | closeBrace white later hypothesis =>
      simp only [List.length_cons, List.length_append]
      omega
  | quoted white inside later hypothesis =>
      simp only [List.length_cons, List.length_append]
      omega
  | bare white some visible plain ends later hypothesis =>
      have positive := List.length_pos_iff.mpr some
      simp only [List.length_cons, List.length_append]
      omega

theorem bslParseNew_eq_ok {text : List Char} {node : Node} :
    bslParseNew text = .ok node ↔ Lexes text node.tokens := by
  constructor
  · intro parsed
    obtain ⟨p, read, parsed⟩ := Lib.except_bind_eq_ok.mp parsed
    obtain ⟨pair, inner, parsed⟩ := Lib.except_bind_eq_ok.mp parsed
    dsimp only at parsed
    split at parsed
    · rename_i ended
      cases parsed
      have stream : Ahead p (pair.1.tokens ++ []) := parseNode_sound inner ended
      rw [List.append_nil] at stream
      exact tokNext_lexes read stream
    · cases parsed
  · intro lexed
    obtain ⟨p, read, stream⟩ := lexed.exists_tokNext
    rw [← List.append_nil node.tokens] at stream
    obtain ⟨next, inner, ended⟩ := parseNode_complete (Nat.lt_succ_of_le lexed.length_le) stream (by simp)
    have done : next.tok = .eof := ended
    simp only [bslParseNew, read, inner, done, Except.bind, bind, pure, Except.pure, if_true]

/-- A text is read as a node if and only if its words are those of the node, and the recursion is never cut off. -/
theorem bslParseNew_exact (text : List Char) (node : Node) :
    (bslParseNew text = .ok node ↔ Lexes text node.tokens) ∧ bslParseNew text ≠ .error .depth := by
  refine ⟨bslParseNew_eq_ok, ?_⟩
  refine bind_ne_depth (tokNext_ne_depth _) fun p read => ?_
  refine bind_ne_depth (parseNode_ne_depth (Nat.lt_succ_of_le (weight_tokNext read))) fun pair _ => ?_
  dsimp only
  split
  · intro wrong
    cases wrong
  · simp

end Dis86.Bsl
