import Dis86.Lib.CToken
import Dis86.Lib.Fuel

namespace Dis86.Lib.C

inductive PreOp where
  | plus | neg | not | compl | deref | addr | inc | dec
deriving DecidableEq, Repr

inductive BinOp where
  | mul | div | mod | add | sub | shl | shr | lt | gt | le | ge | eq | ne | band | bxor | bor | land | lor
deriving DecidableEq, Repr

/-- The syntax trees of the expressions up to the logical operators. A cast names a type and counts
the stars behind it. -/
inductive Tree where
  | ident (name : List Char)
  | number (text : List Char)
  | pre (op : PreOp) (t : Tree)
  | cast (base : List Char) (stars : Nat) (t : Tree)
  | binary (op : BinOp) (lhs rhs : Tree)
  | index (t idx : Tree)
  | call (f : Tree) (args : List Tree)
  | member (t : Tree) (name : List Char)
  | arrow (t : Tree) (name : List Char)
  | postInc (t : Tree)
  | postDec (t : Tree)

def preOps : List (List Char × PreOp) :=
  [(['+'], .plus), (['-'], .neg), (['!'], .not), (['~'], .compl), (['*'], .deref), (['&'], .addr),
    (['+', '+'], .inc), (['-', '-'], .dec)]

/-- The binary operators with their precedence; a higher one binds tighter. -/
def binOps : List (List Char × BinOp × Nat) :=
  [(['*'], .mul, 10), (['/'], .div, 10), (['%'], .mod, 10), (['+'], .add, 9), (['-'], .sub, 9),
    (['<', '<'], .shl, 8), (['>', '>'], .shr, 8), (['<'], .lt, 7), (['>'], .gt, 7), (['<', '='], .le, 7),
    (['>', '='], .ge, 7), (['=', '='], .eq, 6), (['!', '='], .ne, 6), (['&'], .band, 5), (['^'], .bxor, 4),
    (['|'], .bor, 3), (['&', '&'], .land, 2), (['|', '|'], .lor, 1)]

/-- The words that are no identifiers. -/
def keywords : List String :=
  ["auto", "break", "case", "char", "const", "continue", "default", "do", "double", "else", "enum",
    "extern", "float", "for", "goto", "if", "inline", "int", "long", "register", "restrict", "return",
    "short", "signed", "sizeof", "static", "struct", "switch", "typedef", "union", "unsigned", "void",
    "volatile", "while", "_Bool", "_Complex", "_Imaginary"]

def expect (text : List Char) : List Token → Option (List Token)
  | .punct p :: rest => if p = text then some rest else none
  | _ => none

def stars : List Token → Nat × List Token
  | .punct p :: rest => if p = ['*'] then ((stars rest).1 + 1, (stars rest).2) else (0, .punct p :: rest)
  | tokens => (0, tokens)

/-- The name of a type in parentheses, with its stars. -/
def castType (isType : List Char → Bool) (tokens : List Token) : Option (List Char × Nat × List Token) := do
  match ← expect ['('] tokens with
  | .ident name :: rest =>
      if isType name then return (name, (stars rest).1, ← expect [')'] (stars rest).2) else none
  | _ => none

def isKeyword (name : List Char) : Bool := keywords.contains (String.ofList name)

/-- A word that may stand for a value. -/
def isValue (isType : List Char → Bool) (name : List Char) : Bool := !isType name && !isKeyword name

mutual

/-- An expression of operators that bind at least as tight as a precedence. -/
def parseExpr (isType : List Char → Bool) : Nat → Nat → List Token → Option (Tree × List Token)
  | 0, _, _ => none
  | fuel + 1, least, tokens => do
      let (lhs, rest) ← parseCast isType fuel tokens
      parseTail isType fuel least lhs rest

def parseTail (isType : List Char → Bool) : Nat → Nat → Tree → List Token → Option (Tree × List Token)
  | 0, _, _, _ => none
  | fuel + 1, least, lhs, tokens =>
    match tokens with
    | .punct p :: rest =>
      match binOps.lookup p with
      | some (op, precedence) =>
          if least ≤ precedence then do
            let (rhs, rest) ← parseExpr isType fuel (precedence + 1) rest
            parseTail isType fuel least (.binary op lhs rhs) rest
          else some (lhs, tokens)
      | none => some (lhs, tokens)
    | _ => some (lhs, tokens)

def parseCast (isType : List Char → Bool) : Nat → List Token → Option (Tree × List Token)
  | 0, _ => none
  | fuel + 1, tokens =>
    match castType isType tokens with
    | some (base, count, rest) => do
        let (t, rest) ← parseCast isType fuel rest
        return (.cast base count t, rest)
    | none => parseUnary isType fuel tokens

def parseUnary (isType : List Char → Bool) : Nat → List Token → Option (Tree × List Token)
  | 0, _ => none
  | fuel + 1, tokens =>
    match tokens with
    | .punct p :: rest =>
      match preOps.lookup p with
      | some op =>
          if op = .inc ∨ op = .dec then (parseUnary isType fuel rest).map fun (t, rest) => (.pre op t, rest)
          else (parseCast isType fuel rest).map fun (t, rest) => (.pre op t, rest)
      | none => parsePrimary isType fuel tokens
    | _ => parsePrimary isType fuel tokens

def parsePrimary (isType : List Char → Bool) : Nat → List Token → Option (Tree × List Token)
  | 0, _ => none
  | fuel + 1, tokens =>
    match tokens with
    | .ident name :: rest => if isValue isType name then parsePostfix isType fuel (.ident name) rest else none
    | .number text :: rest => parsePostfix isType fuel (.number text) rest
    | tokens => do
        let (t, rest) ← parseExpr isType fuel 0 (← expect ['('] tokens)
        parsePostfix isType fuel t (← expect [')'] rest)

def parsePostfix (isType : List Char → Bool) : Nat → Tree → List Token → Option (Tree × List Token)
  | 0, _, _ => none
  | fuel + 1, t, tokens =>
    match tokens with
    | .punct p :: rest =>
      if p = ['['] then do
        let (idx, rest) ← parseExpr isType fuel 0 rest
        parsePostfix isType fuel (.index t idx) (← expect [']'] rest)
      else if p = ['('] then do
        let (args, rest) ← parseArgs isType fuel rest
        parsePostfix isType fuel (.call t args) rest
      else if p = ['.'] then
        match rest with
        | .ident name :: rest => if isKeyword name then none else parsePostfix isType fuel (.member t name) rest
        | _ => none
      else if p = ['-', '>'] then
        match rest with
        | .ident name :: rest => if isKeyword name then none else parsePostfix isType fuel (.arrow t name) rest
        | _ => none
      else if p = ['+', '+'] then parsePostfix isType fuel (.postInc t) rest
      else if p = ['-', '-'] then parsePostfix isType fuel (.postDec t) rest
      else some (t, tokens)
    | _ => some (t, tokens)

/-- The arguments of a call, behind its opening parenthesis. -/
def parseArgs (isType : List Char → Bool) : Nat → List Token → Option (List Tree × List Token)
  | 0, _ => none
  | fuel + 1, tokens =>
    match expect [')'] tokens with
    | some rest => some ([], rest)
    | none => parseArgList isType fuel tokens

def parseArgList (isType : List Char → Bool) : Nat → List Token → Option (List Tree × List Token)
  | 0, _ => none
  | fuel + 1, tokens => do
      let (arg, rest) ← parseExpr isType fuel 0 tokens
      match expect [','] rest with
      | some rest => do
          let (args, rest) ← parseArgList isType fuel rest
          return (arg :: args, rest)
      | none => return ([arg], ← expect [')'] rest)

end

/-- A text reads as a tree: it is cut into tokens, and all of them make up the tree. -/
def Reads (isType : List Char → Bool) (text : List Char) (t : Tree) : Prop :=
  ∃ tokens, Lexes text tokens ∧ Settles (fun fuel => parseExpr isType fuel 0 tokens) (t, [])

theorem Reads.unique {isType : List Char → Bool} {text : List Char} {t u : Tree}
    (one : Reads isType text t) (two : Reads isType text u) : t = u := by
  obtain ⟨tokens, lexes, parses⟩ := one
  obtain ⟨tokens', lexes', parses'⟩ := two
  obtain rfl := lexes.unique lexes'
  exact (Prod.mk.inj (parses.unique parses')).1

section Rules

variable {isType : List Char → Bool} {tokens rest rest' : List Token} {t lhs rhs : Tree} {text : List Char}
  {r : Tree × List Token} {least : Nat}

/-- The tokens begin with an operand, and the rest is left. -/
def CastOf (isType : List Char → Bool) (tokens : List Token) (r : Tree × List Token) : Prop :=
  Settles (fun fuel => parseCast isType fuel tokens) r

def PostfixOf (isType : List Char → Bool) (t : Tree) (tokens : List Token) (r : Tree × List Token) : Prop :=
  Settles (fun fuel => parsePostfix isType fuel t tokens) r

def ExprOf (isType : List Char → Bool) (least : Nat) (tokens : List Token) (r : Tree × List Token) : Prop :=
  Settles (fun fuel => parseExpr isType fuel least tokens) r

def ArgListOf (isType : List Char → Bool) (tokens : List Token) (r : List Tree × List Token) : Prop :=
  Settles (fun fuel => parseArgList isType fuel tokens) r

def postfixOps : List (List Char) := [['['], ['('], ['.'], ['-', '>'], ['+', '+'], ['-', '-']]

/-- No postfix operator follows. -/
def StopsPostfix : List Token → Prop
  | .punct text :: _ => text ∉ postfixOps
  | _ => True

/-- No binary operator follows. -/
def StopsBinary : List Token → Prop
  | .punct text :: _ => binOps.lookup text = none
  | _ => True

theorem PostfixOf.stop (stops : StopsPostfix tokens) : PostfixOf isType t tokens (t, tokens) := by
  apply Settles.now
  intro fuel
  unfold parsePostfix
  split
  · rename_i text rest
    simp only [StopsPostfix, postfixOps, List.mem_cons, List.not_mem_nil, or_false, not_or] at stops
    simp [stops]
  · rfl

theorem PostfixOf.index {idx : Tree} (inner : ExprOf isType 0 rest (idx, .punct [']'] :: rest'))
    (later : PostfixOf isType (.index t idx) rest' r) :
    PostfixOf isType t (.punct ['['] :: rest) r := by
  refine Settles.after inner (fun fuel ran => ?_) later
  simp only [parsePostfix, ran]
  rfl

theorem PostfixOf.member {name : List Char} (word : isKeyword name = false)
    (later : PostfixOf isType (.member t name) rest r) :
    PostfixOf isType t (.punct ['.'] :: .ident name :: rest) r := by
  apply Settles.call _ later
  intro fuel
  simp only [parsePostfix, word]
  rfl

theorem PostfixOf.call_none (later : PostfixOf isType (.call t []) rest r) :
    PostfixOf isType t (.punct ['('] :: .punct [')'] :: rest) r := by
  have none_ : Settles (fun fuel => parseArgs isType fuel (.punct [')'] :: rest)) ([], rest) :=
    .now fun _ => rfl
  refine Settles.after none_ (fun fuel ran => ?_) later
  simp only [parsePostfix, ran]
  rfl

theorem PostfixOf.call {args : List Tree} (some_ : expect [')'] tokens = none)
    (inner : ArgListOf isType tokens (args, rest)) (later : PostfixOf isType (.call t args) rest r) :
    PostfixOf isType t (.punct ['('] :: tokens) r := by
  have ran : Settles (fun fuel => parseArgs isType fuel tokens) (args, rest) := by
    apply Settles.call _ inner
    intro fuel
    rw [parseArgs, some_]
  refine Settles.after ran (fun fuel ran => ?_) later
  simp only [parsePostfix, ran]
  rfl

theorem ArgListOf.last (inner : ExprOf isType 0 tokens (t, .punct [')'] :: rest)) :
    ArgListOf isType tokens ([t], rest) := by
  refine Settles.last inner fun fuel ran => ?_
  rw [parseArgList, ran]
  rfl

theorem ArgListOf.more {args : List Tree} (inner : ExprOf isType 0 tokens (t, .punct [','] :: rest))
    (later : ArgListOf isType rest (args, rest')) : ArgListOf isType tokens (t :: args, rest') := by
  have joined : Settles (fun fuel => (parseArgList isType fuel rest).map fun (args, rest) => (t :: args, rest))
      (t :: args, rest') := by
    obtain ⟨least, returns⟩ := later
    refine ⟨least, fun fuel enough => ?_⟩
    have ran := returns fuel enough
    simp only at ran
    simp only [ran, Option.map_some]
  refine Settles.after inner (fun fuel ran => ?_) joined
  rw [parseArgList, ran, Option.map_eq_bind]
  rfl

theorem CastOf.primary (noCast : castType isType tokens = none)
    (noPre : ∀ text rest, tokens = .punct text :: rest → preOps.lookup text = none)
    (inner : Settles (fun fuel => parsePrimary isType fuel tokens) r) : CastOf isType tokens r := by
  have unary : Settles (fun fuel => parseUnary isType fuel tokens) r := by
    apply Settles.call _ inner
    intro fuel
    unfold parseUnary
    split
    · rename_i text rest
      rw [noPre text rest rfl]
    · rfl
  apply Settles.call _ unary
  intro fuel
  rw [parseCast, noCast]

theorem CastOf.ident {name : List Char} (value : isValue isType name = true)
    (later : PostfixOf isType (.ident name) rest r) : CastOf isType (.ident name :: rest) r := by
  apply CastOf.primary rfl (fun _ _ same => by cases same)
  apply Settles.call _ later
  intro fuel
  rw [parsePrimary, if_pos value]

theorem CastOf.number (later : PostfixOf isType (.number text) rest r) :
    CastOf isType (.number text :: rest) r :=
  CastOf.primary rfl (fun _ _ same => by cases same) (Settles.call (fun _ => rfl) later)

theorem CastOf.paren (noCast : castType isType (.punct ['('] :: tokens) = none)
    (inner : ExprOf isType 0 tokens (t, .punct [')'] :: rest)) (later : PostfixOf isType t rest r) :
    CastOf isType (.punct ['('] :: tokens) r := by
  apply CastOf.primary noCast
  · intro text rest same
    obtain ⟨rfl, _⟩ := by simpa using same
    decide
  · refine Settles.after inner (fun fuel ran => ?_) later
    change ((parseExpr isType fuel 0 tokens).bind fun (t, rest) =>
      (expect [')'] rest).bind fun rest => parsePostfix isType fuel t rest) = _
    rw [ran]
    rfl

theorem CastOf.cast {base : List Char} {count : Nat} (typed : castType isType tokens = some (base, count, rest))
    (inner : CastOf isType rest (t, rest')) : CastOf isType tokens (.cast base count t, rest') := by
  refine Settles.last inner fun fuel ran => ?_
  simp only [parseCast, typed, ran]
  rfl

theorem stars_replicate (count : Nat) :
    stars (List.replicate count (.punct ['*']) ++ .punct [')'] :: rest) = (count, .punct [')'] :: rest) := by
  induction count with
  | zero => rfl
  | succ count inductionHypothesis =>
      rw [List.replicate_succ, List.cons_append, stars, if_pos rfl, inductionHypothesis]

theorem castType_stars {base : List Char} (known : isType base = true) (count : Nat) :
    castType isType (.punct ['('] :: .ident base :: (List.replicate count (.punct ['*']) ++ .punct [')'] :: rest)) =
      some (base, count, rest) := by
  simp [castType, expect, known, stars_replicate]

theorem CastOf.pre {op : PreOp} (known : preOps.lookup text = some op) (single : ¬ (op = .inc ∨ op = .dec))
    (noParen : text ≠ ['(']) (inner : CastOf isType rest (t, rest')) :
    CastOf isType (.punct text :: rest) (.pre op t, rest') := by
  have unary : Settles (fun fuel => parseUnary isType fuel (.punct text :: rest)) (.pre op t, rest') := by
    refine Settles.last inner fun fuel ran => ?_
    simp only [parseUnary, known]
    rw [if_neg single, ran]
    rfl
  apply Settles.call _ unary
  intro fuel
  have noCast : castType isType (.punct text :: rest) = none := by
    simp [castType, expect, noParen]
  rw [parseCast, noCast]

theorem tail_stop (stops : StopsBinary tokens) :
    Settles (fun fuel => parseTail isType fuel least t tokens) (t, tokens) := by
  apply Settles.now
  intro fuel
  unfold parseTail
  split
  · rename_i text rest
    have unknown : binOps.lookup text = none := stops
    rw [unknown]
  · rfl

theorem ExprOf.cast (inner : CastOf isType tokens (t, rest)) (stops : StopsBinary rest) :
    ExprOf isType least tokens (t, rest) := by
  have ends : Settles (fun fuel => parseTail isType fuel least t rest) (t, rest) := tail_stop stops
  refine Settles.after inner (fun fuel ran => ?_) ends
  rw [parseExpr, ran]
  rfl

theorem ExprOf.binary {op : BinOp} {precedence : Nat} (known : binOps.lookup text = some (op, precedence))
    (tight : least ≤ precedence) (left : CastOf isType tokens (lhs, .punct text :: rest))
    (right : CastOf isType rest (rhs, rest')) (stops : StopsBinary rest') :
    ExprOf isType least tokens (.binary op lhs rhs, rest') := by
  have operand : ExprOf isType (precedence + 1) rest (rhs, rest') := .cast right stops
  have joined : Settles (fun fuel => parseTail isType fuel least lhs (.punct text :: rest))
      (.binary op lhs rhs, rest') := by
    have ends : Settles (fun fuel => parseTail isType fuel least (.binary op lhs rhs) rest')
        (.binary op lhs rhs, rest') := tail_stop stops
    refine Settles.after operand (fun fuel ran => ?_) ends
    simp only [parseTail, known]
    rw [if_pos tight, ran]
    rfl
  refine Settles.after left (fun fuel ran => ?_) joined
  rw [parseExpr, ran]
  rfl

end Rules

end Dis86.Lib.C
