import Dis86.Ast.Gen
import Dis86.Lib.CClean

namespace Dis86.Ast
open Lib Lib.C

/-- The second flavor passes the machine to every call. -/
def machineArg : Flavor → List Tree
  | .standard => []
  | .hydra _ => [.ident ['m']]

mutual

/-- The tree that C sees in an expression with some operators behind it. The operators behind belong to
the operand of a prefix operator, not to its result. -/
def shape (flavor : Flavor) (plain : Bool) (behind : Tree → Tree) : Expr → Tree
  | .unary op rhs => op.tree (shape flavor plain behind rhs)
  | .binary op lhs rhs => behind (.binary op.binOp (shape flavor plain id lhs) (shape flavor plain id rhs))
  | .hexConst k => behind (if relocates flavor plain k then relocatedTree k else .number (hexText k))
  | .decimalConst k =>
      if k.toInt < 0 then .pre .neg (behind (.number (Nat.toDigits 10 k.toInt.natAbs)))
      else behind (if relocates flavor plain k then relocatedTree k
        else .number (Nat.toDigits 10 k.toInt.natAbs))
  | .name n => behind (.ident n.toList)
  | .cast typ rhs =>
      .cast ((cType typ).getD ([], 0)).1 ((cType typ).getD ([], 0)).2 (shape flavor plain behind rhs)
  | .deref pointer => .pre .deref (shape flavor plain behind pointer)
  | .guestMem seg off width =>
      behind (.call (.ident (loadName width)) [shape flavor plain id seg, shape flavor true id off])
  | .call callee args =>
      shape flavor plain (fun t => behind (.call t (machineArg flavor ++ shapes flavor plain args))) callee
  | .abstract op args => behind (.call (.ident op.toList) (argShapes flavor plain (plain || plainRest op) args))
  | .arrayAccess lhs idx => shape flavor plain (fun t => behind (.index t (shape flavor true id idx))) lhs
  | .structAccess lhs mbr => shape flavor plain (fun t => behind (.member t (memberName mbr))) lhs

def argShapes (flavor : Flavor) (plain rest : Bool) : List Expr → List Tree
  | [] => []
  | arg :: args => shape flavor plain id arg :: shapes flavor rest args

def shapes (flavor : Flavor) (plain : Bool) : List Expr → List Tree
  | [] => []
  | arg :: args => shape flavor plain id arg :: shapes flavor plain args

end

theorem argShapes_same (flavor : Flavor) (plain : Bool) (args : List Expr) :
    argShapes flavor plain plain args = shapes flavor plain args := by
  cases args <;> rfl

/-- A minus in front of a tree. -/
def negated (minus : Bool) (t : Tree) : Tree := if minus then .pre .neg t else t

def Clean (tokens : List Token) : Prop := ∀ token ∈ tokens, token.clean = true

section Pieces

variable {tokens rest : List Token} {behind : Tree → Tree} {minus : Bool} {t : Tree} {r : List Token}

theorem Clean.append {other : List Token} : Clean (tokens ++ other) ↔ Clean tokens ∧ Clean other :=
  List.forall_mem_append

theorem Clean.cons {token : Token} : Clean (token :: tokens) ↔ token.clean = true ∧ Clean tokens :=
  List.forall_mem_cons

theorem Clean.dash : Clean (dash minus tokens) ↔ Clean tokens := by
  cases minus with
  | false => exact Iff.rfl
  | true => exact Clean.cons.trans (and_iff_right rfl)

theorem Clean.members (members : List (List Char)) : Clean (memberTokens members) := by
  intro token inside
  obtain ⟨name, _, place⟩ := List.mem_flatMap.mp inside
  simp only [List.mem_cons, List.not_mem_nil, or_false] at place
  rcases place with rfl | rfl <;> rfl

/-- A number that stays a number has no members behind it. -/
theorem Clean.number {text : List Char} {members : List (List Char)}
    (clean : (Token.number (text ++ memberText members)).clean = true) : members = [] := by
  cases members with
  | nil => rfl
  | cons name members => simp [Token.clean, memberText] at clean

/-- A minus in front of an operand. -/
theorem dash_parses (inner : CastOf isTypeName (tokens ++ rest) (t, r)) :
    CastOf isTypeName (dash minus tokens ++ rest) (negated minus t, r) := by
  rw [dash_append]
  cases minus with
  | false => exact inner
  | true => exact .pre (by decide) (by decide) (by decide) inner

theorem castTokens_parse {typ : Typ} (known : (cType typ).isSome = true)
    (inner : CastOf isTypeName rest (t, r)) :
    CastOf isTypeName (castTokens typ ++ rest)
      (.cast ((cType typ).getD ([], 0)).1 ((cType typ).getD ([], 0)).2 t, r) := by
  obtain ⟨⟨name, count⟩, found⟩ := Option.isSome_iff_exists.mp known
  have typed : castType isTypeName (_ :: _ :: (_ ++ _ :: rest)) = _ :=
    castType_stars (cType_display found).2.2.2 count
  refine .cast ?_ inner
  simpa [castTokens, found] using typed

theorem relocated_parses (k : BitVec 16) (later : PostfixOf isTypeName (relocatedTree k) rest (t, r)) :
    CastOf isTypeName (relocatedTokens k ++ rest) (t, r) := by
  have start : CastOf isTypeName (.ident codeStart :: .punct ['+'] :: .number (hexText k) :: .punct [')'] :: rest)
      (.ident codeStart, .punct ['+'] :: .number (hexText k) :: .punct [')'] :: rest) :=
    .ident (by decide) (.stop (by simp [StopsPostfix, postfixOps]))
  have offset : CastOf isTypeName (.number (hexText k) :: .punct [')'] :: rest)
      (.number (hexText k), .punct [')'] :: rest) :=
    .number (.stop (by simp [StopsPostfix, postfixOps]))
  have sum : ExprOf isTypeName 0 (.ident codeStart :: .punct ['+'] :: .number (hexText k) :: .punct [')'] :: rest)
      (relocatedTree k, .punct [')'] :: rest) :=
    .binary (by decide) (Nat.zero_le 9) start offset (by simp only [StopsBinary]; decide)
  exact .paren rfl sum later

theorem addr_parses (inner : CastOf isTypeName rest (t, r)) :
    CastOf isTypeName (UnaryOperator.addr.tokens ++ rest) (UnaryOperator.addr.tree t, r) := by
  have operand : CastOf isTypeName (.punct ['&'] :: rest) (.pre .addr t, r) :=
    .pre (by decide) (by decide) (by decide) inner
  exact .cast (castType_stars (show isTypeName ['u', '8'] = true by decide) 1) operand

/-- A binary operator has the precedence of an operator of C. -/
theorem binOps_lookup (op : BinaryOperator) :
    ∃ precedence, binOps.lookup op.asOperatorStr = some (op.binOp, precedence) := by
  cases op <;> exact ⟨_, rfl⟩

theorem loadName_isValue (width : Nat) : isValue isTypeName (loadName width) = true := by
  have typeHeads : ["void", "u8", "u16", "u32", "i8", "i16", "i32"].all
    (fun word => decide (word.toList.head? ≠ some 'L')) = true := by decide
  have wordHeads : keywords.all (fun word => decide (word.toList.head? ≠ some 'L')) = true := by decide
  have starts : (String.ofList (loadName width)).toList.head? = some 'L' := by
    rw [String.toList_ofList]
    rfl
  have noType : isTypeName (loadName width) = false := by
    rw [isTypeName, decide_eq_false_iff_not]
    intro inside
    exact absurd starts (of_decide_eq_true (List.all_eq_true.mp typeHeads _ inside))
  have noKeyword : isKeyword (loadName width) = false := by
    rw [isKeyword, ← Bool.not_eq_true, List.contains_iff_mem]
    intro inside
    exact absurd starts (of_decide_eq_true (List.all_eq_true.mp wordHeads _ inside))
  rw [isValue, noType, noKeyword]
  rfl

end Pieces

section Parsing

/-- The tokens of an operand begin with no type and no closing parenthesis. -/
def Opens (tokens : List Token) : Prop :=
  ∃ token more, tokens = token :: more ∧ token ≠ .punct [')'] ∧ ∀ name, token = .ident name → isTypeName name = false

theorem Opens.append {tokens rest : List Token} (opens : Opens tokens) : Opens (tokens ++ rest) := by
  obtain ⟨token, more, rfl, known⟩ := opens
  exact ⟨token, more ++ rest, rfl, known⟩

theorem Opens.punct {text : List Char} {rest : List Token} (other : text ≠ [')']) : Opens (.punct text :: rest) :=
  ⟨_, _, rfl, by simpa using other, fun _ same => by cases same⟩

theorem Opens.dash {minus : Bool} {tokens : List Token} (opens : Opens tokens) : Opens (dash minus tokens) := by
  cases minus with
  | false => exact opens
  | true => exact .punct (by decide)

theorem Opens.ident {name : List Char} {rest : List Token} (value : isIdent name = true) :
    Opens (.ident name :: rest) := by
  refine ⟨_, _, rfl, by simp, fun name' same => ?_⟩
  obtain rfl := Token.ident.inj same
  simp only [isIdent, isValue, Bool.and_eq_true, Bool.not_eq_true'] at value
  exact value.2.1

theorem Opens.number {text : List Char} {rest : List Token} : Opens (.number text :: rest) :=
  ⟨_, _, rfl, by simp, fun _ same => by cases same⟩

theorem Opens.noCast {tokens : List Token} (opens : Opens tokens) :
    castType isTypeName (.punct ['('] :: tokens) = none := by
  obtain ⟨token, more, rfl, _, noType⟩ := opens
  cases token with
  | ident name => simp [castType, expect, noType name rfl]
  | number text => rfl
  | punct text => rfl

theorem Opens.noClose {tokens : List Token} (opens : Opens tokens) : expect [')'] tokens = none := by
  obtain ⟨token, more, rfl, noClose, _⟩ := opens
  cases token with
  | ident name => rfl
  | number text => rfl
  | punct text =>
      have other : text ≠ [')'] := by simpa using noClose
      simp [expect, other]

/-- The tokens of an expression begin like an operand. -/
theorem tokens_open (flavor : Flavor) : ∀ (e : Expr) (plain nested minus : Bool) (members : List (List Char)),
    spelled e = true → Opens (tokens flavor plain nested minus members e)
  | .unary op rhs, plain, nested, minus, members, names => by
      cases op with
      | neg =>
          cases minus with
          | false => exact tokens_open flavor rhs plain true true members names
          | true => exact .punct (by decide)
      | _ => exact .dash (.punct (by decide))
  | .binary op lhs rhs, plain, nested, minus, members, names => by
      simp only [spelled, Bool.and_eq_true] at names
      cases nested with
      | true =>
          simp only [tokens, if_true, List.append_assoc]
          exact .append (.dash (.punct (by decide)))
      | false =>
          simp only [tokens, Bool.false_eq_true, if_false, List.nil_append, List.append_assoc]
          exact .append (tokens_open flavor lhs plain true false [] names.1)
  | .hexConst k, plain, nested, minus, members, names => by
      simp only [tokens]
      apply Opens.dash
      split
      · exact .punct (by decide)
      · exact .number
  | .decimalConst k, plain, nested, minus, members, names => by
      simp only [tokens]
      split
      · cases minus with
        | false => exact .punct (by decide)
        | true => exact .punct (by decide)
      · apply Opens.dash
        split
        · exact .punct (by decide)
        · exact .number
  | .name n, _, _, _, _, names => .dash (.ident names)
  | .cast typ rhs, _, _, _, _, _ => .dash (.punct (by decide))
  | .deref pointer, _, _, _, _, _ => .dash (.punct (by decide))
  | .guestMem seg off width, _, _, _, _, _ => by
      have value := loadName_isValue width
      simp only [isValue, Bool.and_eq_true, Bool.not_eq_true'] at value
      refine .dash ⟨_, _, rfl, by simp, fun name same => ?_⟩
      obtain rfl := Token.ident.inj same
      exact value.1
  | .call callee args, plain, _, minus, members, names => by
      simp only [spelled, Bool.and_eq_true] at names
      simp only [tokens, List.append_assoc]
      exact .append (tokens_open flavor callee plain true minus [] names.1)
  | .abstract op args, _, _, _, _, names => by
      simp only [spelled, Bool.and_eq_true] at names
      exact .dash (.ident names.1)
  | .arrayAccess lhs idx, plain, _, minus, members, names => by
      simp only [spelled, Bool.and_eq_true] at names
      simp only [tokens, List.append_assoc]
      exact .append (tokens_open flavor lhs plain true minus [] names.1)
  | .structAccess lhs mbr, plain, _, minus, members, names => by
      simp only [spelled, Bool.and_eq_true] at names
      exact tokens_open flavor lhs plain true minus (memberName mbr :: members) names.1

/-- An expression is parsed into its shape when its tokens are clean. -/
structure Parses (flavor : Flavor) (e : Expr) : Prop where
  cast : ∀ (plain minus : Bool) (members : List (List Char)) (behind : Tree → Tree) (rest r : List Token),
    Clean (tokens flavor plain true minus members e) →
    (∀ t, PostfixOf isTypeName t (memberTokens members ++ rest) (behind t, r)) →
    CastOf isTypeName (tokens flavor plain true minus members e ++ rest)
      (negated minus (shape flavor plain behind e), r)
  expr : ∀ (plain nested : Bool) (rest : List Token), Clean (tokens flavor plain nested false [] e) →
    StopsPostfix rest → StopsBinary rest →
    ExprOf isTypeName 0 (tokens flavor plain nested false [] e ++ rest) (shape flavor plain id e, rest)

variable {flavor : Flavor} {plain minus : Bool} {rest r : List Token}

theorem operator_stops (op : BinaryOperator) : StopsPostfix (.punct op.asOperatorStr :: rest) := by
  cases op <;> simp [StopsPostfix, postfixOps, BinaryOperator.asOperatorStr]

theorem binary_parses {lhs rhs : Expr} (left : Parses flavor lhs) (right : Parses flavor rhs) (op : BinaryOperator)
    (cleanLeft : Clean (tokens flavor plain true false [] lhs))
    (cleanRight : Clean (tokens flavor plain true false [] rhs)) (stopsPostfix : StopsPostfix rest)
    (stopsBinary : StopsBinary rest) :
    ExprOf isTypeName 0
      (tokens flavor plain true false [] lhs ++ .punct op.asOperatorStr :: (tokens flavor plain true false [] rhs ++ rest))
      (.binary op.binOp (shape flavor plain id lhs) (shape flavor plain id rhs), rest) := by
  obtain ⟨precedence, known⟩ := binOps_lookup op
  have first := left.cast plain false [] id (.punct op.asOperatorStr :: (tokens flavor plain true false [] rhs ++ rest))
    _ cleanLeft fun _ => .stop (operator_stops op)
  have second := right.cast plain false [] id _ _ cleanRight fun _ => .stop stopsPostfix
  exact .binary known (Nat.zero_le _) first second stopsBinary

/-- Only a binary operator is put in parentheses. -/
theorem Parses.of_cast {e : Expr}
    (same : ∀ plain nested, tokens flavor plain nested false [] e = tokens flavor plain true false [] e)
    (cast : ∀ (plain minus : Bool) (members : List (List Char)) (behind : Tree → Tree) (rest r : List Token),
      Clean (tokens flavor plain true minus members e) →
      (∀ t, PostfixOf isTypeName t (memberTokens members ++ rest) (behind t, r)) →
      CastOf isTypeName (tokens flavor plain true minus members e ++ rest)
        (negated minus (shape flavor plain behind e), r)) : Parses flavor e where
  cast := cast
  expr plain nested rest clean stopsPostfix stopsBinary := by
    rw [same] at clean ⊢
    exact .cast (cast plain false [] id rest rest clean fun _ => .stop stopsPostfix) stopsBinary

theorem bracket_stops : StopsPostfix (.punct [']'] :: rest) ∧ StopsBinary (.punct [']'] :: rest) := by
  refine ⟨by simp [StopsPostfix, postfixOps], ?_⟩
  simp only [StopsBinary]
  decide

theorem close_stops : StopsPostfix (.punct [')'] :: rest) ∧ StopsBinary (.punct [')'] :: rest) := by
  refine ⟨by simp [StopsPostfix, postfixOps], ?_⟩
  simp only [StopsBinary]
  decide

theorem comma_stops : StopsPostfix (.punct [','] :: rest) ∧ StopsBinary (.punct [','] :: rest) := by
  refine ⟨by simp [StopsPostfix, postfixOps], ?_⟩
  simp only [StopsBinary]
  decide

/-- The arguments behind another one. -/
theorem restTokens_parse {args : List Expr} (all : ∀ arg ∈ args, Parses flavor arg)
    (clean : Clean (restTokens flavor plain args)) {first : List Token} {t : Tree}
    (front : ∀ rest, StopsPostfix rest → StopsBinary rest → ExprOf isTypeName 0 (first ++ rest) (t, rest)) :
    ArgListOf isTypeName (first ++ (restTokens flavor plain args ++ .punct [')'] :: rest))
      (t :: shapes flavor plain args, rest) := by
  induction args generalizing first t with
  | nil => exact .last (front _ close_stops.1 close_stops.2)
  | cons arg args inductionHypothesis =>
      obtain ⟨here, others⟩ := List.forall_mem_cons.mp all
      simp only [restTokens, Clean.append] at clean
      have later := inductionHypothesis others clean.2 fun rest => here.expr plain false rest clean.1.2
      have comma := front (.punct [','] :: (tokens flavor plain false false [] arg ++
        (restTokens flavor plain args ++ .punct [')'] :: rest))) comma_stops.1 comma_stops.2
      have whole := ArgListOf.more comma later
      simpa [restTokens, shapes] using whole

/-- The arguments of a call, and what stands behind it. -/
theorem argTokens_parse {args : List Expr} (names : allSpelled args = true)
    (all : ∀ arg ∈ args, Parses flavor arg) {more : Bool}
    (clean : Clean (argTokens flavor plain more args)) {f : Tree} {t : Tree}
    (later : PostfixOf isTypeName (.call f (argShapes flavor plain more args)) rest (t, r)) :
    PostfixOf isTypeName f (.punct ['('] :: (argTokens flavor plain more args ++ .punct [')'] :: rest)) (t, r) := by
  cases args with
  | nil => exact .call_none later
  | cons arg args =>
      obtain ⟨here, others⟩ := List.forall_mem_cons.mp all
      simp only [argTokens, Clean.append] at clean
      simp only [allSpelled, Bool.and_eq_true] at names
      have inner : ArgListOf isTypeName _ (_, rest) :=
        restTokens_parse others clean.2 fun rest => here.expr plain false rest clean.1
      rw [← List.append_assoc] at inner
      exact .call (tokens_open flavor arg plain false false [] names.1 |>.append.append).noClose inner later

/-- A constant that is no address may be relocated. -/
theorem constant_parses (relocated : Bool) (k : BitVec 16) (text : List Char) {members : List (List Char)}
    {behind : Tree → Tree}
    (clean : Clean (dash minus (if relocated then relocatedTokens k ++ memberTokens members
      else [.number (text ++ memberText members)])))
    (later : ∀ t, PostfixOf isTypeName t (memberTokens members ++ rest) (behind t, r)) :
    CastOf isTypeName (dash minus (if relocated then relocatedTokens k ++ memberTokens members
        else [.number (text ++ memberText members)]) ++ rest)
      (negated minus (behind (if relocated then relocatedTree k else .number text)), r) := by
  apply dash_parses
  cases relocated with
  | true =>
      simp only [if_true, List.append_assoc]
      exact relocated_parses k (later _)
  | false =>
      have single := (Clean.cons.mp (Clean.dash.mp clean)).1
      obtain rfl := Clean.number single
      have number := CastOf.number (later (.number text))
      simpa [memberText, memberTokens] using number

mutual

theorem parses (flavor : Flavor) : ∀ e : Expr, spelled e = true → Parses flavor e
  | .unary op rhs, names => by
      have inner := parses flavor rhs names
      refine .of_cast (fun plain nested => by cases op <;> rfl) fun plain minus members behind rest r clean later => ?_
      cases op with
      | neg =>
          cases minus with
          | false => exact inner.cast plain true members behind rest r clean later
          | true => exact absurd (Clean.cons.mp clean).1 (by decide)
      | addr =>
          have cleanInner := (Clean.append.mp (Clean.dash.mp clean)).2
          have whole := addr_parses (inner.cast plain false members behind rest r cleanInner later)
          rw [← List.append_assoc] at whole
          exact dash_parses whole
      | logicalNot =>
          have cleanInner := (Clean.append.mp (Clean.dash.mp clean)).2
          exact dash_parses (.pre (by decide) (by decide) (by decide)
            (inner.cast plain false members behind rest r cleanInner later))
      | bitwiseNot =>
          have cleanInner := (Clean.append.mp (Clean.dash.mp clean)).2
          exact dash_parses (.pre (by decide) (by decide) (by decide)
            (inner.cast plain false members behind rest r cleanInner later))
  | .binary op lhs rhs, names => by
      simp only [spelled, Bool.and_eq_true] at names
      have left := parses flavor lhs names.1
      have right := parses flavor rhs names.2
      have opened (plain minus : Bool) (members : List (List Char)) :
          tokens flavor plain true minus members (.binary op lhs rhs) =
            dash minus (.punct ['('] :: (tokens flavor plain true false [] lhs ++ .punct op.asOperatorStr ::
              (tokens flavor plain true false [] rhs ++ .punct [')'] :: memberTokens members))) := by
        cases minus <;> simp [tokens, dash]
      have closed (plain : Bool) : tokens flavor plain false false [] (.binary op lhs rhs) =
          tokens flavor plain true false [] lhs ++ .punct op.asOperatorStr :: tokens flavor plain true false [] rhs := by
        simp [tokens]
      have cast (plain minus : Bool) (members : List (List Char)) (behind : Tree → Tree) (rest r : List Token)
          (clean : Clean (tokens flavor plain true minus members (.binary op lhs rhs)))
          (later : ∀ t, PostfixOf isTypeName t (memberTokens members ++ rest) (behind t, r)) :
          CastOf isTypeName (tokens flavor plain true minus members (.binary op lhs rhs) ++ rest)
            (negated minus (shape flavor plain behind (.binary op lhs rhs)), r) := by
        rw [opened] at clean ⊢
        simp only [Clean.dash, Clean.cons, Clean.append] at clean
        have stops : StopsPostfix (.punct [')'] :: (memberTokens members ++ rest)) ∧ StopsBinary _ := close_stops
        have sum := binary_parses left right op clean.2.1 clean.2.2.2.1 stops.1 stops.2
        have noCast : castType isTypeName (_ :: (_ ++ .punct op.asOperatorStr ::
            (tokens flavor plain true false [] rhs ++ .punct [')'] :: (memberTokens members ++ rest)))) = none :=
          (tokens_open flavor lhs plain true false [] names.1).append.noCast
        have whole := CastOf.paren noCast sum (later _)
        apply dash_parses
        simpa [shape] using whole
      refine ⟨cast, fun plain nested rest clean stopsPostfix stopsBinary => ?_⟩
      cases nested with
      | true =>
          exact .cast (cast plain false [] id rest rest clean fun _ => .stop stopsPostfix) stopsBinary
      | false =>
          rw [closed] at clean ⊢
          simp only [Clean.cons, Clean.append] at clean
          have sum := binary_parses left right op clean.1 clean.2.2 stopsPostfix stopsBinary
          simpa [shape] using sum
  | .hexConst k, _ => by
      refine .of_cast (fun _ _ => rfl) fun plain minus members behind rest r clean later => ?_
      exact constant_parses (relocates flavor plain k) k _ clean later
  | .decimalConst k, _ => by
      refine .of_cast (fun _ _ => rfl) fun plain minus members behind rest r clean later => ?_
      simp only [tokens, shape] at clean ⊢
      split at clean
      · rename_i negative
        rw [if_pos negative, if_pos negative]
        cases minus with
        | true => exact absurd (Clean.cons.mp clean).1 (by decide)
        | false =>
            obtain rfl := Clean.number (Clean.cons.mp (Clean.cons.mp clean).2).1
            have number := CastOf.number (later (.number (Nat.toDigits 10 k.toInt.natAbs)))
            have whole : CastOf isTypeName (.punct ['-'] :: _) (.pre .neg _, _) :=
              .pre (by decide) (by decide) (by decide) number
            simpa [memberText, memberTokens, negated] using whole
      · rename_i positive
        rw [if_neg positive, if_neg positive]
        exact constant_parses (relocates flavor plain k) k _ clean later
  | .name n, names => by
      refine .of_cast (fun _ _ => rfl) fun plain minus members behind rest r clean later => ?_
      simp only [spelled, isIdent, Bool.and_eq_true] at names
      exact dash_parses (.ident names.2 (later _))
  | .cast typ rhs, names => by
      simp only [spelled, Bool.and_eq_true] at names
      have inner := parses flavor rhs names.2
      refine .of_cast (fun _ _ => rfl) fun plain minus members behind rest r clean later => ?_
      have cleanInner := (Clean.append.mp (Clean.dash.mp clean)).2
      have whole := castTokens_parse names.1 (inner.cast plain false members behind rest r cleanInner later)
      rw [← List.append_assoc] at whole
      exact dash_parses whole
  | .deref pointer, names => by
      have inner := parses flavor pointer names
      refine .of_cast (fun _ _ => rfl) fun plain minus members behind rest r clean later => ?_
      have cleanInner := (Clean.cons.mp (Clean.dash.mp clean)).2
      exact dash_parses (.pre (by decide) (by decide) (by decide)
        (inner.cast plain false members behind rest r cleanInner later))
  | .guestMem seg off width, names => by
      simp only [spelled, Bool.and_eq_true] at names
      have segment := parses flavor seg names.1
      have offset := parses flavor off names.2
      refine .of_cast (fun _ _ => rfl) fun plain minus members behind rest r clean later => ?_
      simp only [tokens, Clean.dash, Clean.cons, Clean.append, List.cons_append, List.nil_append,
        List.append_assoc] at clean
      have second : ArgListOf isTypeName
          (tokens flavor true false false [] off ++ .punct [')'] :: (memberTokens members ++ rest))
          ([shape flavor true id off], memberTokens members ++ rest) :=
        .last (offset.expr true false _ clean.2.2.2.2.1 close_stops.1 close_stops.2)
      have first := ArgListOf.more (segment.expr plain false _ clean.2.2.1 comma_stops.1 comma_stops.2) second
      have noClose : expect [')'] (_ ++ .punct [','] ::
          (tokens flavor true false false [] off ++ .punct [')'] :: (memberTokens members ++ rest))) = none :=
        (tokens_open flavor seg plain false false [] names.1).append.noClose
      have called := PostfixOf.call noClose first (later (.call (.ident (loadName width)) _))
      apply dash_parses
      simpa [shape] using CastOf.ident (loadName_isValue width) called
  | .call callee args, names => by
      simp only [spelled, Bool.and_eq_true] at names
      have inner := parses flavor callee names.1
      have all := allParse flavor args names.2
      refine .of_cast (fun _ _ => rfl) fun plain minus members behind rest r clean later => ?_
      simp only [tokens, Clean.cons, Clean.append, List.cons_append, List.nil_append, List.append_assoc] at clean ⊢
      refine inner.cast plain minus [] _ _ r clean.1 fun t => ?_
      cases flavor with
      | standard =>
          refine argTokens_parse names.2 all clean.2.2.1 ?_
          rw [argShapes_same]
          exact later _
      | hydra segs =>
          have machine (rest : List Token) (stopsPostfix : StopsPostfix rest) (stopsBinary : StopsBinary rest) :
              ExprOf isTypeName 0 ([.ident ['m']] ++ rest) (.ident ['m'], rest) :=
            .cast (.ident (by decide) (.stop stopsPostfix)) stopsBinary
          have cleanArgs := (Clean.cons.mp clean.2.2.1).2
          have called : ArgListOf isTypeName _ (_, memberTokens members ++ rest) :=
            restTokens_parse all cleanArgs machine
          exact .call rfl called (later _)
  | .abstract op args, names => by
      simp only [spelled, Bool.and_eq_true] at names
      have all := allParse flavor args names.2
      refine .of_cast (fun _ _ => rfl) fun plain minus members behind rest r clean later => ?_
      simp only [isIdent, Bool.and_eq_true] at names
      simp only [tokens, Clean.dash, Clean.cons, Clean.append, List.cons_append, List.nil_append,
        List.append_assoc] at clean
      have called := argTokens_parse names.2 all clean.2.2.1 (later (.call (.ident op.toList) _))
      apply dash_parses
      simpa [shape] using CastOf.ident names.1.2 called
  | .arrayAccess lhs idx, names => by
      simp only [spelled, Bool.and_eq_true] at names
      have inner := parses flavor lhs names.1
      have index := parses flavor idx names.2
      refine .of_cast (fun _ _ => rfl) fun plain minus members behind rest r clean later => ?_
      simp only [tokens, Clean.cons, Clean.append, List.cons_append, List.nil_append, List.append_assoc] at clean ⊢
      have place := index.expr true true (.punct [']'] :: (memberTokens members ++ rest)) clean.2.2.1
        bracket_stops.1 bracket_stops.2
      exact inner.cast plain minus [] _ _ r clean.1 fun t => .index place (later _)
  | .structAccess lhs mbr, names => by
      simp only [spelled, isMember, Bool.and_eq_true, Bool.not_eq_true'] at names
      have inner := parses flavor lhs names.1
      refine .of_cast (fun _ _ => rfl) fun plain minus members behind rest r clean later => ?_
      exact inner.cast plain minus (memberName mbr :: members) _ rest r clean fun t => .member names.2.2 (later _)

theorem allParse (flavor : Flavor) : ∀ args : List Expr, allSpelled args = true → ∀ arg ∈ args, Parses flavor arg
  | [], _ => by simp
  | arg :: args, names => by
      simp only [allSpelled, Bool.and_eq_true] at names
      exact List.forall_mem_cons.mpr ⟨parses flavor arg names.1, allParse flavor args names.2⟩

end

end Parsing

end Dis86.Ast
