import Dis86.Ast.GenLexes
import Dis86.Ast.GenShape

namespace Dis86.Ast
open Lib Lib.C

section Condition

/-- A prefix operator stands at the top. It needs parentheses in front of a postfix operator, and gets none. -/
def isPrefixed : Expr → Bool
  | .unary _ _ | .cast _ _ | .deref _ => true
  | .decimalConst k => k.toInt < 0
  | _ => false

def startsMinus : Expr → Bool
  | .unary .neg _ => true
  | .decimalConst k => k.toInt < 0
  | _ => false

/-- The text is a number alone. -/
def isNumber (flavor : Flavor) (plain : Bool) : Expr → Bool
  | .hexConst k => !relocates flavor plain k
  | .decimalConst k => !decide (k.toInt < 0) && !relocates flavor plain k
  | _ => false

mutual

/-- No minus stands in front of another, no postfix operator behind a prefix operator, and no member
behind a number. -/
def readable (flavor : Flavor) (plain : Bool) : Expr → Bool
  | .unary op rhs => !(op == .neg && startsMinus rhs) && readable flavor plain rhs
  | .binary _ lhs rhs => readable flavor plain lhs && readable flavor plain rhs
  | .hexConst _ | .decimalConst _ | .name _ => true
  | .cast _ rhs => readable flavor plain rhs
  | .deref pointer => readable flavor plain pointer
  | .guestMem seg off _ => readable flavor plain seg && readable flavor true off
  | .call callee args =>
      !isPrefixed callee && readable flavor plain callee && readableRest flavor plain args
  | .abstract op args => readableArgs flavor plain (plain || plainRest op) args
  | .arrayAccess lhs idx => !isPrefixed lhs && readable flavor plain lhs && readable flavor true idx
  | .structAccess lhs _ => !isPrefixed lhs && !isNumber flavor plain lhs && readable flavor plain lhs

def readableArgs (flavor : Flavor) (plain rest : Bool) : List Expr → Bool
  | [] => true
  | arg :: args => readable flavor plain arg && readableRest flavor rest args

def readableRest (flavor : Flavor) (plain : Bool) : List Expr → Bool
  | [] => true
  | arg :: args => readable flavor plain arg && readableRest flavor plain args

end

theorem startsMinus_isPrefixed {e : Expr} (other : isPrefixed e = false) : startsMinus e = false := by
  cases e with
  | unary op rhs => cases other
  | decimalConst k => exact other
  | _ => rfl

theorem readableArgs_same (flavor : Flavor) (plain : Bool) (args : List Expr) :
    readableArgs flavor plain plain args = readableRest flavor plain args := by
  cases args <;> rfl

end Condition

section Enough

theorem Clean.nil : Clean [] := by
  intro token inside
  cases inside

theorem word_clean {text : List Char} (word : ∀ c ∈ text, isIdentChar c = true) :
    (Token.number text).clean = true := by
  rw [Token.clean, Bool.not_eq_true', ← Bool.not_eq_true, List.contains_iff_mem]
  intro inside
  cases word _ inside

theorem hexText_clean (k : BitVec 16) : (Token.number (hexText k)).clean = true := by
  obtain ⟨digits, written, word⟩ := hexText_word k
  rw [written]
  exact word_clean (List.forall_mem_cons.mpr ⟨rfl, word⟩)

theorem decimal_clean (n : Nat) : (Token.number (Nat.toDigits 10 n)).clean = true := by
  obtain ⟨c, digits, written, digit, word⟩ := decimal_word n
  rw [written]
  exact word_clean (List.forall_mem_cons.mpr ⟨digit_ident digit, word⟩)

theorem relocated_clean (k : BitVec 16) : Clean (relocatedTokens k) := by
  simp only [relocatedTokens, Clean.cons]
  exact ⟨rfl, rfl, rfl, hexText_clean k, rfl, Clean.nil⟩

theorem castTokens_clean (typ : Typ) : Clean (castTokens typ) := by
  simp only [castTokens, Clean.append, Clean.cons]
  refine ⟨⟨⟨rfl, rfl, Clean.nil⟩, fun token inside => ?_⟩, rfl, Clean.nil⟩
  rw [List.eq_of_mem_replicate inside]
  rfl

theorem operator_clean (op : BinaryOperator) : (Token.punct op.asOperatorStr).clean = true := by
  cases op <;> rfl

/-- A constant is clean when no member stands behind a number. -/
theorem constant_clean {minus : Bool} {members : List (List Char)} (relocated : Bool) (k : BitVec 16) {text : List Char}
    (word : (Token.number text).clean = true) (noMembers : members = [] ∨ relocated = true) :
    Clean (dash minus (if relocated then relocatedTokens k ++ memberTokens members
      else [.number (text ++ memberText members)])) := by
  cases relocated with
  | true => exact Clean.dash.mpr (Clean.append.mpr ⟨relocated_clean k, .members members⟩)
  | false =>
      obtain rfl := noMembers.resolve_right (by simp)
      refine Clean.dash.mpr (Clean.cons.mpr ⟨?_, Clean.nil⟩)
      simpa [memberText] using word

mutual

/-- A readable expression has clean tokens. -/
theorem readable_clean (flavor : Flavor) : ∀ (e : Expr) (plain nested minus : Bool) (members : List (List Char)),
    readable flavor plain e = true → (minus = true → startsMinus e = false) →
    (members = [] ∨ isPrefixed e = false ∧ isNumber flavor plain e = false) →
    Clean (tokens flavor plain nested minus members e)
  | .unary op rhs, plain, nested, minus, members, reads, noMinus, noMembers => by
      obtain rfl := noMembers.resolve_right fun other => by cases other.1
      simp only [readable, Bool.and_eq_true, Bool.not_eq_true'] at reads
      have inner (minus : Bool) := readable_clean flavor rhs plain true minus [] reads.2
      have alone := inner false (fun off => by cases off) (.inl rfl)
      cases op with
      | neg =>
          have single : startsMinus rhs = false := by simpa using reads.1
          cases minus with
          | false => exact inner true (fun _ => single) (.inl rfl)
          | true => cases noMinus rfl
      | addr =>
          simp only [tokens, UnaryOperator.tokens, Clean.dash, Clean.append, Clean.cons]
          exact ⟨⟨rfl, rfl, rfl, rfl, rfl, Clean.nil⟩, alone⟩
      | _ => exact Clean.dash.mpr (Clean.cons.mpr ⟨rfl, alone⟩)
  | .binary op lhs rhs, plain, nested, minus, members, reads, _, _ => by
      simp only [readable, Bool.and_eq_true] at reads
      have left := readable_clean flavor lhs plain true false [] reads.1 (fun off => by cases off) (.inl rfl)
      have right := readable_clean flavor rhs plain true false [] reads.2 (fun off => by cases off) (.inl rfl)
      simp only [tokens, Clean.append]
      refine ⟨⟨⟨⟨?_, left⟩, Clean.cons.mpr ⟨operator_clean op, Clean.nil⟩⟩, right⟩, ?_⟩
      · cases nested with
        | true => exact Clean.dash.mpr (Clean.cons.mpr ⟨rfl, Clean.nil⟩)
        | false => exact Clean.nil
      · cases nested with
        | true => exact Clean.cons.mpr ⟨rfl, .members members⟩
        | false => exact Clean.nil
  | .hexConst k, plain, _, _, _, _, _, noMembers => by
      exact constant_clean _ k (hexText_clean k) (noMembers.imp_right fun other => by simpa [isNumber] using other.2)
  | .decimalConst k, plain, _, minus, members, _, noMinus, noMembers => by
      have word := decimal_clean k.toInt.natAbs
      simp only [tokens]
      split
      · rename_i negative
        obtain rfl := noMembers.resolve_right fun other => by simp [isPrefixed, negative] at other
        cases minus with
        | true => simp [startsMinus, negative] at noMinus
        | false =>
            refine Clean.cons.mpr ⟨rfl, Clean.cons.mpr ⟨?_, Clean.nil⟩⟩
            simpa [memberText] using word
      · rename_i positive
        exact constant_clean _ k word (noMembers.imp_right fun other => by simpa [isNumber, positive] using other.2)
  | .name n, _, _, _, members, _, _, _ => Clean.dash.mpr (Clean.cons.mpr ⟨rfl, .members members⟩)
  | .cast typ rhs, plain, _, _, _, reads, _, noMembers => by
      obtain rfl := noMembers.resolve_right fun other => by cases other.1
      have inner := readable_clean flavor rhs plain true false [] reads (fun off => by cases off) (.inl rfl)
      exact Clean.dash.mpr (Clean.append.mpr ⟨castTokens_clean typ, inner⟩)
  | .deref pointer, plain, _, _, _, reads, _, noMembers => by
      obtain rfl := noMembers.resolve_right fun other => by cases other.1
      have inner := readable_clean flavor pointer plain true false [] reads (fun off => by cases off) (.inl rfl)
      exact Clean.dash.mpr (Clean.cons.mpr ⟨rfl, inner⟩)
  | .guestMem seg off width, plain, _, _, members, reads, _, _ => by
      simp only [readable, Bool.and_eq_true] at reads
      have segment := readable_clean flavor seg plain false false [] reads.1 (fun off => by cases off) (.inl rfl)
      have offset := readable_clean flavor off true false false [] reads.2 (fun off => by cases off) (.inl rfl)
      simp only [tokens, Clean.dash, Clean.append, Clean.cons]
      exact ⟨⟨⟨⟨⟨⟨rfl, rfl, Clean.nil⟩, segment⟩, rfl, Clean.nil⟩, offset⟩, rfl, Clean.nil⟩, .members members⟩
  | .call callee args, plain, _, minus, members, reads, _, _ => by
      simp only [readable, Bool.and_eq_true, Bool.not_eq_true'] at reads
      have inner := readable_clean flavor callee plain true minus [] reads.1.2
        (fun _ => startsMinus_isPrefixed reads.1.1) (.inl rfl)
      simp only [tokens, Clean.append]
      refine ⟨⟨⟨⟨inner, Clean.cons.mpr ⟨rfl, Clean.nil⟩⟩, ?_⟩, Clean.cons.mpr ⟨rfl, Clean.nil⟩⟩, .members members⟩
      cases flavor with
      | standard =>
          rw [← readableArgs_same] at reads
          exact argTokens_clean .standard args plain plain reads.2
      | hydra segs => exact Clean.cons.mpr ⟨rfl, restTokens_clean (.hydra segs) args plain reads.2⟩
  | .abstract op args, plain, _, _, members, reads, _, _ => by
      simp only [tokens, Clean.dash, Clean.append, Clean.cons]
      exact ⟨⟨⟨⟨rfl, rfl, Clean.nil⟩, argTokens_clean flavor args plain (plain || plainRest op) reads⟩, rfl, Clean.nil⟩,
        .members members⟩
  | .arrayAccess lhs idx, plain, _, minus, members, reads, _, _ => by
      simp only [readable, Bool.and_eq_true, Bool.not_eq_true'] at reads
      have inner := readable_clean flavor lhs plain true minus [] reads.1.2
        (fun _ => startsMinus_isPrefixed reads.1.1) (.inl rfl)
      have index := readable_clean flavor idx true true false [] reads.2 (fun off => by cases off) (.inl rfl)
      simp only [tokens, Clean.append, Clean.cons]
      exact ⟨⟨⟨⟨inner, rfl, Clean.nil⟩, index⟩, rfl, Clean.nil⟩, .members members⟩
  | .structAccess lhs mbr, plain, _, minus, members, reads, _, _ => by
      simp only [readable, Bool.and_eq_true, Bool.not_eq_true'] at reads
      exact readable_clean flavor lhs plain true minus (memberName mbr :: members) reads.2
        (fun _ => startsMinus_isPrefixed reads.1.1) (.inr reads.1)

theorem argTokens_clean (flavor : Flavor) : ∀ (args : List Expr) (plain more : Bool),
    readableArgs flavor plain more args = true → Clean (argTokens flavor plain more args)
  | [], _, _, _ => Clean.nil
  | arg :: args, plain, more, reads => by
      simp only [readableArgs, Bool.and_eq_true] at reads
      have first := readable_clean flavor arg plain false false [] reads.1 (fun off => by cases off) (.inl rfl)
      exact Clean.append.mpr ⟨first, restTokens_clean flavor args more reads.2⟩

theorem restTokens_clean (flavor : Flavor) : ∀ (args : List Expr) (plain : Bool),
    readableRest flavor plain args = true → Clean (restTokens flavor plain args)
  | [], _, _ => Clean.nil
  | arg :: args, plain, reads => by
      simp only [readableRest, Bool.and_eq_true] at reads
      have first := readable_clean flavor arg plain false false [] reads.1 (fun off => by cases off) (.inl rfl)
      simp only [restTokens, Clean.append]
      exact ⟨⟨Clean.cons.mpr ⟨rfl, Clean.nil⟩, first⟩, restTokens_clean flavor args plain reads.2⟩

end

mutual

/-- A readable expression has the shape of its tree. What stands behind an expression that is not prefixed
belongs to all of it. -/
theorem readable_shape (flavor : Flavor) : ∀ (e : Expr) (plain : Bool), readable flavor plain e = true →
    shape flavor plain id e = tree flavor plain e ∧
      (isPrefixed e = false → ∀ behind, shape flavor plain behind e = behind (tree flavor plain e))
  | .unary op rhs, plain, reads => by
      simp only [readable, Bool.and_eq_true] at reads
      have inner := (readable_shape flavor rhs plain reads.2).1
      exact ⟨by rw [shape, inner, tree], fun other => by cases other⟩
  | .binary op lhs rhs, plain, reads => by
      simp only [readable, Bool.and_eq_true] at reads
      have left := (readable_shape flavor lhs plain reads.1).1
      have right := (readable_shape flavor rhs plain reads.2).1
      have same (behind : Tree → Tree) :
          shape flavor plain behind (.binary op lhs rhs) = behind (tree flavor plain (.binary op lhs rhs)) := by
        rw [shape, left, right, tree]
      exact ⟨same id, fun _ => same⟩
  | .hexConst k, plain, _ => ⟨rfl, fun _ _ => rfl⟩
  | .decimalConst k, plain, _ => by
      refine ⟨rfl, fun other behind => ?_⟩
      have positive : ¬ k.toInt < 0 := by simpa [isPrefixed] using other
      simp only [shape, tree, if_neg positive]
  | .name n, plain, _ => ⟨rfl, fun _ _ => rfl⟩
  | .cast typ rhs, plain, reads => by
      have inner := (readable_shape flavor rhs plain reads).1
      exact ⟨by rw [shape, inner, tree], fun other => by cases other⟩
  | .deref pointer, plain, reads => by
      have inner := (readable_shape flavor pointer plain reads).1
      exact ⟨by rw [shape, inner, tree], fun other => by cases other⟩
  | .guestMem seg off width, plain, reads => by
      simp only [readable, Bool.and_eq_true] at reads
      have segment := (readable_shape flavor seg plain reads.1).1
      have offset := (readable_shape flavor off true reads.2).1
      have same (behind : Tree → Tree) :
          shape flavor plain behind (.guestMem seg off width) = behind (tree flavor plain (.guestMem seg off width)) := by
        rw [shape, segment, offset, tree]
      exact ⟨same id, fun _ => same⟩
  | .call callee args, plain, reads => by
      simp only [readable, Bool.and_eq_true, Bool.not_eq_true'] at reads
      have inner := (readable_shape flavor callee plain reads.1.2).2 reads.1.1
      have others := readable_shapes flavor args plain reads.2
      have same (behind : Tree → Tree) :
          shape flavor plain behind (.call callee args) = behind (tree flavor plain (.call callee args)) := by
        rw [shape, inner, others]
        cases flavor <;> rfl
      exact ⟨same id, fun _ => same⟩
  | .abstract op [], plain, _ => ⟨rfl, fun _ _ => rfl⟩
  | .abstract op (arg :: args), plain, reads => by
      simp only [readable, readableArgs, Bool.and_eq_true] at reads
      have first := (readable_shape flavor arg plain reads.1).1
      have others := readable_shapes flavor args (plain || plainRest op) reads.2
      have same (behind : Tree → Tree) : shape flavor plain behind (.abstract op (arg :: args)) =
          behind (tree flavor plain (.abstract op (arg :: args))) := by
        rw [shape, argShapes, first, others, tree]
      exact ⟨same id, fun _ => same⟩
  | .arrayAccess lhs idx, plain, reads => by
      simp only [readable, Bool.and_eq_true, Bool.not_eq_true'] at reads
      have inner := (readable_shape flavor lhs plain reads.1.2).2 reads.1.1
      have index := (readable_shape flavor idx true reads.2).1
      have same (behind : Tree → Tree) :
          shape flavor plain behind (.arrayAccess lhs idx) = behind (tree flavor plain (.arrayAccess lhs idx)) := by
        rw [shape, inner, index, tree]
      exact ⟨same id, fun _ => same⟩
  | .structAccess lhs mbr, plain, reads => by
      simp only [readable, Bool.and_eq_true, Bool.not_eq_true'] at reads
      have inner := (readable_shape flavor lhs plain reads.2).2 reads.1.1
      have same (behind : Tree → Tree) :
          shape flavor plain behind (.structAccess lhs mbr) = behind (tree flavor plain (.structAccess lhs mbr)) := by
        rw [shape, inner, tree]
      exact ⟨same id, fun _ => same⟩

theorem readable_shapes (flavor : Flavor) : ∀ (args : List Expr) (plain : Bool),
    readableRest flavor plain args = true → shapes flavor plain args = trees flavor plain args
  | [], _, _ => rfl
  | arg :: args, plain, reads => by
      simp only [readableRest, Bool.and_eq_true] at reads
      rw [shapes, (readable_shape flavor arg plain reads.1).1, readable_shapes flavor args plain reads.2, trees]

end

end Enough

section Needed

/-- A prefix operator begins the text, also with postfix operators behind. -/
def leads : Expr → Bool
  | .unary _ _ | .cast _ _ | .deref _ => true
  | .decimalConst k => k.toInt < 0
  | .call callee _ => leads callee
  | .arrayAccess lhs _ => leads lhs
  | .structAccess lhs _ => leads lhs
  | _ => false

def isOperation : Tree → Bool
  | .pre _ _ | .cast _ _ _ => true
  | _ => false

theorem leads_isPrefixed {e : Expr} (other : leads e = false) : isPrefixed e = false := by
  cases e with
  | unary op rhs => cases other
  | cast typ rhs => cases other
  | deref pointer => cases other
  | decimalConst k => exact other
  | _ => rfl

/-- A prefix operator at the front ends up at the top. -/
theorem leads_shape (flavor : Flavor) (plain : Bool) : ∀ (e : Expr) (behind : Tree → Tree), leads e = true →
    isOperation (shape flavor plain behind e) = true
  | .unary op rhs, behind, _ => by
      cases op <;> rfl
  | .binary _ _ _, _, first => by cases first
  | .hexConst _, _, first => by cases first
  | .decimalConst k, behind, first => by
      have negative : k.toInt < 0 := by simpa [leads] using first
      simp only [shape, if_pos negative]
      rfl
  | .name _, _, first => by cases first
  | .cast _ _, _, _ => rfl
  | .deref _, _, _ => rfl
  | .guestMem _ _ _, _, first => by cases first
  | .call callee args, behind, first => leads_shape flavor plain callee _ first
  | .abstract _ _, _, first => by cases first
  | .arrayAccess lhs idx, behind, first => leads_shape flavor plain lhs _ first
  | .structAccess lhs mbr, behind, first => leads_shape flavor plain lhs _ first

/-- What stands behind an expression with another front belongs to all of it. -/
theorem shape_behind (flavor : Flavor) (plain : Bool) : ∀ (e : Expr) (behind : Tree → Tree), leads e = false →
    shape flavor plain behind e = behind (shape flavor plain id e)
  | .unary _ _, _, first => by cases first
  | .binary _ _ _, _, _ => rfl
  | .hexConst _, _, _ => rfl
  | .decimalConst k, behind, first => by
      have positive : ¬ k.toInt < 0 := by simpa [leads] using first
      simp only [shape, if_neg positive]
      rfl
  | .name _, _, _ => rfl
  | .cast _ _, _, first => by cases first
  | .deref _, _, first => by cases first
  | .guestMem _ _ _, _, _ => rfl
  | .call callee args, behind, first => by
      have inner (behind : Tree → Tree) := shape_behind flavor plain callee behind first
      have alone : shape flavor plain id (.call callee args) =
          .call (shape flavor plain id callee) (machineArg flavor ++ shapes flavor plain args) := by
        simp only [shape]
        exact inner _
      rw [alone]
      simp only [shape]
      exact inner _
  | .abstract _ _, _, _ => rfl
  | .arrayAccess lhs idx, behind, first => by
      have inner (behind : Tree → Tree) := shape_behind flavor plain lhs behind first
      have alone : shape flavor plain id (.arrayAccess lhs idx) =
          .index (shape flavor plain id lhs) (shape flavor true id idx) := by
        simp only [shape]
        exact inner _
      rw [alone]
      simp only [shape]
      exact inner _
  | .structAccess lhs mbr, behind, first => by
      have inner (behind : Tree → Tree) := shape_behind flavor plain lhs behind first
      have alone : shape flavor plain id (.structAccess lhs mbr) =
          .member (shape flavor plain id lhs) (memberName mbr) := by
        simp only [shape]
        exact inner _
      rw [alone]
      simp only [shape]
      exact inner _

variable {flavor : Flavor} {plain : Bool}

theorem shape_call {callee : Expr} {args : List Expr} (apart : leads callee = false) :
    shape flavor plain id (.call callee args) =
      .call (shape flavor plain id callee) (machineArg flavor ++ shapes flavor plain args) := by
  simp only [shape]
  exact shape_behind flavor plain callee _ apart

theorem shape_index {lhs idx : Expr} (apart : leads lhs = false) :
    shape flavor plain id (.arrayAccess lhs idx) =
      .index (shape flavor plain id lhs) (shape flavor true id idx) := by
  simp only [shape]
  exact shape_behind flavor plain lhs _ apart

theorem shape_member {lhs mbr : Expr} (apart : leads lhs = false) :
    shape flavor plain id (.structAccess lhs mbr) =
      .member (shape flavor plain id lhs) (memberName mbr) := by
  simp only [shape]
  exact shape_behind flavor plain lhs _ apart

/-- What clean tokens tell about an expression between a minus and some members. -/
structure Apart (flavor : Flavor) (plain minus : Bool) (members : List (List Char)) (e : Expr) : Prop where
  reads : readable flavor plain e = true
  noMinus : minus = true → startsMinus e = false
  noNumber : members ≠ [] → isNumber flavor plain e = false

/-- An operator behind an expression leaves it alone only when nothing leads it. -/
theorem leads_of_shape {flavor : Flavor} {plain : Bool} {e : Expr} {behind : Tree → Tree}
    (other : isOperation (shape flavor plain behind e) = false) : leads e = false := by
  rw [Bool.eq_false_iff]
  intro first
  rw [leads_shape flavor plain e behind first] at other
  cases other

/-- The trees of the arguments of an operation. -/
def argTrees (flavor : Flavor) (plain more : Bool) : List Expr → List Tree
  | [] => []
  | arg :: args => tree flavor plain arg :: trees flavor more args

theorem tree_abstract (op : String) (args : List Expr) : tree flavor plain (.abstract op args) =
    .call (.ident op.toList) (argTrees flavor plain (plain || plainRest op) args) := by
  cases args <;> rfl

theorem constant_number {minus relocated : Bool} {members : List (List Char)} {k : BitVec 16} {text : List Char}
    (clean : Clean (dash minus (if relocated then relocatedTokens k ++ memberTokens members
      else [.number (text ++ memberText members)]))) (some_ : members ≠ []) : relocated = true := by
  cases relocated with
  | true => rfl
  | false => exact absurd (Clean.number (Clean.cons.mp (Clean.dash.mp clean)).1) some_

mutual

/-- An expression with clean tokens and the shape of its tree is readable. -/
theorem shape_readable (flavor : Flavor) : ∀ (e : Expr) (plain nested minus : Bool) (members : List (List Char)),
    Clean (tokens flavor plain nested minus members e) → shape flavor plain id e = tree flavor plain e →
    Apart flavor plain minus members e
  | .unary op rhs, plain, _, minus, members, clean, same => by
      have inner (minus : Bool) (cleanInner : Clean (tokens flavor plain true minus members rhs)) :=
        shape_readable flavor rhs plain true minus members cleanInner
      have sameInner : shape flavor plain id rhs = tree flavor plain rhs := by
        cases op with
        | addr => exact (Tree.pre.inj (Tree.cast.inj same).2.2).2
        | _ => exact (Tree.pre.inj same).2
      cases op with
      | neg =>
          cases minus with
          | true => exact absurd (Clean.cons.mp clean).1 (by decide)
          | false =>
              obtain ⟨reads, noMinus, _⟩ := inner true clean sameInner
              exact ⟨by simp [readable, reads, noMinus rfl], fun off => (by cases off), fun _ => rfl⟩
      | addr =>
          have alone := inner false (Clean.append.mp (Clean.dash.mp clean)).2 sameInner
          exact ⟨alone.reads, fun _ => rfl, fun _ => rfl⟩
      | logicalNot =>
          have alone := inner false (Clean.append.mp (Clean.dash.mp clean)).2 sameInner
          exact ⟨alone.reads, fun _ => rfl, fun _ => rfl⟩
      | bitwiseNot =>
          have alone := inner false (Clean.append.mp (Clean.dash.mp clean)).2 sameInner
          exact ⟨alone.reads, fun _ => rfl, fun _ => rfl⟩
  | .binary op lhs rhs, plain, _, minus, members, clean, same => by
      obtain ⟨_, sameLeft, sameRight⟩ := Tree.binary.inj same
      simp only [tokens, Clean.append] at clean
      have left := shape_readable flavor lhs plain true false [] clean.1.1.1.2 sameLeft
      have right := shape_readable flavor rhs plain true false [] clean.1.2 sameRight
      exact ⟨by rw [readable, left.reads, right.reads]; rfl, fun _ => rfl, fun _ => rfl⟩
  | .hexConst k, plain, _, minus, members, clean, _ => by
      refine ⟨rfl, fun _ => rfl, fun some_ => ?_⟩
      have relocated := constant_number clean some_
      rw [isNumber, relocated]
      rfl
  | .decimalConst k, plain, _, minus, members, clean, _ => by
      simp only [tokens] at clean
      split at clean
      · rename_i negative
        cases minus with
        | true => exact absurd (Clean.cons.mp clean).1 (by decide)
        | false => exact ⟨rfl, fun off => (by cases off), fun _ => by simp [isNumber, negative]⟩
      · rename_i positive
        refine ⟨rfl, fun _ => by simpa [startsMinus] using positive, fun some_ => ?_⟩
        have relocated := constant_number clean some_
        rw [isNumber, relocated]
        exact Bool.and_false _
  | .name n, _, _, _, _, _, _ => ⟨rfl, fun _ => rfl, fun _ => rfl⟩
  | .cast typ rhs, plain, _, minus, members, clean, same => by
      have alone := shape_readable flavor rhs plain true false members
        (Clean.append.mp (Clean.dash.mp clean)).2 (Tree.cast.inj same).2.2
      exact ⟨alone.reads, fun _ => rfl, fun _ => rfl⟩
  | .deref pointer, plain, _, minus, members, clean, same => by
      have alone := shape_readable flavor pointer plain true false members
        (Clean.cons.mp (Clean.dash.mp clean)).2 (Tree.pre.inj same).2
      exact ⟨alone.reads, fun _ => rfl, fun _ => rfl⟩
  | .guestMem seg off width, plain, _, minus, members, clean, same => by
      simp only [tokens, Clean.dash, Clean.append] at clean
      have both := (Tree.call.inj same).2
      have segment := shape_readable flavor seg plain false false [] clean.1.1.1.1.2 (List.cons.inj both).1
      have offset := shape_readable flavor off true false false [] clean.1.1.2 (List.cons.inj (List.cons.inj both).2).1
      exact ⟨by rw [readable, segment.reads, offset.reads]; rfl, fun _ => rfl, fun _ => rfl⟩
  | .call callee args, plain, _, minus, members, clean, same => by
      simp only [tokens, Clean.append] at clean
      have whole : leads (.call callee args) = false := leads_of_shape (congrArg isOperation same)
      have apart : leads callee = false := whole
      obtain ⟨sameCallee, sameArgs⟩ := Tree.call.inj ((shape_call apart).symm.trans same)
      have inner := shape_readable flavor callee plain true minus [] clean.1.1.1.1 sameCallee
      have reads : readableRest flavor plain args = true := by
        cases flavor with
        | standard =>
            rw [← readableArgs_same]
            refine argShapes_readable .standard args plain plain clean.1.1.2 ?_
            have sameShapes : shapes .standard plain args = trees .standard plain args := sameArgs
            rw [argShapes_same, sameShapes]
            cases args <;> rfl
        | hydra segs =>
            exact shapes_readable (.hydra segs) args plain (Clean.cons.mp clean.1.1.2).2 (List.cons.inj sameArgs).2
      exact ⟨by rw [readable, leads_isPrefixed apart, inner.reads, reads]; rfl, fun _ => rfl, fun _ => rfl⟩
  | .abstract op args, plain, _, minus, members, clean, same => by
      simp only [tokens, Clean.dash, Clean.append] at clean
      rw [tree_abstract] at same
      have reads := argShapes_readable flavor args plain (plain || plainRest op) clean.1.1.2 (Tree.call.inj same).2
      exact ⟨reads, fun _ => rfl, fun _ => rfl⟩
  | .arrayAccess lhs idx, plain, _, minus, members, clean, same => by
      simp only [tokens, Clean.append] at clean
      have whole : leads (.arrayAccess lhs idx) = false := leads_of_shape (congrArg isOperation same)
      have apart : leads lhs = false := whole
      obtain ⟨sameLeft, sameIndex⟩ := Tree.index.inj ((shape_index apart).symm.trans same)
      have inner := shape_readable flavor lhs plain true minus [] clean.1.1.1.1 sameLeft
      have index := shape_readable flavor idx true true false [] clean.1.1.2 sameIndex
      exact ⟨by rw [readable, leads_isPrefixed apart, inner.reads, index.reads]; rfl, fun _ => rfl, fun _ => rfl⟩
  | .structAccess lhs mbr, plain, _, minus, members, clean, same => by
      have whole : leads (.structAccess lhs mbr) = false := leads_of_shape (congrArg isOperation same)
      have apart : leads lhs = false := whole
      obtain ⟨sameLeft, _⟩ := Tree.member.inj ((shape_member apart).symm.trans same)
      have inner := shape_readable flavor lhs plain true minus (memberName mbr :: members) clean sameLeft
      have noNumber := inner.noNumber (List.cons_ne_nil _ _)
      exact ⟨by rw [readable, leads_isPrefixed apart, inner.reads, noNumber]; rfl, fun _ => rfl, fun _ => rfl⟩

theorem argShapes_readable (flavor : Flavor) : ∀ (args : List Expr) (plain more : Bool),
    Clean (argTokens flavor plain more args) → argShapes flavor plain more args = argTrees flavor plain more args →
    readableArgs flavor plain more args = true
  | [], _, _, _, _ => rfl
  | arg :: args, plain, more, clean, same => by
      simp only [argTokens, Clean.append] at clean
      obtain ⟨first, others⟩ := List.cons.inj same
      have here := shape_readable flavor arg plain false false [] clean.1 first
      have later := shapes_readable flavor args more clean.2 others
      rw [readableArgs, here.reads, later]
      rfl

theorem shapes_readable (flavor : Flavor) : ∀ (args : List Expr) (plain : Bool),
    Clean (restTokens flavor plain args) → shapes flavor plain args = trees flavor plain args →
    readableRest flavor plain args = true
  | [], _, _, _ => rfl
  | arg :: args, plain, clean, same => by
      simp only [restTokens, Clean.append] at clean
      obtain ⟨first, others⟩ := List.cons.inj same
      have here := shape_readable flavor arg plain false false [] clean.1.2 first
      have later := shapes_readable flavor args plain clean.2 others
      rw [readableRest, here.reads, later]
      rfl

end

end Needed

section ReadBack

theorem word_plain {text : List Char} (clean : (Token.number text).clean = true) :
    (Tree.number text).plain = true := clean

theorem relocatedTree_plain (k : BitVec 16) : (relocatedTree k).plain = true := by
  rw [relocatedTree, Tree.plain, word_plain (hexText_clean k)]
  rfl

mutual

/-- No tree of an expression decrements. -/
theorem tree_plain (flavor : Flavor) : ∀ (e : Expr) (plain : Bool), (tree flavor plain e).plain = true
  | .unary op rhs, plain => by
      have inner := tree_plain flavor rhs plain
      cases op <;> exact inner
  | .binary op lhs rhs, plain => by
      rw [tree, Tree.plain, tree_plain flavor lhs plain, tree_plain flavor rhs plain]
      rfl
  | .hexConst k, plain => by
      rw [tree]
      split
      · exact relocatedTree_plain k
      · exact word_plain (hexText_clean k)
  | .decimalConst k, plain => by
      have word := word_plain (decimal_clean k.toInt.natAbs)
      rw [tree]
      split
      · exact word
      · split
        · exact relocatedTree_plain k
        · exact word
  | .name n, _ => rfl
  | .cast typ rhs, plain => tree_plain flavor rhs plain
  | .deref pointer, plain => tree_plain flavor pointer plain
  | .guestMem seg off width, plain => by
      rw [tree, Tree.plain, plainAll, plainAll, tree_plain flavor seg plain, tree_plain flavor off true]
      rfl
  | .call callee args, plain => by
      have inner := tree_plain flavor callee plain
      have others := trees_plain flavor args plain
      cases flavor with
      | standard => exact Bool.and_eq_true _ _ ▸ ⟨inner, others⟩
      | hydra segs => exact Bool.and_eq_true _ _ ▸ ⟨inner, others⟩
  | .abstract op [], _ => rfl
  | .abstract op (arg :: args), plain => by
      rw [tree_abstract, argTrees, Tree.plain, plainAll, tree_plain flavor arg plain,
        trees_plain flavor args (plain || plainRest op)]
      rfl
  | .arrayAccess lhs idx, plain => by
      rw [tree, Tree.plain, tree_plain flavor lhs plain, tree_plain flavor idx true]
      rfl
  | .structAccess lhs mbr, plain => tree_plain flavor lhs plain

theorem trees_plain (flavor : Flavor) : ∀ (args : List Expr) (plain : Bool), plainAll (trees flavor plain args) = true
  | [], _ => rfl
  | arg :: args, plain => by
      rw [trees, plainAll, tree_plain flavor arg plain, trees_plain flavor args plain]
      rfl

end

variable {flavor : Flavor} {plain nested : Bool} {e : Expr}

theorem gen_tokens (names : spelled e = true) :
    Lexes (gen flavor plain nested e) (tokens flavor plain nested false [] e) := by
  have lexed := gen_lexes flavor e plain nested false [] [] [] names (.inr ⟨rfl, rfl⟩) (by simp)
    (fun c first => by cases first) .done
  simpa [dashText, memberText] using lexed

/-- The text of an expression with clean tokens reads as its shape. -/
theorem gen_reads_shape (names : spelled e = true) (clean : Clean (tokens flavor plain nested false [] e)) :
    Reads isTypeName (gen flavor plain nested e) (shape flavor plain id e) := by
  have parsed := (parses flavor e names).expr plain nested [] clean trivial trivial
  rw [List.append_nil] at parsed
  exact ⟨_, gen_tokens names, parsed⟩

theorem ReadsBack.clean (back : ReadsBack flavor plain nested e) : Clean (tokens flavor plain nested false [] e) := by
  obtain ⟨tokens, lexes, clean⟩ := back.2.clean (tree_plain flavor e plain)
  obtain rfl := lexes.unique (gen_tokens back.1)
  exact clean

/-- The text of an expression reads as its tree exactly when the expression is readable. -/
theorem gen_reads_back_iff (flavor : Flavor) (plain nested : Bool) (e : Expr) :
    ReadsBack flavor plain nested e ↔ spelled e = true ∧ readable flavor plain e = true := by
  constructor
  · intro back
    have same := (gen_reads_shape back.1 back.clean).unique back.2
    exact ⟨back.1, (shape_readable flavor e plain nested false [] back.clean same).reads⟩
  · rintro ⟨names, reads⟩
    have clean := readable_clean flavor e plain nested false [] reads (fun off => by cases off) (.inl rfl)
    have shaped : Reads isTypeName (gen flavor plain nested e) _ := gen_reads_shape names clean
    rw [(readable_shape flavor e plain reads).1] at shaped
    exact ⟨names, shaped⟩

/-- A negative constant under a minus is printed as a decrement. -/
theorem negated_constant_reads_otherwise :
    ¬ ∀ (flavor : Flavor) (plain nested : Bool) (e : Expr), spelled e = true → ReadsBack flavor plain nested e := by
  intro every
  have back := every .standard false false (.unary .neg (.decimalConst (-5))) rfl
  have first := back.clean (.punct ['-', '-']) (by decide)
  cases first

end ReadBack

end Dis86.Ast
