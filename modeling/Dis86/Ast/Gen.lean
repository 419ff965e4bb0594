import Dis86.Ast.Expr
import Dis86.Lib.CGrammar

namespace Dis86.Ast
open Lib

def UnaryOperator.asOperatorStr : UnaryOperator → List Char
  | .addr => ['(', 'u', '8', '*', ')', '&']
  | .neg => ['-']
  | .logicalNot => ['!']
  | .bitwiseNot => ['~']

def BinaryOperator.asOperatorStr : BinaryOperator → List Char
  | .add => ['+']
  | .sub => ['-']
  | .shl => ['<', '<']
  | .shr => ['>', '>']
  | .mul => ['*']
  | .div => ['/']
  | .mod => ['%']
  | .and => ['&']
  | .or => ['|']
  | .xor => ['^']
  | .eq => ['=', '=']
  | .neq => ['!', '=']
  | .gt => ['>']
  | .geq => ['>', '=']
  | .lt => ['<']
  | .leq => ['<', '=']

/-- The second flavor knows the segments that are relocated. -/
inductive Flavor where
  | standard
  | hydra (relocatableSegs : List (BitVec 16))
deriving DecidableEq, Repr

def Flavor.relocatableSegs : Flavor → List (BitVec 16)
  | .standard => []
  | .hydra segs => segs

def codeStart : List Char := "CODE_START_SEG".toList

def hexText (k : BitVec 16) : List Char := ['0', 'x'] ++ Nat.toDigits 16 k.toNat

def relocatedText (k : BitVec 16) : List Char := ['('] ++ codeStart ++ [' ', '+', ' '] ++ hexText k ++ [')']

/-- A constant is relocated outside of addresses. A negative one is no segment. -/
def relocates (flavor : Flavor) (plain : Bool) (k : BitVec 16) : Bool :=
  !plain && flavor.relocatableSegs.contains k

def loadName (width : Nat) : List Char := "LOAD_".toList ++ Nat.toDigits 10 (width * 8)

/-- A comment tells about operations that are not modelled. -/
def marker (op : String) : List Char :=
  match op with
  | "UNIMPL" => " /* UNIMPL op */".toList
  | "UNIMPL_FLAGS" => " /* UNIMPL flags */".toList
  | _ => []

/-- The arguments of a pointer macro behind its first are addresses. -/
def plainRest (op : String) : Bool := op ∈ ["PTR_8", "PTR_16", "PTR_32"]

mutual

/-- The text of an expression. The level of an expression tells only whether it is nested in another,
which puts a binary operator in parentheses. -/
def gen (flavor : Flavor) (plain nested : Bool) : Expr → List Char
  | .unary op rhs => op.asOperatorStr ++ gen flavor plain true rhs
  | .binary op lhs rhs =>
      (if nested then ['('] else []) ++ gen flavor plain true lhs ++ [' '] ++ op.asOperatorStr ++ [' '] ++
        gen flavor plain true rhs ++ (if nested then [')'] else [])
  | .hexConst k => if relocates flavor plain k then relocatedText k else hexText k
  | .decimalConst k =>
      if k.toInt < 0 then ['-'] ++ Nat.toDigits 10 k.toInt.natAbs
      else if relocates flavor plain k then relocatedText k
      else Nat.toDigits 10 k.toInt.natAbs
  | .name n => n.toList
  | .cast typ rhs => ['('] ++ typ.display.toList ++ [')'] ++ gen flavor plain true rhs
  | .deref pointer => ['*'] ++ gen flavor plain true pointer
  | .guestMem seg off width =>
      loadName width ++ ['('] ++ gen flavor plain false seg ++ [',', ' '] ++ gen flavor true false off ++ [')']
  | .call callee args =>
      gen flavor plain true callee ++ ['('] ++ (match flavor with
        | .standard => genArgs flavor plain plain args
        | .hydra _ => ['m'] ++ genRest flavor plain args) ++ [')']
  | .abstract op args =>
      op.toList ++ ['('] ++ genArgs flavor plain (plain || plainRest op) args ++ [')'] ++ marker op
  | .arrayAccess lhs idx => gen flavor plain true lhs ++ ['['] ++ gen flavor true true idx ++ [']']
  | .structAccess lhs mbr => gen flavor plain true lhs ++ ['.'] ++ gen flavor plain true mbr

/-- Arguments with commas between them. -/
def genArgs (flavor : Flavor) (plain rest : Bool) : List Expr → List Char
  | [] => []
  | arg :: args => gen flavor plain false arg ++ genRest flavor rest args

/-- Arguments behind another one. -/
def genRest (flavor : Flavor) (plain : Bool) : List Expr → List Char
  | [] => []
  | arg :: args => [',', ' '] ++ gen flavor plain false arg ++ genRest flavor plain args

end

section Meaning

/-- The types that C knows here. -/
def isTypeName (name : List Char) : Bool :=
  String.ofList name ∈ ["void", "u8", "u16", "u32", "i8", "i16", "i32"]

/-- The name of a primitive type, and the stars of a pointer. -/
def cType : Typ → Option (List Char × Nat)
  | .void => some ("void".toList, 0)
  | .u8 => some ("u8".toList, 0)
  | .u16 => some ("u16".toList, 0)
  | .u32 => some ("u32".toList, 0)
  | .i8 => some ("i8".toList, 0)
  | .i16 => some ("i16".toList, 0)
  | .i32 => some ("i32".toList, 0)
  | .ptr base => (cType base).map fun (name, stars) => (name, stars + 1)
  | _ => none

def BinaryOperator.binOp : BinaryOperator → C.BinOp
  | .add => .add
  | .sub => .sub
  | .shl => .shl
  | .shr => .shr
  | .mul => .mul
  | .div => .div
  | .mod => .mod
  | .and => .band
  | .or => .bor
  | .xor => .bxor
  | .eq => .eq
  | .neq => .ne
  | .gt => .gt
  | .geq => .ge
  | .lt => .lt
  | .leq => .le

def UnaryOperator.tree (op : UnaryOperator) (t : C.Tree) : C.Tree :=
  match op with
  | .addr => .cast "u8".toList 1 (.pre .addr t)
  | .neg => .pre .neg t
  | .logicalNot => .pre .not t
  | .bitwiseNot => .pre .compl t

def relocatedTree (k : BitVec 16) : C.Tree := .binary .add (.ident codeStart) (.number (hexText k))

def memberName : Expr → List Char
  | .name n => n.toList
  | _ => []

mutual

/-- The tree that an expression stands for. -/
def tree (flavor : Flavor) (plain : Bool) : Expr → C.Tree
  | .unary op rhs => op.tree (tree flavor plain rhs)
  | .binary op lhs rhs => .binary op.binOp (tree flavor plain lhs) (tree flavor plain rhs)
  | .hexConst k => if relocates flavor plain k then relocatedTree k else .number (hexText k)
  | .decimalConst k =>
      if k.toInt < 0 then .pre .neg (.number (Nat.toDigits 10 k.toInt.natAbs))
      else if relocates flavor plain k then relocatedTree k
      else .number (Nat.toDigits 10 k.toInt.natAbs)
  | .name n => .ident n.toList
  | .cast typ rhs =>
      .cast ((cType typ).getD ([], 0)).1 ((cType typ).getD ([], 0)).2 (tree flavor plain rhs)
  | .deref pointer => .pre .deref (tree flavor plain pointer)
  | .guestMem seg off width =>
      .call (.ident (loadName width)) [tree flavor plain seg, tree flavor true off]
  | .call callee args =>
      .call (tree flavor plain callee) (match flavor with
        | .standard => trees flavor plain args
        | .hydra _ => .ident ['m'] :: trees flavor plain args)
  | .abstract op args => .call (.ident op.toList) (match args with
      | [] => []
      | arg :: args => tree flavor plain arg :: trees flavor (plain || plainRest op) args)
  | .arrayAccess lhs idx => .index (tree flavor plain lhs) (tree flavor true idx)
  | .structAccess lhs mbr => .member (tree flavor plain lhs) (memberName mbr)

def trees (flavor : Flavor) (plain : Bool) : List Expr → List C.Tree
  | [] => []
  | arg :: args => tree flavor plain arg :: trees flavor plain args

end

/-- An identifier of C that is neither a keyword nor a type. -/
def isIdent (name : List Char) : Bool :=
  name.head?.any C.isIdentStart && name.all C.isIdentChar && C.isValue isTypeName name

/-- A member is any identifier but a keyword. -/
def isMember (name : List Char) : Bool :=
  name.head?.any C.isIdentStart && name.all C.isIdentChar && !C.isKeyword name

mutual

/-- The names are identifiers, members are names, and casts name types of C. -/
def spelled : Expr → Bool
  | .unary _ rhs => spelled rhs
  | .binary _ lhs rhs => spelled lhs && spelled rhs
  | .hexConst _ | .decimalConst _ => true
  | .name n => isIdent n.toList
  | .cast typ rhs => (cType typ).isSome && spelled rhs
  | .deref pointer => spelled pointer
  | .guestMem seg off _ => spelled seg && spelled off
  | .call callee args => spelled callee && allSpelled args
  | .abstract op args => isIdent op.toList && allSpelled args
  | .arrayAccess lhs idx => spelled lhs && spelled idx
  | .structAccess lhs mbr => spelled lhs && isMember (memberName mbr)

def allSpelled : List Expr → Bool
  | [] => true
  | arg :: args => spelled arg && allSpelled args

end

/-- The text of an expression reads as the tree that the expression stands for. An expression with
other names stands for none. -/
def ReadsBack (flavor : Flavor) (plain nested : Bool) (e : Expr) : Prop :=
  spelled e = true ∧ C.Reads isTypeName (gen flavor plain nested e) (tree flavor plain e)

end Meaning

open Lib.C

def dashText (minus : Bool) : List Char := if minus then ['-'] else []

def dash (minus : Bool) (tokens : List Token) : List Token :=
  if minus then .punct ['-'] :: tokens else tokens

theorem dash_append (minus : Bool) (tokens rest : List Token) :
    dash minus tokens ++ rest = dash minus (tokens ++ rest) := by
  cases minus <;> rfl

def memberText (members : List (List Char)) : List Char := members.flatMap fun name => '.' :: name

def memberTokens (members : List (List Char)) : List Token :=
  members.flatMap fun name => [.punct ['.'], .ident name]

def UnaryOperator.tokens (op : UnaryOperator) : List Token :=
  match op with
  | .addr => [.punct ['('], .ident ['u', '8'], .punct ['*'], .punct [')'], .punct ['&']]
  | op => [.punct op.asOperatorStr]

def castTokens (typ : Typ) : List Token :=
  [.punct ['('], .ident ((cType typ).getD ([], 0)).1] ++
    List.replicate ((cType typ).getD ([], 0)).2 (.punct ['*']) ++ [.punct [')']]

/-- A type of C is displayed as its name and its stars. -/
theorem cType_display {typ : Typ} {name : List Char} {count : Nat} (known : cType typ = some (name, count)) :
    typ.display.toList = name ++ List.replicate count '*' ∧
      name.head?.any isIdentStart = true ∧ name.all isIdentChar = true ∧ isTypeName name = true := by
  fun_induction cType typ generalizing count with
  | case8 base inductionHypothesis =>
      obtain ⟨⟨name', count'⟩, found, same⟩ := Option.map_eq_some_iff.mp known
      obtain ⟨rfl, rfl⟩ := Prod.mk.inj same
      obtain ⟨displayed, known⟩ := inductionHypothesis found
      have text : (Typ.ptr base).display.toList = base.display.toList ++ ['*'] := by
        simp [Typ.display, Typ.displayWith]
      refine ⟨?_, known⟩
      rw [text, displayed, List.append_assoc, List.replicate_succ']
  | case9 => cases known
  | _ =>
      obtain ⟨rfl, rfl⟩ := Prod.mk.inj (Option.some.inj known)
      exact ⟨by decide, by decide, by decide, by decide⟩

def relocatedTokens (k : BitVec 16) : List Token :=
  [.punct ['('], .ident codeStart, .punct ['+'], .number (hexText k), .punct [')']]

mutual

/-- The tokens of an expression that may stand between a minus and some members. Two minuses are one
token, and a number goes on with the members behind it. -/
def tokens (flavor : Flavor) (plain nested minus : Bool) (members : List (List Char)) : Expr → List Token
  | .unary .neg rhs =>
      if minus then .punct ['-', '-'] :: tokens flavor plain true false members rhs
      else tokens flavor plain true true members rhs
  | .unary op rhs => dash minus (op.tokens ++ tokens flavor plain true false members rhs)
  | .binary op lhs rhs =>
      (if nested then dash minus [.punct ['(']] else []) ++ tokens flavor plain true false [] lhs ++
        [.punct op.asOperatorStr] ++ tokens flavor plain true false [] rhs ++
        (if nested then .punct [')'] :: memberTokens members else [])
  | .hexConst k =>
      dash minus (if relocates flavor plain k then relocatedTokens k ++ memberTokens members
        else [.number (hexText k ++ memberText members)])
  | .decimalConst k =>
      if k.toInt < 0 then
        (if minus then .punct ['-', '-'] else .punct ['-']) ::
          [.number (Nat.toDigits 10 k.toInt.natAbs ++ memberText members)]
      else dash minus (if relocates flavor plain k then relocatedTokens k ++ memberTokens members
        else [.number (Nat.toDigits 10 k.toInt.natAbs ++ memberText members)])
  | .name n => dash minus (.ident n.toList :: memberTokens members)
  | .cast typ rhs => dash minus (castTokens typ ++ tokens flavor plain true false members rhs)
  | .deref pointer => dash minus (.punct ['*'] :: tokens flavor plain true false members pointer)
  | .guestMem seg off width =>
      dash minus ([.ident (loadName width), .punct ['(']] ++ tokens flavor plain false false [] seg ++
        [.punct [',']] ++ tokens flavor true false false [] off ++ [.punct [')']] ++ memberTokens members)
  | .call callee args =>
      tokens flavor plain true minus [] callee ++ [.punct ['(']] ++ (match flavor with
        | .standard => argTokens flavor plain plain args
        | .hydra _ => .ident ['m'] :: restTokens flavor plain args) ++ [.punct [')']] ++ memberTokens members
  | .abstract op args =>
      dash minus ([.ident op.toList, .punct ['(']] ++ argTokens flavor plain (plain || plainRest op) args ++
        [.punct [')']] ++ memberTokens members)
  | .arrayAccess lhs idx =>
      tokens flavor plain true minus [] lhs ++ [.punct ['[']] ++ tokens flavor true true false [] idx ++
        [.punct [']']] ++ memberTokens members
  | .structAccess lhs mbr => tokens flavor plain true minus (memberName mbr :: members) lhs

def argTokens (flavor : Flavor) (plain rest : Bool) : List Expr → List Token
  | [] => []
  | arg :: args => tokens flavor plain false false [] arg ++ restTokens flavor rest args

def restTokens (flavor : Flavor) (plain : Bool) : List Expr → List Token
  | [] => []
  | arg :: args => [.punct [',']] ++ tokens flavor plain false false [] arg ++ restTokens flavor plain args

end

end Dis86.Ast
