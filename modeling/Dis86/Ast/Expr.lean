import Dis86.IR.Def

namespace Dis86.Ast

/-- The unary operators of the emitted code. -/
inductive UnaryOperator where
  | addr | neg | logicalNot | bitwiseNot
deriving DecidableEq, Repr

/-- The binary operators of the emitted code. -/
inductive BinaryOperator where
  | add | sub | shl | shr | mul | div | mod | and | or | xor
  | eq | neq | gt | geq | lt | leq
deriving DecidableEq, Repr

/-- Only a comparison has a negation that is an operator. -/
def BinaryOperator.invert : BinaryOperator → Option BinaryOperator
  | .eq => some .neq
  | .neq => some .eq
  | .gt => some .leq
  | .geq => some .lt
  | .lt => some .geq
  | .leq => some .gt
  | _ => none

/-- The expressions of the emitted code. -/
inductive Expr where
  | unary (op : UnaryOperator) (rhs : Expr)
  | binary (op : BinaryOperator) (lhs rhs : Expr)
  | hexConst (k : BitVec 16)
  | decimalConst (k : BitVec 16)
  | name (n : String)
  | call (callee : Expr) (args : List Expr)
  | abstract (op : String) (args : List Expr)
  | arrayAccess (lhs idx : Expr)
  | structAccess (lhs mbr : Expr)
  | deref (pointer : Expr)
  | guestMem (seg off : Expr) (width : Nat)
  | cast (typ : Typ) (rhs : Expr)
deriving Repr, Inhabited

mutual

/-- The variables whose value an expression reads. A callee and a member are not read, and the
address of a place does not read the place. -/
def Expr.reads : Expr → List String
  | .unary .addr _ => []
  | .unary _ rhs => rhs.reads
  | .binary _ lhs rhs => lhs.reads ++ rhs.reads
  | .hexConst _ | .decimalConst _ => []
  | .name n => [n]
  | .call _ args => readsAll args
  | .abstract _ args => readsAll args
  | .arrayAccess lhs idx => lhs.reads ++ idx.reads
  | .structAccess lhs _ => lhs.reads
  | .deref pointer => pointer.reads
  | .guestMem seg off _ => seg.reads ++ off.reads
  | .cast _ rhs => rhs.reads

def readsAll : List Expr → List String
  | [] => []
  | e :: es => e.reads ++ readsAll es

end

theorem readsAll_eq (es : List Expr) : readsAll es = es.flatMap Expr.reads := by
  induction es with
  | nil => rfl
  | cons e es ih => simp [readsAll, ih]

/-- A variable, or a place in memory. -/
def Expr.isPlace : Expr → Bool
  | .name _ | .arrayAccess _ _ | .structAccess _ _ | .deref _ | .guestMem _ _ _ => true
  | _ => false

/-- An assignment writes a variable or a place in memory. -/
structure Assign where
  decltype : Option Typ
  lhs : Expr
  rhs : Expr
deriving Repr

inductive ReturnType where
  | far | near
deriving DecidableEq, Repr

/-- A return carries the writes that follow the teardown of the frame. -/
structure Return where
  rt : ReturnType
  vals : List Expr
  postFrame : List Assign
deriving Repr

/-- The statements that a basic block emits. -/
inductive Stmt where
  | expr (e : Expr)
  | assign (a : Assign)
  | ret (r : Return)
deriving Repr

/-- A block of the emitted code is the list of its statements. -/
abbrev Block := List Stmt

end Dis86.Ast
