import Dis86.Ast.Expr
import Mathlib.Logic.Function.Basic

namespace Dis86.Ast

/-- A meaning of the operators over any values, at one state of the memory and the ports. The
address of a place does not depend on the variables. An assignment converts to a type. -/
structure Meaning (V : Type) where
  unary : UnaryOperator → V → V
  address : Expr → V
  binary : BinaryOperator → V → V → V
  hexConst : BitVec 16 → V
  decimalConst : BitVec 16 → V
  call : Expr → List V → V
  abstract : String → List V → V
  arrayAccess : V → V → V
  structAccess : V → Expr → V
  deref : V → V
  guestMem : V → V → Nat → V
  cast : Typ → V → V
  convert : Typ → V → V

namespace Meaning

variable {V : Type}

mutual

/-- The value of an expression under a valuation of the variables. -/
def eval (m : Meaning V) (env : String → V) : Expr → V
  | .unary .addr place => m.address place
  | .unary op rhs => m.unary op (m.eval env rhs)
  | .binary op lhs rhs => m.binary op (m.eval env lhs) (m.eval env rhs)
  | .hexConst k => m.hexConst k
  | .decimalConst k => m.decimalConst k
  | .name n => env n
  | .call callee args => m.call callee (m.evalAll env args)
  | .abstract op args => m.abstract op (m.evalAll env args)
  | .arrayAccess lhs idx => m.arrayAccess (m.eval env lhs) (m.eval env idx)
  | .structAccess lhs mbr => m.structAccess (m.eval env lhs) mbr
  | .deref pointer => m.deref (m.eval env pointer)
  | .guestMem seg off width => m.guestMem (m.eval env seg) (m.eval env off) width
  | .cast typ rhs => m.cast typ (m.eval env rhs)

def evalAll (m : Meaning V) (env : String → V) : List Expr → List V
  | [] => []
  | e :: es => m.eval env e :: m.evalAll env es

end

mutual

/-- The value of an expression depends only on the variables that it reads. -/
theorem eval_congr (m : Meaning V) {env env' : String → V} :
    ∀ e : Expr, (∀ x ∈ e.reads, env x = env' x) → m.eval env e = m.eval env' e
  | .unary op rhs, same => by
      cases op with
      | addr => rfl
      | _ => simp only [eval, m.eval_congr rhs (by simpa [Expr.reads] using same)]
  | .binary op lhs rhs, same => by
      simp only [Expr.reads, List.mem_append] at same
      simp only [eval, m.eval_congr lhs fun x read => same x (.inl read),
        m.eval_congr rhs fun x read => same x (.inr read)]
  | .hexConst _, _ => rfl
  | .decimalConst _, _ => rfl
  | .name n, same => same n (by simp [Expr.reads])
  | .call callee args, same => by
      simp only [eval, m.evalAll_congr args same]
  | .abstract op args, same => by
      simp only [eval, m.evalAll_congr args same]
  | .arrayAccess lhs idx, same => by
      simp only [Expr.reads, List.mem_append] at same
      simp only [eval, m.eval_congr lhs fun x read => same x (.inl read),
        m.eval_congr idx fun x read => same x (.inr read)]
  | .structAccess lhs mbr, same => by
      simp only [eval, m.eval_congr lhs same]
  | .deref pointer, same => by
      simp only [eval, m.eval_congr pointer same]
  | .guestMem seg off width, same => by
      simp only [Expr.reads, List.mem_append] at same
      simp only [eval, m.eval_congr seg fun x read => same x (.inl read),
        m.eval_congr off fun x read => same x (.inr read)]
  | .cast typ rhs, same => by
      simp only [eval, m.eval_congr rhs same]

theorem evalAll_congr (m : Meaning V) {env env' : String → V} :
    ∀ es : List Expr, (∀ x ∈ readsAll es, env x = env' x) → m.evalAll env es = m.evalAll env' es
  | [], _ => rfl
  | e :: es, same => by
      simp only [readsAll, List.mem_append] at same
      simp only [evalAll, m.eval_congr e fun x read => same x (.inl read),
        m.evalAll_congr es fun x read => same x (.inr read)]

end

/-- The free meaning keeps every operator as an expression. -/
def free : Meaning Expr where
  unary := .unary
  address := .unary .addr
  binary := .binary
  hexConst := .hexConst
  decimalConst := .decimalConst
  call := .call
  abstract := .abstract
  arrayAccess := .arrayAccess
  structAccess := .structAccess
  deref := .deref
  guestMem := .guestMem
  cast := .cast
  convert _ := id

mutual

theorem free_eval_name : ∀ e : Expr, free.eval .name e = e
  | .unary op rhs => by
      cases op with
      | addr => rfl
      | _ =>
          simp only [eval, free_eval_name rhs]
          rfl
  | .binary op lhs rhs => by
      simp only [eval, free_eval_name lhs, free_eval_name rhs]
      rfl
  | .hexConst _ => rfl
  | .decimalConst _ => rfl
  | .name _ => rfl
  | .call callee args => by
      simp only [eval, free_evalAll_name args]
      rfl
  | .abstract op args => by
      simp only [eval, free_evalAll_name args]
      rfl
  | .arrayAccess lhs idx => by
      simp only [eval, free_eval_name lhs, free_eval_name idx]
      rfl
  | .structAccess lhs mbr => by
      simp only [eval, free_eval_name lhs]
      rfl
  | .deref pointer => by
      simp only [eval, free_eval_name pointer]
      rfl
  | .guestMem seg off width => by
      simp only [eval, free_eval_name seg, free_eval_name off]
      rfl
  | .cast typ rhs => by
      simp only [eval, free_eval_name rhs]
      rfl

theorem free_evalAll_name : ∀ es : List Expr, free.evalAll .name es = es
  | [] => rfl
  | e :: es => by simp only [evalAll, free_eval_name e, free_evalAll_name es]

end

mutual

/-- A substitution that changes nothing leaves every variable read as it is. -/
theorem free_eval_fixed {env : String → Expr} :
    ∀ e : Expr, free.eval env e = e → ∀ x ∈ e.reads, env x = .name x
  | .unary op rhs, fixed => by
      cases op with
      | addr => simp [Expr.reads]
      | _ =>
          simp only [eval, free, Expr.unary.injEq, true_and] at fixed
          exact free_eval_fixed rhs fixed
  | .binary op lhs rhs, fixed => by
      simp only [eval, free, Expr.binary.injEq, true_and] at fixed
      intro x read
      rcases List.mem_append.mp read with read | read
      · exact free_eval_fixed lhs fixed.1 x read
      · exact free_eval_fixed rhs fixed.2 x read
  | .hexConst _, _ => by simp [Expr.reads]
  | .decimalConst _, _ => by simp [Expr.reads]
  | .name n, fixed => by
      intro x read
      obtain rfl := List.mem_singleton.mp read
      exact fixed
  | .call callee args, fixed => by
      simp only [eval, free, Expr.call.injEq, true_and] at fixed
      exact free_evalAll_fixed args fixed
  | .abstract op args, fixed => by
      simp only [eval, free, Expr.abstract.injEq, true_and] at fixed
      exact free_evalAll_fixed args fixed
  | .arrayAccess lhs idx, fixed => by
      simp only [eval, free, Expr.arrayAccess.injEq] at fixed
      intro x read
      rcases List.mem_append.mp read with read | read
      · exact free_eval_fixed lhs fixed.1 x read
      · exact free_eval_fixed idx fixed.2 x read
  | .structAccess lhs mbr, fixed => by
      simp only [eval, free, Expr.structAccess.injEq, and_true] at fixed
      exact free_eval_fixed lhs fixed
  | .deref pointer, fixed => by
      simp only [eval, free, Expr.deref.injEq] at fixed
      exact free_eval_fixed pointer fixed
  | .guestMem seg off width, fixed => by
      simp only [eval, free, Expr.guestMem.injEq, and_true] at fixed
      intro x read
      rcases List.mem_append.mp read with read | read
      · exact free_eval_fixed seg fixed.1 x read
      · exact free_eval_fixed off fixed.2 x read
  | .cast typ rhs, fixed => by
      simp only [eval, free, Expr.cast.injEq, true_and] at fixed
      exact free_eval_fixed rhs fixed

theorem free_evalAll_fixed {env : String → Expr} :
    ∀ es : List Expr, free.evalAll env es = es → ∀ x ∈ readsAll es, env x = .name x
  | [], _ => by simp [readsAll]
  | e :: es, fixed => by
      simp only [evalAll, List.cons.injEq] at fixed
      intro x read
      rcases List.mem_append.mp read with read | read
      · exact free_eval_fixed e fixed.1 x read
      · exact free_evalAll_fixed es fixed.2 x read

end

end Meaning

end Dis86.Ast
