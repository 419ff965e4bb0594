import Dis86.Ast.Tree
import Dis86.Ast.Phis

namespace Dis86.Ast
open Lib (CInt Width)

/-- The width that a signed operator casts its operands to. -/
def castWidth (w : Width) : Width :=
  match w with
  | .dword => .dword
  | _ => .word

def operandAs (signed : Bool) (w : Width) (p : CInt) : CInt :=
  if signed then p.castSigned (castWidth w) else p

/-- The value of an operation on promoted operands, not wrapped at its own width. -/
def PureUnary.promote (op : PureUnary) (p : CInt) : Option CInt :=
  match op with
  | .neg => if CInt.Fits p.unsigned (-p.val) then some p.neg else none
  | .not => some p.not
  | .upper16 => some (.promote .word (p.shr ⟨false, 16⟩).bits)
  | .lower16 => some (.promote .word p.bits)
  | .signExtTo16 => some ((p.castSigned .byte).castSigned .word)
  | .signExtTo32 => some ((p.castSigned .word).castSigned .dword)
  | .sign => some (.ofBool (!(p.shr ⟨false, 15⟩).same ⟨false, 0⟩))
  | .notSign => some (.ofBool ((p.shr ⟨false, 15⟩).same ⟨false, 0⟩))

def PureBinary.promote (op : PureBinary) (w : Width) (p q : CInt) : Option CInt :=
  match binaryOperator op.opcode with
  | some (cop, signed) => cop.apply (operandAs signed w p) (operandAs signed w q)
  | none => some (Ast.make32 (.promote .word p.bits) (.promote .word q.bits))

/-- The value of a tree in promoted arithmetic: nothing is wrapped at the width of a node, and
overflow of a signed result or a wide shift count has no value. -/
def Tree.promoted (values : Expr → BitVec 32) : Tree → Option CInt
  | .const k => some ⟨false, if k.toInt ≥ 256 ∨ k.toInt ≤ -256 then k.setWidth 32 else k.signExtend 32⟩
  | .leaf place w => some (.promote w (values place))
  | .unary op _ t => do op.promote (← t.promoted values)
  | .binary op w _ l r => do op.promote w (← l.promoted values) (← r.promoted values)

/-- Each place of a tree is declared with the width of the value it holds. -/
def Tree.Declared (declared : Expr → Width) : Tree → Prop
  | .const _ => True
  | .leaf place w => place.isPlace = true ∧ declared place = w
  | .unary _ _ t => t.Declared declared
  | .binary _ _ _ l r => l.Declared declared ∧ r.Declared declared

/-- The promoted values of the places. -/
def cVars (declared : Expr → Width) (values : Expr → BitVec 32) (place : Expr) : CInt :=
  .promote (declared place) (values place)

theorem cEval_constExpr (vars : Expr → CInt) (k : BitVec 16) :
    cEval vars (constExpr k false) =
      some ⟨false, if k.toInt ≥ 256 ∨ k.toInt ≤ -256 then k.setWidth 32 else k.signExtend 32⟩ := by
  unfold constExpr
  by_cases hex : k.toInt ≥ 256 ∨ k.toInt ≤ -256
  · rw [if_pos (by simpa using hex), if_pos hex]
    rfl
  · rw [if_neg (by simpa using hex), if_neg hex]
    rfl

theorem cEval_build_unary {vars : Expr → CInt} {e : Expr} (op : PureUnary) :
    cEval vars (op.build e) = (cEval vars e).bind op.promote := by
  cases value : cEval vars e with
  | none => cases op <;> simp [PureUnary.build, cEval, value]
  | some p =>
      cases op <;> simp [PureUnary.build, cEval, value, PureUnary.promote, UnaryOperator.apply,
        BinaryOperator.apply, castInt, CInt.CountFits, CInt.val, CInt.read]

/-- A half of a joined value is a word, whether it was cast before or not. -/
theorem cEval_wordHalf (vars : Expr → CInt) (e : Expr) :
    cEval vars (wordHalf e) = (cEval vars e).map fun p => CInt.promote .word p.bits := by
  unfold wordHalf
  split
  · rename_i inner
    simp only [cEval, Option.bind_eq_bind, castInt]
    cases cEval vars inner with
    | none => rfl
    | some p => simp [CInt.promote]
  · rw [Option.map_eq_bind]
    rfl

theorem castInt_signedCast (w : Width) (p : CInt) :
    castInt (signedCast (widthTyp w)) p = some (p.castSigned (castWidth w)) := by
  cases w <;> rfl

theorem cEval_build_binary {vars : Expr → CInt} {l r : Expr} (op : PureBinary) (w : Width) :
    cEval vars (op.build w l r) =
      (cEval vars l).bind fun p => (cEval vars r).bind fun q => op.promote w p q := by
  unfold PureBinary.build PureBinary.promote
  cases binaryOperator op.opcode with
  | none =>
      cases left : cEval vars l <;> cases right : cEval vars r <;>
        simp [cEval, cEval_wordHalf, left, right]
  | some operator =>
      obtain ⟨cop, signed⟩ := operator
      cases signed <;> cases left : cEval vars l <;> cases right : cEval vars r <;>
        simp [cEval, left, right, operandAs, castInt_signedCast]

/-- The rendered expression of a tree has its promoted value. -/
theorem Tree.cEval_expr {declared : Expr → Width} (values : Expr → BitVec 32) (t : Tree)
    (decl : t.Declared declared) :
    cEval (cVars declared values) t.expr = t.promoted values := by
  induction t with
  | const k => exact cEval_constExpr _ k
  | leaf place w =>
      obtain ⟨isPlace, rfl⟩ := decl
      exact cEval_place _ isPlace
  | unary op w t ih =>
      simp only [Tree.expr, cEval_build_unary, ih decl]
      rfl
  | binary op w cw l r left right =>
      simp only [Tree.expr, cEval_build_binary, left decl.1, right decl.2]
      rfl

/-- What an operation must see of its promoted operand `p` to compute from the operand's value
`a`: a shift to the right and a sign test see bits above the width, the others do not. -/
def PureUnary.Sees (op : PureUnary) (w v : Width) (p : CInt) (a : BitVec 32) : Prop :=
  match op with
  | .neg | .not => w.low p.bits = w.low a
  | .upper16 => p.bits >>> 16 = a >>> 16
  | .lower16 | .signExtTo32 => Width.word.low p.bits = Width.word.low a
  | .signExtTo16 => Width.byte.low p.bits = Width.byte.low a
  | .sign | .notSign => (p.val < 0 ∨ 2 ^ 15 ≤ p.val) ↔ v.signed a < 0

/-- What an operation must see of two promoted operands: an equality must not tell operands apart
that agree at their width, an unsigned comparison reads every bit in the common type, a signed one
reads the operands at the width of its cast, and a mask hides what it clears. -/
def PureBinary.Sees (op : PureBinary) (w at' v : Width) (p q : CInt) (a b : BitVec 32) : Prop :=
  match op with
  | .add | .sub | .or | .xor | .imul | .umul => w.low p.bits = w.low a ∧ w.low q.bits = w.low b
  | .and => w.low (p.bits &&& q.bits) = w.low (a &&& b)
  | .shl => w.low p.bits = w.low a ∧ q.val = b.toNat
  | .shr => (castWidth w).signed p.bits = w.signed a ∧ (castWidth w).signed q.bits = b.toNat
  | .ushr => p.val = a.toNat ∧ q.val = b.toNat
  | .eq | .neq => v.low p.bits = v.low a ∧ v.low q.bits = v.low b ∧
      (v.low p.bits = v.low q.bits → p.bits = q.bits)
  | .gt | .geq | .lt | .leq =>
      (castWidth w).signed p.bits = at'.signed a ∧ (castWidth w).signed q.bits = at'.signed b
  | .ugt | .ugeq | .ult | .uleq =>
      CInt.read (p.common q) p.bits = a.toNat ∧ CInt.read (p.common q) q.bits = b.toNat
  | .make32 => Width.word.low p.bits = Width.word.low a ∧ Width.word.low q.bits = Width.word.low b

/-- Every operation of a tree sees what it needs of its promoted operands. -/
def Tree.Sound (values : Expr → BitVec 32) : Tree → Prop
  | .const _ | .leaf _ _ => True
  | .unary op w t => t.Sound values ∧
      ∀ p, t.promoted values = some p → op.Sees w t.width p (t.value values)
  | .binary op w cw l r => l.Sound values ∧ r.Sound values ∧
      ∀ p q, l.promoted values = some p → r.promoted values = some q →
        op.Sees w (compareAt cw l.width r.width) (wider l.width r.width) p q
          (l.value values) (r.value values)

theorem low_flag (w : Width) {x y : Bool} (same : x = y) :
    w.low (CInt.ofBool x).bits = w.low (flag y) := by
  rw [same]
  rfl

/-- An operation that sees what it needs agrees with its value at its own width. -/
theorem PureUnary.agrees {op : PureUnary} {w v : Width} {p q : CInt} {a : BitVec 32}
    (sees : op.Sees w v p a) (promoted : op.promote p = some q) :
    (op.width w).low q.bits = (op.width w).low (op.value w v a) := by
  cases op with
  | neg =>
      simp only [PureUnary.promote] at promoted
      split at promoted
      · cases promoted
        simp only [PureUnary.width, PureUnary.value, Width.low_wrap, CInt.neg, Width.low_neg]
        rw [sees]
      · cases promoted
  | not =>
      cases promoted
      simp only [PureUnary.width, PureUnary.value, Width.low_wrap, CInt.not, Width.low_not]
      rw [sees]
  | upper16 =>
      cases promoted
      have upper : p.bits >>> 16 = a >>> 16 := sees
      have logical : Width.word.low (p.shr ⟨false, 16⟩).bits = Width.word.low (p.bits >>> 16) := by
        unfold CInt.shr
        split
        · rfl
        · exact Width.low_sshiftRight (by decide) p.bits
      simp only [PureUnary.width, PureUnary.value, CInt.promote, Width.low_wrap, logical, upper]
  | lower16 =>
      cases promoted
      simp only [PureUnary.width, PureUnary.value, CInt.promote, Width.low_wrap]
      exact sees
  | signExtTo16 =>
      cases promoted
      simp only [PureUnary.width, PureUnary.value, CInt.castSigned, Width.low_wrap]
      rw [Width.low_signExtend (le_refl _), Width.signExtend_congr sees]
  | signExtTo32 =>
      cases promoted
      simp only [PureUnary.width, PureUnary.value, CInt.castSigned]
      rw [Width.low_signExtend (le_refl _), Width.signExtend_congr sees]
  | sign =>
      cases promoted
      have test : (p.val < 0 ∨ 2 ^ 15 ≤ p.val) ↔ v.signed a < 0 := sees
      exact low_flag _ (by rw [CInt.shr_same_zero, decide_not, Bool.not_not, decide_eq_decide, test])
  | notSign =>
      cases promoted
      exact low_flag _ (by rw [CInt.shr_same_zero, decide_eq_decide, not_iff_not]; exact sees)

theorem operandAs_false (w : Width) (p : CInt) : operandAs false w p = p := rfl

theorem operandAs_true (w : Width) (p : CInt) : operandAs true w p = p.castSigned (castWidth w) :=
  rfl

/-- A signed cast keeps the low bits of every width that uses it. -/
theorem low_castSigned (w : Width) (p : CInt) :
    w.low (p.castSigned (castWidth w)).bits = w.low p.bits := by
  apply Width.low_signExtend
  cases w <;> decide

/-- A shift count that reads as a natural number shifts by it. -/
theorem shift_count {q : CInt} {b : BitVec 32} (same : q.val = b.toNat) : q.val.toNat = b.toNat := by
  rw [same, Int.toNat_natCast]

theorem PureBinary.agrees {op : PureBinary} {w at' v : Width} {p q result : CInt}
    {a b : BitVec 32} (sees : op.Sees w at' v p q a b) (leftFits : v.wrap a = a)
    (rightFits : v.wrap b = b) (promoted : op.promote w p q = some result) :
    (op.width w).low result.bits = (op.width w).low (op.value w at' a b) := by
  have equal : v.low p.bits = v.low a → v.low q.bits = v.low b →
      (v.low p.bits = v.low q.bits → p.bits = q.bits) → (p.same q = decide (a = b)) := by
    intro left right apart
    rw [CInt.same, decide_eq_decide]
    constructor
    · intro same
      rw [← leftFits, ← rightFits, Width.wrap_eq_iff, ← left, ← right, same]
    · intro same
      apply apart
      rw [left, right, same]
  cases op with
  | add =>
      simp only [PureBinary.promote, PureBinary.opcode, binaryOperator, BinaryOperator.apply,
        operandAs_false] at promoted
      obtain ⟨_, same⟩ := Option.ite_none_right_eq_some.mp promoted
      cases same
      simp only [PureBinary.width, PureBinary.value, CInt.add, Width.low_wrap, Width.low_add]
      rw [sees.1, sees.2]
  | sub =>
      simp only [PureBinary.promote, PureBinary.opcode, binaryOperator, BinaryOperator.apply,
        operandAs_false] at promoted
      obtain ⟨_, same⟩ := Option.ite_none_right_eq_some.mp promoted
      cases same
      simp only [PureBinary.width, PureBinary.value, CInt.sub, Width.low_wrap, Width.low_sub]
      rw [sees.1, sees.2]
  | and =>
      cases promoted
      simp only [PureBinary.width, PureBinary.value, CInt.and, Width.low_wrap, operandAs_false]
      exact sees
  | or =>
      cases promoted
      simp only [PureBinary.width, PureBinary.value, CInt.or, Width.low_wrap, Width.low_or,
        operandAs_false]
      rw [sees.1, sees.2]
  | xor =>
      cases promoted
      simp only [PureBinary.width, PureBinary.value, CInt.xor, Width.low_wrap, Width.low_xor,
        operandAs_false]
      rw [sees.1, sees.2]
  | shl =>
      simp only [PureBinary.promote, PureBinary.opcode, binaryOperator, BinaryOperator.apply,
        operandAs_false] at promoted
      obtain ⟨_, same⟩ := Option.ite_none_right_eq_some.mp promoted
      cases same
      simp only [PureBinary.width, PureBinary.value, CInt.shl, Width.low_wrap, Width.low_shl]
      rw [sees.1, shift_count sees.2]
  | shr =>
      simp only [PureBinary.promote, PureBinary.opcode, binaryOperator, BinaryOperator.apply,
        operandAs_true] at promoted
      obtain ⟨_, same⟩ := Option.ite_none_right_eq_some.mp promoted
      cases same
      have count : ((q.castSigned (castWidth w)).val).toNat = b.toNat := by
        rw [CInt.castSigned_val, sees.2, Int.toNat_natCast]
      have extended : (castWidth w).signExtend p.bits = w.signExtend a := by
        apply BitVec.eq_of_toInt_eq
        rw [Width.signExtend_toInt, Width.signExtend_toInt, sees.1]
      simp only [PureBinary.width, PureBinary.value, CInt.shr, Width.low_wrap, count]
      simp only [CInt.castSigned, Bool.false_eq_true, if_false, extended]
  | ushr =>
      simp only [PureBinary.promote, PureBinary.opcode, binaryOperator, BinaryOperator.apply,
        operandAs_false] at promoted
      obtain ⟨_, same⟩ := Option.ite_none_right_eq_some.mp promoted
      cases same
      simp only [PureBinary.width, PureBinary.value, Width.low_wrap]
      rw [CInt.shr_exact sees.1 sees.2]
  | imul =>
      simp only [PureBinary.promote, PureBinary.opcode, binaryOperator, BinaryOperator.apply,
        operandAs_true] at promoted
      obtain ⟨_, same⟩ := Option.ite_none_right_eq_some.mp promoted
      cases same
      simp only [PureBinary.width, PureBinary.value, CInt.mul, Width.low_wrap, Width.low_mul,
        low_castSigned]
      rw [sees.1, sees.2]
  | umul =>
      simp only [PureBinary.promote, PureBinary.opcode, binaryOperator, BinaryOperator.apply,
        operandAs_false] at promoted
      obtain ⟨_, same⟩ := Option.ite_none_right_eq_some.mp promoted
      cases same
      simp only [PureBinary.width, PureBinary.value, CInt.mul, Width.low_wrap, Width.low_mul]
      rw [sees.1, sees.2]
  | eq =>
      cases promoted
      exact low_flag _ (equal sees.1 sees.2.1 sees.2.2)
  | neq =>
      cases promoted
      exact low_flag _ (by rw [operandAs_false, operandAs_false, equal sees.1 sees.2.1 sees.2.2, decide_not])
  | gt =>
      cases promoted
      exact low_flag _ (by rw [operandAs_true, operandAs_true, CInt.less_signed, sees.1, sees.2])
  | geq =>
      cases promoted
      exact low_flag _ (by
        rw [operandAs_true, operandAs_true, CInt.less_signed, sees.1, sees.2, decide_not])
  | lt =>
      cases promoted
      exact low_flag _ (by rw [operandAs_true, operandAs_true, CInt.less_signed, sees.1, sees.2])
  | leq =>
      cases promoted
      exact low_flag _ (by
        rw [operandAs_true, operandAs_true, CInt.less_signed, sees.1, sees.2, decide_not])
  | ugt =>
      cases promoted
      exact low_flag _ (by rw [operandAs_false, operandAs_false, CInt.less_common_swap,
        sees.1, sees.2, decide_eq_decide, Int.ofNat_lt])
  | ugeq =>
      cases promoted
      exact low_flag _ (by rw [operandAs_false, operandAs_false, CInt.less_eq, sees.1, sees.2,
        decide_not, Bool.not_inj_iff, decide_eq_decide, Int.ofNat_lt])
  | ult =>
      cases promoted
      exact low_flag _ (by rw [operandAs_false, operandAs_false, CInt.less_eq, sees.1, sees.2,
        decide_eq_decide, Int.ofNat_lt])
  | uleq =>
      cases promoted
      exact low_flag _ (by rw [operandAs_false, operandAs_false, CInt.less_common_swap,
        sees.1, sees.2, decide_not, Bool.not_inj_iff, decide_eq_decide, Int.ofNat_lt])
  | make32 =>
      cases promoted
      have left := Width.wrap_eq_iff.mpr sees.1
      have right := Width.wrap_eq_iff.mpr sees.2
      simp only [PureBinary.width, PureBinary.value, Ast.make32, CInt.promote, left, right]

theorem wider_left (v w : Width) : v.bits ≤ (wider v w).bits := by
  unfold wider
  split <;> omega

theorem wider_right (v w : Width) : w.bits ≤ (wider v w).bits := by
  unfold wider
  split <;> omega

theorem wrap_flag (w : Width) (x : Bool) : w.wrap (flag x) = flag x := by
  cases w <;> cases x <;> decide

theorem PureUnary.value_wrapped (op : PureUnary) (w v : Width) (a : BitVec 32) :
    (op.width w).wrap (op.value w v a) = op.value w v a := by
  cases op with
  | neg | not | upper16 | lower16 | signExtTo16 =>
      simp only [PureUnary.width, PureUnary.value, Width.wrap_wrap]
  | signExtTo32 => simp only [PureUnary.width, Width.wrap_dword]
  | sign | notSign => simp only [PureUnary.width, PureUnary.value, wrap_flag]

theorem PureBinary.value_wrapped (op : PureBinary) (w at' : Width) (a b : BitVec 32) :
    (op.width w).wrap (op.value w at' a b) = op.value w at' a b := by
  cases op with
  | add | sub | and | or | xor | shl | shr | ushr | imul | umul =>
      simp only [PureBinary.width, PureBinary.value, Width.wrap_wrap]
  | eq | neq | gt | geq | lt | leq | ugt | ugeq | ult | uleq =>
      simp only [PureBinary.width, PureBinary.value, wrap_flag]
  | make32 => simp only [PureBinary.width, Width.wrap_dword]

/-- The value of a tree has no bits above its width. -/
theorem Tree.value_wrapped (values : Expr → BitVec 32) (t : Tree) :
    t.width.wrap (t.value values) = t.value values := by
  cases t with
  | const k =>
      simp [Tree.width, Tree.value, Width.wrap, Width.low, Width.bits]
  | leaf place w => exact Width.wrap_wrap _ _
  | unary op w t => exact op.value_wrapped w _ _
  | binary op w cw l r => exact op.value_wrapped w _ _ _

/-- A value with no bits above its width has none above a wider one. -/
theorem wrap_of_le {v w : Width} (narrower : v.bits ≤ w.bits) {x : BitVec 32}
    (wrapped : v.wrap x = x) : w.wrap x = x := by
  rw [← wrapped]
  exact Width.wrap_of_le narrower x

/-- A tree whose operations see what they need has its value at its own width. -/
theorem Tree.agrees {values : Expr → BitVec 32} {t : Tree} {p : CInt} (sound : t.Sound values)
    (promoted : t.promoted values = some p) :
    t.width.low p.bits = t.width.low (t.value values) := by
  cases t with
  | const k =>
      cases promoted
      show Width.word.low _ = Width.word.low _
      split
      · rfl
      · exact Width.low_signExtendWord k
  | leaf place w =>
      cases promoted
      rfl
  | unary op w t =>
      simp only [Tree.promoted, Option.bind_eq_bind, Option.bind_eq_some_iff] at promoted
      obtain ⟨inner, below, same⟩ := promoted
      exact PureUnary.agrees (sound.2 inner below) same
  | binary op w cw l r =>
      simp only [Tree.promoted, Option.bind_eq_bind, Option.bind_eq_some_iff] at promoted
      obtain ⟨left, belowLeft, right, belowRight, same⟩ := promoted
      exact PureBinary.agrees (sound.2.2 left right belowLeft belowRight)
        (wrap_of_le (wider_left _ _) (l.value_wrapped values))
        (wrap_of_le (wider_right _ _) (r.value_wrapped values)) same

/-- An expression that agrees with a value at its width has the same truth value exactly when it
is not a nonzero multiple of the width. -/
theorem truth_iff {w : Width} {x a : BitVec 32} (wrapped : w.wrap a = a)
    (agree : w.low x = w.low a) : (x ≠ 0 ↔ a ≠ 0) ↔ (w.low x = w.low 0 → x = 0) := by
  have zero : w.low x = w.low 0 ↔ a = 0 := by
    rw [agree, ← Width.wrap_eq_iff, wrapped]
    show a = w.wrap 0 ↔ a = 0
    rw [show w.wrap 0 = 0 by cases w <;> decide]
  rw [zero, not_iff_not]
  constructor
  · intro same isZero
    exact same.mpr isZero
  · intro small
    refine ⟨fun isZero => ?_, small⟩
    rw [← zero, isZero]

/-- The rendered expression of a pure value, evaluated with promotions, is its value modulo the
width when every operation sees what it needs and no signed result overflows. It has the truth
value of the value exactly when no bit above the width is left over a zero. -/
theorem refToExpr_evaluates {fuel depth : Nat} {b c : Builder} {r : Ref} {e : Expr} {t : Tree}
    {declared : Expr → Width} {values : Expr → BitVec 32} {p : CInt}
    (rendered : b.refToExpr fuel r depth = some (e, c)) (tree : TreeOf c (depth = 0) r t)
    (decl : t.Declared declared) (sound : t.Sound values) (defined : t.promoted values = some p) :
    ∃ q, cEval (cVars declared values) e = some q ∧
      t.width.low q.bits = t.width.low (t.value values) ∧
      ((q.bits ≠ 0 ↔ t.value values ≠ 0) ↔ (t.width.low p.bits = t.width.low 0 → p.bits = 0)) := by
  obtain ⟨_, rendered⟩ := Builder.refToExpr_rendered rendered
  obtain rfl := tree.rendered rendered
  have agree := t.agrees sound defined
  refine ⟨p, ?_, agree, truth_iff (t.value_wrapped values) agree⟩
  rw [t.cEval_expr values decl, defined]

/-- A block that shifts the sum of two registers to the right. -/
def carryShift : IR where
  consts := [1]
  symbols := .new
  funcs := []
  names _ := none
  nameNext _ := none
  blocks := [
    some ⟨"entry", fun _ => none, [],
      ⟨[⟨.u16, none, Attribute.NONE, .add, [.init .AX, .init .BX]⟩,
        ⟨.u16, none, Attribute.NONE, .ushr, [.instr 0 0, .const 0]⟩,
        ⟨.void, none, Attribute.NONE, .retNear, [.instr 0 1]⟩],
        [0, 1, 2], by decide, distinct_three⟩, true, []⟩]

def carryShiftTree : Tree :=
  .binary .ushr .word none
    (.binary .add .word none (.leaf (.name "AX") .word) (.leaf (.name "BX") .word)) (.const 1)

theorem carryShift_tree : TreeOf (.new [] carryShift) true (.instr 0 1) carryShiftTree := by
  have ax : TreeOf (.new [] carryShift) false (.init .AX) (.leaf (.name "AX") .word) :=
    .leaf (.init .AX) rfl rfl
  have bx : TreeOf (.new [] carryShift) false (.init .BX) (.leaf (.name "BX") .word) :=
    .leaf (.init .BX) rfl rfl
  have one : TreeOf (.new [] carryShift) false (.const 0) (.const 1) := .const rfl
  have sum : TreeOf (.new [] carryShift) false (.instr 0 0) (.binary .add .word none
      (.leaf (.name "AX") .word) (.leaf (.name "BX") .word)) :=
    .binary rfl (.inr rfl) rfl rfl rfl rfl ax bx
  exact .binary rfl (.inl rfl) rfl rfl rfl rfl sum one

def carryValues : Expr → BitVec 32
  | .name "AX" => 0xFFFF
  | _ => 1

/-- The carry out of a word is shifted back into the emitted expression. -/
theorem refToExpr_carry_differs :
    Builder.refToExpr 3 (.new [] carryShift) (.instr 0 1) 0 =
      some (.binary .shr (.binary .add (.name "AX") (.name "BX")) (.decimalConst 1),
        .new [] carryShift) ∧
    TreeOf (.new [] carryShift) true (.instr 0 1) carryShiftTree ∧
    ∃ values : Expr → BitVec 32, carryShiftTree.value values = 0 ∧
      cEval (cVars (fun _ => .word) values)
        (.binary .shr (.binary .add (.name "AX") (.name "BX")) (.decimalConst 1)) =
          some ⟨false, 0x8000⟩ := by
  exact ⟨rfl, carryShift_tree, carryValues, by decide, by decide⟩

/-- Without a carry the shifted sum is the value. -/
theorem refToExpr_small_evaluates :
    ∃ q, cEval (cVars (fun _ => .word) fun _ => 6)
        (.binary .shr (.binary .add (.name "AX") (.name "BX")) (.decimalConst 1)) = some q ∧
      Width.word.low q.bits = Width.word.low (carryShiftTree.value fun _ => 6) ∧
      ((q.bits ≠ 0 ↔ carryShiftTree.value (fun _ => 6) ≠ 0) ↔
        (Width.word.low 6 = Width.word.low 0 → (6 : BitVec 32) = 0)) := by
  have emitted : Builder.refToExpr 3 (.new [] carryShift) (.instr 0 1) 0 =
      some (.binary .shr (.binary .add (.name "AX") (.name "BX")) (.decimalConst 1),
        .new [] carryShift) := rfl
  refine refToExpr_evaluates (p := ⟨false, 6⟩) emitted carryShift_tree ⟨⟨⟨rfl, rfl⟩, rfl, rfl⟩, trivial⟩
    ⟨⟨trivial, trivial, ?_⟩, trivial, ?_⟩ (by decide)
  · rintro p q ⟨⟩ ⟨⟩
    exact ⟨rfl, rfl⟩
  · rintro p q left right
    cases (show some p = some ⟨false, 12⟩ from left.symm)
    cases (show some q = some ⟨false, 1⟩ from right.symm)
    exact ⟨by decide, by decide⟩

end Dis86.Ast
