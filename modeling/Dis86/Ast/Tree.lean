import Dis86.Ast.Leaves
import Dis86.Ast.Expr
import Dis86.Lib.CInt

namespace Dis86.Ast
open Lib (CInt Width)

def UnaryOperator.apply (op : UnaryOperator) (a : CInt) : Option CInt :=
  match op with
  | .addr => none
  | .neg => if CInt.Fits a.unsigned (-a.val) then some a.neg else none
  | .logicalNot => some (.ofBool (a.bits = 0))
  | .bitwiseNot => some a.not

/-- A binary operator on promoted operands; undefined behaviour has no value. -/
def BinaryOperator.apply (op : BinaryOperator) (a b : CInt) : Option CInt :=
  match op with
  | .add => if CInt.FitsExact (· + ·) a b then some (a.add b) else none
  | .sub => if CInt.FitsExact (· - ·) a b then some (a.sub b) else none
  | .mul => if CInt.FitsExact (· * ·) a b then some (a.mul b) else none
  | .shl => if CInt.ShlFits a b then some (a.shl b) else none
  | .shr => if CInt.CountFits b then some (a.shr b) else none
  | .div => if CInt.DivFits a b then some (a.div b) else none
  | .mod => if CInt.DivFits a b then some (a.mod b) else none
  | .and => some (a.and b)
  | .or => some (a.or b)
  | .xor => some (a.xor b)
  | .eq => some (.ofBool (a.same b))
  | .neq => some (.ofBool (!a.same b))
  | .gt => some (.ofBool (b.less a))
  | .geq => some (.ofBool (!a.less b))
  | .lt => some (.ofBool (a.less b))
  | .leq => some (.ofBool (!b.less a))

/-- A cast between integer types, promoted again. -/
def castInt (typ : Typ) (a : CInt) : Option CInt :=
  match typ with
  | .u8 => some (.promote .byte a.bits)
  | .u16 => some (.promote .word a.bits)
  | .u32 => some (.promote .dword a.bits)
  | .i8 => some (a.castSigned .byte)
  | .i16 => some (a.castSigned .word)
  | .i32 => some (a.castSigned .dword)
  | _ => none

/-- The macro joins two halves into an unsigned double word. -/
def make32 (hi lo : CInt) : CInt := ⟨true, hi.bits <<< 16 ||| lo.bits⟩

/-- The value of a pure expression by the integer promotions of C with a 32-bit int. The places
hold promoted values. -/
def cEval (vars : Expr → CInt) : Expr → Option CInt
  | .unary op rhs => do op.apply (← cEval vars rhs)
  | .binary op lhs rhs => do op.apply (← cEval vars lhs) (← cEval vars rhs)
  | .hexConst k => some ⟨false, k.setWidth 32⟩
  | .decimalConst k => some ⟨false, k.signExtend 32⟩
  | .abstract "MAKE_32" [hi, lo] => do return make32 (← cEval vars hi) (← cEval vars lo)
  | .cast typ rhs => do castInt typ (← cEval vars rhs)
  | e => if e.isPlace then some (vars e) else none

theorem cEval_place (vars : Expr → CInt) {e : Expr} (isPlace : e.isPlace = true) :
    cEval vars e = some (vars e) := by
  cases e with
  | name | arrayAccess | structAccess | deref | guestMem => rfl
  | _ => cases isPlace

/-- The pure operations with one operand. -/
inductive PureUnary where
  | neg | not | upper16 | lower16 | signExtTo16 | signExtTo32 | sign | notSign
deriving DecidableEq, Repr

/-- The pure operations with two operands. -/
inductive PureBinary where
  | add | sub | and | or | xor | shl | shr | ushr | imul | umul
  | eq | neq | gt | geq | lt | leq | ugt | ugeq | ult | uleq
  | make32
deriving DecidableEq, Repr

/-- The inlined tree of a pure value. A node has the width of its own type, and a leaf is a place
of the emitted code. -/
inductive Tree where
  | const (k : BitVec 16)
  | leaf (place : Expr) (w : Width)
  | unary (op : PureUnary) (w : Width) (t : Tree)
  | binary (op : PureBinary) (w : Width) (cw : Option CompareWidth) (l r : Tree)
deriving Repr

def PureUnary.opcode : PureUnary → Opcode
  | .neg => .neg
  | .not => .not
  | .upper16 => .upper16
  | .lower16 => .lower16
  | .signExtTo16 => .signExtTo16
  | .signExtTo32 => .signExtTo32
  | .sign => .sign
  | .notSign => .notSign

def PureBinary.opcode : PureBinary → Opcode
  | .add => .add
  | .sub => .sub
  | .and => .and
  | .or => .or
  | .xor => .xor
  | .shl => .shl
  | .shr => .shr
  | .ushr => .ushr
  | .imul => .imul
  | .umul => .umul
  | .eq => .eq
  | .neq => .neq
  | .gt => .gt
  | .geq => .geq
  | .lt => .lt
  | .leq => .leq
  | .ugt => .ugt
  | .ugeq => .ugeq
  | .ult => .ult
  | .uleq => .uleq
  | .make32 => .make32

/-- The width of a result; some operations fix it, the others take it from their type. -/
def PureUnary.width (op : PureUnary) (w : Width) : Width :=
  match op with
  | .upper16 | .lower16 | .signExtTo16 => .word
  | .signExtTo32 => .dword
  | _ => w

def PureBinary.width (op : PureBinary) (w : Width) : Width :=
  match op with
  | .make32 => .dword
  | _ => w

namespace Tree

/-- A constant is a word. -/
def width : Tree → Width
  | .const _ => .word
  | .leaf _ w => w
  | .unary op w _ => op.width w
  | .binary op w _ _ _ => op.width w

end Tree

def wider (v w : Width) : Width := if v.bits ≤ w.bits then w else v

def CompareWidth.width : CompareWidth → Width
  | .byte => .byte
  | .word => .word

/-- A signed comparison reads its operands at its compare width, or at the wider operand. -/
def compareAt (cw : Option CompareWidth) (v w : Width) : Width :=
  match cw with
  | some cw => CompareWidth.width cw
  | none => wider v w

def flag (b : Bool) : BitVec 32 := if b then 1 else 0

/-- The value of an operation on an operand of width `v`, wrapped at its own width. -/
def PureUnary.value (op : PureUnary) (w v : Width) (a : BitVec 32) : BitVec 32 :=
  match op with
  | .neg => w.wrap (-a)
  | .not => w.wrap (~~~a)
  | .upper16 => Width.word.wrap (a >>> 16)
  | .lower16 => Width.word.wrap a
  | .signExtTo16 => Width.word.wrap (Width.byte.signExtend a)
  | .signExtTo32 => Width.word.signExtend a
  | .sign => flag (v.signed a < 0)
  | .notSign => flag (¬ v.signed a < 0)

def PureBinary.value (op : PureBinary) (w at' : Width) (a b : BitVec 32) : BitVec 32 :=
  match op with
  | .add => w.wrap (a + b)
  | .sub => w.wrap (a - b)
  | .and => w.wrap (a &&& b)
  | .or => w.wrap (a ||| b)
  | .xor => w.wrap (a ^^^ b)
  | .shl => w.wrap (a <<< b.toNat)
  | .shr => w.wrap ((w.signExtend a).sshiftRight b.toNat)
  | .ushr => w.wrap (a >>> b.toNat)
  | .imul => w.wrap (a * b)
  | .umul => w.wrap (a * b)
  | .eq => flag (a = b)
  | .neq => flag (a ≠ b)
  | .gt => flag (at'.signed b < at'.signed a)
  | .geq => flag (¬ at'.signed a < at'.signed b)
  | .lt => flag (at'.signed a < at'.signed b)
  | .leq => flag (¬ at'.signed b < at'.signed a)
  | .ugt => flag (b.toNat < a.toNat)
  | .ugeq => flag (¬ a.toNat < b.toNat)
  | .ult => flag (a.toNat < b.toNat)
  | .uleq => flag (¬ b.toNat < a.toNat)
  | .make32 => Width.word.wrap a <<< 16 ||| Width.word.wrap b

/-- The value of a tree in the intermediate representation: each node wraps at its own width. -/
def Tree.value (values : Expr → BitVec 32) : Tree → BitVec 32
  | .const k => k.setWidth 32
  | .leaf place w => w.wrap (values place)
  | .unary op w t => op.value w t.width (t.value values)
  | .binary op w cw l r =>
      op.value w (compareAt cw l.width r.width) (l.value values) (r.value values)

def widthTyp : Width → Typ
  | .byte => .u8
  | .word => .u16
  | .dword => .u32

def PureUnary.build (op : PureUnary) (e : Expr) : Expr :=
  match op with
  | .neg => .unary .neg e
  | .not => .unary .bitwiseNot e
  | .upper16 => .cast .u16 (.binary .shr e (.decimalConst 16))
  | .lower16 => .cast .u16 e
  | .signExtTo16 => .cast .i16 (.cast .i8 e)
  | .signExtTo32 => .cast .i32 (.cast .i16 e)
  | .sign => .binary .neq (.binary .shr e (.decimalConst 15)) (.decimalConst 0)
  | .notSign => .binary .eq (.binary .shr e (.decimalConst 15)) (.decimalConst 0)

def PureBinary.build (op : PureBinary) (w : Width) (l r : Expr) : Expr :=
  match binaryOperator op.opcode with
  | some (cop, true) =>
      .binary cop (.cast (signedCast (widthTyp w)) l) (.cast (signedCast (widthTyp w)) r)
  | some (cop, false) => .binary cop l r
  | none => .abstract "MAKE_32" [wordHalf l, wordHalf r]

/-- The rendered expression of a tree. -/
def Tree.expr : Tree → Expr
  | .const k => constExpr k false
  | .leaf place _ => place
  | .unary op _ t => op.build t.expr
  | .binary op w _ l r => op.build w l.expr r.expr

/-- A byte register is a byte, every other one a word. -/
def regWidth : Asm.Reg → Width
  | .AL | .CL | .DL | .BL | .AH | .CH | .DH | .BH => .byte
  | _ => .word

/-- The width of a value is the width of its type. -/
def HasWidth (ir : IR) (r : Ref) (w : Width) : Prop :=
  match r with
  | .init reg => w = regWidth reg
  | _ => ∃ instr, ir.instr? r = some instr ∧ instr.typ = widthTyp w

/-- The tree of a pure value: whatever renders as a place is a leaf, copies are transparent. -/
inductive TreeOf (b : Builder) : Bool → Ref → Tree → Prop
  | const {top : Bool} {r : Ref} {k : BitVec 16} (known : b.ir.constLookup r = some k) :
      TreeOf b top r (.const k)
  | leaf {top rest : Bool} {r : Ref} {place : Expr} {w : Width}
      (rendered : Rendered b top false false r place rest) (isPlace : place.isPlace = true)
      (typ : HasWidth b.ir r w) : TreeOf b top r (.leaf place w)
  | copy {top : Bool} {r operand : Ref} {instr : Instr} {t : Tree}
      (known : b.ir.instr? r = some instr)
      (expanded : top = true ∨ b.keepsName r instr = false)
      (isCopy : instr.opcode = .ref ∨ instr.opcode = .pin)
      (first : instr.operands[0]? = some operand) (tree : TreeOf b false operand t) :
      TreeOf b top r t
  | unary {top : Bool} {r operand : Ref} {instr : Instr} {op : PureUnary} {w : Width} {t : Tree}
      (known : b.ir.instr? r = some instr)
      (expanded : top = true ∨ b.keepsName r instr = false)
      (opcode : instr.opcode = op.opcode) (typ : instr.typ = widthTyp w)
      (operands : instr.operands.head? = some operand) (tree : TreeOf b false operand t) :
      TreeOf b top r (.unary op w t)
  | binary {top : Bool} {r left right : Ref} {instr : Instr} {op : PureBinary} {w : Width}
      {cw : Option CompareWidth} {l l' : Tree} (known : b.ir.instr? r = some instr)
      (expanded : top = true ∨ b.keepsName r instr = false)
      (opcode : instr.opcode = op.opcode) (typ : instr.typ = widthTyp w)
      (compare : instr.compareWidth = cw) (operands : instr.operands = [left, right])
      (leftTree : TreeOf b false left l) (rightTree : TreeOf b false right l') :
      TreeOf b top r (.binary op w cw l l')

theorem PureUnary.plain (op : PureUnary) : ¬ readsSymbol op.opcode ∧ op.opcode ≠ .phi := by
  cases op <;> decide

theorem PureBinary.plain (op : PureBinary) : ¬ readsSymbol op.opcode ∧ op.opcode ≠ .phi := by
  cases op <;> decide

/-- A unary operation shows its operand and builds its expression from it. -/
theorem shape_unary {input : Input} {instr : Instr} {op : PureUnary} {operand : Ref}
    {shape : Shape} (opcode : instr.opcode = op.opcode)
    (operands : instr.operands.head? = some operand) (shaped : input.shape instr = some shape) :
    shape.shown = [operand] ∧ shape.style.hexConst false = false ∧
      ∀ e, shape.form.build [e] = some (op.build e) := by
  obtain ⟨rest, isCons⟩ : ∃ rest, instr.operands = operand :: rest := by
    cases list : instr.operands with
    | nil => simp [list] at operands
    | cons first rest =>
        simp only [list, List.head?_cons, Option.some.injEq] at operands
        exact ⟨rest, by rw [operands]⟩
  have first : ∀ {form style}, Shape.first? form style 1 instr.operands = some shape →
      shape = ⟨form, style, [operand]⟩ := by
    intro form style taken
    obtain ⟨rfl, _⟩ := Shape.first?_eq taken
    simp [isCons]
  have single : ∀ {form : Form}, (if instr.operands.length = 1 then
      some (⟨form, .decimal, instr.operands⟩ : Shape) else none) = some shape →
      shape = ⟨form, .decimal, [operand]⟩ := by
    intro form taken
    split at taken
    · rename_i one
      cases taken
      obtain ⟨only, isOnly⟩ := List.length_eq_one_iff.mp one
      rw [isOnly] at isCons ⊢
      cases isCons
      rfl
    · cases taken
  cases op <;>
    simp only [PureUnary.opcode] at opcode <;>
    simp only [Input.shape, Input.otherShape, unaryOperator, binaryOperator, opcode] at shaped <;>
    first
    | obtain rfl := first shaped
      exact ⟨rfl, rfl, fun _ => rfl⟩
    | obtain rfl := single shaped
      exact ⟨rfl, rfl, fun _ => rfl⟩

/-- A binary operation shows both operands and builds its expression from them. -/
theorem shape_binary {input : Input} {instr : Instr} {op : PureBinary} {w : Width}
    {left right : Ref} {shape : Shape} (opcode : instr.opcode = op.opcode)
    (typ : instr.typ = widthTyp w) (operands : instr.operands = [left, right])
    (shaped : input.shape instr = some shape) :
    shape.shown = [left, right] ∧ shape.style.hexConst false = false ∧
      ∀ l r, shape.form.build [l, r] = some (op.build w l r) := by
  cases op <;>
    simp only [PureBinary.opcode] at opcode <;>
    simp only [Input.shape, Input.otherShape, unaryOperator, binaryOperator, opcode, operands,
      typ] at shaped <;>
    first
    | obtain ⟨rfl, _⟩ := Shape.first?_eq shaped
      exact ⟨rfl, rfl, fun _ _ => rfl⟩
    | cases shaped
      exact ⟨rfl, rfl, fun _ _ => rfl⟩

/-- A pure value renders as the expression of its tree. -/
theorem TreeOf.rendered {b : Builder} {top rest : Bool} {r : Ref} {t : Tree} {e : Expr}
    (tree : TreeOf b top r t) (rendered : Rendered b top false false r e rest) : e = t.expr := by
  induction tree generalizing e rest with
  | const known => exact rendered.known_const known
  | leaf isLeaf isPlace typ => exact rendered.unique isLeaf
  | copy known expanded isCopy first _ ih =>
      have plain : ¬ readsSymbol _ ∧ _ ≠ Opcode.phi := Input.copy_plain isCopy
      obtain ⟨shape, es, shaped, aligned, each, built, _⟩ := rendered.known_form known expanded plain
      obtain ⟨operand, first', rfl⟩ := Input.shape_copy isCopy shaped
      rw [first] at first'
      cases first'
      obtain ⟨part, rfl⟩ := List.length_eq_one_iff.mp aligned.symm
      cases built
      exact ih (each _ _ (List.mem_singleton.mpr rfl))
  | @unary _ _ _ _ op _ _ known expanded opcode _ operands _ ih =>
      obtain ⟨shape, es, shaped, aligned, each, built, _⟩ :=
        rendered.known_form known expanded (opcode ▸ op.plain)
      obtain ⟨shown, style, builds⟩ := shape_unary opcode operands shaped
      rw [shown] at aligned each
      obtain ⟨part, rfl⟩ := List.length_eq_one_iff.mp aligned.symm
      rw [Form.negate_false, builds] at built
      cases built
      rw [style] at each
      rw [ih (each _ _ (List.mem_singleton.mpr rfl))]
      rfl
  | @binary _ _ _ _ _ op _ _ _ _ known expanded opcode typ _ operands _ _ left right =>
      obtain ⟨shape, es, shaped, aligned, each, built, _⟩ :=
        rendered.known_form known expanded (opcode ▸ op.plain)
      obtain ⟨shown, style, builds⟩ := shape_binary opcode typ operands shaped
      rw [shown] at aligned each
      obtain ⟨l, r, rfl⟩ := List.length_eq_two.mp aligned.symm
      rw [Form.negate_false, builds] at built
      cases built
      rw [style] at each
      have leftSame := left (each _ l (by simp))
      have rightSame := right (each _ r (by simp))
      rw [leftSame, rightSame]
      rfl

end Dis86.Ast
