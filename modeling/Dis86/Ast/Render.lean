import Dis86.Ast.Builder

namespace Dis86.Ast
open Asm (Reg)

/-- The form that an instruction takes in the emitted code, before its operands are filled in. -/
inductive Form where
  | unary (op : UnaryOperator)
  | binary (op : BinaryOperator) (cast : Option Typ)
  | operand
  | deref (pointer : String)
  | guestMem (seg : Option String) (width : Nat)
  | upper16
  | lower16
  | call (callee : String)
  | abstract (op : String)
  | make32
  | signExt (outer inner : Typ)
  | signTest (op : BinaryOperator)
deriving DecidableEq, Repr

/-- A signed operator reads its operands through a cast. -/
def castTo : Option Typ → Expr → Expr
  | some typ, e => .cast typ e
  | none, e => e

/-- A half that is not already cast becomes a sixteen-bit value. -/
def wordHalf : Expr → Expr
  | .cast .u16 e => .cast .u16 e
  | e => .cast .u16 e

/-- The expression of a form over its rendered operands; a missing operand panics in the source. -/
def Form.build : Form → List Expr → Option Expr
  | .unary op, [rhs] => some (.unary op rhs)
  | .binary op cast, [lhs, rhs] => some (.binary op (castTo cast lhs) (castTo cast rhs))
  | .operand, [e] => some e
  | .deref pointer, [seg, off] => some (.deref (.abstract pointer [seg, off]))
  | .guestMem (some seg) width, [off] => some (.guestMem (.name seg) off width)
  | .guestMem none width, [off, seg] => some (.guestMem seg off width)
  | .upper16, [e] => some (.cast .u16 (.binary .shr e (.decimalConst 16)))
  | .lower16, [e] => some (.cast .u16 e)
  | .call callee, args => some (.call (.name callee) args)
  | .abstract op, args => some (.abstract op args)
  | .make32, halves => some (.abstract "MAKE_32" (halves.map wordHalf))
  | .signExt outer inner, [e] => some (.cast outer (.cast inner e))
  | .signTest op, [e] =>
      some (.binary op (.binary .shr e (.decimalConst 15)) (.decimalConst 0))
  | _, _ => none

def unaryOperator : Opcode → Option UnaryOperator
  | .neg => some .neg
  | .not => some .bitwiseNot
  | _ => none

/-- Each binary operation has a C operator and reads its operands signed or not. -/
def binaryOperator : Opcode → Option (BinaryOperator × Bool)
  | .add => some (.add, false)
  | .sub => some (.sub, false)
  | .imul => some (.mul, true)
  | .umul => some (.mul, false)
  | .idiv => some (.div, true)
  | .udiv => some (.div, false)
  | .irem => some (.mod, true)
  | .urem => some (.mod, false)
  | .and => some (.and, false)
  | .or => some (.or, false)
  | .xor => some (.xor, false)
  | .shl => some (.shl, false)
  | .shr => some (.shr, true)
  | .ushr => some (.shr, false)
  | .eq => some (.eq, false)
  | .neq => some (.neq, false)
  | .gt => some (.gt, true)
  | .geq => some (.geq, true)
  | .lt => some (.lt, true)
  | .leq => some (.leq, true)
  | .ugt => some (.gt, false)
  | .ugeq => some (.geq, false)
  | .ult => some (.lt, false)
  | .uleq => some (.leq, false)
  | _ => none

/-- The cast follows the type of the instruction, not the width of the operands. -/
def signedCast (typ : Typ) : Typ :=
  match typ with
  | .u32 => .i32
  | _ => .i16

/-- A requested negation is used up by an operator that can be inverted. -/
def Form.negate : Form → Bool → Form × Bool
  | .binary op cast, true =>
    match op.invert with
    | some op => (.binary op cast, false)
    | none => (.binary op cast, true)
  | form, inverted => (form, inverted)

/-- The constants among the operands are printed in a fixed style or in the style asked for. -/
inductive Style where
  | hexadecimal | decimal | inherited
deriving DecidableEq, Repr

def Style.hexConst : Style → Bool → Bool
  | .hexadecimal, _ => true
  | .decimal, _ => false
  | .inherited, hexConst => hexConst

/-- The form of an instruction with the operands it shows, in rendering order. -/
structure Shape where
  form : Form
  style : Style
  shown : List Ref
deriving DecidableEq, Repr

/-- The first operands of an instruction; a missing one panics in the source. -/
def Shape.first? (form : Form) (style : Style) (count : Nat) (operands : List Ref) :
    Option Shape :=
  if count ≤ operands.length then some ⟨form, style, operands.take count⟩ else none

def constExpr (k : BitVec 16) (hexConst : Bool) : Expr :=
  if hexConst || k.toInt ≥ 256 || k.toInt ≤ -256 then .hexConst k else .decimalConst k

/-- The instructions that render as the symbol they read. -/
def readsSymbol : Opcode → Bool
  | .readVar8 | .readVar16 | .readVar32 => true
  | _ => false

def initReg? : Ref → Option Reg
  | .init reg => some reg
  | _ => none

/-- The entry value of a register; the entry stack and base pointers have snapshots. -/
def initName : Reg → String
  | .SP => "SP0"
  | .BP => "BP0"
  | reg => reg.name

namespace Input

/-- An access through an annotated pointer names its segment; others build a raw pointer. -/
def loadShape (input : Input) (width : Nat) (pointer : String) (operands : List Ref) :
    Option Shape := do
  let segRef ← operands[0]?
  let offRef ← operands[1]?
  match input.matchedOrigin segRef offRef with
  | some origin =>
    match origin.kind with
    | .near => return ⟨.guestMem (some "DS") width, .hexadecimal, [offRef]⟩
    | .nearSs => return ⟨.guestMem (some "SS") width, .hexadecimal, [offRef]⟩
    | .nearEs => return ⟨.guestMem (some "ES") width, .hexadecimal, [offRef]⟩
    | .far => return ⟨.guestMem none width, .hexadecimal, [offRef, segRef]⟩
  | none => return ⟨.deref pointer, .hexadecimal, [segRef, offRef]⟩

/-- A bulk operation takes its width from a size operand, which it does not show. -/
def sizedShape (input : Input) (byteName wordName : String) (size : Nat) (operands : List Ref) :
    Option Shape := do
  let word := input.ir.constLookup (← operands[size]?) = some 2
  Shape.first? (.abstract (if word then wordName else byteName)) .decimal size operands

/-- A repeated comparison is named by its kind, its width and its condition. -/
def repShape (input : Input) (kind : String) (size : Nat) (operands : List Ref) :
    Option Shape := do
  let eq := input.ir.constLookup (← operands[size + 1]?) = some 0
  let repeated := if eq then "REPE_" else "REPNE_"
  input.sizedShape (repeated ++ kind ++ "B") (repeated ++ kind ++ "W") size operands

/-- The shape of an instruction that is neither a unary nor a binary operation. -/
def otherShape (input : Input) (instr : Instr) : Option Shape :=
  let operands := instr.operands
  match instr.opcode with
  | .ref | .pin => Shape.first? .operand .decimal 1 operands
  | .load8 => input.loadShape 1 "PTR_8" operands
  | .load16 => input.loadShape 2 "PTR_16" operands
  | .load32 => input.loadShape 4 "PTR_32" operands
  | .upper16 => Shape.first? .upper16 .inherited 1 operands
  | .lower16 => Shape.first? .lower16 .inherited 1 operands
  | .callArgs => do
      let callee ← input.ir.funcs[← (← operands[0]?).unwrapFunc]?
      return ⟨.call callee, .decimal, operands.tail⟩
  | .callFar => some ⟨.abstract "CALL_FAR", .hexadecimal, operands⟩
  | .callNear => some ⟨.abstract "CALL_NEAR", .hexadecimal, operands⟩
  | .callNearPtr => some ⟨.abstract "CALL_NEAR_INDIRECT", .hexadecimal, operands⟩
  | .callFarPtr => some ⟨.abstract "CALL_FAR_INDIRECT", .hexadecimal, operands⟩
  | .repMovs => input.sizedShape "REP_MOVSB" "REP_MOVSW" 5 operands
  | .repStos => input.sizedShape "REP_STOSB" "REP_STOSW" 4 operands
  | .repLods =>
      let word := instr.typ = .u16 ∨ instr.typ = .i16
      some ⟨.abstract (if word then "REP_LODSW" else "REP_LODSB"), .decimal, operands⟩
  | .repCmps => input.repShape "CMPS" 5 operands
  | .repScas => input.repShape "SCAS" 4 operands
  | .in8 => Shape.first? (.abstract "INB") .decimal 1 operands
  | .in16 => Shape.first? (.abstract "INW") .decimal 1 operands
  | .out8 => some ⟨.abstract "OUTB", .decimal, operands⟩
  | .out16 => some ⟨.abstract "OUTW", .decimal, operands⟩
  | .ins => input.sizedShape "INSB" "INSW" 3 operands
  | .outs => input.sizedShape "OUTSB" "OUTSW" 3 operands
  | .repIns => input.sizedShape "REP_INSB" "REP_INSW" 4 operands
  | .repOuts => input.sizedShape "REP_OUTSB" "REP_OUTSW" 4 operands
  | .cld => some ⟨.abstract "CLD", .decimal, []⟩
  | .std => some ⟨.abstract "STD", .decimal, []⟩
  | .cli => some ⟨.abstract "CLI", .decimal, []⟩
  | .sti => some ⟨.abstract "STI", .decimal, []⟩
  | .make32 => some ⟨.make32, .decimal, operands⟩
  | .signExtTo16 =>
      if operands.length = 1 then some ⟨.signExt .i16 .i8, .decimal, operands⟩ else none
  | .signExtTo32 =>
      if operands.length = 1 then some ⟨.signExt .i32 .i16, .decimal, operands⟩ else none
  | .sign => Shape.first? (.signTest .neq) .decimal 1 operands
  | .notSign => Shape.first? (.signTest .eq) .decimal 1 operands
  | .unimpl => some ⟨.abstract "UNIMPL", .decimal, operands⟩
  | .updateFlags | .eqFlags | .neqFlags | .gtFlags | .geqFlags | .ltFlags | .leqFlags
  | .ugtFlags | .ugeqFlags | .ultFlags | .uleqFlags | .signFlags | .overflowFlags
  | .parityFlags => some ⟨.abstract "UNIMPL_FLAGS", .decimal, operands⟩
  | _ => none

/-- The shape of an instruction, unless it renders as a name or as a symbol. -/
def shape (input : Input) (instr : Instr) : Option Shape :=
  match unaryOperator instr.opcode, binaryOperator instr.opcode with
  | some op, _ => Shape.first? (.unary op) .inherited 1 instr.operands
  | none, some (op, signed) =>
      let cast := if signed then some (signedCast instr.typ) else none
      Shape.first? (.binary op cast) .inherited 2 instr.operands
  | none, none => input.otherShape instr

def lookupUses (input : Input) (r : Ref) : Nat := input.ir.computeUses r

/-- A value that another instruction reads keeps its name unless it is used once. A call and a
materialised value are always named. -/
def keepsName (input : Input) (r : Ref) (instr : Instr) : Bool :=
  input.lookupUses r ≠ 1 || instr.opcode.isCall || instr.attrs &&& Attribute.MATERIALISE ≠ 0

end Input

namespace Builder

/-- The operands of a shape are rendered one after the other. -/
def renderAll (render : Builder → Ref → Option (Expr × Builder)) :
    Builder → List Ref → Option (List Expr × Builder)
  | b, [] => some ([], b)
  | b, r :: rest => do
      let (e, b) ← render b r
      let (es, b) ← renderAll render b rest
      return (e :: es, b)

def readInit (b : Builder) (reg : Reg) : Builder :=
  if reg = .BP then { b with usesEntryBp := true } else b

/-- The expression of a value. At depth zero the instruction itself is rendered; below, a value
that keeps its name is not expanded. The flag asks for the negation of the value and comes back
set when the negation is still to be applied. -/
def refToExprImpl : Nat → Builder → Ref → Nat → Bool → Bool → Option ((Expr × Bool) × Builder)
  | 0, _, _, _, _, _ => none
  | fuel + 1, b, r, depth, hexConst, inverted =>
    match b.ir.constLookup r, initReg? r with
    | some k, _ => some ((constExpr k hexConst, inverted), b)
    | none, some reg => some ((.name (initName reg), inverted), b.readInit reg)
    | none, none => do
        let instr ← b.ir.instr? r
        if depth ≠ 0 ∧ b.keepsName r instr ∨ instr.opcode = .phi then
          let (name, b) := b.refName r
          return ((.name name, inverted), b)
        else if readsSymbol instr.opcode then
          let symref ← (← instr.operands[0]?).unwrapSymbol
          let (e, b) ← b.symbolToExpr fuel symref
          return ((e, inverted), b)
        else
          let shape ← b.shape instr
          let (es, b) ← renderAll (fun b r =>
            (refToExprImpl fuel b r (depth + 1) (shape.style.hexConst hexConst) false).map
              fun result => (result.1.1, result.2)) b shape.shown
          let e ← (shape.form.negate inverted).1.build es
          return ((e, (shape.form.negate inverted).2), b)

def refToExprHex (fuel : Nat) (b : Builder) (r : Ref) (depth : Nat) (hexConst : Bool) :
    Option (Expr × Builder) := do
  let ((e, _), b) ← refToExprImpl fuel b r depth hexConst false
  return (e, b)

/-- A negation that no operator took is written out. -/
def refToExpr2 (fuel : Nat) (b : Builder) (r : Ref) (depth : Nat) (inverted : Bool) :
    Option (Expr × Builder) := do
  let ((e, inverted), b) ← refToExprImpl fuel b r depth false inverted
  return (if inverted then .unary .logicalNot e else e, b)

def refToExpr (fuel : Nat) (b : Builder) (r : Ref) (depth : Nat) : Option (Expr × Builder) :=
  refToExpr2 fuel b r depth false

end Builder

end Dis86.Ast
