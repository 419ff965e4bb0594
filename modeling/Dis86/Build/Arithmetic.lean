import Dis86.Build.Emitter
import Dis86.Build.RegisterViews
import Dis86.Ast.Tree
import Dis86.Lib.WordArith

namespace Dis86.Build
open Asm (Reg Operand OperandMem)

def byteRegs : List Reg := [.AL, .CL, .DL, .BL, .AH, .CH, .DH, .BH]

/-- The width is read off the operand. -/
def operandIsWord : Operand → Bool
  | .reg reg => reg ∉ byteRegs
  | .mem mem => mem.sz = .size16
  | _ => false

/-- A value of the entry and a constant are not masked. -/
def isPlainValue : Ref → Bool
  | .init _ | .const _ => true
  | _ => false

namespace Emitter

variable {S V : Type} (e : Emitter S V)

/-- The lowering panics unless the condition holds. -/
def assertion (condition : Bool) : Emission S Unit := if condition then pure () else failure

def appendUpperLowerSplit (r : V) : Emission S (V × V) := do
  let upper ← e.append .u16 .upper16 [r]
  let lower ← e.append .u16 .lower16 [r]
  return (upper, lower)

def appendByteSplit (r : V) : Emission S (V × V) := do
  let mask ← e.constNew 0xFF
  let eight ← e.constNew 8
  let shifted ← e.append .u16 .ushr [r, eight]
  let upper ← e.append .u16 .and [shifted, mask]
  let lower ← e.append .u16 .and [r, mask]
  return (upper, lower)

def signByteToWord (r : V) : Emission S V := e.append .u16 .signExtTo16 [r]

def signWordToDword (r : V) : Emission S V := e.append .u32 .signExtTo32 [r]

section
variable (isEntry : V → Bool)

def toByte (r : V) : Emission S V := do
  if isEntry r then return r
  let mask ← e.constNew 0xFF
  e.append .u16 .and [r, mask]

/-- A division of a double word by a word, or of a word by a byte. -/
def lowerDiv (ins : Asm.Instr) (signed : Bool) : Emission S Unit := do
  let oper0 ← operand ins 0
  let oper1 ← operand ins 1
  let oper2 ← operand ins 2
  let upperIn ← e.appendAsmSrcOperand oper0
  let lowerIn ← e.appendAsmSrcOperand oper1
  let divisor ← e.appendAsmSrcOperand oper2
  let qop : Opcode := if signed then .idiv else .udiv
  let rop : Opcode := if signed then .irem else .urem
  if operandIsWord oper2 then do
    let dividend ← e.append .u32 .make32 [upperIn, lowerIn]
    let divisor ← if signed then e.signWordToDword divisor else pure divisor
    let quotient ← e.append .u32 qop [dividend, divisor]
    let (_, lowerOut) ← e.appendUpperLowerSplit quotient
    e.appendAsmDstOperand oper1 lowerOut
    let rem ← e.append .u32 rop [dividend, divisor]
    let (_, remLo) ← e.appendUpperLowerSplit rem
    e.appendAsmDstOperand oper0 remLo
  else do
    let hi ← e.toByte isEntry upperIn
    let lo ← e.toByte isEntry lowerIn
    let eight ← e.constNew 8
    let shifted ← e.append .u16 .shl [hi, eight]
    let dividend ← e.append .u16 .or [shifted, lo]
    let divisor ← e.toByte isEntry divisor
    let divisor ← if signed then e.signByteToWord divisor else pure divisor
    let quotient ← e.append .u16 qop [dividend, divisor]
    let (_, lowerOut) ← e.appendByteSplit quotient
    e.appendAsmDstOperand oper1 lowerOut
    let rem ← e.append .u16 rop [dividend, divisor]
    let (upperOut, _) ← e.appendByteSplit rem
    e.appendAsmDstOperand oper0 upperOut
  e.clobberFlags

end

def lowerImul (ins : Asm.Instr) : Emission S Unit := do
  let oper0 ← operand ins 0
  let oper1 ← operand ins 1
  let oper2 ← operand ins 2
  if operandIsWord oper2 then do
    assertion (oper0 = .reg .DX && oper1 = .reg .AX)
    let lhsRef ← e.appendAsmSrcOperand oper1
    let rhsRef ← e.appendAsmSrcOperand oper2
    let lhs ← e.signWordToDword lhsRef
    let rhs ← e.signWordToDword rhsRef
    let res ← e.append .u32 .imul [lhs, rhs]
    let (upper, lower) ← e.appendUpperLowerSplit res
    e.appendAsmDstOperand oper0 upper
    e.appendAsmDstOperand oper1 lower
  else do
    assertion (oper0 = .reg .AX && oper1 = .reg .AL)
    let lhsRef ← e.appendAsmSrcOperand oper1
    let rhsRef ← e.appendAsmSrcOperand oper2
    let lhs ← e.signByteToWord lhsRef
    let rhs ← e.signByteToWord rhsRef
    let res ← e.append .u16 .imul [lhs, rhs]
    e.appendAsmDstOperand oper0 res
  e.clearCarry

def lowerMul (ins : Asm.Instr) : Emission S Unit := do
  let oper0 ← operand ins 0
  let oper1 ← operand ins 1
  let oper2 ← operand ins 2
  if operandIsWord oper2 then do
    assertion (oper0 = .reg .DX && oper1 = .reg .AX)
    let lhs ← e.appendAsmSrcOperand oper1
    let rhs ← e.appendAsmSrcOperand oper2
    let res ← e.append .u32 .umul [lhs, rhs]
    let (upper, lower) ← e.appendUpperLowerSplit res
    e.appendAsmDstOperand oper0 upper
    e.appendAsmDstOperand oper1 lower
  else do
    assertion (oper0 = .reg .AX && oper1 = .reg .AL)
    let lhs ← e.appendAsmSrcOperand oper1
    let rhs ← e.appendAsmSrcOperand oper2
    let res ← e.append .u16 .umul [lhs, rhs]
    e.appendAsmDstOperand oper0 res
  e.clearCarry

/-- The multiplications and the divisions. -/
def lowerArithmetic (isEntry : V → Bool) (ins : Asm.Instr) : Emission S Unit :=
  match ins.opcode with
  | .MUL => e.lowerMul ins
  | .IMUL => e.lowerImul ins
  | .DIV => e.lowerDiv isEntry ins false
  | .IDIV => e.lowerDiv isEntry ins true
  | _ => failure

end Emitter

/-- The splits of the emitter are those of the builder. -/
theorem building_appendUpperLowerSplit (r : Ref) :
    building.appendUpperLowerSplit r = appendUpperLowerSplit r := rfl

theorem building_appendByteSplit (r : Ref) : building.appendByteSplit r = appendByteSplit r := rfl

open Hydra (Hardware)
open Lib (Width)
open Ast (PureUnary PureBinary)

variable {M : Type}

/-- A value of the intermediate representation. Values of the entry and constants are known as such. -/
structure WideValue where
  val : BitVec 32
  entry : Bool
deriving DecidableEq, Repr

/-- The values of the register variables in the current block, and the memory. -/
structure WideVariables (M : Type) where
  vars : Reg → WideValue
  mem : M

def WideVariables.set (s : WideVariables M) (reg : Reg) (v : WideValue) : WideVariables M :=
  { s with vars := Function.update s.vars reg v }

def typWidth? : Typ → Option Width
  | .u8 => some .byte
  | .u16 => some .word
  | .u32 => some .dword
  | _ => none

/-- The result of an instruction at the width of its type. A signed division reads its operands at that
width, and a division by zero stops. -/
def wideResult (w : Width) (opcode : Opcode) (operands : List (BitVec 32)) : Option (BitVec 32) :=
  match opcode, operands with
  | .ref, [a] => some (w.wrap a)
  | .and, [a, b] => some (PureBinary.and.value w w a b)
  | .or, [a, b] => some (PureBinary.or.value w w a b)
  | .shl, [a, b] => some (PureBinary.shl.value w w a b)
  | .ushr, [a, b] => some (PureBinary.ushr.value w w a b)
  | .imul, [a, b] => some (PureBinary.imul.value w w a b)
  | .umul, [a, b] => some (PureBinary.umul.value w w a b)
  | .make32, [a, b] => some (PureBinary.make32.value w w a b)
  | .upper16, [a] => some (PureUnary.upper16.value w w a)
  | .lower16, [a] => some (PureUnary.lower16.value w w a)
  | .signExtTo16, [a] => some (PureUnary.signExtTo16.value w w a)
  | .signExtTo32, [a] => some (PureUnary.signExtTo32.value w w a)
  | .udiv, [a, b] => if b = 0 then none else some (w.wrap (a / b))
  | .urem, [a, b] => if b = 0 then none else some (w.wrap (a % b))
  | .idiv, [a, b] =>
      if w.signExtend b = 0 then none else some (w.wrap ((w.signExtend a).sdiv (w.signExtend b)))
  | .irem, [a, b] =>
      if w.signExtend b = 0 then none else some (w.wrap ((w.signExtend a).srem (w.signExtend b)))
  | _, _ => none

/-- The offset that a memory operand adds up. -/
def wideOffset (vars : Reg → WideValue) (mem : OperandMem) : BitVec 16 :=
  ((mem.reg2.toList ++ mem.reg1.toList).map fun reg => (vars reg).val.setWidth 16).sum + mem.off.getD 0

/-- The emitter that computes the values of the lowered code on a machine. -/
def computing (hw : Hardware M) (dfClear pinAll : Bool) (entryFlags : WideValue) :
    Emitter (WideVariables M) WideValue where
  getVar reg := fun s => some (s.vars reg, s)
  setVar reg v := fun s => some ((), s.set reg v)
  constNew k := fun s => some (⟨k.setWidth 32, true⟩, s)
  appendInstr typ _ opcode operands := fun s => do
    let w ← typWidth? typ
    let v ← wideResult w opcode (operands.map WideValue.val)
    return (⟨v, false⟩, s)
  appendAsmSrcMem mem := fun s => (accessElement mem.sz).map fun e =>
    (⟨(hw.load e ((s.vars mem.sreg).val.setWidth 16) (wideOffset s.vars mem) s.mem).setWidth 32, false⟩, s)
  appendAsmDstMem mem v := fun s => (accessElement mem.sz).map fun e =>
    ((), { s with
      mem := hw.store e ((s.vars mem.sreg).val.setWidth 16) (wideOffset s.vars mem) (v.val.setWidth 16) s.mem })
  entryFlags := entryFlags
  clearCarry := fun s => some ((), s)
  dfClear := fun s => some (dfClear, s)
  pinAll := fun s => some (pinAll, s)

/-- The variables hold the registers as words, and their bytes as bytes. -/
def WideVariables.Holds (s : WideVariables M) (regs : Reg → BitVec 16) : Prop :=
  ∀ reg, (s.vars reg).val = (readRegister regs reg).setWidth 32

section Words

variable (x y : BitVec 16)

theorem wrap_word : Width.word.wrap (x.setWidth 32) = x.setWidth 32 := by
  simp [Width.wrap, Width.low, Width.bits]

theorem and_word : PureBinary.and.value .word .word (x.setWidth 32) (y.setWidth 32) = (x &&& y).setWidth 32 := by
  rw [PureBinary.value, ← BitVec.setWidth_and, wrap_word]

theorem or_word : PureBinary.or.value .word .word (x.setWidth 32) (y.setWidth 32) = (x ||| y).setWidth 32 := by
  rw [PureBinary.value, ← BitVec.setWidth_or, wrap_word]

theorem low_word : Width.word.low (x.setWidth 32) = x := by
  simp [Width.low, Width.bits]

theorem shl_word : PureBinary.shl.value .word .word (x.setWidth 32) ((8 : BitVec 16).setWidth 32) =
    (x <<< 8).setWidth 32 := by
  rw [PureBinary.value, Width.wrap, Width.low_shl, low_word]
  rfl

theorem ushr_word : PureBinary.ushr.value .word .word (x.setWidth 32) ((8 : BitVec 16).setWidth 32) =
    (x >>> 8).setWidth 32 := by
  have shifted : x.setWidth 32 >>> 8 = (x >>> 8).setWidth 32 := by
    apply BitVec.eq_of_toNat_eq
    have small := x.isLt
    simp [Nat.shiftRight_eq_div_pow]
  rw [PureBinary.value]
  exact (congrArg Width.word.wrap shifted).trans (wrap_word _)

end Words

/-- The values are those of word variables. -/
def Widens {M' : Type} (s : WideVariables M) (t : Variables M') : Prop :=
  ∀ reg, (s.vars reg).val = (t.vars reg).val.setWidth 32

section Views

variable {M' : Type} {s : WideVariables M} {t : Variables M'} {v : WideValue} {k : Value M'}
  {hw : Hardware M} {dfClear pinAll : Bool} {entryFlags : WideValue} {regs : Reg → BitVec 16} {x : BitVec 16}

theorem Widens.set (widens : Widens s t) (reg : Reg) (value : v.val = k.val.setWidth 32) :
    Widens (s.set reg v) (t.set reg k) := by
  intro other
  simp only [WideVariables.set, Variables.set, Function.update_apply]
  split
  · exact value
  · exact widens other

@[simp] theorem WideVariables.set_self (s : WideVariables M) (reg : Reg) (v : WideValue) :
    (s.set reg v).vars reg = v := by
  simp [WideVariables.set]

/-- A write refreshes the views as the word variables do. -/
theorem Widens.write (widens : Widens s t) (reg : Reg) (value : v.val = k.val.setWidth 32) :
    ∃ s', (computing hw dfClear pinAll entryFlags).appendAsmDstReg reg v s = some ((), s') ∧
      Widens s' (t.write pinAll reg k) ∧ s'.mem = s.mem := by
  let mask : BitVec 32 := (0xFF : BitVec 16).setWidth 32
  let eight : BitVec 32 := (8 : BitVec 16).setWidth 32
  generalize pin : (if pinAll then Value.known k.val else k) = p
  have pinned : ∃ w : WideValue, (computing hw dfClear pinAll entryFlags).pinnedValue v s = some (w, s) ∧
      w.val = p.val.setWidth 32 := by
    subst pin
    cases pinAll with
    | false => exact ⟨v, rfl, value⟩
    | true => exact ⟨⟨Width.word.wrap v.val, false⟩, rfl, by rw [value, wrap_word]; rfl⟩
  obtain ⟨w, ran, word⟩ := pinned
  have first := widens.set reg word
  have whole := emission_bind ran (f := fun v => do
    (computing hw dfClear pinAll entryFlags).setVar reg v
    (computing hw dfClear pinAll entryFlags).refreshViews reg v)
  cases bytes : fragments? reg with
  | some pair =>
      obtain ⟨lo, hi⟩ := pair
      let lower : WideValue := ⟨PureBinary.and.value .word .word ((s.set reg w).vars reg).val mask, false⟩
      let upper : WideValue := ⟨PureBinary.and.value .word .word
        (PureBinary.ushr.value .word .word ((s.set reg w).vars reg).val eight) mask, false⟩
      have lowerWord : lower.val = (p.val &&& 0xFF).setWidth 32 := by
        simp only [lower, WideVariables.set_self, word]
        exact and_word _ _
      have upperWord : upper.val = ((p.val >>> 8) &&& 0xFF).setWidth 32 := by
        simp only [upper, WideVariables.set_self, word]
        exact (congrArg (PureBinary.and.value .word .word · mask) (ushr_word _)).trans (and_word _ _)
      refine ⟨((s.set reg w).set lo lower).set hi upper, ?_, ?_, rfl⟩
      · refine whole.trans ?_
        simp only [Emitter.refreshViews, bytes]
        rfl
      · have both := (first.set lo (k := .known (p.val &&& 0xFF)) lowerWord).set hi
          (k := .known ((p.val >>> 8) &&& 0xFF)) upperWord
        simpa only [Variables.write, bytes, pin] using both
  | none =>
      cases part : parent? reg with
      | none =>
          refine ⟨s.set reg w, ?_, ?_, rfl⟩
          · refine whole.trans ?_
            simp only [Emitter.refreshViews, bytes, part]
            rfl
          · simpa only [Variables.write, bytes, part, pin] using first
      | some full =>
          obtain ⟨lo, hi, views, half⟩ := views_of_parent part
          let masked : WideValue := ⟨PureBinary.and.value .word .word w.val mask, false⟩
          have maskedWord : masked.val = (p.val &&& 0xFF).setWidth 32 := by
            simp only [masked, word]
            exact and_word _ _
          have second := first.set reg (k := .known (p.val &&& 0xFF)) maskedWord
          -- The other byte is read after the masked one is set.
          let s₂ := (s.set reg w).set reg masked
          let composed : WideValue := ⟨PureBinary.or.value .word .word
            (PureBinary.shl.value .word .word (s₂.vars hi).val eight) (s₂.vars lo).val, false⟩
          have self : s₂.vars reg = masked := WideVariables.set_self _ _ _
          let t₂ := (t.set reg p).set reg (.known (p.val &&& 0xFF))
          have composedWord : composed.val = ((t₂.vars hi).val <<< 8 ||| (t₂.vars lo).val).setWidth 32 := by
            simp only [composed, s₂, second hi, second lo]
            exact (congrArg (PureBinary.or.value .word .word · _) (shl_word _)).trans (or_word _ _)
          refine ⟨s₂.set full composed, ?_, ?_, rfl⟩
          · refine whole.trans ?_
            simp only [Emitter.refreshViews, bytes, part, views.split, Emitter.recompose]
            rcases half with rfl | rfl
            · simp only [if_true]
              simp only [composed, self]
              rfl
            · simp only [if_neg views.apart.2.2.symm]
              simp only [composed, self]
              rfl
          · have all := second.set full (k := .known _) composedWord
            simpa only [Variables.write, bytes, part, views.split, pin] using all

/-- A write leaves the variables as the write of the register does. -/
theorem WideVariables.Holds.write (holds : s.Holds regs) (reg : Reg) (value : v.val = x.setWidth 32) :
    ∃ s', (computing hw dfClear pinAll entryFlags).appendAsmDstReg reg v s = some ((), s') ∧
      s'.Holds (writeRegister regs reg x) ∧ s'.mem = s.mem := by
  let t : Variables Unit := ⟨fun reg => .known (readRegister regs reg), ()⟩
  have widens : Widens s t := holds
  have represents : Represents t regs := fun _ => rfl
  obtain ⟨s', ran, widened, mem⟩ := widens.write reg (k := .known x) value
  refine ⟨s', ran, fun other => ?_, mem⟩
  have written := represents.write pinAll reg (.known x) other
  exact (widened other).trans (congrArg (BitVec.setWidth 32) written)

end Views

end Dis86.Build
