import Dis86.Build.Arithmetic
import Dis86.Build.StringDecode

namespace Dis86.Build
open Asm (Reg Operand OperandMem)
open Hydra (Hardware Element)
open Lib (Width reading product divide? extendTo quotient remainder)
open Ast (PureUnary PureBinary)

variable {M : Type}

inductive ArithmeticOp where
  | mul | imul | div | idiv
deriving DecidableEq, Repr

def ArithmeticOp.opcode : ArithmeticOp → Asm.Opcode
  | .mul => .MUL
  | .imul => .IMUL
  | .div => .DIV
  | .idiv => .IDIV

def ArithmeticOp.signed : ArithmeticOp → Bool
  | .mul | .div => false
  | .imul | .idiv => true

def ArithmeticOp.divides : ArithmeticOp → Bool
  | .mul | .imul => false
  | .div | .idiv => true

def wordRegs : List Reg := [.AX, .CX, .DX, .BX, .SP, .BP, .SI, .DI]

/-- A register or a place in memory of the size of an element. -/
def isSource : Element → Operand → Bool
  | .byte, .reg reg => reg ∈ byteRegs
  | .word, .reg reg => reg ∈ wordRegs
  | element, .mem mem => accessElement mem.sz = some element
  | _, _ => false

/-- A multiplication or a division by a register or a place in memory. -/
structure ArithmeticInstr where
  op : ArithmeticOp
  element : Element
  source : Operand
  known : isSource element source = true

/-- The offset of a memory operand. -/
def registerOffset (regs : Reg → BitVec 16) (mem : OperandMem) : BitVec 16 :=
  ((mem.reg2.toList ++ mem.reg1.toList).map (readRegister regs)).sum + mem.off.getD 0

namespace ArithmeticInstr

variable (i : ArithmeticInstr)

def upper : Reg :=
  match i.element, i.op.divides with
  | .word, _ => .DX
  | .byte, true => .AH
  | .byte, false => .AX

def lower : Reg :=
  match i.element with
  | .word => .AX
  | .byte => .AL

def operands : List Operand := [.reg i.upper, .reg i.lower, i.source]

/-- The value of the source operand. -/
def sourceValue (hw : Hardware M) (regs : Reg → BitVec 16) (mem : M) : BitVec 16 :=
  match i.source with
  | .reg reg => readRegister regs reg
  | .mem m => hw.load i.element (readRegister regs m.sreg) (registerOffset regs m) mem
  | _ => 0

/-- What the processor leaves in the registers; nothing on a divide error. -/
def result (regs : Reg → BitVec 16) (source : BitVec 16) : Option (Reg → BitVec 16) :=
  match i.op.divides, i.element with
  | false, .word =>
      let p := product i.op.signed (regs .AX) source
      some (writeRegister (writeRegister regs .DX (p.extractLsb' 16 16)) .AX (p.extractLsb' 0 16))
  | false, .byte =>
      some (writeRegister regs .AX (product i.op.signed ((regs .AX).setWidth 8) (source.setWidth 8)))
  | true, .word =>
      (divide? i.op.signed (regs .DX ++ regs .AX) source).map fun (q, r) =>
        writeRegister (writeRegister regs .AX q) .DX r
  | true, .byte =>
      (divide? (w := 8) i.op.signed (regs .AX) (source.setWidth 8)).map fun (q, r) =>
        writeRegister (writeRegister regs .AL (q.setWidth 16)) .AH (r.setWidth 16)

end ArithmeticInstr

section Words

theorem byte_word (x : BitVec 16) : x &&& 0xFF = (x.setWidth 8).setWidth 16 := by
  apply BitVec.eq_of_getLsbD_eq
  intro k bound
  simp [getLsbD_byteMask]
  grind

theorem low_dword (x : BitVec 32) : Width.dword.signExtend x = x := by
  simp [Width.signExtend, Width.low, Width.bits]

theorem make32_words (w v : Width) (x y : BitVec 16) :
    PureBinary.make32.value w v (x.setWidth 32) (y.setWidth 32) = (x ++ y : BitVec (16 + 16)) := by
  rw [PureBinary.value, wrap_word, wrap_word]
  apply BitVec.eq_of_getLsbD_eq
  intro k bound
  rw [BitVec.getLsbD_append]
  simp
  grind

theorem signExtTo32_word (w v : Width) (x : BitVec 16) :
    PureUnary.signExtTo32.value w v (x.setWidth 32) = extendTo 32 true x := by
  rw [PureUnary.value, Width.signExtend, low_word]
  rfl

theorem signExtTo16_byte (w v : Width) (x : BitVec 8) :
    PureUnary.signExtTo16.value w v ((x.setWidth 16).setWidth 32) = (extendTo 16 true x).setWidth 32 := by
  have narrow : Width.byte.low ((x.setWidth 16).setWidth 32) = x := by
    simp [Width.low, Width.bits]
  have extended : (x.signExtend 32).setWidth 16 = x.signExtend 16 := by
    apply BitVec.eq_of_getLsbD_eq
    intro k bound
    simp [BitVec.getLsbD_signExtend]
    grind
  rw [PureUnary.value, Width.signExtend, narrow]
  exact congrArg (BitVec.setWidth 32) extended

theorem upper16_value (w v : Width) (x : BitVec 32) :
    PureUnary.upper16.value w v x = (x.extractLsb' 16 16).setWidth 32 := by
  apply BitVec.eq_of_getLsbD_eq
  intro k bound
  simp [PureUnary.value, Width.wrap, Width.low, Width.bits]

theorem lower16_value (w v : Width) (x : BitVec 32) :
    PureUnary.lower16.value w v x = (x.setWidth 16).setWidth 32 := rfl

/-- A division of words is done with words. -/
theorem wideResult_word (signed : Bool) {x y : BitVec 16} (divisor : y ≠ 0) :
    wideResult .word (if signed then .idiv else .udiv) [x.setWidth 32, y.setWidth 32] =
        some ((quotient signed x y).setWidth 32) ∧
      wideResult .word (if signed then .irem else .urem) [x.setWidth 32, y.setWidth 32] =
        some ((remainder signed x y).setWidth 32) := by
  have nonzero : extendTo 32 signed y ≠ 0 := by
    rwa [Ne, Lib.extendTo_eq_zero_iff (by decide)]
  have whole := Lib.quotient_extendTo (v := 32) (by decide) signed x y
  have rest := Lib.remainder_extendTo (v := 32) (by decide) signed x y
  cases signed with
  | true =>
      have left : Width.word.signExtend (x.setWidth 32) = extendTo 32 true x := signExtTo32_word .word .word x
      have right : Width.word.signExtend (y.setWidth 32) = extendTo 32 true y := signExtTo32_word .word .word y
      simp only [if_true, wideResult, left, right, if_neg nonzero]
      exact ⟨congrArg (some ∘ BitVec.setWidth 32) whole, congrArg (some ∘ BitVec.setWidth 32) rest⟩
  | false =>
      have nonzero' : y.setWidth 32 ≠ 0 := nonzero
      simp only [Bool.false_eq_true, if_false, wideResult, if_neg nonzero']
      exact ⟨congrArg (some ∘ BitVec.setWidth 32) whole, congrArg (some ∘ BitVec.setWidth 32) rest⟩

theorem wideResult_dword (signed : Bool) {x y : BitVec 32} (divisor : y ≠ 0) :
    wideResult .dword (if signed then .idiv else .udiv) [x, y] = some (quotient signed x y) ∧
      wideResult .dword (if signed then .irem else .urem) [x, y] = some (remainder signed x y) := by
  cases signed with
  | true =>
      simp only [if_true, wideResult, low_dword, if_neg divisor, Width.wrap_dword]
      exact ⟨rfl, rfl⟩
  | false =>
      simp only [Bool.false_eq_true, if_false, wideResult, if_neg divisor, Width.wrap_dword]
      exact ⟨rfl, rfl⟩

end Words

section Runs

variable {hw : Hardware M} {dfClear pinAll : Bool} {entryFlags : WideValue} {s : WideVariables M}
  {regs : Reg → BitVec 16} {i : ArithmeticInstr}

theorem computing_append {w : Width} {typ : Typ} {opcode : Opcode} {operands : List WideValue} {r : BitVec 32}
    (width : typWidth? typ = some w) (value : wideResult w opcode (operands.map WideValue.val) = some r) :
    (computing hw dfClear pinAll entryFlags).append typ opcode operands s = some (⟨r, false⟩, s) := by
  simp [Emitter.append, computing, width, value]

theorem wideOffset_eq (holds : s.Holds regs) (mem : OperandMem) : wideOffset s.vars mem = registerOffset regs mem := by
  have same : (fun reg => (s.vars reg).val.setWidth 16) = readRegister regs := by
    funext reg
    rw [holds reg]
    simp
  rw [wideOffset, registerOffset, same]

/-- The value of the source operand is read. -/
theorem computing_source (holds : s.Holds regs) (i : ArithmeticInstr) :
    ∃ v, (computing hw dfClear pinAll entryFlags).appendAsmSrcOperand i.source s = some (v, s) ∧
      v.val = (i.sourceValue hw regs s.mem).setWidth 32 := by
  obtain ⟨op, element, source, known⟩ := i
  cases source with
  | reg reg => exact ⟨s.vars reg, rfl, holds reg⟩
  | mem m =>
      have size : accessElement m.sz = some element := by
        cases element <;> simpa [isSource] using known
      let loaded := hw.load element ((s.vars m.sreg).val.setWidth 16) (wideOffset s.vars m) s.mem
      refine ⟨⟨loaded.setWidth 32, false⟩, ?_, ?_⟩
      · simp only [Emitter.appendAsmSrcOperand, computing, size, Option.map_some]
        rfl
      · simp only [loaded]
        rw [wideOffset_eq holds, holds m.sreg]
        simp [ArithmeticInstr.sourceValue]
  | imm | rel | far => cases element <;> cases known

/-- The width of the instruction is the size of its elements. -/
theorem operandIsWord_source (i : ArithmeticInstr) : operandIsWord i.source = decide (i.element = .word) := by
  obtain ⟨op, element, source, known⟩ := i
  cases source with
  | reg reg =>
      cases element with
      | byte =>
          have inside : reg ∈ byteRegs := by simpa [isSource] using known
          simp [operandIsWord, inside]
      | word =>
          have inside : reg ∈ wordRegs := by simpa [isSource] using known
          have outside : ∀ reg ∈ wordRegs, reg ∉ byteRegs := by decide
          simp [operandIsWord, outside reg inside]
  | mem m =>
      have size : accessElement m.sz = some element := by
        cases element <;> simpa [isSource] using known
      cases sz : m.sz with
      | size8 =>
          rw [sz] at size
          obtain rfl := Option.some.inj size
          simp [operandIsWord, sz]
      | size16 =>
          rw [sz] at size
          obtain rfl := Option.some.inj size
          simp [operandIsWord, sz]
      | size32 =>
          rw [sz] at size
          cases size
  | imm | rel | far => cases element <;> cases known

/-- A byte operand is a byte. -/
theorem sourceValue_byte (byte : i.element = .byte) (hw : Hardware M) (mem : M) :
    i.sourceValue hw regs mem = ((i.sourceValue hw regs mem).setWidth 8).setWidth 16 := by
  obtain ⟨op, element, source, known⟩ := i
  obtain rfl : element = .byte := byte
  cases source with
  | reg reg =>
      have inside : reg ∈ byteRegs := by simpa [isSource] using known
      have part : ∀ reg ∈ byteRegs, parent? reg ≠ none := by decide
      change readRegister regs reg = ((readRegister regs reg).setWidth 8).setWidth 16
      rw [readRegister, regView, if_neg (part reg inside)]
      split
      · rw [← byte_word, high_byte]
      · rw [← byte_word, BitVec.and_assoc, BitVec.and_self]
  | mem m => simp [ArithmeticInstr.sourceValue, Hardware.load]
  | imm | rel | far => cases known

end Runs

end Dis86.Build

namespace Dis86.Asm
open Lib (Outcome Run)

def arithmeticOps : List Opcode := [.MUL, .IMUL, .DIV, .IDIV]

/-- The operands of the multiplications and divisions, for bytes and for words. -/
def arithmeticOpers : Opcode → List Oper × List Oper
  | .MUL | .IMUL => ([.AX, .AL, .RM8], [.DX, .AX, .RM16])
  | .DIV | .IDIV => ([.AH, .AL, .RM8], [.DX, .AX, .RM16])
  | _ => ([], [])

theorem arithmetic_rows : ∀ fmt ∈ instrTbl, fmt.op ∈ arithmeticOps →
    fmt.opers = (arithmeticOpers fmt.op).1 ∨ fmt.opers = (arithmeticOpers fmt.op).2 := by
  decide +kernel

end Dis86.Asm

namespace Dis86.Build
open Asm (Reg Operand)
open Lib (Outcome Run)
open Hydra (Element)

def elementSize : Element → Asm.Size
  | .byte => .size8
  | .word => .size16

theorem ask_eq_ok {S E A : Type} {f : S → Outcome E A} {s s' : S} {a : A} (ran : Run.ask f s = (.ok a, s')) :
    f s = .ok a := (Prod.mk.inj ran).1

theorem mem_of_reg8 {num : BitVec 8} {reg : Reg} (decoded : Reg.reg8 num = .ok reg) : reg ∈ byteRegs := by
  obtain ⟨_, _, found⟩ := Outcome.bind_eq_ok.mp decoded
  exact List.mem_of_getElem? (Outcome.unwrap_eq_ok.mp found)

theorem mem_of_reg16 {num : BitVec 8} {reg : Reg} (decoded : Reg.reg16 num = .ok reg) : reg ∈ wordRegs := by
  obtain ⟨_, _, found⟩ := Outcome.bind_eq_ok.mp decoded
  exact List.mem_of_getElem? (Outcome.unwrap_eq_ok.mp found)

/-- The operand of a ModRM byte is a register or a place in memory. -/
theorem isSource_operandRm (element : Element) {modrm : BitVec 8} {sreg : Option Reg} {operand : Operand}
    {start finish : Asm.RegionIter}
    (read : Asm.operandRm (elementSize element) modrm sreg start = (.ok operand, finish)) :
    isSource element operand = true := by
  have memory (sreg : Reg) (reg1 reg2 : Option Reg) (off : Option (BitVec 16)) :
      isSource element (.mem ⟨elementSize element, sreg, reg1, reg2, off⟩) = true := by
    cases element with
    | byte => rfl
    | word => rfl
  unfold Asm.operandRm at read
  split at read
  · cases element with
    | byte =>
        obtain ⟨reg, middle, decoded, rest⟩ := Run.bind_eq_ok.mp read
        obtain ⟨same, _⟩ := Prod.mk.inj rest
        obtain rfl := Outcome.ok.inj same
        have number := ask_eq_ok decoded
        exact decide_eq_true (mem_of_reg8 number)
    | word =>
        obtain ⟨reg, middle, decoded, rest⟩ := Run.bind_eq_ok.mp read
        obtain ⟨same, _⟩ := Prod.mk.inj rest
        obtain rfl := Outcome.ok.inj same
        have number := ask_eq_ok decoded
        exact decide_eq_true (mem_of_reg16 number)
  · split at read
    · obtain ⟨off, middle, _, rest⟩ := Run.bind_eq_ok.mp read
      obtain ⟨same, _⟩ := Prod.mk.inj rest
      rw [← Outcome.ok.inj same]
      exact memory _ _ _ _
    · obtain ⟨⟨default, reg1, reg2⟩, middle, _, rest⟩ := Run.bind_eq_ok.mp read
      obtain ⟨off, last, _, rest⟩ := Run.bind_eq_ok.mp rest
      obtain ⟨same, _⟩ := Prod.mk.inj rest
      rw [← Outcome.ok.inj same]
      exact memory _ _ _ _

/-- The two registers of an instruction are given, and its source is decoded. -/
theorem decodeOperands_source {modrm : BitVec 8} {sreg : Option Reg} {upper lower : Reg} {first second rm : Asm.Oper}
    {size : Asm.Size} {operands : List Operand} {start finish : Asm.RegionIter}
    (isFirst : Asm.decodeOperand first modrm sreg = some (Asm.operandReg upper))
    (isSecond : Asm.decodeOperand second modrm sreg = some (Asm.operandReg lower))
    (isRm : Asm.decodeOperand rm modrm sreg = some (Asm.operandRm size modrm sreg))
    (read : Asm.decodeOperands modrm sreg [first, second, rm] [] start = (.ok operands, finish)) :
    ∃ source middle, Asm.operandRm size modrm sreg start = (.ok source, middle) ∧
      operands = [.reg upper, .reg lower, source] := by
  rw [Asm.decodeOperands, isFirst] at read
  obtain ⟨one, _, read₁, read⟩ := Run.bind_eq_ok.mp read
  obtain ⟨same, rfl⟩ := Prod.mk.inj read₁
  obtain rfl := Outcome.ok.inj same
  obtain ⟨_, _, space, read⟩ := Run.bind_eq_ok.mp read
  obtain ⟨_, rfl⟩ := Prod.mk.inj space
  rw [Asm.decodeOperands, isSecond] at read
  obtain ⟨two, _, read₂, read⟩ := Run.bind_eq_ok.mp read
  obtain ⟨same, rfl⟩ := Prod.mk.inj read₂
  obtain rfl := Outcome.ok.inj same
  obtain ⟨_, _, space, read⟩ := Run.bind_eq_ok.mp read
  obtain ⟨_, rfl⟩ := Prod.mk.inj space
  rw [Asm.decodeOperands, isRm] at read
  obtain ⟨source, middle, read₃, read⟩ := Run.bind_eq_ok.mp read
  obtain ⟨_, _, _, read⟩ := Run.bind_eq_ok.mp read
  obtain ⟨same, _⟩ := Prod.mk.inj read
  exact ⟨source, middle, read₃, (Outcome.ok.inj same).symm⟩

/-- Every decoded multiplication or division is one of the instructions above. -/
theorem ArithmeticInstr.of_decoded {bin stop : Asm.RegionIter} (fits : bin.Fits) {ins : Asm.Instr} {raw : Asm.Bytes}
    (ran : Asm.decodeOne bin = (.ok (some (ins, raw)), stop)) (arithmetic : ins.opcode ∈ Asm.arithmeticOps) :
    ∃ i : ArithmeticInstr, ins.opcode = i.op.opcode ∧ ins.operands = i.operands := by
  obtain ⟨row, listed, prefixes, _, _, same, modrm, start, finish, read⟩ := Asm.decodeOne_row fits ran
  have opcode : ins.opcode = row.op := by rw [same]
  rw [opcode] at arithmetic ⊢
  have kind : ∃ op : ArithmeticOp, row.op = op.opcode := by
    simp only [Asm.arithmeticOps, List.mem_cons, List.not_mem_nil, or_false] at arithmetic
    rcases arithmetic with is | is | is | is
    · exact ⟨.mul, is⟩
    · exact ⟨.imul, is⟩
    · exact ⟨.div, is⟩
    · exact ⟨.idiv, is⟩
  obtain ⟨op, named⟩ := kind
  have found (element : Element) (upper lower : Reg) {source : Operand} {first last : Asm.RegionIter}
      (shape : ∀ known, (⟨op, element, source, known⟩ : ArithmeticInstr).operands = [.reg upper, .reg lower, source])
      (operand : Asm.operandRm (elementSize element) modrm prefixes.sreg first = (.ok source, last))
      (values : ins.operands = [.reg upper, .reg lower, source]) :
      ∃ i : ArithmeticInstr, row.op = i.op.opcode ∧ ins.operands = i.operands := by
    have known := isSource_operandRm element operand
    exact ⟨⟨op, element, source, known⟩, named, values.trans (shape known).symm⟩
  rcases Asm.arithmetic_rows row listed arithmetic with bytes | words
  · rw [bytes, named] at read
    cases op with
    | mul | imul =>
        obtain ⟨source, _, operand, values⟩ := decodeOperands_source rfl rfl rfl read
        exact found .byte .AX .AL (fun _ => rfl) operand values
    | div | idiv =>
        obtain ⟨source, _, operand, values⟩ := decodeOperands_source rfl rfl rfl read
        exact found .byte .AH .AL (fun _ => rfl) operand values
  · rw [words, named] at read
    cases op with
    | mul | imul | div | idiv =>
        obtain ⟨source, _, operand, values⟩ := decodeOperands_source rfl rfl rfl read
        exact found .word .DX .AX (fun _ => rfl) operand values

end Dis86.Build
