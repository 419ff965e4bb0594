import Dis86.Build.ArithmeticExact

namespace Dis86.Build
open Asm (Reg Operand OperandMem)
open Hydra (Hardware Element)
open Lib (Width reading product divide? extendTo quotient remainder)
open Ast (PureUnary PureBinary)

variable {M : Type} {hw : Hardware M} {dfClear pinAll : Bool} {entryFlags : WideValue} {s : WideVariables M}
  {regs : Reg → BitVec 16} {i : ArithmeticInstr} {ins : Asm.Instr}

section Products

variable (x y : BitVec 16) (a b : BitVec 8)

theorem umul_words : PureBinary.umul.value .dword .dword (x.setWidth 32) (y.setWidth 32) = product false x y := by
  rw [PureBinary.value, Width.wrap_dword, Lib.product_eq false x y (Nat.le_refl _)]
  exact (BitVec.setWidth_eq _).symm

theorem imul_words :
    PureBinary.imul.value .dword .dword (extendTo 32 true x) (extendTo 32 true y) = product true x y := by
  rw [PureBinary.value, Width.wrap_dword, Lib.product_eq true x y (Nat.le_refl _)]
  exact (BitVec.setWidth_eq _).symm

/-- A product of words is wrapped to a word. -/
theorem mul_word : Width.word.wrap (x.setWidth 32 * y.setWidth 32) = (x * y).setWidth 32 := by
  rw [Width.wrap, Width.low_mul, low_word, low_word]
  rfl

theorem umul_bytes : PureBinary.umul.value .word .word ((a.setWidth 16).setWidth 32) ((b.setWidth 16).setWidth 32) =
    (product false a b).setWidth 32 := by
  rw [PureBinary.value, mul_word, Lib.product_eq false a b (Nat.le_refl _)]
  exact congrArg (BitVec.setWidth 32) (BitVec.setWidth_eq _).symm

theorem imul_bytes : PureBinary.imul.value .word .word ((extendTo 16 true a).setWidth 32)
    ((extendTo 16 true b).setWidth 32) = (product true a b).setWidth 32 := by
  rw [PureBinary.value, mul_word, Lib.product_eq true a b (Nat.le_refl _)]
  exact congrArg (BitVec.setWidth 32) (BitVec.setWidth_eq _).symm

end Products

section Steps

/-- What follows an optional step is part of both branches. -/
theorem emission_ite {A B S : Type} {c : Prop} [Decidable c] {x y : Emission S A} {f : A → Emission S B} {s s' : S}
    {a : A} (first : (if c then x else y) s = some (a, s')) : (if c then x >>= f else y >>= f) s = f a s' := by
  rw [← emission_bind (f := f) first]
  split
  · rfl
  · rfl

theorem operand_run {oper : Operand} {idx : Nat} (encoded : ins.operands = i.operands)
    (at' : i.operands[idx]? = some oper) : Emitter.operand ins idx s = some (oper, s) := by
  have found : ins.operand? idx = some oper := by rw [Asm.Instr.operand?, encoded, at']
  rw [Emitter.operand, found]
  rfl

theorem computing_const {k : BitVec 16} :
    (computing hw dfClear pinAll entryFlags).constNew k s = some (⟨k.setWidth 32, true⟩, s) := rfl

/-- A word is split into words, and a word into bytes. -/
theorem computing_upperLower (v : WideValue) :
    (computing hw dfClear pinAll entryFlags).appendUpperLowerSplit v s =
      some ((⟨(v.val.extractLsb' 16 16).setWidth 32, false⟩, ⟨(v.val.setWidth 16).setWidth 32, false⟩), s) := by
  have upper : (computing hw dfClear pinAll entryFlags).append .u16 .upper16 [v] s = _ :=
    computing_append rfl (congrArg some (upper16_value .word .word v.val))
  have lower : (computing hw dfClear pinAll entryFlags).append .u16 .lower16 [v] s = _ :=
    computing_append rfl (congrArg some (lower16_value .word .word v.val))
  exact (emission_bind upper).trans (emission_bind lower)

theorem computing_byteSplit {v : WideValue} {x : BitVec 16} (value : v.val = x.setWidth 32) :
    (computing hw dfClear pinAll entryFlags).appendByteSplit v s =
      some ((⟨((x >>> 8) &&& 0xFF).setWidth 32, false⟩, ⟨(x &&& 0xFF).setWidth 32, false⟩), s) := by
  have shifted : (computing hw dfClear pinAll entryFlags).append .u16 .ushr
      [v, ⟨(8 : BitVec 16).setWidth 32, true⟩] s = _ :=
    computing_append rfl (congrArg some ((congrArg (PureBinary.ushr.value .word .word · _) value).trans (ushr_word x)))
  have upper : (computing hw dfClear pinAll entryFlags).append .u16 .and
      [⟨(x >>> 8).setWidth 32, false⟩, ⟨(0xFF : BitVec 16).setWidth 32, true⟩] s = _ :=
    computing_append rfl (congrArg some (and_word _ _))
  have lower : (computing hw dfClear pinAll entryFlags).append .u16 .and
      [v, ⟨(0xFF : BitVec 16).setWidth 32, true⟩] s = _ :=
    computing_append rfl (congrArg some ((congrArg (PureBinary.and.value .word .word · _) value).trans (and_word _ _)))
  refine (emission_bind computing_const).trans ?_
  refine (emission_bind computing_const).trans ?_
  refine (emission_bind shifted).trans ?_
  refine (emission_bind upper).trans ?_
  exact emission_bind lower

/-- A byte is a byte, whether it is masked or not. -/
theorem computing_toByte {v : WideValue} {x : BitVec 8} (value : v.val = (x.setWidth 16).setWidth 32) :
    ∃ w, (computing hw dfClear pinAll entryFlags).toByte WideValue.entry v s = some (w, s) ∧
      w.val = (x.setWidth 16).setWidth 32 := by
  cases entry : v.entry with
  | true => exact ⟨v, by rw [Emitter.toByte, entry]; rfl, value⟩
  | false =>
      have masked : (computing hw dfClear pinAll entryFlags).append .u16 .and
          [v, ⟨(0xFF : BitVec 16).setWidth 32, true⟩] s = _ :=
        computing_append rfl (congrArg some
          ((congrArg (PureBinary.and.value .word .word · _) value).trans (and_word _ _)))
      refine ⟨⟨(x.setWidth 16 &&& 0xFF).setWidth 32, false⟩, ?_, ?_⟩
      · rw [Emitter.toByte, entry]
        exact (emission_bind computing_const).trans masked
      · have whole : (x.setWidth 16).setWidth 8 = x := by simp
        rw [byte_word, whole]

theorem computing_signWord {v : WideValue} {x : BitVec 16} (value : v.val = x.setWidth 32) :
    (computing hw dfClear pinAll entryFlags).signWordToDword v s = some (⟨extendTo 32 true x, false⟩, s) :=
  computing_append rfl (congrArg some ((congrArg (PureUnary.signExtTo32.value .dword .dword) value).trans
    (signExtTo32_word _ _ x)))

theorem computing_signByte {v : WideValue} {x : BitVec 8} (value : v.val = (x.setWidth 16).setWidth 32) :
    (computing hw dfClear pinAll entryFlags).signByteToWord v s = some (⟨(extendTo 16 true x).setWidth 32, false⟩, s) :=
  computing_append rfl (congrArg some ((congrArg (PureUnary.signExtTo16.value .word .word) value).trans
    (signExtTo16_byte _ _ x)))

end Steps

section Products

theorem readRegister_AL (regs : Reg → BitVec 16) : readRegister regs .AL = ((regs .AX).setWidth 8).setWidth 16 :=
  byte_word (regs .AX)

theorem readRegister_AH (regs : Reg → BitVec 16) :
    readRegister regs .AH = ((regs .AX >>> 8).setWidth 8).setWidth 16 := by
  change regs .AX >>> 8 = _
  apply BitVec.eq_of_getLsbD_eq
  intro k bound
  simp
  grind

/-- A word is made of its bytes. -/
theorem bytes_word (x : BitVec 16) : ((x >>> 8).setWidth 8).setWidth 16 <<< 8 ||| (x.setWidth 8).setWidth 16 = x := by
  apply BitVec.eq_of_getLsbD_eq
  intro k bound
  simp
  grind

theorem operandIsWord_eq (isWord : i.element = .word) : operandIsWord i.source = true := by
  rw [operandIsWord_source, isWord]
  rfl

section Writes

variable (hw dfClear pinAll entryFlags)

/-- A product of words is written to two registers. -/
theorem writes_product (holds : s.Holds regs) (v : WideValue) :
    ∃ s', (do
      let (upper, lower) ← (computing hw dfClear pinAll entryFlags).appendUpperLowerSplit v
      (computing hw dfClear pinAll entryFlags).appendAsmDstOperand (.reg .DX) upper
      (computing hw dfClear pinAll entryFlags).appendAsmDstOperand (.reg .AX) lower
      (computing hw dfClear pinAll entryFlags).clearCarry) s = some ((), s') ∧
      s'.Holds (writeRegister (writeRegister regs .DX (v.val.extractLsb' 16 16)) .AX (v.val.setWidth 16)) := by
  have first : ∃ s', (computing hw dfClear pinAll entryFlags).appendAsmDstReg .DX
      ⟨(v.val.extractLsb' 16 16).setWidth 32, false⟩ s = some ((), s') ∧ _ ∧ _ := holds.write .DX rfl
  obtain ⟨s₁, wrote₁, holds₁, _⟩ := first
  have second : ∃ s', (computing hw dfClear pinAll entryFlags).appendAsmDstReg .AX
      ⟨(v.val.setWidth 16).setWidth 32, false⟩ s₁ = some ((), s') ∧ _ ∧ _ := holds₁.write .AX rfl
  obtain ⟨s₂, wrote₂, holds₂, _⟩ := second
  refine ⟨s₂, ?_, holds₂⟩
  refine (emission_bind (computing_upperLower v)).trans ?_
  refine (emission_bind wrote₁).trans ?_
  exact emission_bind wrote₂

/-- A product of bytes is written to one register. -/
theorem writes_word (holds : s.Holds regs) {v : WideValue} {x : BitVec 16} (value : v.val = x.setWidth 32) :
    ∃ s', (do
      (computing hw dfClear pinAll entryFlags).appendAsmDstOperand (.reg .AX) v
      (computing hw dfClear pinAll entryFlags).clearCarry) s = some ((), s') ∧
      s'.Holds (writeRegister regs .AX x) := by
  have first : ∃ s', (computing hw dfClear pinAll entryFlags).appendAsmDstReg .AX v s = some ((), s') ∧ _ ∧ _ :=
    holds.write .AX value
  obtain ⟨s', wrote, holds', _⟩ := first
  exact ⟨s', emission_bind wrote, holds'⟩

end Writes

theorem assertion_run {condition : Bool} (holds : condition = true) :
    Emitter.assertion condition s = some ((), s) := by
  rw [Emitter.assertion, if_pos holds]
  rfl

theorem computing_reg (reg : Reg) : (computing hw dfClear pinAll entryFlags).appendAsmSrcOperand (.reg reg) s =
    some (s.vars reg, s) := rfl

theorem operandIsWord_byte (isByte : i.element = .byte) : ¬ operandIsWord i.source = true := by
  rw [operandIsWord_source, isByte]
  decide

theorem upper_word (width : i.element = .word) : i.upper = .DX := by rw [ArithmeticInstr.upper, width]

theorem lower_word (width : i.element = .word) : i.lower = .AX := by rw [ArithmeticInstr.lower, width]

theorem lower_byte (width : i.element = .byte) : i.lower = .AL := by rw [ArithmeticInstr.lower, width]

theorem upper_byte (width : i.element = .byte) : i.upper = if i.op.divides then .AH else .AX := by
  rw [ArithmeticInstr.upper, width]
  cases i.op.divides with
  | true => rfl
  | false => rfl

/-- The operands of an instruction, and the value of the source. -/
structure Factors (hw : Hardware M) (dfClear pinAll : Bool) (entryFlags : WideValue) (s : WideVariables M)
    (i : ArithmeticInstr) (ins : Asm.Instr) (v : WideValue) (source : BitVec 16) : Prop where
  upper : Emitter.operand ins 0 s = some (.reg i.upper, s)
  lower : Emitter.operand ins 1 s = some (.reg i.lower, s)
  third : Emitter.operand ins 2 s = some (i.source, s)
  read : (computing hw dfClear pinAll entryFlags).appendAsmSrcOperand i.source s = some (v, s)
  value : v.val = source.setWidth 32

theorem exists_factors (holds : s.Holds regs) (encoded : ins.operands = i.operands) :
    ∃ v, Factors hw dfClear pinAll entryFlags s i ins v (i.sourceValue hw regs s.mem) := by
  have source : ∃ v, (computing hw dfClear pinAll entryFlags).appendAsmSrcOperand i.source s = some (v, s) ∧ _ :=
    computing_source holds i
  obtain ⟨v, read, value⟩ := source
  exact ⟨v, operand_run encoded rfl, operand_run encoded rfl, operand_run encoded rfl, read, value⟩

variable {v : WideValue} {source : BitVec 16}

theorem Factors.mul_word (factors : Factors hw dfClear pinAll entryFlags s i ins v source) (holds : s.Holds regs)
    (width : i.element = .word) : ∃ s', (computing hw dfClear pinAll entryFlags).lowerMul ins s = some ((), s') ∧
      s'.Holds (writeRegister (writeRegister regs .DX ((product false (regs .AX) source).extractLsb' 16 16)) .AX
        ((product false (regs .AX) source).setWidth 16)) := by
  obtain ⟨upper, lower, third, read, value⟩ := factors
  rw [upper_word width] at upper
  rw [lower_word width] at lower
  have product : (computing hw dfClear pinAll entryFlags).append .u32 .umul [s.vars .AX, v] s =
      some (⟨product false (regs .AX) source, false⟩, s) := by
    refine computing_append rfl (congrArg some ?_)
    simp only [holds .AX, value]
    exact umul_words (regs .AX) source
  obtain ⟨s', wrote, holds'⟩ := writes_product hw dfClear pinAll entryFlags holds
    ⟨Lib.product false (regs .AX) source, false⟩
  refine ⟨s', ?_, holds'⟩
  rw [Emitter.lowerMul]
  refine (emission_bind upper).trans ?_
  refine (emission_bind lower).trans ?_
  refine (emission_bind third).trans ?_
  rw [if_pos (operandIsWord_eq width)]
  refine (emission_bind (assertion_run (by decide))).trans ?_
  refine (emission_bind (computing_reg .AX)).trans ?_
  refine (emission_bind read).trans ?_
  exact (emission_bind product).trans wrote

theorem Factors.imul_word (factors : Factors hw dfClear pinAll entryFlags s i ins v source) (holds : s.Holds regs)
    (width : i.element = .word) : ∃ s', (computing hw dfClear pinAll entryFlags).lowerImul ins s = some ((), s') ∧
      s'.Holds (writeRegister (writeRegister regs .DX ((product true (regs .AX) source).extractLsb' 16 16)) .AX
        ((product true (regs .AX) source).setWidth 16)) := by
  obtain ⟨upper, lower, third, read, value⟩ := factors
  rw [upper_word width] at upper
  rw [lower_word width] at lower
  have product : (computing hw dfClear pinAll entryFlags).append .u32 .imul
      [⟨extendTo 32 true (regs .AX), false⟩, ⟨extendTo 32 true source, false⟩] s =
      some (⟨product true (regs .AX) source, false⟩, s) :=
    computing_append rfl (congrArg some (imul_words (regs .AX) source))
  obtain ⟨s', wrote, holds'⟩ := writes_product hw dfClear pinAll entryFlags holds
    ⟨Lib.product true (regs .AX) source, false⟩
  refine ⟨s', ?_, holds'⟩
  rw [Emitter.lowerImul]
  refine (emission_bind upper).trans ?_
  refine (emission_bind lower).trans ?_
  refine (emission_bind third).trans ?_
  rw [if_pos (operandIsWord_eq width)]
  refine (emission_bind (assertion_run (by decide))).trans ?_
  refine (emission_bind (computing_reg .AX)).trans ?_
  refine (emission_bind read).trans ?_
  refine (emission_bind (computing_signWord (holds .AX))).trans ?_
  refine (emission_bind (computing_signWord value)).trans ?_
  exact (emission_bind product).trans wrote

theorem Factors.mul_byte {b : BitVec 8} (factors : Factors hw dfClear pinAll entryFlags s i ins v (b.setWidth 16))
    (holds : s.Holds regs) (width : i.element = .byte) (mul : i.op = .mul) :
    ∃ s', (computing hw dfClear pinAll entryFlags).lowerMul ins s = some ((), s') ∧
      s'.Holds (writeRegister regs .AX (product false ((regs .AX).setWidth 8) b)) := by
  obtain ⟨upper, lower, third, read, value⟩ := factors
  rw [upper_byte width, mul] at upper
  rw [lower_byte width] at lower
  have product : (computing hw dfClear pinAll entryFlags).append .u16 .umul [s.vars .AL, v] s =
      some (⟨(product false ((regs .AX).setWidth 8) b).setWidth 32, false⟩, s) := by
    refine computing_append rfl (congrArg some ?_)
    simp only [holds .AL, value, readRegister_AL]
    exact umul_bytes _ b
  obtain ⟨s', wrote, holds'⟩ := writes_word hw dfClear pinAll entryFlags holds
    (rfl : (⟨(Lib.product false ((regs .AX).setWidth 8) b).setWidth 32, false⟩ : WideValue).val = _)
  refine ⟨s', ?_, holds'⟩
  rw [Emitter.lowerMul]
  refine (emission_bind upper).trans ?_
  refine (emission_bind lower).trans ?_
  refine (emission_bind third).trans ?_
  rw [if_neg (operandIsWord_byte width)]
  refine (emission_bind (assertion_run (by decide))).trans ?_
  refine (emission_bind (computing_reg .AL)).trans ?_
  refine (emission_bind read).trans ?_
  exact (emission_bind product).trans wrote

theorem Factors.imul_byte {b : BitVec 8} (factors : Factors hw dfClear pinAll entryFlags s i ins v (b.setWidth 16))
    (holds : s.Holds regs) (width : i.element = .byte) (mul : i.op = .imul) :
    ∃ s', (computing hw dfClear pinAll entryFlags).lowerImul ins s = some ((), s') ∧
      s'.Holds (writeRegister regs .AX (product true ((regs .AX).setWidth 8) b)) := by
  obtain ⟨upper, lower, third, read, value⟩ := factors
  rw [upper_byte width, mul] at upper
  rw [lower_byte width] at lower
  have product : (computing hw dfClear pinAll entryFlags).append .u16 .imul
      [⟨(extendTo 16 true ((regs .AX).setWidth 8)).setWidth 32, false⟩, ⟨(extendTo 16 true b).setWidth 32, false⟩] s =
      some (⟨(product true ((regs .AX).setWidth 8) b).setWidth 32, false⟩, s) :=
    computing_append rfl (congrArg some (imul_bytes _ b))
  have low := holds .AL
  rw [readRegister_AL] at low
  obtain ⟨s', wrote, holds'⟩ := writes_word hw dfClear pinAll entryFlags holds
    (rfl : (⟨(Lib.product true ((regs .AX).setWidth 8) b).setWidth 32, false⟩ : WideValue).val = _)
  refine ⟨s', ?_, holds'⟩
  rw [Emitter.lowerImul]
  refine (emission_bind upper).trans ?_
  refine (emission_bind lower).trans ?_
  refine (emission_bind third).trans ?_
  rw [if_neg (operandIsWord_byte width)]
  refine (emission_bind (assertion_run (by decide))).trans ?_
  refine (emission_bind (computing_reg .AL)).trans ?_
  refine (emission_bind read).trans ?_
  refine (emission_bind (computing_signByte low)).trans ?_
  refine (emission_bind (computing_signByte value)).trans ?_
  exact (emission_bind product).trans wrote

end Products

section Divisions

variable {v : WideValue} {source : BitVec 16} {signed : Bool}

theorem divide?_eq_some {w : Nat} {n : BitVec (w + w)} {d q r : BitVec w} (noError : divide? signed n d = some (q, r)) :
    d ≠ 0 ∧ q = (quotient signed n (extendTo (w + w) signed d)).setWidth w ∧
      r = (remainder signed n (extendTo (w + w) signed d)).setWidth w := by
  have wider : w ≤ w + w := Nat.le_add_right w w
  rw [divide?] at noError
  split at noError
  · rename_i fits
    obtain ⟨rfl, rfl⟩ := Prod.mk.inj (Option.some.inj noError)
    refine ⟨mt (Lib.reading_eq_zero_iff signed d).mpr fits.1, ?_, ?_⟩
    · rw [Lib.quotient_eq, Lib.setWidth_ofInt wider, Lib.reading_extendTo wider]
    · rw [Lib.remainder_eq, Lib.setWidth_ofInt wider, Lib.reading_extendTo wider]
  · cases noError

theorem computing_divisorWord (value : v.val = source.setWidth 32) :
    ∃ w : WideValue, (if signed then (computing hw dfClear pinAll entryFlags).signWordToDword v else pure v) s =
      some (w, s) ∧ w.val = extendTo 32 signed source := by
  cases signed with
  | true => exact ⟨_, computing_signWord value, rfl⟩
  | false => exact ⟨v, rfl, value⟩

theorem computing_divisorByte {b : BitVec 8} (value : v.val = (b.setWidth 16).setWidth 32) :
    ∃ w : WideValue, (if signed then (computing hw dfClear pinAll entryFlags).signByteToWord v else pure v) s =
      some (w, s) ∧ w.val = (extendTo 16 signed b).setWidth 32 := by
  cases signed with
  | true => exact ⟨_, computing_signByte value, rfl⟩
  | false => exact ⟨v, rfl, value⟩

/-- The variables hold the registers, but for the flags. -/
def WideVariables.HoldsGeneral (s : WideVariables M) (regs : Reg → BitVec 16) : Prop :=
  ∀ reg, reg ≠ .FLAGS → (s.vars reg).val = (readRegister regs reg).setWidth 32

theorem WideVariables.Holds.general (holds : s.Holds regs) : s.HoldsGeneral regs := fun reg _ => holds reg

theorem computing_clobberFlags (holds : s.Holds regs) :
    ∃ s', (computing hw dfClear pinAll entryFlags).clobberFlags s = some ((), s') ∧ s'.HoldsGeneral regs := by
  refine ⟨s.set .FLAGS entryFlags, rfl, fun reg other => ?_⟩
  exact (congrArg WideValue.val (Function.update_of_ne other ..)).trans (holds reg)

theorem Factors.div_word (factors : Factors hw dfClear pinAll entryFlags s i ins v source) (holds : s.Holds regs)
    (width : i.element = .word) {q r : BitVec 16}
    (noError : divide? signed (regs .DX ++ regs .AX) source = some (q, r)) :
    ∃ s', (computing hw dfClear pinAll entryFlags).lowerDiv WideValue.entry ins signed s = some ((), s') ∧
      s'.HoldsGeneral (writeRegister (writeRegister regs .AX q) .DX r) := by
  obtain ⟨upper, lower, third, read, value⟩ := factors
  rw [upper_word width] at upper
  rw [lower_word width] at lower
  obtain ⟨nonzero, rfl, rfl⟩ := divide?_eq_some noError
  have wide : extendTo 32 signed source ≠ 0 := by rwa [Ne, Lib.extendTo_eq_zero_iff (by decide)]
  obtain ⟨whole, rest⟩ := wideResult_dword signed (x := regs .DX ++ regs .AX) wide
  have divisor : ∃ w : WideValue,
      (if signed then (computing hw dfClear pinAll entryFlags).signWordToDword v else pure v) s = some (w, s) ∧
        w.val = extendTo 32 signed source := computing_divisorWord value
  obtain ⟨d, extended, divisorValue⟩ := divisor
  have dividend : (computing hw dfClear pinAll entryFlags).append .u32 .make32 [s.vars .DX, s.vars .AX] s =
      some (⟨regs .DX ++ regs .AX, false⟩, s) := by
    refine computing_append rfl (congrArg some ?_)
    simp only [holds .AX, holds .DX]
    exact make32_words .dword .dword (regs .DX) (regs .AX)
  have quotientRun : (computing hw dfClear pinAll entryFlags).append .u32 (if signed then .idiv else .udiv)
      [⟨regs .DX ++ regs .AX, false⟩, d] s =
      some (⟨quotient signed (regs .DX ++ regs .AX) (extendTo 32 signed source), false⟩, s) := by
    refine computing_append rfl ?_
    simp only [List.map_cons, List.map_nil, divisorValue]
    exact whole
  have first : ∃ s', (computing hw dfClear pinAll entryFlags).appendAsmDstReg .AX
      ⟨((quotient signed (regs .DX ++ regs .AX) (extendTo 32 signed source)).setWidth 16).setWidth 32, false⟩ s =
      some ((), s') ∧ _ ∧ _ := holds.write .AX rfl
  obtain ⟨s₁, wrote₁, holds₁, _⟩ := first
  have remainderRun : (computing hw dfClear pinAll entryFlags).append .u32 (if signed then .irem else .urem)
      [⟨regs .DX ++ regs .AX, false⟩, d] s₁ =
      some (⟨remainder signed (regs .DX ++ regs .AX) (extendTo 32 signed source), false⟩, s₁) := by
    refine computing_append rfl ?_
    simp only [List.map_cons, List.map_nil, divisorValue]
    exact rest
  have second : ∃ s', (computing hw dfClear pinAll entryFlags).appendAsmDstReg .DX
      ⟨((remainder signed (regs .DX ++ regs .AX) (extendTo 32 signed source)).setWidth 16).setWidth 32, false⟩ s₁ =
      some ((), s') ∧ _ ∧ _ := holds₁.write .DX rfl
  obtain ⟨s₂, wrote₂, holds₂, _⟩ := second
  have last : ∃ s', (computing hw dfClear pinAll entryFlags).clobberFlags s₂ = some ((), s') ∧ _ :=
    computing_clobberFlags holds₂
  obtain ⟨s', cleared, general⟩ := last
  refine ⟨s', ?_, general⟩
  rw [Emitter.lowerDiv]
  refine (emission_bind upper).trans ?_
  refine (emission_bind lower).trans ?_
  refine (emission_bind third).trans ?_
  refine (emission_bind (computing_reg .DX)).trans ?_
  refine (emission_bind (computing_reg .AX)).trans ?_
  refine (emission_bind read).trans ?_
  rw [if_pos (operandIsWord_eq width)]
  refine (emission_bind dividend).trans ?_
  refine (emission_ite extended).trans ?_
  refine (emission_bind quotientRun).trans ?_
  refine (emission_bind (computing_upperLower _)).trans ?_
  refine (emission_bind wrote₁).trans ?_
  refine (emission_bind remainderRun).trans ?_
  refine (emission_bind (computing_upperLower _)).trans ?_
  exact (emission_bind wrote₂).trans cleared

theorem Factors.div_byte {b : BitVec 8} (factors : Factors hw dfClear pinAll entryFlags s i ins v (b.setWidth 16))
    (holds : s.Holds regs) (width : i.element = .byte) (divides : i.op.divides = true) {q r : BitVec 8}
    (noError : divide? (w := 8) signed (regs .AX) b = some (q, r)) :
    ∃ s', (computing hw dfClear pinAll entryFlags).lowerDiv WideValue.entry ins signed s = some ((), s') ∧
      s'.HoldsGeneral (writeRegister (writeRegister regs .AL (q.setWidth 16)) .AH
        ((remainder signed (regs .AX) (extendTo 16 signed b) >>> 8) &&& 0xFF)) := by
  obtain ⟨upper, lower, third, read, value⟩ := factors
  rw [upper_byte width, divides] at upper
  rw [lower_byte width] at lower
  obtain ⟨nonzero, rfl, rfl⟩ := divide?_eq_some noError
  have wide : extendTo 16 signed b ≠ 0 := by rwa [Ne, Lib.extendTo_eq_zero_iff (by decide)]
  obtain ⟨whole, rest⟩ := wideResult_word signed (x := regs .AX) wide
  have high : (s.vars .AH).val = (((regs .AX >>> 8).setWidth 8).setWidth 16).setWidth 32 := by
    rw [holds .AH, readRegister_AH]
  have low : (s.vars .AL).val = (((regs .AX).setWidth 8).setWidth 16).setWidth 32 := by
    rw [holds .AL, readRegister_AL]
  have highRun : ∃ w,
      (computing hw dfClear pinAll entryFlags).toByte WideValue.entry (s.vars .AH) s = some (w, s) ∧ _ :=
    computing_toByte high
  have lowRun : ∃ w, (computing hw dfClear pinAll entryFlags).toByte WideValue.entry (s.vars .AL) s = some (w, s) ∧ _ :=
    computing_toByte low
  have byteRun : ∃ w, (computing hw dfClear pinAll entryFlags).toByte WideValue.entry v s = some (w, s) ∧ _ :=
    computing_toByte value
  obtain ⟨hi, maskedHigh, hiValue⟩ := highRun
  obtain ⟨lo, maskedLow, loValue⟩ := lowRun
  obtain ⟨narrow, maskedDivisor, narrowValue⟩ := byteRun
  have divisor : ∃ w : WideValue, (if signed then (computing hw dfClear pinAll entryFlags).signByteToWord narrow
      else pure narrow) s = some (w, s) ∧ w.val = (extendTo 16 signed b).setWidth 32 :=
    computing_divisorByte narrowValue
  obtain ⟨d, extended, divisorValue⟩ := divisor
  have shifted : (computing hw dfClear pinAll entryFlags).append .u16 .shl [hi, ⟨(8 : BitVec 16).setWidth 32, true⟩] s =
      some (⟨(((regs .AX >>> 8).setWidth 8).setWidth 16 <<< 8).setWidth 32, false⟩, s) :=
    computing_append rfl (congrArg some ((congrArg (PureBinary.shl.value .word .word · _) hiValue).trans (shl_word _)))
  have dividend : (computing hw dfClear pinAll entryFlags).append .u16 .or
      [⟨(((regs .AX >>> 8).setWidth 8).setWidth 16 <<< 8).setWidth 32, false⟩, lo] s =
      some (⟨(regs .AX).setWidth 32, false⟩, s) := by
    refine computing_append rfl (congrArg some ?_)
    refine (congrArg (PureBinary.or.value .word .word _) loValue).trans ?_
    rw [or_word, bytes_word]
  have quotientRun : (computing hw dfClear pinAll entryFlags).append .u16 (if signed then .idiv else .udiv)
      [⟨(regs .AX).setWidth 32, false⟩, d] s =
      some (⟨(quotient signed (regs .AX) (extendTo 16 signed b)).setWidth 32, false⟩, s) := by
    refine computing_append rfl ?_
    simp only [List.map_cons, List.map_nil, divisorValue]
    exact whole
  have first : ∃ s', (computing hw dfClear pinAll entryFlags).appendAsmDstReg .AL
      ⟨(quotient signed (regs .AX) (extendTo 16 signed b) &&& 0xFF).setWidth 32, false⟩ s =
      some ((), s') ∧ _ ∧ _ := holds.write .AL rfl
  obtain ⟨s₁, wrote₁, holds₁, _⟩ := first
  have remainderRun : (computing hw dfClear pinAll entryFlags).append .u16 (if signed then .irem else .urem)
      [⟨(regs .AX).setWidth 32, false⟩, d] s₁ =
      some (⟨(remainder signed (regs .AX) (extendTo 16 signed b)).setWidth 32, false⟩, s₁) := by
    refine computing_append rfl ?_
    simp only [List.map_cons, List.map_nil, divisorValue]
    exact rest
  have second : ∃ s', (computing hw dfClear pinAll entryFlags).appendAsmDstReg .AH
      ⟨((remainder signed (regs .AX) (extendTo 16 signed b) >>> 8) &&& 0xFF).setWidth 32, false⟩ s₁ =
      some ((), s') ∧ _ ∧ _ := holds₁.write .AH rfl
  obtain ⟨s₂, wrote₂, holds₂, _⟩ := second
  have last : ∃ s', (computing hw dfClear pinAll entryFlags).clobberFlags s₂ = some ((), s') ∧ _ :=
    computing_clobberFlags holds₂
  obtain ⟨s', cleared, general⟩ := last
  rw [byte_word] at general
  refine ⟨s', ?_, general⟩
  rw [Emitter.lowerDiv]
  refine (emission_bind upper).trans ?_
  refine (emission_bind lower).trans ?_
  refine (emission_bind third).trans ?_
  refine (emission_bind (computing_reg .AH)).trans ?_
  refine (emission_bind (computing_reg .AL)).trans ?_
  refine (emission_bind read).trans ?_
  rw [if_neg (operandIsWord_byte width)]
  refine (emission_bind maskedHigh).trans ?_
  refine (emission_bind maskedLow).trans ?_
  refine (emission_bind computing_const).trans ?_
  refine (emission_bind shifted).trans ?_
  refine (emission_bind dividend).trans ?_
  refine (emission_bind maskedDivisor).trans ?_
  refine (emission_ite extended).trans ?_
  refine (emission_bind quotientRun).trans ?_
  refine (emission_bind (computing_byteSplit rfl)).trans ?_
  refine (emission_bind wrote₁).trans ?_
  refine (emission_bind remainderRun).trans ?_
  refine (emission_bind (computing_byteSplit rfl)).trans ?_
  exact (emission_bind wrote₂).trans cleared

end Divisions

section Remainders

theorem tmod_zero_or_neg_one_iff {n d : Int} :
    n.tmod d = 0 ∨ n.tmod d = -1 ↔ d ∣ n ∨ n < 0 ∧ d ∣ n + 1 := by
  have whole := Int.mul_tdiv_add_tmod n d
  constructor
  · intro rest
    rcases rest with none | one
    · exact .inl (Int.dvd_of_tmod_eq_zero none)
    · refine .inr ⟨?_, n.tdiv d, by omega⟩
      by_contra nonneg
      have := Int.tmod_nonneg d (Int.not_lt.mp nonneg)
      omega
  · intro divides
    rcases divides with exact' | ⟨negative, near⟩
    · exact .inl (Int.tmod_eq_zero_of_dvd exact')
    · have size : (n.tmod d).natAbs = n.natAbs % d.natAbs := Int.natAbs_tmod n d
      obtain ⟨k, multiple⟩ := Int.natAbs_dvd_natAbs.mpr near
      have above : n.natAbs = d.natAbs * k + 1 := by omega
      rw [above, Nat.mul_add_mod] at size
      have small : (n.tmod d).natAbs ≤ 1 := size ▸ Nat.mod_le 1 _
      have sign : n.tmod d ≤ 0 := by
        have opposite := Int.tmod_nonneg d (show 0 ≤ -n by omega)
        rw [Int.neg_tmod] at opposite
        omega
      omega

theorem reading_byte (signed : Bool) (b : BitVec 8) :
    if signed then (reading signed b).natAbs ≤ 128 else (reading signed b).natAbs ≤ 255 := by
  cases signed with
  | true =>
      have low := BitVec.le_toInt b
      have high := BitVec.toInt_lt (x := b)
      change b.toInt.natAbs ≤ 128
      omega
  | false =>
      have small := b.isLt
      change (b.toNat : Int).natAbs ≤ 255
      omega

/-- The upper byte of a small word is its lower one for two numbers only. -/
theorem upper_eq_lower_iff (signed : Bool) {rest : Int}
    (small : if signed then -128 ≤ rest ∧ rest < 128 else 0 ≤ rest ∧ rest < 256) :
    (BitVec.ofInt 16 rest >>> 8) &&& 0xFF = ((BitVec.ofInt 16 rest).setWidth 8).setWidth 16 ↔
      rest = 0 ∨ signed = true ∧ rest = -1 := by
  have number : (BitVec.ofInt 16 rest).toNat = (rest % 65536).toNat := by
    rw [BitVec.toNat_ofInt]
    rfl
  rw [byte_word, ← BitVec.toNat_inj]
  simp only [BitVec.toNat_setWidth, BitVec.toNat_ushiftRight, number, Nat.shiftRight_eq_div_pow]
  by_cases nonneg : 0 ≤ rest
  · have same : (rest % 65536).toNat = rest.toNat ∧ rest.toNat < 256 := by
      cases signed with
      | true =>
          simp only [if_true] at small
          omega
      | false =>
          simp only [Bool.false_eq_true, if_false] at small
          omega
    rw [same.1, Nat.div_eq_of_lt same.2]
    omega
  · have isSigned : signed = true := by
      by_contra unsigned
      rw [if_neg unsigned] at small
      omega
    rw [if_pos isSigned] at small
    have upper : (rest % 65536).toNat / 2 ^ 8 = 255 := by omega
    have lower : (rest % 65536).toNat % 2 ^ 8 = (rest + 256).toNat := by omega
    rw [upper, lower]
    simp only [isSigned, true_and]
    omega

theorem readRegister_write_AH (regs : Reg → BitVec 16) (v : BitVec 16) :
    readRegister (writeRegister regs .AH v) .AH = v &&& 0xFF := by
  change ((v &&& 0xFF) <<< 8 ||| regs .AX &&& 0xFF) >>> 8 = v &&& 0xFF
  apply BitVec.eq_of_getLsbD_eq
  intro k bound
  simp [getLsbD_byteMask]
  grind

/-- A byte division leaves the remainder where its upper byte is the same. -/
theorem remainder_splits_iff {signed : Bool} {n : BitVec 16} {b : BitVec 8} (nonzero : b ≠ 0) :
    (remainder signed n (extendTo 16 signed b) >>> 8) &&& 0xFF =
        ((remainder signed n (extendTo 16 signed b)).setWidth 8).setWidth 16 ↔
      reading signed b ∣ reading signed n ∨
        signed = true ∧ reading signed n < 0 ∧ reading signed b ∣ reading signed n + 1 := by
  have divisor : reading signed b ≠ 0 := mt (Lib.reading_eq_zero_iff signed b).mp nonzero
  have size : ((reading signed n).tmod (reading signed b)).natAbs < (reading signed b).natAbs := by
    rw [Int.natAbs_tmod]
    exact Nat.mod_lt _ (Int.natAbs_pos.mpr divisor)
  have bounds := reading_byte signed b
  have rests := tmod_zero_or_neg_one_iff (n := reading signed n) (d := reading signed b)
  rw [Lib.remainder_eq, Lib.reading_extendTo (by decide)]
  cases signed with
  | true =>
      simp only [if_true] at bounds
      rw [upper_eq_lower_iff true (by simp only [if_true]; omega)]
      simpa using rests
  | false =>
      have nonneg := Int.tmod_nonneg (reading false b) (show 0 ≤ reading false n from Int.natCast_nonneg _)
      simp only [Bool.false_eq_true, if_false] at bounds
      rw [upper_eq_lower_iff false (by simp only [Bool.false_eq_true, if_false]; omega),
        Int.dvd_iff_tmod_eq_zero]
      simp

end Remainders

section Exact

/-- The instructions whose results come out right. In a byte division the divisor goes into the dividend, or into the
number above a negative one. -/
def ArithmeticInstr.Exact (i : ArithmeticInstr) (regs : Reg → BitVec 16) (source : BitVec 16) : Prop :=
  i.op.divides = true → i.element = .byte →
    reading i.op.signed (source.setWidth 8) ∣ reading i.op.signed (regs .AX) ∨
      i.op.signed = true ∧ reading i.op.signed (regs .AX) < 0 ∧
        reading i.op.signed (source.setWidth 8) ∣ reading i.op.signed (regs .AX) + 1

/-- The lowered instruction leaves the registers of the processor. -/
def ArithmeticInstr.Lowers (hw : Hardware M) (dfClear pinAll : Bool) (entryFlags : WideValue) (s : WideVariables M)
    (ins : Asm.Instr) (regs' : Reg → BitVec 16) : Prop :=
  ∃ s', (computing hw dfClear pinAll entryFlags).lowerArithmetic WideValue.entry ins s = some ((), s') ∧
    s'.HoldsGeneral regs'

variable {regs' : Reg → BitVec 16} {s' : WideVariables M} {v : WideValue} {source : BitVec 16}

/-- The lowering has one outcome. -/
theorem lowers_iff
    (ran : (computing hw dfClear pinAll entryFlags).lowerArithmetic WideValue.entry ins s = some ((), s')) :
    ArithmeticInstr.Lowers hw dfClear pinAll entryFlags s ins regs' ↔ s'.HoldsGeneral regs' := by
  constructor
  · intro lowers
    obtain ⟨other, ran', general⟩ := lowers
    obtain ⟨_, rfl⟩ := Prod.mk.inj (Option.some.inj (ran.symm.trans ran'))
    exact general
  · exact fun general => ⟨s', ran, general⟩

theorem Factors.product (factors : Factors hw dfClear pinAll entryFlags s i ins v source) (holds : s.Holds regs)
    (named : ins.opcode = i.op.opcode) (isByte : i.element = .byte → source = (source.setWidth 8).setWidth 16)
    (product : i.op.divides = false) (result : i.result regs source = some regs') :
    ArithmeticInstr.Lowers hw dfClear pinAll entryFlags s ins regs' := by
  rw [ArithmeticInstr.Lowers, Emitter.lowerArithmetic, named]
  rw [ArithmeticInstr.result, product] at result
  cases width : i.element with
  | word =>
      rw [width] at result
      obtain rfl := Option.some.inj result
      cases op : i.op with
      | mul =>
          obtain ⟨s', ran, holds'⟩ := factors.mul_word holds width
          exact ⟨s', ran, holds'.general⟩
      | imul =>
          obtain ⟨s', ran, holds'⟩ := factors.imul_word holds width
          exact ⟨s', ran, holds'.general⟩
      | div | idiv =>
          rw [op] at product
          cases product
  | byte =>
      rw [width] at result
      obtain rfl := Option.some.inj result
      rw [isByte width] at factors
      cases op : i.op with
      | mul =>
          obtain ⟨s', ran, holds'⟩ := factors.mul_byte holds width op
          exact ⟨s', ran, holds'.general⟩
      | imul =>
          obtain ⟨s', ran, holds'⟩ := factors.imul_byte holds width op
          exact ⟨s', ran, holds'.general⟩
      | div | idiv =>
          rw [op] at product
          cases product

theorem lowerArithmetic_div (named : ins.opcode = i.op.opcode) (divides : i.op.divides = true) :
    (computing hw dfClear pinAll entryFlags).lowerArithmetic WideValue.entry ins =
      (computing hw dfClear pinAll entryFlags).lowerDiv WideValue.entry ins i.op.signed := by
  rw [Emitter.lowerArithmetic, named]
  cases op : i.op with
  | div | idiv => rfl
  | mul | imul =>
      rw [op] at divides
      cases divides

theorem Factors.quotient_word (factors : Factors hw dfClear pinAll entryFlags s i ins v source) (holds : s.Holds regs)
    (named : ins.opcode = i.op.opcode) (divides : i.op.divides = true) (width : i.element = .word)
    (result : i.result regs source = some regs') : ArithmeticInstr.Lowers hw dfClear pinAll entryFlags s ins regs' := by
  rw [ArithmeticInstr.result, divides, width] at result
  obtain ⟨⟨q, r⟩, noError, rfl⟩ := Option.map_eq_some_iff.mp result
  obtain ⟨s', ran, general⟩ := factors.div_word holds width noError
  rw [ArithmeticInstr.Lowers, lowerArithmetic_div named divides]
  exact ⟨s', ran, general⟩

/-- The upper byte is the one that has been written. -/
theorem holdsGeneral_AH {u w : BitVec 8} (general : s'.HoldsGeneral (writeRegister regs .AH (u.setWidth 16))) :
    s'.HoldsGeneral (writeRegister regs .AH (w.setWidth 16)) ↔ u = w := by
  constructor
  · intro general'
    have written := general .AH (by decide)
    have claimed := general' .AH (by decide)
    rw [readRegister_write_AH, byte_word] at written claimed
    have same := congrArg (BitVec.setWidth 8) (written.symm.trans claimed)
    simpa using same
  · exact fun same => same ▸ general

theorem Factors.quotient_byte (factors : Factors hw dfClear pinAll entryFlags s i ins v source) (holds : s.Holds regs)
    (named : ins.opcode = i.op.opcode) (divides : i.op.divides = true) (width : i.element = .byte)
    (isByte : source = (source.setWidth 8).setWidth 16) (result : i.result regs source = some regs') :
    ArithmeticInstr.Lowers hw dfClear pinAll entryFlags s ins regs' ↔
      reading i.op.signed (source.setWidth 8) ∣ reading i.op.signed (regs .AX) ∨
        i.op.signed = true ∧ reading i.op.signed (regs .AX) < 0 ∧
          reading i.op.signed (source.setWidth 8) ∣ reading i.op.signed (regs .AX) + 1 := by
  rw [ArithmeticInstr.result, divides, width] at result
  obtain ⟨⟨q, r⟩, noError, rfl⟩ := Option.map_eq_some_iff.mp result
  rw [isByte] at factors
  obtain ⟨s', ran, general⟩ := factors.div_byte holds width divides noError
  rw [← lowerArithmetic_div named divides] at ran
  obtain ⟨nonzero, _, rfl⟩ := divide?_eq_some noError
  rw [byte_word] at general
  rw [lowers_iff ran, ← remainder_splits_iff nonzero, byte_word, holdsGeneral_AH general]
  constructor
  · exact congrArg (BitVec.setWidth 16)
  · intro same
    simpa using congrArg (BitVec.setWidth 8) same

/-- The lowered multiplications and divisions leave what the processor does, but for the byte divisions that leave the
upper byte of their remainder. -/
theorem lowerArithmetic_exact_iff (named : ins.opcode = i.op.opcode) (encoded : ins.operands = i.operands)
    (holds : s.Holds regs) (noError : i.result regs (i.sourceValue hw regs s.mem) = some regs') :
    ArithmeticInstr.Lowers hw dfClear pinAll entryFlags s ins regs' ↔ i.Exact regs (i.sourceValue hw regs s.mem) := by
  have factors : ∃ v, Factors hw dfClear pinAll entryFlags s i ins v (i.sourceValue hw regs s.mem) :=
    exists_factors holds encoded
  obtain ⟨v, factors⟩ := factors
  rw [ArithmeticInstr.Exact]
  cases divides : i.op.divides with
  | false =>
      have lowers := factors.product holds named (fun width => sourceValue_byte width hw s.mem) divides noError
      exact ⟨fun _ => nofun, fun _ => lowers⟩
  | true =>
      cases width : i.element with
      | word =>
          have lowers := factors.quotient_word holds named divides width noError
          exact ⟨fun _ _ => nofun, fun _ => lowers⟩
      | byte =>
          rw [factors.quotient_byte holds named divides width (sourceValue_byte width hw s.mem) noError]
          exact ⟨fun holds _ _ => holds, fun holds => holds rfl rfl⟩

/-- BL is 2 and AX is 7, with the variables that hold them. -/
def sevenByTwo : Reg → BitVec 16 := Function.update (Function.update (fun _ => 0) .AX 7) .BX 2

def sevenByTwoVariables : WideVariables Unit := ⟨fun reg => ⟨(readRegister sevenByTwo reg).setWidth 32, true⟩, ()⟩

/-- A machine without memory. -/
def noMemory : Hardware Unit where
  memRead8 _ _ := 0
  memRead16 _ _ := 0
  memWrite8 _ _ _ := ()
  memWrite16 _ _ _ := ()

def multiplyBL : ArithmeticInstr := ⟨.mul, .byte, .reg .BL, by decide⟩

def divideBL : ArithmeticInstr := ⟨.div, .byte, .reg .BL, by decide⟩

def ArithmeticInstr.encoded (i : ArithmeticInstr) : Asm.Instr where
  rep := none
  opcode := i.op.opcode
  operands := i.operands
  addr := ⟨.normal 0, 0⟩
  nBytes := 2
  intelHiddenOperandBitmask := 0

theorem seven_times_two_lowers :
    ArithmeticInstr.Lowers noMemory true false ⟨0, true⟩ sevenByTwoVariables multiplyBL.encoded
      (writeRegister sevenByTwo .AX (product false (7 : BitVec 8) 2)) :=
  (lowerArithmetic_exact_iff (i := multiplyBL) rfl rfl (fun _ => rfl) rfl).mpr nofun

/-- Seven divided by two leaves no remainder in AH. -/
theorem remainder_of_seven_is_lost : ¬ ∀ (i : ArithmeticInstr) (regs' : Reg → BitVec 16),
    i.result sevenByTwo (i.sourceValue noMemory sevenByTwo ()) = some regs' →
      ArithmeticInstr.Lowers noMemory true false ⟨0, true⟩ sevenByTwoVariables i.encoded regs' := by
  intro claimed
  have lowers := claimed divideBL _ rfl
  have general := (lowers_iff rfl).mp lowers
  have high := general .AH (by decide)
  revert high
  decide

end Exact

end Dis86.Build
