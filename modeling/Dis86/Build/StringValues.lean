import Dis86.Build.Execution
import Dis86.Hydra.StringMacros
import Dis86.Build.Emitter

namespace Dis86.Build
open Asm (Reg Operand OperandMem)

def stringOperandSize : Operand → BitVec 16
  | .mem mem => match mem.sz with
      | .size8 => 1
      | .size16 => 2
      | .size32 => 4
  | _ => 1

/-- The segment register of a string operand, or the one that the instruction implies. -/
def stringOperandSeg : Operand → Reg → Reg
  | .mem mem, _ => mem.sreg
  | _, fallback => fallback

namespace Emitter

variable {S V : Type} (e : Emitter S V)

/-- A counted operation moves a pointer by the count times the size. -/
def advancePointer (reg : Reg) (ptr count size : V) : Emission S Unit := do
  let off ← e.append .u16 .umul [count, size]
  let moved ← e.append .u16 .add [ptr, off]
  e.appendAsmDstReg reg moved

def lowerRepMovs (ins : Asm.Instr) (cx zero : V) : Emission S Unit := do
  let dst ← operand ins 0
  let src ← operand ins 1
  let size := stringOperandSize dst
  let ds ← e.getVar (stringOperandSeg src .DS)
  let es ← e.getVar (stringOperandSeg dst .ES)
  let si ← e.getVar .SI
  let di ← e.getVar .DI
  let sizeC ← e.constNew size
  let _ ← e.append .void .repMovs [ds, si, es, di, cx, sizeC]
  let off ← e.append .u16 .umul [cx, sizeC]
  let siN ← e.append .u16 .add [si, off]
  let diN ← e.append .u16 .add [di, off]
  e.appendAsmDstReg .SI siN
  e.appendAsmDstReg .DI diN
  e.appendAsmDstReg .CX zero

def lowerRepStos (ins : Asm.Instr) (cx zero : V) : Emission S Unit := do
  let dst ← operand ins 0
  let size := stringOperandSize dst
  let es ← e.getVar (stringOperandSeg dst .ES)
  let di ← e.getVar .DI
  let val ← e.appendAsmSrcOperand (← operand ins 1)
  let sizeC ← e.constNew size
  let _ ← e.append .void .repStos [es, di, cx, val, sizeC]
  e.advancePointer .DI di cx sizeC
  e.appendAsmDstReg .CX zero

/-- The value of the instruction is the accumulator at the end. -/
def lowerRepLods (ins : Asm.Instr) (cx zero : V) : Emission S Unit := do
  let dst ← operand ins 0
  let src ← operand ins 1
  let size := stringOperandSize src
  let typ : Typ := if size = 2 then .u16 else .u8
  let ds ← e.getVar (stringOperandSeg src .DS)
  let si ← e.getVar .SI
  let cur ← e.appendAsmSrcOperand dst
  let val ← e.append typ .repLods [ds, si, cx, cur]
  e.appendAsmDstOperand dst val
  let sizeC ← e.constNew size
  e.advancePointer .SI si cx sizeC
  e.appendAsmDstReg .CX zero

def lowerRepIns (ins : Asm.Instr) (cx zero : V) : Emission S Unit := do
  let dst ← operand ins 0
  let size := stringOperandSize dst
  let es ← e.getVar (stringOperandSeg dst .ES)
  let di ← e.getVar .DI
  let port ← e.appendAsmSrcOperand (← operand ins 1)
  let sizeC ← e.constNew size
  let _ ← e.append .void .repIns [es, di, cx, port, sizeC]
  e.advancePointer .DI di cx sizeC
  e.appendAsmDstReg .CX zero

def lowerRepOuts (ins : Asm.Instr) (cx zero : V) : Emission S Unit := do
  let src ← operand ins 1
  let size := stringOperandSize src
  let ds ← e.getVar (stringOperandSeg src .DS)
  let si ← e.getVar .SI
  let port ← e.appendAsmSrcOperand (← operand ins 0)
  let sizeC ← e.constNew size
  let _ ← e.append .void .repOuts [ds, si, cx, port, sizeC]
  e.advancePointer .SI si cx sizeC
  e.appendAsmDstReg .CX zero

/-- The kind of repetition, as the operand of a comparing operation. -/
def repCond (ins : Asm.Instr) : BitVec 16 :=
  match ins.rep with
  | some .ne => 1
  | _ => 0

/-- The value of the instruction is the count that remains, and the flags become unknown. -/
def lowerRepCmps (ins : Asm.Instr) (cx : V) : Emission S Unit := do
  let condC ← e.constNew (repCond ins)
  let dst ← operand ins 0
  let sizeC ← e.constNew (stringOperandSize dst)
  let src ← operand ins 1
  let ds ← e.getVar (stringOperandSeg src .DS)
  let si ← e.getVar .SI
  let es ← e.getVar (stringOperandSeg dst .ES)
  let di ← e.getVar .DI
  let ret ← e.append .u16 .repCmps [ds, si, es, di, cx, sizeC, condC]
  let iterated ← e.append .u16 .sub [cx, ret]
  let off ← e.append .u16 .umul [iterated, sizeC]
  let si ← e.getVar .SI
  let siN ← e.append .u16 .add [si, off]
  e.appendAsmDstReg .SI siN
  let di ← e.getVar .DI
  let diN ← e.append .u16 .add [di, off]
  e.appendAsmDstReg .DI diN
  e.appendAsmDstReg .CX ret
  e.clobberFlags

def lowerRepScas (ins : Asm.Instr) (cx : V) : Emission S Unit := do
  let condC ← e.constNew (repCond ins)
  let dst ← operand ins 1
  let sizeC ← e.constNew (stringOperandSize dst)
  let es ← e.getVar (stringOperandSeg dst .ES)
  let di ← e.getVar .DI
  let val ← e.appendAsmSrcOperand (← operand ins 0)
  let ret ← e.append .u16 .repScas [es, di, cx, val, sizeC, condC]
  let iterated ← e.append .u16 .sub [cx, ret]
  let off ← e.append .u16 .umul [iterated, sizeC]
  let di ← e.getVar .DI
  let diN ← e.append .u16 .add [di, off]
  e.appendAsmDstReg .DI diN
  e.appendAsmDstReg .CX ret
  e.clobberFlags

def lowerRepStringOp (ins : Asm.Instr) : Emission S Unit := do
  let cx ← e.getVar .CX
  let zero ← e.constNew 0
  match ins.opcode with
  | .MOVS => e.lowerRepMovs ins cx zero
  | .STOS => e.lowerRepStos ins cx zero
  | .LODS => e.lowerRepLods ins cx zero
  | .INS => e.lowerRepIns ins cx zero
  | .OUTS => e.lowerRepOuts ins cx zero
  | .CMPS => e.lowerRepCmps ins cx
  | .SCAS => e.lowerRepScas ins cx
  | _ => failure

/-- The operand that has the size of the elements. -/
def sizeOperand (ins : Asm.Instr) : Emission S Operand :=
  match ins.opcode with
  | .LODS | .SCAS | .OUTS => operand ins 1
  | _ => operand ins 0

def isRepModelled : Asm.Opcode → Bool
  | .MOVS | .STOS | .LODS | .CMPS | .SCAS | .INS | .OUTS => true
  | _ => false

def isByteOrWord : Operand → Bool
  | .mem mem => mem.sz = .size8 || mem.sz = .size16
  | _ => false

/-- The lowering of an instruction with a repeat prefix. When the direction may be set, or the
operation is another one, it stays loud. -/
def appendRepInstr (ins : Asm.Instr) : Emission S Unit := do
  let modeled := isRepModelled ins.opcode && isByteOrWord (← sizeOperand ins)
  if !modeled || !(← e.dfClear) then
    let vref ← e.append .u16 .unimpl []
    e.appendUpdateFlags vref
  else e.lowerRepStringOp ins

end Emitter

open Hydra (Hardware Arg)

variable {M : Type}

/-- A value of the lowering, with the text that the emitted code has for it. A value that is used
once is spliced into its use, so its text is evaluated there. -/
structure Value (M : Type) where
  val : BitVec 16
  text : Arg M

/-- The text of a constant, of a register and of a temporary does not depend on the memory. -/
def Value.known (val : BitVec 16) : Value M := ⟨val, fun _ => val⟩

@[simp] theorem Value.known_val (val : BitVec 16) : (known val : Value M).val = val := rfl

@[simp] theorem Value.known_text (val : BitVec 16) (m : M) : (known val : Value M).text m = val := rfl

/-- The values of the register variables in the current block, and the memory. -/
structure Variables (M : Type) where
  vars : Reg → Value M
  mem : M

namespace Variables

def set (s : Variables M) (reg : Reg) (v : Value M) : Variables M :=
  { s with vars := Function.update s.vars reg v }

@[simp] theorem set_mem (s : Variables M) (reg : Reg) (v : Value M) : (s.set reg v).mem = s.mem := rfl

@[simp] theorem set_self (s : Variables M) (reg : Reg) (v : Value M) : (s.set reg v).vars reg = v := by
  simp [set]

theorem set_of_ne {s : Variables M} {reg other : Reg} (v : Value M) (apart : other ≠ reg) :
    (s.set reg v).vars other = s.vars other := by
  simp [set, apart]

end Variables

section
variable (hw : Hardware M)

/-- The macro for a size operand. -/
def bySize {A : Type} (size : Value M) (byteMacro wordMacro : A) : A :=
  if size.val = 2 then wordMacro else byteMacro

/-- The macro for a condition operand. -/
def byCond {A : Type} (cond : Value M) (repe repne : A) : A := if cond.val = 0 then repe else repne

/-- An instruction computes with words. A bulk operation runs its macro, which has the texts of
the operands as arguments. Ports are not there, and what is not modelled stops the emitted code. -/
def evaluate (typ : Typ) (opcode : Opcode) (operands : List (Value M)) (m : M) :
    Option (Value M × M) :=
  match opcode, operands with
  | .ref, [a] => some (.known a.val, m)
  | .add, [a, b] => some (.known (a.val + b.val), m)
  | .sub, [a, b] => some (.known (a.val - b.val), m)
  | .umul, [a, b] => some (.known (a.val * b.val), m)
  | .and, [a, b] => some (.known (a.val &&& b.val), m)
  | .or, [a, b] => some (.known (a.val ||| b.val), m)
  | .shl, [a, b] => some (.known (a.val <<< b.val.toNat), m)
  | .ushr, [a, b] => some (.known (a.val >>> b.val.toNat), m)
  | .repMovs, [ds, si, es, di, cx, size] =>
      let run := bySize size (Hydra.repMovsb hw) (Hydra.repMovsw hw)
      some (.known 0, run ds.text si.text es.text di.text cx.text m)
  | .repStos, [es, di, cx, val, size] =>
      let run := bySize size (Hydra.repStosb hw) (Hydra.repStosw hw)
      some (.known 0, run es.text di.text cx.text val.text m)
  | .repLods, [ds, si, cx, cur] =>
      let run := if typ = .u16 ∨ typ = .i16 then Hydra.repLodsw hw else Hydra.repLodsb hw
      some (.known (run ds.text si.text cx.text cur.text m), m)
  | .repCmps, [ds, si, es, di, cx, size, cond] =>
      let run := byCond cond (bySize size (Hydra.repeCmpsb hw) (Hydra.repeCmpsw hw))
        (bySize size (Hydra.repneCmpsb hw) (Hydra.repneCmpsw hw))
      some (.known (run ds.text si.text es.text di.text cx.text m), m)
  | .repScas, [es, di, cx, val, size, cond] =>
      let run := byCond cond (bySize size (Hydra.repeScasb hw) (Hydra.repeScasw hw))
        (bySize size (Hydra.repneScasb hw) (Hydra.repneScasw hw))
      some (.known (run es.text di.text cx.text val.text m), m)
  | _, _ => none

/-- The width of an access that the machine has. -/
def accessElement : Asm.Size → Option Hydra.Element
  | .size8 => some .byte
  | .size16 => some .word
  | .size32 => none

/-- The offset that a memory operand adds up. -/
def effectiveOffset (vars : Reg → Value M) (mem : OperandMem) : BitVec 16 :=
  ((mem.reg2.toList ++ mem.reg1.toList).map fun reg => (vars reg).val).sum + mem.off.getD 0

/-- The emitter that runs the lowered code on a machine. -/
def running (dfClear pinAll : Bool) (entryFlags : BitVec 16) : Emitter (Variables M) (Value M) where
  getVar reg := fun s => some (s.vars reg, s)
  setVar reg v := fun s => some ((), s.set reg v)
  constNew k := fun s => some (.known k, s)
  appendInstr typ _ opcode operands := fun s =>
    (evaluate hw typ opcode operands s.mem).map fun result => (result.1, { s with mem := result.2 })
  appendAsmSrcMem mem := fun s => (accessElement mem.sz).map fun e =>
    (.known (hw.load e (s.vars mem.sreg).val (effectiveOffset s.vars mem) s.mem), s)
  appendAsmDstMem mem v := fun s => (accessElement mem.sz).map fun e =>
    ((), { s with mem := hw.store e (s.vars mem.sreg).val (effectiveOffset s.vars mem) v.val s.mem })
  entryFlags := .known entryFlags
  clearCarry := fun s => some ((), s)
  dfClear := fun s => some (dfClear, s)
  pinAll := fun s => some (pinAll, s)

end

/-- The views of a register after a write, as the lowering computes them. -/
def Variables.write (s : Variables M) (pinAll : Bool) (reg : Reg) (v : Value M) : Variables M :=
  let v := if pinAll then .known v.val else v
  let s := s.set reg v
  match fragments? reg, parent? reg with
  | some (lo, hi), _ =>
      (s.set lo (.known (v.val &&& 0xFF))).set hi (.known ((v.val >>> 8) &&& 0xFF))
  | none, some full =>
      match fragments? full with
      | some (lo, hi) =>
          let s := s.set reg (.known (v.val &&& 0xFF))
          s.set full (.known ((s.vars hi).val <<< 8 ||| (s.vars lo).val))
      | none => s
  | none, none => s

section
variable {hw : Hardware M} {dfClear pinAll : Bool} {entryFlags : BitVec 16} {s : Variables M}

theorem emission_bind {S A B : Type} {x : Emission S A} {f : A → Emission S B} {s s' : S} {a : A}
    (first : x s = some (a, s')) : (x >>= f) s = f a s' := by
  show (x s).bind _ = _
  rw [first]
  rfl

theorem running_write (reg : Reg) (v : Value M) :
    (running hw dfClear pinAll entryFlags).appendAsmDstReg reg v s =
      some ((), s.write pinAll reg v) := by
  cases pinAll <;> cases reg <;> rfl

end

end Dis86.Build
