import Dis86.Emu.Machine

namespace Dis86.Emu

inductive BinaryOp where
  | Add | Adc | Sub | Sbb | And | Or | Xor
deriving DecidableEq, Repr

inductive MultiplyOp where
  | Unsigned | Signed
deriving DecidableEq, Repr

inductive DivideOp where
  | Unsigned | Signed
deriving DecidableEq, Repr

inductive UnaryOp where
  | Neg | Inc | Dec | Not
deriving DecidableEq, Repr

inductive ShiftOp where
  | Shl | Shr | Sar | Rol
deriving DecidableEq, Repr

/-- The operations work on a word, and a byte is the low one. -/
inductive Width where
  | byte | word
deriving DecidableEq, Repr

namespace Width

abbrev bits : Width → Nat
  | byte => 8
  | word => 16

def signMask : Width → BitVec 16
  | byte => 0x80
  | word => 0x8000

def valueMask : Width → BitVec 16
  | byte => 0xff
  | word => 0xffff

/-- The result in the size of the operands. -/
def pack : Width → BitVec 16 → Value
  | byte, result => .u8 (result.setWidth 8)
  | word, result => .u16 result

def packDouble : Width → BitVec 32 → Value
  | byte, result => .u16 (result.setWidth 16)
  | word, result => .u32 result

end Width

def unpack : Value → Result (Width × BitVec 16)
  | .u8 a => .ok (.byte, a.setWidth 16)
  | .u16 a => .ok (.word, a)
  | _ => .panic

def unpackPair : Value → Value → Result (Width × BitVec 16 × BitVec 16)
  | .u8 a, .u8 b => .ok (.byte, a.setWidth 16, b.setWidth 16)
  | .u16 a, .u16 b => .ok (.word, a, b)
  | _, _ => .panic

def flagGenericSf (r signMask : BitVec 16) : Bool := r &&& signMask != 0

def flagGenericZf (r valueMask : BitVec 16) : Bool := r &&& valueMask == 0

def evenOnes {n : Nat} (r : BitVec n) : Bool := r.cpop.toNat % 2 == 0

/-- The parity is that of the low byte. -/
def flagGenericPf (r : BitVec 16) : Bool := evenOnes (r.setWidth 8)

/-- The carry that enters is a bit, so the assertion about it holds. -/
def updateFlagsSub (f : Flags) (a b : BitVec 16) (carryIn : Bool) (r : BitVec 16) (w : Width) (updateCf : Bool) :
    Flags :=
  let cf : Bool := a.setWidth 32 < b.setWidth 32 + (BitVec.ofBool carryIn).setWidth 32
  let f := if updateCf then f.set .CF cf else f
  let f := f.set .ZF (flagGenericZf r w.valueMask)
  let f := f.set .SF (flagGenericSf r w.signMask)
  let f := f.set .PF (flagGenericPf r)
  let f := f.set .AF
    (a.setWidth 32 &&& 0x0F < (b.setWidth 32 &&& 0x0F) + (BitVec.ofBool carryIn).setWidth 32)
  f.set .OF ((a ^^^ b) &&& (a ^^^ r) &&& w.signMask != 0)

def updateFlagsBitwise (f : Flags) (r : BitVec 16) (w : Width) : Flags :=
  let f := f.set .CF false
  let f := f.set .ZF (flagGenericZf r w.valueMask)
  let f := f.set .SF (flagGenericSf r w.signMask)
  let f := f.set .OF false
  f.set .PF (flagGenericPf r)

def updateFlagsAdd (f : Flags) (a b : BitVec 16) (carryIn : Bool) (r32 : BitVec 32) (w : Width) (updateCf : Bool) :
    Flags :=
  let r := r32.setWidth 16
  let cf := (r32 >>> 1) &&& w.signMask.setWidth 32 != 0
  let f := if updateCf then f.set .CF cf else f
  let f := f.set .ZF (flagGenericZf r w.valueMask)
  let f := f.set .SF (flagGenericSf r w.signMask)
  let f := f.set .PF (flagGenericPf r)
  let f := f.set .AF (0x0F < (a &&& 0x0F) + (b &&& 0x0F) + (BitVec.ofBool carryIn).setWidth 16)
  f.set .OF ((a ^^^ r) &&& (b ^^^ r) &&& w.signMask != 0)

def updateFlagsShiftResult (f : Flags) (cf : Bool) (r : BitVec 16) (w : Width) : Flags :=
  let f := f.set .CF cf
  let f := f.set .ZF (flagGenericZf r w.valueMask)
  let f := f.set .SF (flagGenericSf r w.signMask)
  f.set .PF (flagGenericPf r)

def updateFlagsShl (f : Flags) (n : Nat) (r32 : BitVec 32) (w : Width) : Flags :=
  if n = 0 then f
  else
    let r := r32.setWidth 16
    let cf := (r32 >>> 1) &&& w.signMask.setWidth 32 != 0
    let f := updateFlagsShiftResult f cf r w
    if n = 1 then f.set .OF (cf ^^ flagGenericSf r w.signMask) else f

def updateFlagsShr (f : Flags) (a : BitVec 16) (n : Nat) (r : BitVec 16) (w : Width) : Flags :=
  if n = 0 then f
  else
    let cf := (a.setWidth 32 >>> (n - 1)) &&& 1 != 0
    let f := updateFlagsShiftResult f cf r w
    if n = 1 then f.set .OF (a &&& w.signMask != 0) else f

def updateFlagsSar (f : Flags) (a : BitVec 32) (n : Nat) (r : BitVec 16) (w : Width) : Flags :=
  if n = 0 then f
  else
    let cf := (a.sshiftRight (n - 1)) &&& 1 != 0
    let f := updateFlagsShiftResult f cf r w
    if n = 1 then f.set .OF false else f

namespace Alu

/-- A quotient that does not fit is a divide error, which panics. -/
def divide (op : DivideOp) (a : BitVec 32) (b : BitVec 16) : Result (BitVec 32 × BitVec 32) :=
  match op with
  | .Unsigned => do
      let b := b.setWidth 32
      .require (b ≠ 0)
      let quotient := a / b
      .require (¬ quotient.toNat > 0xffff)
      return (quotient, a % b)
  | .Signed => do
      let dividend := a.signExtend 64
      let divisor := b.signExtend 64
      .require (divisor ≠ 0)
      let quotient := (dividend.sdiv divisor).setWidth 32
      .require (¬ (quotient.toInt > 0x7fff ∨ quotient.toInt < -0x8000))
      return (quotient, (dividend.srem divisor).setWidth 32)

def divmod (op : DivideOp) (a b : Value) (f : Flags) : Result (Value × Value × Flags) := do
  let a ← a.unwrapU32
  let b ← b.unwrapU16
  let (quotient, remainder) ← divide op a b
  let f := f.set .CF (1 ≤ remainder &&& 3 && remainder &&& 3 ≤ 2)
  let f := f.set .ZF (remainder == 0 && quotient &&& 1 != 0)
  let f := f.set .SF false
  let f := f.set .OF false
  let f := f.set .AF false
  let f := f.set .PF (evenOnes remainder == evenOnes quotient)
  return (.u16 (quotient.setWidth 16), .u16 (remainder.setWidth 16), f)

def signedProduct (w : Width) (a b : BitVec 16) : BitVec 32 :=
  match w with
  | .byte => ((a.setWidth 8).signExtend 16 * (b.setWidth 8).signExtend 16).setWidth 32
  | .word => a.signExtend 32 * b.signExtend 32

/-- The high half is more than the sign of the low one. -/
def signedLoses (w : Width) (result : BitVec 32) : Bool :=
  match w with
  | .byte => result.setWidth 16 != ((result &&& 0xff).setWidth 8).signExtend 16
  | .word => result != ((result &&& 0xffff).setWidth 16).signExtend 32

/-- The product has twice the size of its factors. -/
def multiply (op : MultiplyOp) (a b : Value) (f : Flags) : Result (Value × Flags) := do
  let (w, a, b) ← unpackPair a b
  let (result, f) : BitVec 32 × Flags := match op with
    | .Unsigned =>
        let result := a.setWidth 32 * b.setWidth 32
        let ovf := result &&& w.valueMask.setWidth 32 != result
        let f := f.set .CF ovf
        let f := f.set .OF ovf
        let f := f.set .ZF (result == 0)
        (result, f)
    | .Signed =>
        let result := signedProduct w a b
        let ovf := signedLoses w result
        let f := f.set .CF ovf
        let f := f.set .OF ovf
        (result, f)
  return (w.packDouble result, f)

def binary (op : BinaryOp) (a b : Value) (f : Flags) : Result (Value × Flags) := do
  let (w, a, b) ← unpackPair a b
  let (result, f) : BitVec 16 × Flags := match op with
    | .Add =>
        let r32 := a.setWidth 32 + b.setWidth 32
        (r32.setWidth 16, updateFlagsAdd f a b false r32 w true)
    | .Adc =>
        let carryIn := f.get .CF
        let r32 := a.setWidth 32 + b.setWidth 32 + (BitVec.ofBool carryIn).setWidth 32
        (r32.setWidth 16, updateFlagsAdd f a b carryIn r32 w true)
    | .Sub =>
        let result := a - b
        (result, updateFlagsSub f a b false result w true)
    | .Sbb =>
        let carryIn := f.get .CF
        let result := a - b - (BitVec.ofBool carryIn).setWidth 16
        (result, updateFlagsSub f a b carryIn result w true)
    | .And =>
        let result := a &&& b
        (result, updateFlagsBitwise f result w)
    | .Or =>
        let result := a ||| b
        (result, updateFlagsBitwise f result w)
    | .Xor =>
        let result := a ^^^ b
        (result, updateFlagsBitwise f result w)
  return (w.pack result, f)

/-- INC and DEC keep the carry, and NOT keeps every flag. -/
def unary (op : UnaryOp) (a : Value) (f : Flags) : Result (Value × Flags) := do
  let (w, a) ← unpack a
  let (result, f) : BitVec 16 × Flags := match op with
    | .Neg =>
        let result := -a
        (result, updateFlagsSub f 0 a false result w true)
    | .Inc =>
        let r32 := a.setWidth 32 + 1
        (r32.setWidth 16, updateFlagsAdd f a 1 false r32 w false)
    | .Dec =>
        let result := a - 1
        (result, updateFlagsSub f a 1 false result w false)
    | .Not => (~~~a, f)
  return (w.pack result, f)

def rotateLeft (w : Width) (a : BitVec 16) (n : Nat) : BitVec 16 :=
  match w with
  | .byte => ((a.setWidth 8).rotateLeft n).setWidth 16
  | .word => a.rotateLeft n

def signed (w : Width) (a : BitVec 16) : BitVec 32 :=
  match w with
  | .byte => (a.setWidth 8).signExtend 32
  | .word => a.signExtend 32

/-- The count is taken modulo 32, and a count of zero keeps every flag. -/
def shift (op : ShiftOp) (a : Value) (n : BitVec 8) (f : Flags) : Result (Value × Flags) := do
  let (w, a) ← unpack a
  let n := (n &&& 0x1f).toNat
  let (result, f) : BitVec 16 × Flags := match op with
    | .Shl =>
        if n = 0 then (a, f)
        else
          let r32 := a.setWidth 32 <<< n
          (r32.setWidth 16, updateFlagsShl f n r32 w)
    | .Shr =>
        if n = 0 then (a, f)
        else
          let result := (a.setWidth 32 >>> n).setWidth 16
          (result, updateFlagsShr f a n result w)
    | .Sar =>
        if n = 0 then (a, f)
        else
          let result := ((signed w a).sshiftRight n).setWidth 16
          (result, updateFlagsSar f (signed w a) n result w)
    | .Rol =>
        let nMod := n % w.bits
        let result := rotateLeft w a n
        if n = 0 then (result, f)
        else
          let cf := (a >>> ((w.bits - nMod) % w.bits)) &&& 1 != 0
          let f := f.set .CF cf
          if n = 1 then
            let newMsb := (result >>> (w.bits - 1)) &&& 1 != 0
            (result, f.set .OF (cf ^^ newMsb))
          else (result, f)
  return (w.pack result, f)

end Alu

end Dis86.Emu
