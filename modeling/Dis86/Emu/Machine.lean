import Dis86.Asm.Region

namespace Dis86.Emu
open Asm (Reg Seg SegOff DecodeError)
open Lib (Outcome)

/-- A step of the emulator ends with a value, with an error of the decoder, or with a panic. -/
abbrev Result := Outcome DecodeError

/-- A value has the width of the operand that it was read from. -/
inductive Value where
  | u8 (val : BitVec 8)
  | u16 (val : BitVec 16)
  | u32 (val : BitVec 32)
  | addr (val : SegOff)
deriving DecidableEq, Repr

namespace Value

def unwrapU8 : Value → Result (BitVec 8)
  | u8 val => .ok val
  | _ => .panic

def unwrapU16 : Value → Result (BitVec 16)
  | u16 val => .ok val
  | _ => .panic

def unwrapU32 : Value → Result (BitVec 32)
  | u32 val => .ok val
  | _ => .panic

def join : Value → Value → Result Value
  | u8 high, u8 low => .ok (u16 (high.setWidth 16 <<< 8 ||| low.setWidth 16))
  | u16 high, u16 low => .ok (u32 (high.setWidth 32 <<< 16 ||| low.setWidth 32))
  | _, _ => .panic

end Value

def unwrapNormal : Seg → Result (BitVec 16)
  | .normal seg => .ok seg
  | .overlay _ => .panic

def absNormal (addr : SegOff) : Result Nat := do
  return (← unwrapNormal addr.seg).toNat * 16 + addr.off.toNat

def fromU32 (val : BitVec 32) : SegOff := ⟨.normal ((val >>> 16).setWidth 16), val.setWidth 16⟩

theorem masked_bit {n k : Nat} (inside : k < n) (r : BitVec n) : (r &&& BitVec.twoPow n k != 0) = r.getLsbD k := by
  rw [BitVec.and_twoPow]
  cases present : r.getLsbD k with
  | false => simp
  | true =>
      have nonzero : BitVec.twoPow n k ≠ 0#n := by
        intro zero
        have bit := congrArg (fun bits => bits.getLsbD k) zero
        simp [inside] at bit
      simpa using nonzero

inductive Flag where
  | CF | PF | AF | ZF | SF | TF | IF | DF | OF
deriving DecidableEq, Repr

namespace Flag

def shift : Flag → Nat
  | CF => 0
  | PF => 2
  | AF => 4
  | ZF => 6
  | SF => 7
  | TF => 8
  | IF => 9
  | DF => 10
  | OF => 11

def mask : Flag → BitVec 16
  | CF => 0x0001
  | PF => 0x0004
  | AF => 0x0010
  | ZF => 0x0040
  | SF => 0x0080
  | TF => 0x0100
  | IF => 0x0200
  | DF => 0x0400
  | OF => 0x0800

def all : List Flag := [CF, PF, AF, ZF, SF, TF, IF, DF, OF]

theorem mask_eq (flag : Flag) : flag.mask = 1#16 <<< flag.shift := by cases flag <;> rfl

theorem shift_lt (flag : Flag) : flag.shift < 16 := by cases flag <;> decide

theorem shift_injective {flag other : Flag} (same : flag.shift = other.shift) : flag = other := by
  cases flag <;> cases other <;> first | rfl | cases same

end Flag

/-- The bits that a flags word may hold after a pop. -/
def flagMask : BitVec 16 := 0x0fd7

structure Flags where
  bits : BitVec 16
deriving DecidableEq, Repr

namespace Flags

def get (f : Flags) (flag : Flag) : Bool := f.bits &&& flag.mask != 0

def set (f : Flags) (flag : Flag) (on : Bool) : Flags :=
  ⟨(f.bits &&& ~~~flag.mask) ||| ((if on then 1 else 0 : BitVec 16) <<< flag.shift)⟩

theorem mask_bit (flag : Flag) (i : Nat) : flag.mask.getLsbD i = decide (i = flag.shift) := by
  have small := flag.shift_lt
  rw [flag.mask_eq, ← BitVec.twoPow_eq, BitVec.getLsbD_twoPow]
  by_cases here : flag.shift = i
  · simp [← here, small]
  · simp [here, Ne.symm here]

theorem get_eq (f : Flags) (flag : Flag) : f.get flag = f.bits.getLsbD flag.shift := by
  rw [get, flag.mask_eq, ← BitVec.twoPow_eq, masked_bit flag.shift_lt]

theorem getLsbD_set (f : Flags) (flag : Flag) (on : Bool) (i : Nat) :
    (f.set flag on).bits.getLsbD i = if i = flag.shift then on else f.bits.getLsbD i := by
  have small := flag.shift_lt
  by_cases inside : i < 16
  · by_cases here : i = flag.shift
    · subst here
      have shifted : ((if on then 1 else 0 : BitVec 16) <<< flag.shift).getLsbD flag.shift = on := by
        cases on <;> simp [small]
      simp only [set, BitVec.getLsbD_or, BitVec.getLsbD_and, BitVec.getLsbD_not, mask_bit, shifted]
      simp
    · have shifted : ((if on then 1 else 0 : BitVec 16) <<< flag.shift).getLsbD i = false := by
        cases on
        · simp
        · have mask := mask_bit flag i
          rw [flag.mask_eq] at mask
          simpa [here] using mask
      simp only [set, BitVec.getLsbD_or, BitVec.getLsbD_and, BitVec.getLsbD_not, mask_bit, shifted]
      simp [here, inside]
  · have outside : i ≠ flag.shift := by omega
    rw [if_neg outside, BitVec.getLsbD_of_ge _ _ (by omega), BitVec.getLsbD_of_ge _ _ (by omega)]

@[simp] theorem get_set (f : Flags) (flag other : Flag) (on : Bool) :
    (f.set flag on).get other = if other = flag then on else f.get other := by
  rw [get_eq, get_eq, getLsbD_set]
  by_cases same : other = flag
  · rw [if_pos (congrArg Flag.shift same), if_pos same]
  · rw [if_neg fun shifts => same (Flag.shift_injective shifts), if_neg same]

/-- The bits of the word that are no flags. -/
def restMask : BitVec 16 := 0xf02a

def rest (f : Flags) : BitVec 16 := f.bits &&& restMask

theorem rest_shift (flag : Flag) : restMask.getLsbD flag.shift = false := by cases flag <;> decide

theorem rest_or_shift {i : Nat} (inside : i < 16) : (∃ flag : Flag, flag.shift = i) ∨ restMask.getLsbD i = true := by
  have all : ∀ i : Fin 16, (Flag.all.any fun flag => flag.shift == i) || restMask.getLsbD i := by decide
  rcases (Bool.or_eq_true _ _).mp (all ⟨i, inside⟩) with isFlag | other
  · obtain ⟨flag, _, same⟩ := List.any_eq_true.mp isFlag
    exact .inl ⟨flag, beq_iff_eq.mp same⟩
  · exact .inr other

@[simp] theorem rest_set (f : Flags) (flag : Flag) (on : Bool) : (f.set flag on).rest = f.rest := by
  apply BitVec.eq_of_getLsbD_eq
  intro i _
  rw [rest, rest, BitVec.getLsbD_and, BitVec.getLsbD_and, getLsbD_set]
  by_cases here : i = flag.shift
  · rw [here, rest_shift, Bool.and_false, Bool.and_false]
  · rw [if_neg here]

/-- The word has nothing but its flags and the other bits. -/
@[ext] theorem ext_flags {f g : Flags} (flags : ∀ flag, f.get flag = g.get flag) (others : f.rest = g.rest) :
    f = g := by
  cases f with
  | mk bits =>
      cases g with
      | mk bits' =>
          apply congrArg Flags.mk
          apply BitVec.eq_of_getLsbD_eq
          intro i inside
          rcases rest_or_shift inside with ⟨flag, rfl⟩ | other
          · have same := flags flag
            rwa [get_eq, get_eq] at same
          · have same := congrArg (fun word => word.getLsbD i) others
            simpa only [rest, BitVec.getLsbD_and, other, Bool.and_true] using same

end Flags

/-- A register is a word of the file, or a byte at an offset in one. -/
structure Register where
  idx : Fin 14
  off : Fin 2
  size : Nat
  sized : size = 1 ∨ size = 2
deriving DecidableEq

namespace Register

def word (idx : Fin 14) : Register := ⟨idx, 0, 2, .inr rfl⟩

def byte (idx : Fin 14) (off : Fin 2) : Register := ⟨idx, off, 1, .inl rfl⟩

def AX := word 0
def BX := word 1
def CX := word 2
def DX := word 3
def SI := word 4
def DI := word 5
def BP := word 6
def SP := word 7
def IP := word 8
def CS := word 9
def DS := word 10
def ES := word 11
def SS := word 12
def FLAGS := word 13
def AL := byte 0 0
def AH := byte 0 1
def BL := byte 1 0
def BH := byte 1 1
def CL := byte 2 0
def CH := byte 2 1
def DL := byte 3 0
def DH := byte 3 1

end Register

def convertReg : Reg → Register
  | .AX => .AX | .BX => .BX | .CX => .CX | .DX => .DX
  | .SI => .SI | .DI => .DI | .BP => .BP | .SP => .SP
  | .IP => .IP | .CS => .CS | .DS => .DS | .ES => .ES | .SS => .SS
  | .FLAGS => .FLAGS
  | .AH => .AH | .AL => .AL | .BH => .BH | .BL => .BL
  | .CH => .CH | .CL => .CL | .DH => .DH | .DL => .DL

structure Cpu where
  regs : Fin 14 → BitVec 16

namespace Cpu

def regRead (cpu : Cpu) (r : Register) : Value :=
  if r.size = 2 then .u16 (cpu.regs r.idx)
  else .u8 (if r.off = 0 then (cpu.regs r.idx).setWidth 8 else (cpu.regs r.idx >>> 8).setWidth 8)

/-- A byte is combined with the other half of its word. -/
def regWrite (cpu : Cpu) (r : Register) (val : Value) : Result Cpu :=
  if r.size = 2 then do
    let val ← val.unwrapU16
    return ⟨Function.update cpu.regs r.idx val⟩
  else do
    let val ← val.unwrapU8
    let cur := cpu.regs r.idx
    let new :=
      if r.off = 0 then (cur &&& 0xff00) ||| val.setWidth 16
      else (cur &&& (0x00ff : BitVec 16)) ||| val.setWidth 16 <<< 8
    return ⟨Function.update cpu.regs r.idx new⟩

def regReadU8 (cpu : Cpu) (r : Register) : Result (BitVec 8) := (cpu.regRead r).unwrapU8

def regReadU16 (cpu : Cpu) (r : Register) : Result (BitVec 16) := (cpu.regRead r).unwrapU16

def regReadAddr (cpu : Cpu) (seg off : Register) : Result SegOff := do
  let seg ← cpu.regReadU16 seg
  let off ← cpu.regReadU16 off
  return ⟨.normal seg, off⟩

def regWriteU8 (cpu : Cpu) (r : Register) (val : BitVec 8) : Result Cpu := cpu.regWrite r (.u8 val)

def regWriteU16 (cpu : Cpu) (r : Register) (val : BitVec 16) : Result Cpu := cpu.regWrite r (.u16 val)

def regWriteU32 (cpu : Cpu) (high low : Register) (val : BitVec 32) : Result Cpu := do
  let cpu ← cpu.regWriteU16 high ((val >>> 16).setWidth 16)
  cpu.regWriteU16 low (val.setWidth 16)

def regWriteAddr (cpu : Cpu) (seg off : Register) (addr : SegOff) : Result Cpu := do
  let cpu ← cpu.regWriteU16 seg (← unwrapNormal addr.seg)
  cpu.regWriteU16 off addr.off

def flagReadAll (cpu : Cpu) : Flags := ⟨cpu.regs Register.FLAGS.idx⟩

def flagWriteAll (cpu : Cpu) (f : Flags) : Cpu := ⟨Function.update cpu.regs Register.FLAGS.idx f.bits⟩

def flagRead (cpu : Cpu) (flag : Flag) : Bool := cpu.flagReadAll.get flag

def flagWrite (cpu : Cpu) (flag : Flag) (on : Bool) : Cpu := cpu.flagWriteAll (cpu.flagReadAll.set flag on)

/-- The word of a register that is one. -/
def get (cpu : Cpu) (r : Register) : BitVec 16 := cpu.regs r.idx

def put (cpu : Cpu) (r : Register) (val : BitVec 16) : Cpu := ⟨Function.update cpu.regs r.idx val⟩

section
variable (cpu : Cpu) (idx : Fin 14) (val : BitVec 16)

@[simp] theorem regRead_word : cpu.regRead (.word idx) = .u16 (cpu.get (.word idx)) := rfl

@[simp] theorem regReadU16_word : cpu.regReadU16 (.word idx) = .ok (cpu.get (.word idx)) := rfl

@[simp] theorem regWrite_word : cpu.regWrite (.word idx) (.u16 val) = .ok (cpu.put (.word idx) val) := rfl

@[simp] theorem regWriteU16_word : cpu.regWriteU16 (.word idx) val = .ok (cpu.put (.word idx) val) := rfl

theorem flagReadAll_eq : cpu.flagReadAll = ⟨cpu.get .FLAGS⟩ := rfl

theorem flagWriteAll_eq (f : Flags) : cpu.flagWriteAll f = cpu.put .FLAGS f.bits := rfl

@[simp] theorem get_put (r s : Register) : (cpu.put r val).get s = if s.idx = r.idx then val else cpu.get s := by
  simp only [get, put, Function.update_apply]

@[simp] theorem put_put (r : Register) (val' : BitVec 16) : (cpu.put r val).put r val' = cpu.put r val' := by
  rw [put, put, put, Function.update_idem]

theorem put_get (r : Register) : cpu.put r (cpu.get r) = cpu := by
  rw [put, get, Function.update_eq_self]

theorem put_comm {r s : Register} (apart : r.idx ≠ s.idx) (val' : BitVec 16) :
    (cpu.put r val).put s val' = (cpu.put s val').put r val := by
  rw [put, put, put, put, Function.update_comm apart.symm]

end

end Cpu

/-- The last byte of the memory is at ffff:ffff. -/
def memSize : Nat := 0x10fff0

/-- The bytes, and what they were before the first write since the tracking began. -/
structure Memory where
  raw : Nat → BitVec 8
  writes : Option (Nat → Option (BitVec 8))

namespace Memory

def at? (mem : Memory) (idx : Nat) : Option (BitVec 8) := if idx < memSize then some (mem.raw idx) else none

def beginWriteTracking (mem : Memory) : Memory := { mem with writes := some fun _ => none }

def writeAbsU8 (mem : Memory) (idx : Nat) (val : BitVec 8) : Result Memory := do
  let before ← .unwrap (mem.at? idx)
  return {
    raw := Function.update mem.raw idx val
    writes := mem.writes.map fun writes => Function.update writes idx (some ((writes idx).getD before)) }

def readU8 (mem : Memory) (addr : SegOff) : Result (BitVec 8) := do
  .unwrap (mem.at? (← absNormal addr))

/-- The bytes of a longer access wrap at the end of the segment. -/
def readU16 (mem : Memory) (addr : SegOff) : Result (BitVec 16) := do
  let base := (← unwrapNormal addr.seg).toNat * 16
  let off := addr.off.toNat
  let b0 ← .unwrap (mem.at? (base + off))
  let b1 ← .unwrap (mem.at? (base + ((off + 1) &&& 0xffff)))
  return b1.setWidth 16 <<< 8 ||| b0.setWidth 16

def readU32 (mem : Memory) (addr : SegOff) : Result (BitVec 32) := do
  let base := (← unwrapNormal addr.seg).toNat * 16
  let off := addr.off.toNat
  let b0 ← .unwrap (mem.at? (base + off))
  let b1 ← .unwrap (mem.at? (base + ((off + 1) &&& 0xffff)))
  let b2 ← .unwrap (mem.at? (base + ((off + 2) &&& 0xffff)))
  let b3 ← .unwrap (mem.at? (base + ((off + 3) &&& 0xffff)))
  return b3.setWidth 32 <<< 24 ||| b2.setWidth 32 <<< 16 ||| b1.setWidth 32 <<< 8 ||| b0.setWidth 32

def writeU8 (mem : Memory) (addr : SegOff) (val : BitVec 8) : Result Memory := do
  mem.writeAbsU8 (← absNormal addr) val

def writeU16 (mem : Memory) (addr : SegOff) (val : BitVec 16) : Result Memory := do
  let base := (← unwrapNormal addr.seg).toNat * 16
  let off := addr.off.toNat
  let mem ← mem.writeAbsU8 (base + off) (val.setWidth 8)
  mem.writeAbsU8 (base + ((off + 1) &&& 0xffff)) ((val >>> 8).setWidth 8)

def writeU32 (mem : Memory) (addr : SegOff) (val : BitVec 32) : Result Memory := do
  let base := (← unwrapNormal addr.seg).toNat * 16
  let off := addr.off.toNat
  let mem ← mem.writeAbsU8 (base + off) (val.setWidth 8)
  let mem ← mem.writeAbsU8 (base + ((off + 1) &&& 0xffff)) ((val >>> 8).setWidth 8)
  let mem ← mem.writeAbsU8 (base + ((off + 2) &&& 0xffff)) ((val >>> 16).setWidth 8)
  mem.writeAbsU8 (base + ((off + 3) &&& 0xffff)) ((val >>> 24).setWidth 8)

/-- The linear address of a byte in a segment. -/
def linear (seg off : BitVec 16) : Nat := seg.toNat * 16 + off.toNat

/-- A byte is written, and the tracker remembers what it was before its first write. -/
def set (mem : Memory) (idx : Nat) (val : BitVec 8) : Memory where
  raw := Function.update mem.raw idx val
  writes := mem.writes.map fun writes => Function.update writes idx (some ((writes idx).getD (mem.raw idx)))

section Normal

variable (mem : Memory) (seg off : BitVec 16)

/-- No address in a segment is beyond the memory. -/
theorem linear_lt : linear seg off < memSize := by
  have high := seg.isLt
  have low := off.isLt
  unfold linear memSize
  omega

theorem linear_inj {off off' : BitVec 16} : linear seg off = linear seg off' ↔ off = off' := by
  rw [linear, linear, Nat.add_left_cancel_iff, BitVec.toNat_inj]

theorem wrap_toNat (k : Nat) : (off.toNat + k) &&& 0xffff = (off + BitVec.ofNat 16 k).toNat := by
  rw [BitVec.toNat_add, BitVec.toNat_ofNat, Nat.add_mod_mod]
  exact Nat.and_two_pow_sub_one_eq_mod _ 16

theorem at?_linear : mem.at? (linear seg off) = some (mem.raw (linear seg off)) := if_pos (linear_lt seg off)

theorem writeAbsU8_linear (val : BitVec 8) :
    mem.writeAbsU8 (linear seg off) val = .ok (mem.set (linear seg off) val) := by
  rw [writeAbsU8, at?_linear]
  rfl

theorem readU8_normal : mem.readU8 ⟨.normal seg, off⟩ = .ok (mem.raw (linear seg off)) := by
  change Outcome.unwrap (mem.at? (linear seg off)) = _
  rw [at?_linear]
  rfl

theorem writeU8_normal (val : BitVec 8) : mem.writeU8 ⟨.normal seg, off⟩ val = .ok (mem.set (linear seg off) val) :=
  mem.writeAbsU8_linear seg off val

/-- A word is its low byte and the byte after it in the segment. -/
def wordAt : BitVec 16 :=
  (mem.raw (linear seg (off + 1))).setWidth 16 <<< 8 ||| (mem.raw (linear seg off)).setWidth 16

def setWord (val : BitVec 16) : Memory :=
  (mem.set (linear seg off) (val.setWidth 8)).set (linear seg (off + 1)) ((val >>> 8).setWidth 8)

theorem readU16_normal : mem.readU16 ⟨.normal seg, off⟩ = .ok (mem.wordAt seg off) := by
  have next : seg.toNat * 16 + ((off.toNat + 1) &&& 0xffff) = linear seg (off + 1) := by rw [wrap_toNat]; rfl
  have first := at?_linear mem seg off
  rw [linear] at first
  simp only [readU16, unwrapNormal, Outcome.ok_bind, next, first, at?_linear]
  rfl

theorem writeU16_normal (val : BitVec 16) : mem.writeU16 ⟨.normal seg, off⟩ val = .ok (mem.setWord seg off val) := by
  have next : seg.toNat * 16 + ((off.toNat + 1) &&& 0xffff) = linear seg (off + 1) := by rw [wrap_toNat]; rfl
  have first := writeAbsU8_linear mem seg off (val.setWidth 8)
  rw [linear] at first
  simp only [writeU16, unwrapNormal, Outcome.ok_bind, next, first, writeAbsU8_linear]
  rfl

theorem next_ne (off : BitVec 16) : off + 1 ≠ off := by
  intro same
  have zero : (1 : BitVec 16) = 0 := add_eq_left.mp same
  exact absurd zero (by decide)

@[simp] theorem raw_set (idx other : Nat) (val : BitVec 8) :
    (mem.set idx val).raw other = if other = idx then val else mem.raw other := by
  simp only [set, Function.update_apply]

theorem bytes_of_word (val : BitVec 16) :
    ((val >>> 8).setWidth 8).setWidth 16 <<< 8 ||| (val.setWidth 8).setWidth 16 = val := by
  apply BitVec.eq_of_getLsbD_eq
  intro i inside
  simp
  grind

theorem wordAt_setWord (val : BitVec 16) : (mem.setWord seg off val).wordAt seg off = val := by
  have apart : linear seg off ≠ linear seg (off + 1) := fun same => next_ne off ((linear_inj seg).mp same).symm
  simp only [wordAt, setWord, raw_set, if_pos, if_neg apart]
  exact bytes_of_word val

/-- A word apart from the written one stays. -/
theorem wordAt_setWord_apart {off off' : BitVec 16} (val : BitVec 16)
    (apart : off' ≠ off ∧ off' ≠ off + 1 ∧ off' + 1 ≠ off) :
    (mem.setWord seg off val).wordAt seg off' = mem.wordAt seg off' := by
  have next : off' + 1 ≠ off + 1 := fun same => apart.1 (add_right_cancel same)
  have differs {a b : BitVec 16} (other : a ≠ b) : linear seg a ≠ linear seg b := fun same =>
    other ((linear_inj seg).mp same)
  simp only [wordAt, setWord, raw_set, if_neg (differs apart.1), if_neg (differs apart.2.1),
    if_neg (differs apart.2.2), if_neg (differs next)]

end Normal

end Memory

end Dis86.Emu
