import Dis86.Opt.Sweep

namespace Dis86

def Ref.isConst : Ref → Bool
  | .const _ => true
  | _ => false

namespace Opt
open IR Lib

/-- The constants of two offsets over one base. The outer result is missing where the source panics. -/
def wordOffsets? (ir : IR) (highOff lowOff : Ref) : Option (Option (BitVec 16 × BitVec 16)) :=
  match highOff, lowOff with
  | .instr _ _, .instr _ _ => do
      let high ← ir.instr? highOff
      let low ← ir.instr? lowOff
      if high.opcode ≠ .add then return none
      let base ← high.operands[0]?
      if base = lowOff && (← high.operands[1]?).isConst then
        return some (← ir.constLookup (← high.operands[1]?), 0)
      else
        if low.opcode ≠ .add then return none
        if base ≠ (← low.operands[0]?) then return none
        if !(← high.operands[1]?).isConst then return none
        if !(← low.operands[1]?).isConst then return none
        return some (← ir.constLookup (← high.operands[1]?), ← ir.constLookup (← low.operands[1]?))
  | _, _ => some none

/-- The sum may overflow. -/
def isFusableLoad16ToLoad32 (ir : IR) (high low : Ref) : Option Bool :=
  match ir.instr? high, ir.instr? low with
  | some highInstr, some lowInstr => do
      if highInstr.opcode ≠ .load16 then return false
      if lowInstr.opcode ≠ .load16 then return false
      if (← highInstr.operands[0]?) ≠ (← lowInstr.operands[0]?) then return false
      match ← wordOffsets? ir (← highInstr.operands[1]?) (← lowInstr.operands[1]?) with
      | none => return false
      | some (highK, lowK) => return highK.toInt = (← fitsI16 (lowK.toInt + 2))
  | _, _ => some false

/-- The instructions after one of a block, without the erased ones. -/
def instrsAfter (ir : IR) (b : BlockRef) (r : Ref) : List Ref :=
  (((ir.iterInstrs b).dropWhile (· ≠ r)).drop 1).filter fun s =>
    (ir.instr? s).any fun instr => instr.opcode ≠ .nop

/-- The scan goes on to the Make32 and panics at the end of the block. -/
def scan (ir : IR) (make32 high low : Ref) : List Ref → Option Bool
  | [] => none
  | cur :: rest =>
      if cur = make32 then some true
      else if cur = high ∨ cur = low then scan ir make32 high low rest
      else
        match ir.instr? cur with
        | none => none
        | some instr => if instr.opcode.isMemOp then some false else scan ir make32 high low rest

/-- The scan starts at the load with the smaller index, wherever that one is listed. -/
def fuseMake32 (ir : IR) (make32Ref : Ref) : Option IR := do
  let make32 ← ir.instr? make32Ref
  if make32.opcode ≠ .make32 then return ir
  let highRef ← make32.operands[0]?
  let lowRef ← make32.operands[1]?
  if !(← isFusableLoad16ToLoad32 ir highRef lowRef) then return ir
  match make32Ref, highRef, lowRef with
  | .instr b _, .instr highB highI, .instr lowB lowI =>
      if b ≠ highB then return ir
      if b ≠ lowB then return ir
      if !(← scan ir make32Ref highRef lowRef (instrsAfter ir b (.instr b (min highI lowI)))) then return ir
      let low ← ir.instr? lowRef
      let seg ← low.operands[0]?
      let off ← low.operands[1]?
      return ir.modifyInstr make32Ref fun _ => ⟨.u32, none, Attribute.MAY_ESCAPE, .load32, [seg, off]⟩
  | _, _, _ => none

def fuseMake32Load16ToLoad32 (ir : IR) : Option IR := forEachInstr fuseMake32 ir

/-- The instructions between two of a block. -/
def Spans (ir : IR) (b : BlockRef) (x y : Ref) (between : List Ref) : Prop :=
  ∃ front back, ir.iterInstrs b = front ++ x :: (between ++ y :: back)

/-- None of the instructions has a property of its opcode. -/
def NoneIs (ir : IR) (kind : Opcode → Bool) (rs : List Ref) : Prop :=
  ∀ r ∈ rs, ∀ instr, ir.instr? r = some instr → kind instr.opcode = false

/-- No instruction from one to another may write memory. -/
def Quiet (ir : IR) (b : BlockRef) (x y : Ref) : Prop :=
  ∃ between, Spans ir b x y between ∧ NoneIs ir Opcode.writesMemory between

/-- The source takes this operation for none on memory. -/
def hiddenWrite (op : Opcode) : Bool := op.writesArray || op.mayClobberMemory

/-- A Make32 of two loads from one segment, with the constants of their offsets. -/
structure JoinsLoads (ir : IR) (make32Ref highRef lowRef seg highOff lowOff : Ref)
    (highK lowK : BitVec 16) : Prop where
  make32 : ∃ instr rest, ir.instr? make32Ref = some instr ∧ instr.opcode = .make32 ∧
    instr.operands = highRef :: lowRef :: rest
  high : ∃ instr rest, ir.instr? highRef = some instr ∧ instr.opcode = .load16 ∧
    instr.operands = seg :: highOff :: rest
  low : ∃ instr rest, ir.instr? lowRef = some instr ∧ instr.opcode = .load16 ∧
    instr.operands = seg :: lowOff :: rest
  offsets : wordOffsets? ir highOff lowOff = some (some (highK, lowK))

/-- A value of a sum with a constant, in the arithmetic of sixteen bits. -/
def SumHolds (ir : IR) (value : Ref → Nat) (r : Ref) : Prop :=
  ∀ instr base c rest k, ir.instr? r = some instr → instr.opcode = .add → instr.operands = base :: c :: rest →
    ir.constLookup c = some k → BitVec.ofNat 16 (value r) = BitVec.ofNat 16 (value base + k.toNat)

/-- Two loads of a block that a Make32 may be read for at once: nothing from one of them to the Make32
may write memory, and their bytes are adjacent, so that the four bytes are the same in every visit. -/
structure ReadsSame (ir : IR) (b : BlockRef) (make32Ref highRef lowRef seg highOff lowOff : Ref) :
    Prop where
  high : Quiet ir b highRef make32Ref
  low : Quiet ir b lowRef make32Ref
  adjacent : ∀ value : Ref → Nat, SumHolds ir value highOff → SumHolds ir value lowOff →
    BitVec.ofNat 16 (value highOff) = BitVec.ofNat 16 (value lowOff + 2)
  same : ∀ (run : BlockRun ir b) (p q m : Nat), (ir.iterInstrs b)[p]? = some highRef →
    (ir.iterInstrs b)[q]? = some lowRef → (ir.iterInstrs b)[m]? = some make32Ref →
    SumHolds ir run.value highOff → SumHolds ir run.value lowOff →
    (run.memory m).read (windowAt (run.value seg) (run.value lowOff)) 4 =
      (run.memory q).read (windowAt (run.value seg) (run.value lowOff)) 2 +
        2 ^ 16 * (run.memory p).read (windowAt (run.value seg) (run.value highOff)) 2

/-- A turn of the pass ends, and a Make32 that it turns into a load reads what its two loads read. -/
structure FusesSoundly (ir : IR) (r : Ref) : Prop where
  ends : ∃ next, fuseMake32 ir r = some next
  sound : ∀ next, fuseMake32 ir r = some next → next.instr? r ≠ ir.instr? r →
    ∃ b highRef lowRef seg highOff lowOff highK lowK,
      JoinsLoads ir r highRef lowRef seg highOff lowOff highK lowK ∧
      ReadsSame ir b r highRef lowRef seg highOff lowOff

/-- What the scan misses between the first of two loads in storage and the Make32. -/
structure ScanSuffices (ir : IR) (b : BlockRef) (make32Ref first other : Ref) (between : List Ref) :
    Prop where
  hidden : NoneIs ir hiddenWrite between
  listed : other = first ∨ other ∈ between ∨
    ∃ earlier, Spans ir b other first earlier ∧ NoneIs ir Opcode.writesMemory earlier

/-- An operation that the scan takes for one on memory stops it before the Make32. -/
def Stops (ir : IR) (b : BlockRef) (make32Ref first highRef lowRef : Ref) : Prop :=
  ∃ between s back, (∃ front, ir.iterInstrs b = front ++ first :: (between ++ s :: back)) ∧
    make32Ref ∉ between ∧ s ≠ make32Ref ∧ s ≠ highRef ∧ s ≠ lowRef ∧
    ∃ instr, ir.instr? s = some instr ∧ instr.opcode.isMemOp = true

/-- What a Make32 needs: the sum in the test fits, and unless an operation on memory stops the scan,
the load that is first in storage is listed before the Make32 and the scan overlooks nothing. -/
def Fusable (ir : IR) (r : Ref) : Prop :=
  ∀ highRef lowRef seg highOff lowOff highK lowK,
    JoinsLoads ir r highRef lowRef seg highOff lowOff highK lowK → lowK.toInt ≤ 32765 ∧
    ∀ b i highI lowI, r = .instr b i → highRef = .instr b highI → lowRef = .instr b lowI →
      highK = lowK + 2 → Stops ir b r (.instr b (min highI lowI)) highRef lowRef ∨
        ∃ between, Spans ir b (.instr b (min highI lowI)) r between ∧
          ScanSuffices ir b r (.instr b (min highI lowI)) (.instr b (max highI lowI)) between

/-- The function before the turn of an instruction. -/
def BeforeTurn (ir : IR) (r : Ref) (cur : IR) : Prop :=
  ∃ front back, ir.refs = front ++ r :: back ∧ front.foldlM fuseMake32 ir = some cur

/-- The operands that the pass reads are there. -/
structure WordsFilled (ir : IR) : Prop where
  pairs : ∀ r instr, ir.instr? r = some instr →
    instr.opcode = .make32 ∨ instr.opcode = .load16 ∨ instr.opcode = .add → 2 ≤ instr.operands.length
  stores : ∀ r instr, ir.instr? r = some instr → instr.opcode.isStore = true → 3 ≤ instr.operands.length
  consts : ∀ r instr, ir.instr? r = some instr → instr.opcode = .add → ∀ c ∈ instr.operands,
    c.isConst = true → ∃ k, ir.constLookup c = some k
  present : ∀ r instr, ir.instr? r = some instr → instr.opcode = .load16 →
    ∀ b i, instr.operands[1]? = some (.instr b i) → ∃ source, ir.instr? (.instr b i) = some source

end Opt

end Dis86
