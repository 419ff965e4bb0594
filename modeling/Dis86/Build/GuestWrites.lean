import Dis86.Build.Builder
import Dis86.IR.Flow
import Dis86.Lib.Schedule
import Dis86.Lib.Search
import Dis86.Lib.ParallelAssign

namespace Dis86

def SymbolMap.findRefByName (map : SymbolMap) (table : Table) (name : String) : Option SymbolRef := do
  let idx ← (map.getTable table).findIdx? fun symbol => symbol.name = name
  let symbol ← (map.getTable table)[idx]?
  return ⟨⟨table, idx⟩, ⟨0, symbol.size⟩⟩

namespace Build
open Asm (Reg)
open Lib (search schedule)

/-- A value that reads a register reads its storage. -/
def isInitOf (target : Reg) : Ref → Bool
  | .init reg => initStorageParent reg = target
  | _ => false

/-- No instruction has more operands than all of them together. -/
def readsFuel (ir : IR) : Nat :=
  let operands := ir.allInstrs.flatMap ir.valueOperands
  2 + operands.length * (1 + ir.allInstrs.length + operands.length)

/-- A value reads the live register, directly or through its operands. -/
def refReadsInit (ir : IR) (r : Ref) (target : Reg) : Bool :=
  search ir.valueOperands (isInitOf target) (readsFuel ir) [] [r] = some none

/-- A write whose value reads another pending register must come before the write of that one. -/
def mustPrecede (ir : IR) (other write : Reg × Ref) : Bool :=
  other.1 ≠ write.1 && refReadsInit ir other.2 write.1

def orderGuestWrites (ir : IR) (pending : List (Reg × Ref)) : List (Reg × Ref) :=
  schedule (mustPrecede ir) pending.length pending

/-- The registers whose values wait, without those that still hold their entry value. -/
def pendingWrites (b : BlockRef) : List Reg → IR → Option (List (Reg × Ref) × IR)
  | [], ir => some ([], ir)
  | reg :: regs, ir => do
      let (vref, ir) ← ir.getVar (.reg reg) b
      let (pending, ir) ← pendingWrites b regs ir
      return (if vref = .init reg then pending else (reg, vref) :: pending, ir)

def guestWrite (symref : SymbolRef) (vref : Ref) (attrs : BitVec 8) : Instr :=
  ⟨.u16, none, attrs, .writeVar16, [.symbol symref, vref]⟩

/-- A guest write at the end of a block. Only full registers have a symbol. -/
def writeGuestRegister (b : BlockRef) (ir : IR) (write : Reg × Ref) : Option IR := do
  let symref ← ir.symbols.findRefByName .register write.1.name
  let (_, ir) ← ir.blockInstrAppend b (guestWrite symref write.2 Attribute.PIN)
  return ir

def emitGuestWrites (b : BlockRef) (pending : List (Reg × Ref)) (ir : IR) : Option IR :=
  (orderGuestWrites ir pending).foldlM (writeGuestRegister b) ir

/-- A guest write that belongs to the exit state, placed before the return. -/
def writeGuestRegisterBefore (b : BlockRef) (before : Nat) (ir : IR) (write : Reg × Ref) : Option IR := do
  let symref ← ir.symbols.findRefByName .register write.1.name
  -- SS is written after the frame has been torn down.
  let extra := if write.1 = .SS then Attribute.POST_FRAME else Attribute.NONE
  let (_, ir) ← ir.blockInstrInsert b
    (guestWrite symref write.2 (Attribute.PIN ||| Attribute.EXIT_STATE ||| extra)) (.before before)
  return ir

/-- The value is kept in a temporary that is computed here. -/
def snapshot (vref : Ref) : Instr := ⟨.u16, none, Attribute.MATERIALISE, .ref, [vref]⟩

def readsPending (ir : IR) (pending : List (Reg × Ref)) (vref : Ref) : Bool :=
  pending.any fun write => refReadsInit ir vref write.1

/-- Each returned value that reads a pending register is frozen before the writes. -/
def snapshotOperands (b : BlockRef) (before : Nat) (pending : List (Reg × Ref)) :
    List Ref → IR → Option (List Ref × IR)
  | [], ir => some ([], ir)
  | v :: rest, ir => do
      let (v, ir) ← if readsPending ir pending v
        then ir.blockInstrInsert b (snapshot v) (.before before) else some (v, ir)
      let (rest, ir) ← snapshotOperands b before pending rest ir
      return (v :: rest, ir)

/-- The deferred value of SS is frozen when it reads another pending register. -/
def snapshotStackSegment (b : BlockRef) (before : Nat) (all : List (Reg × Ref)) :
    List (Reg × Ref) → IR → Option (List (Reg × Ref) × IR)
  | [], ir => some ([], ir)
  | (reg, vref) :: rest, ir =>
      if reg = .SS then
        if readsPending ir (all.filter fun write => write.1 ≠ .SS) vref then do
          let (frozen, ir) ← ir.blockInstrInsert b (snapshot vref) (.before before)
          return ((reg, frozen) :: rest, ir)
        else some ((reg, vref) :: rest, ir)
      else do
        let (rest, ir) ← snapshotStackSegment b before all rest ir
        return ((reg, vref) :: rest, ir)

abbrev EntryMemo := List (Ref × Bool)

/-- The first operand that is no entry value decides. -/
def entryAll (inner : Ref → EntryMemo → Bool × EntryMemo) : List Ref → EntryMemo → Bool × EntryMemo
  | [], memo => (true, memo)
  | r :: rest, memo =>
      match inner r memo with
      | (true, memo) => entryAll inner rest memo
      | (false, memo) => (false, memo)

/-- A value is the entry value when it is one or only carries some; a value that is being visited
counts as one. The fuel is the depth. -/
def isEntryValueInner (ir : IR) (reg : Reg) : Nat → List Ref → Ref → EntryMemo → Bool × EntryMemo
  | 0, _, _, memo => (false, memo)
  | fuel + 1, visiting, r, memo =>
      match memo.lookup r with
      | some known => (known, memo)
      | none =>
          match r with
          | .init other =>
              (initStorageParent other = reg, (r, decide (initStorageParent other = reg)) :: memo)
          | .instr _ _ =>
              if r ∈ visiting then (true, memo)
              else
                let operands := ir.valueOperands r
                let carries := (ir.instr? r).any fun instr => instr.opcode matches .phi | .ref
                if carries ∧ operands ≠ [] then
                  let (result, memo) :=
                    entryAll (isEntryValueInner ir reg fuel (r :: visiting)) operands memo
                  (result, (r, result) :: memo)
                else (false, (r, false) :: memo)
          | _ => (false, (r, false) :: memo)

def isEntryValue (ir : IR) (r : Ref) (reg : Reg) : Bool :=
  (isEntryValueInner ir reg (ir.allInstrs.length + 2) [] r []).1

/-- The return gets its frozen values, and the writes are placed before it. -/
def writeBackExit (exit : RetExit) (ir : IR) : Option IR :=
  match exit.retRef with
  | .instr b before => do
      let pending := exit.pending.filter fun write => !isEntryValue ir write.2 write.1
      if pending = [] then return ir
      else do
        let instr ← ir.instr? exit.retRef
        let (operands, ir) ← snapshotOperands b before pending instr.operands ir
        let ir := ir.modifyInstr exit.retRef fun instr => { instr with operands }
        let (pending, ir) ← snapshotStackSegment b before pending pending ir
        (orderGuestWrites ir pending).foldlM (writeGuestRegisterBefore b before) ir
  | _ => some ir

def writeBackExitRegisters : Lowering Unit := do
  let exits := (← get).retExits
  modify fun s => { s with retExits := [] }
  exits.forM fun exit => onIR fun ir => (writeBackExit exit ir).map fun ir => ((), ir)

/-- The registers that a handler may read. -/
def intRegs : List Reg := [.AX, .BX, .CX, .DX, .SI, .DI, .DS, .ES]

/-- The live registers are written before other code may read them. -/
def syncRegisters (regs : List Reg) : Lowering Unit := do
  let s ← get
  let pending ← onIR (pendingWrites s.cur regs)
  onIR fun ir => (emitGuestWrites s.cur pending ir).map fun ir => ((), ir)

def clearCarry : Lowering Unit := modify fun s => { s with lastCf := none, carryKnown := false }

/-- An interrupt handler may read and change any of the registers. -/
def processInt (ins : Asm.Instr) : Lowering Unit := do
  syncRegisters intRegs
  let num ← src ins 0
  discard <| appendInstr .void .int [num]
  setRegs (intRegs ++ [.AL, .AH, .BL, .BH, .CL, .CH, .DL, .DH, .FLAGS]) .init
  clearCarry

/-- The registers of an annotation, each once. -/
def declaredRegs (regargs : List Reg) : List Reg := (regargs.map initStorageParent).eraseDups

/-- The dirty registers that an annotation does not declare. -/
def undeclaredRegs (declared : List Reg) : List Reg → Lowering (List (Reg × Ref))
  | [] => return []
  | reg :: regs => do
      if reg ∈ declared then undeclaredRegs declared regs
      else do
        let vref ← getReg reg
        let ir := (← get).ir
        let missing ← undeclaredRegs declared regs
        return if isEntryValue ir vref reg then missing else (reg, vref) :: missing

/-- The declared register inputs of a callee are written before the call. -/
def appendRegargs : Option (List Reg) → Lowering (List (Reg × Ref))
  | none => return []
  | some regargs => do
      syncRegisters (declaredRegs regargs)
      undeclaredRegs (declaredRegs regargs) intRegs

/-- The registers that may need a write at a return. -/
def exitRegisterValues (dxIsReturn : Bool) : Lowering (List (Reg × Ref)) := do
  let regs := [Reg.BX, .CX, .DX, .SI, .DI, .ES, .SS, .DS].filter fun reg =>
    !(dxIsReturn && reg = .DX)
  regs.mapM fun reg => do return (reg, ← getReg reg)

open Lib

theorem mem_allInstrs_of_operand {ir : IR} {r o : Ref} (inside : o ∈ ir.valueOperands r) :
    r ∈ ir.allInstrs := by
  rw [IR.valueOperands] at inside
  cases found : ir.instr? r with
  | none => simp [found] at inside
  | some instr => exact IR.mem_allInstrs found

/-- The search for a read of a register ends. -/
theorem reads_ends (ir : IR) (r : Ref) (target : Reg) : ∃ found,
    Lib.search ir.valueOperands (isInitOf target) (readsFuel ir) [] [r] = some found := by
  have wide : ∀ x, (ir.valueOperands x).length ≤ (ir.allInstrs.flatMap ir.valueOperands).length := by
    intro x
    by_cases none : ir.valueOperands x = []
    · rw [none]
      exact Nat.zero_le _
    · obtain ⟨o, inside⟩ := List.exists_mem_of_ne_nil _ none
      exact (List.sublist_flatten_of_mem
        (List.mem_map_of_mem (mem_allInstrs_of_operand inside))).length_le
  have few : (Search.unseen (r :: (ir.allInstrs ++ ir.allInstrs.flatMap ir.valueOperands)) []).length ≤
      1 + ir.allInstrs.length + (ir.allInstrs.flatMap ir.valueOperands).length := by
    apply List.filter_sublist.length_le.trans
    simp only [List.length_cons, List.length_append]
    omega
  apply @Search.ends Ref _ _ _ (r :: (ir.allInstrs ++ ir.allInstrs.flatMap ir.valueOperands)) [] _ _
    (ir.allInstrs.flatMap ir.valueOperands).length
  · intro x member
    exact List.mem_cons.mpr (.inl (List.mem_singleton.mp member))
  · intro x _ y inside
    apply List.mem_cons_of_mem
    apply List.mem_append_right
    exact List.mem_flatMap.mpr ⟨x, mem_allInstrs_of_operand inside, inside⟩
  · exact fun x _ => wide x
  · have room := Nat.mul_le_mul_left (ir.allInstrs.flatMap ir.valueOperands).length few
    simp only [readsFuel, List.length_singleton]
    omega

/-- A value reads a register just when its operands lead to an entry value of that register. -/
theorem refReadsInit_iff {ir : IR} {r : Ref} {target : Reg} : refReadsInit ir r target = true ↔
    ∃ reg, initStorageParent reg = target ∧ Reaches ir.valueOperands [r] (.init reg) := by
  obtain ⟨found, ended⟩ := reads_ends ir r target
  have verdict := Search.sound (Search.Open.init _) ended
  rw [refReadsInit, ended]
  cases found with
  | none =>
      obtain ⟨x, reached, bad⟩ := verdict
      cases x with
      | init reg => exact iff_of_true rfl ⟨reg, of_decide_eq_true bad, reached⟩
      | const | instr | block | symbol | func => cases bad
  | some seen =>
      apply iff_of_false (by simp)
      intro read
      obtain ⟨reg, same, reached⟩ := read
      have good := verdict.good (.init reg) ((verdict.complete _).mpr reached)
      exact of_decide_eq_false good same

theorem refReadsInit_init (ir : IR) (reg : Reg) :
    refReadsInit ir (.init reg) (initStorageParent reg) = true :=
  refReadsInit_iff.mpr ⟨reg, rfl, .start (List.mem_singleton_self _)⟩

/-- An entry value leads to nothing else. -/
theorem eq_init_of_reaches {ir : IR} {reg : Reg} {x : Ref}
    (reached : Reaches ir.valueOperands [.init reg] x) : x = .init reg := by
  induction reached with
  | start inside => exact List.mem_singleton.mp inside
  | step _ next hypothesis =>
      rw [hypothesis] at next
      cases next

theorem refReadsInit_init_iff {ir : IR} {reg target : Reg} :
    refReadsInit ir (.init reg) target = true ↔ initStorageParent reg = target := by
  constructor
  · intro reads
    obtain ⟨other, same, reached⟩ := refReadsInit_iff.mp reads
    cases eq_init_of_reaches reached
    exact same
  · intro same
    exact same ▸ refReadsInit_init ir reg

end Build

end Dis86
