import Dis86.IR.Fin
import Dis86.Lib.DepthFirst

namespace Dis86.Abi
open IR
open Asm (Reg)
open Lib (anyOf depthFirst)

/-- A byte is stored in the register that it is part of. -/
def storageParent : Reg → Reg
  | .AL | .AH => .AX
  | .BL | .BH => .BX
  | .CL | .CH => .CX
  | .DL | .DH => .DX
  | reg => reg

def isProjection : Opcode → Bool
  | .ref | .upper16 | .lower16 | .and | .or | .ushr | .shl => true
  | _ => false

/-- The operands of a projection. A reference to no instruction panics in the source. -/
def projected (ir : IR) (r : Ref) : List Ref :=
  match ir.instr? r with
  | some instr => if isProjection instr.opcode then instr.operands else []
  | none => []

/-- Every operand of every instruction. -/
def mentioned (ir : IR) : List Ref :=
  ir.blocks.flatMap fun block => (block.map fun block => block.data.instrs.flatMap Instr.operands).getD []

/-- A value is a target or a projection of one. The operands are searched once each. -/
def derivesBy (ir : IR) (isTarget : Ref → Bool) (value : Ref) : Bool :=
  (depthFirst (fun r => some (projected ir r)) isTarget ((mentioned ir).length + 2) value []).any Prod.fst

def derivesFrom (ir : IR) (value target : Ref) : Bool := derivesBy ir (fun r => r = target) value

def isPartOf (reg : Reg) : Ref → Bool
  | .init r => storageParent r = reg
  | _ => false

def derivesFromReg (ir : IR) (value : Ref) (reg : Reg) : Bool := derivesBy ir (isPartOf reg) value

/-- Calls and interrupts change the register. The value that is put back at the exit does not. -/
def writesDx (ir : IR) (instr : Instr) : Bool :=
  match instr.opcode with
  | .callArgs | .callNear | .callFar | .callNearPtr | .callFarPtr | .int => true
  | .writeVar16 =>
    if instr.attrs &&& Attribute.EXIT_STATE ≠ 0 then false
    else match instr.operands.head? with
      | some (.symbol sym) => sym.table = .register && sym.name? ir.symbols = some "DX"
      | _ => false
  | _ => false

/-- The upper half of the result of a call. -/
def isUpperOf (ir : IR) (call r : Ref) : Bool :=
  (ir.instr? r).any fun instr => instr.opcode = .upper16 && instr.operands.head? = some call

def dxResultOfCall (ir : IR) (call : Ref) : Option Ref :=
  ir.iterBlocks.findSome? fun b => (ir.iterInstrs b).find? (isUpperOf ir call)

def readsDx (ir : IR) (dxResult : Option Ref) (instr : Instr) : Bool :=
  instr.operands.any (derivesFromReg ir · .DX) ||
    dxResult.any fun result => instr.operands.any (derivesFrom ir · result)

/-- How the instructions of a block decide the search: by a write, by a read, or not at all. -/
inductive Event where
  | stop | hit | through
deriving DecidableEq, Repr

def scan (ir : IR) (live : Ref → Bool) (dxResult : Option Ref) : List Ref → Event
  | [] => .through
  | r :: rest =>
    match ir.instr? r with
    | none => scan ir live dxResult rest
    | some instr =>
      if writesDx ir instr then .stop
      else if live r && readsDx ir dxResult instr then .hit
      else scan ir live dxResult rest

/-- The exits of a block, and the blocks that name it as a predecessor. -/
def successors (ir : IR) (blk : BlockRef) : Option (List BlockRef) := do
  let exits ← ir.blockExits blk
  return exits ++ ir.iterBlocks.filter fun b => blk ∈ ir.preds b && b ∉ exits

/-- The search is given the number of instructions to skip in its first block. -/
def readsDxFrom (ir : IR) (live : Ref → Bool) (dxResult : Option Ref) :
    Nat → BlockRef → Option Nat → List BlockRef → Option (Bool × List BlockRef)
  | 0, _, _, _ => none
  | fuel + 1, blk, after, seen =>
    if blk ∈ seen then some (false, seen)
    else match scan ir live dxResult ((ir.iterInstrs blk).drop (after.getD 0)) with
      | .stop => some (false, blk :: seen)
      | .hit => some (true, blk :: seen)
      | .through => do
          anyOf (fun succ seen => readsDxFrom ir live dxResult fuel succ none seen)
            (← successors ir blk) (blk :: seen)

/-- The place where the call is stored, plus one, is where the search starts in its block. -/
def callerReadsDxAfterCall (ir : IR) (live : Ref → Bool) (call : Ref) : Option Bool :=
  if live call then
    match call with
    | .instr blk idx =>
        (readsDxFrom ir live (dxResultOfCall ir call) (ir.blocks.length + 2) blk (some (idx + 1)) []).map
          Prod.fst
    | _ => some false
  else some false

section Derivation

variable {ir : IR} {isTarget : Ref → Bool} {value target : Ref}

theorem mem_mentioned {r o : Ref} (next : o ∈ projected ir r) : o ∈ mentioned ir := by
  unfold projected at next
  split at next
  · rename_i instr found
    split at next
    · cases r with
      | instr b idx =>
          obtain ⟨block, isBlock, isInstr⟩ := Option.bind_eq_some_iff.mp found
          rw [block?, List.getD_eq_getElem?_getD] at isBlock
          cases stored : ir.blocks[b]? with
          | none => rw [stored] at isBlock; cases isBlock
          | some slot =>
              rw [stored, Option.getD_some] at isBlock
              subst isBlock
              refine List.mem_flatMap.mpr ⟨some block, List.mem_of_getElem? stored, ?_⟩
              exact List.mem_flatMap.mpr ⟨instr, List.mem_of_getElem? isInstr, next⟩
      | _ => cases found
    · cases next
  · cases next

/-- The operands that projections lead to. -/
def Derives (ir : IR) (value : Ref) : Ref → Prop := Lib.Reaches (projected ir) [value]

theorem derivesBy_iff : derivesBy ir isTarget value = true ↔ ∃ t, isTarget t = true ∧ Derives ir value t := by
  have enough : ((value :: mentioned ir).toFinset.filter (· ∉ ([] : List Ref))).card < (mentioned ir).length + 2 := by
    have few := List.toFinset_card_le (value :: mentioned ir)
    have less := Finset.card_filter_le (value :: mentioned ir).toFinset (· ∉ ([] : List Ref))
    rw [List.length_cons] at few
    omega
  have inside : value ∈ (value :: mentioned ir).toFinset := by simp
  have closed : ∀ r ∈ (value :: mentioned ir).toFinset, ∃ next, some (projected ir r) = some next ∧
      ∀ o ∈ next, o ∈ (value :: mentioned ir).toFinset :=
    fun r _ => ⟨_, rfl, fun o next => by simp [mem_mentioned next]⟩
  obtain ⟨answer, ran, _⟩ := Lib.depthFirst_isSome inside closed enough
  have same : Lib.Away (fun r => some (projected ir r)) [] [value] = Derives ir value := by
    have steps : Lib.around (fun r => some (projected ir r)) [] = projected ir := by
      funext r
      simp [Lib.around]
    rw [Lib.Away, steps]
    rfl
  rw [derivesBy, ran, Option.any_some, (Lib.depthFirst_answer ran).iff, same]

end Derivation

end Dis86.Abi
