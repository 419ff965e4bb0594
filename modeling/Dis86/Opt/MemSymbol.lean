import Dis86.IR.Ssa
import Mathlib.Data.Option.Basic

namespace Dis86.Opt
open Lib IR

/-- A block with an operation that may write memory keeps its variable accesses. -/
def clobbers (ir : IR) (b : BlockRef) : Bool :=
  (ir.iterInstrs b).any fun r => (ir.instr? r).any fun instr => instr.opcode.mayClobberMemory

/-- The variable of a two-byte symbol of the local table. The outer result is missing where the
source panics, and the inner one where it leaves the access alone. -/
def localWord? (ir : IR) (instr : Instr) : Option (Option Name) := do
  match ← instr.operands[0]? with
  | .symbol symref =>
      if symref.table = .local then
        let symbol ← symref.def? ir.symbols
        if symbol.size = 2 then
          let name ← symref.name? ir.symbols
          return some (.var name)
        else return none
      else return none
  | _ => return none

def toRef (value : Ref) (instr : Instr) : Instr := { instr with opcode := .ref, operands := [value] }

/-- A write becomes a reference to its value, and a read becomes a reference to the variable. -/
def liftInstr (b : BlockRef) (ir : IR) (r : Ref) : Option IR := do
  let instr ← ir.instr? r
  if instr.attrs &&& Attribute.MAY_ESCAPE ≠ 0 then return ir
  match instr.opcode with
  | .writeVar16 =>
      match ← localWord? ir instr with
      | some name =>
          let value ← instr.operands[1]?
          (ir.modifyInstr r (toRef value)).setVar name b r
      | none => return ir
  | .readVar16 =>
      match ← localWord? ir instr with
      | some name =>
          let (vref, ir) ← ir.getVar name b
          return ir.modifyInstr r (toRef vref)
      | none => return ir
  | _ => return ir

def liftBlock (ir : IR) (b : BlockRef) : Option IR :=
  if clobbers ir b then some ir else (ir.iterInstrs b).foldlM (liftInstr b) ir

/-- The pass reopens all blocks, so that reads create phis, and seals them at the end. -/
def memSymbolToRef (ir : IR) : Option IR := do
  let ir := ir.unsealAllBlocks
  let ir ← ir.iterBlocks.foldlM liftBlock ir
  ir.sealAllBlocks

/-- An access of a whole local slot. -/
inductive Access where
  | read (slot : Nat) (r : Ref)
  | write (slot : Nat) (r : Ref)
deriving DecidableEq, Repr

def Access.ref : Access → Ref
  | .read _ r => r
  | .write _ r => r

def Access.writes (slot : Nat) : Access → Option Ref
  | .write other r => if other = slot then some r else none
  | .read _ _ => none

/-- The accesses are the sixteen-bit reads and writes of whole two-byte locals that do not escape. -/
def access? (ir : IR) (r : Ref) : Option Access := do
  let instr ← ir.instr? r
  guard (instr.attrs &&& Attribute.MAY_ESCAPE = 0)
  let .symbol symref ← instr.operands[0]? | none
  guard (symref.table = .local ∧ symref.region = ⟨0, 2⟩)
  let symbol ← symref.def? ir.symbols
  guard (symbol.size = 2)
  match instr.opcode with
  | .writeVar16 => some (.write symref.id.idx r)
  | .readVar16 => some (.read symref.id.idx r)
  | _ => none

def accesses (ir : IR) (b : BlockRef) : List Access := (ir.iterInstrs b).filterMap (access? ir)

def lastWrite (slot : Nat) (accesses : List Access) : Option Ref :=
  accesses.reverse.findSome? (Access.writes slot)

/-- The SSA variable of a local slot. -/
def localName (ir : IR) (slot : Nat) : Name :=
  .var (((ir.symbols.locals[slot]?).map fun symbol => symbol.name).getD "")

/-- A function that accesses its locals only as whole two-byte slots. -/
structure LocalSlots (ir : IR) : Prop where
  whole : ∀ r instr symref, ir.instr? r = some instr →
    instr.opcode = .writeVar16 ∨ instr.opcode = .readVar16 →
    instr.operands[0]? = some (.symbol symref) → symref.table = .local →
    instr.attrs &&& Attribute.MAY_ESCAPE = 0 ∧ symref.region = ⟨0, 2⟩ ∧
      ∃ symbol, symref.def? ir.symbols = some symbol ∧ symbol.size = 2
  names : (ir.symbols.locals.map fun symbol => symbol.name).Nodup
  unnamed : ∀ slot b, (ir.flow (localName ir slot)).defined b = none
  settled : ∀ b, ir.incompletePhis b = []

theorem lastWrite_append (slot : Nat) (accesses : List Access) (access : Access) :
    lastWrite slot (accesses ++ [access]) =
      (access.writes slot).or (lastWrite slot accesses) := by
  simp only [lastWrite, List.reverse_append, List.reverse_singleton, List.singleton_append,
    List.findSome?_cons]
  cases access.writes slot <;> rfl

/-- Distinct slots have distinct variables. -/
theorem LocalSlots.localName_injective {ir : IR} (slots : LocalSlots ir) {first second : Nat}
    (firstIn : first < ir.symbols.locals.length) (secondIn : second < ir.symbols.locals.length)
    (same : localName ir first = localName ir second) : first = second := by
  simp only [localName, List.getElem?_eq_getElem firstIn, List.getElem?_eq_getElem secondIn,
    Option.map_some, Option.getD_some, Name.var.injEq] at same
  have distinct := slots.names
  rw [List.nodup_iff_injective_getElem] at distinct
  have indices := @distinct ⟨first, by simpa using firstIn⟩ ⟨second, by simpa using secondIn⟩
    (by simpa using same)
  simpa using indices

/-- An access names an existing instruction and an existing slot. -/
theorem access?_eq {ir : IR} {r : Ref} {access : Access} (found : access? ir r = some access) :
    access.ref = r ∧ ∃ instr slot, ir.instr? r = some instr ∧
      instr.attrs &&& Attribute.MAY_ESCAPE = 0 ∧ slot < ir.symbols.locals.length ∧
      localWord? ir instr = some (some (localName ir slot)) ∧
      (access = .write slot r ∧ instr.opcode = .writeVar16 ∨
        access = .read slot r ∧ instr.opcode = .readVar16) := by
  simp only [access?, Option.bind_eq_bind, Option.bind_eq_some_iff] at found
  obtain ⟨instr, present, _, private', op, first, found⟩ := found
  rw [Option.guard_eq_some'] at private'
  cases op with
  | symbol symref =>
      simp only [Option.bind_eq_some_iff] at found
      obtain ⟨_, isLocal, symbol, defined, _, isWord, found⟩ := found
      rw [Option.guard_eq_some'] at isLocal isWord
      have slotIn : symref.id.idx < ir.symbols.locals.length := by
        have named := isLocal.1
        simp only [SymbolRef.table] at named
        simp only [SymbolRef.def?, SymbolMap.getTable, named] at defined
        exact (List.getElem?_eq_some_iff.mp defined).1
      have word : localWord? ir instr = some (some (localName ir symref.id.idx)) := by
        have named := isLocal.1
        have atZero : symref.off = 0 := by simp [SymbolRef.off, isLocal.2]
        have entry : ir.symbols.locals[symref.id.idx]? = some symbol := by
          simp only [SymbolRef.table] at named
          simpa only [SymbolRef.def?, SymbolMap.getTable, named] using defined
        simp [localWord?, first, named, defined, isWord, SymbolRef.name?, atZero, localName, entry]
      have kind : access = .write symref.id.idx r ∧ instr.opcode = .writeVar16 ∨
          access = .read symref.id.idx r ∧ instr.opcode = .readVar16 := by
        split at found
        · rename_i isWrite
          exact .inl ⟨by simpa using found.symm, isWrite⟩
        · rename_i isRead
          exact .inr ⟨by simpa using found.symm, isRead⟩
        · simp at found
      refine ⟨?_, instr, symref.id.idx, present, private', slotIn, word, kind⟩
      rcases kind with ⟨same, _⟩ | ⟨same, _⟩ <;> rw [same] <;> rfl
  | _ => simp at found

end Dis86.Opt
