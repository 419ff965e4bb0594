import Dis86.Opt.Sweep
import Dis86.Sym.Coalesce

namespace Dis86

/-- The size of a memory operation. A store of a double word has none. -/
def Opcode.operationSize : Opcode → Option Nat
  | .load8 => some 1
  | .load16 => some 2
  | .load32 => some 4
  | .store8 => some 1
  | .store16 => some 2
  | _ => none

namespace Sym
open IR

/-- A memory operation at an offset from the initial stack pointer. -/
structure StackAccess where
  memRef : Ref
  off : Int
  size : Nat
deriving DecidableEq, Repr

/-- The parameters lie above the initial stack pointer. -/
def StackAccess.table (access : StackAccess) : Table := if 0 < access.off then .param else .local

/-- The offset of an address. The outer result is missing where the source panics, and the inner
one where the address is not at a constant offset. -/
def stackOffset? (ir : IR) (addr : Instr) : Option (Option Int) :=
  match addr.opcode with
  | .add => addr.operands[1]?.map fun c => (ir.constLookup c).map BitVec.toInt
  | .sub => addr.operands[1]?.bind fun c =>
      match ir.constLookup c with
      | some k => (fitsI16 (-k.toInt)).map some
      | none => some none
  | _ => some none

/-- The access of an instruction, with the same meaning of the two results. -/
def stackAccess? (ir : IR) (r : Ref) : Option (Option StackAccess) := do
  let instr ← ir.instr? r
  if !instr.opcode.isLoad && !instr.opcode.isStore then return none
  if (← instr.operands[0]?) ≠ .init .SS then return none
  match ir.instr? (← instr.operands[1]?) with
  | none => return none
  | some addr =>
      if (← addr.operands[0]?) ≠ .init .SP then return none
      match ← stackOffset? ir addr with
      | none => return none
      | some off => return some ⟨r, off, ← instr.opcode.operationSize⟩

def frameOffset : Int := 2

def hex4 (k : Int) : String := (BitVec.ofInt 16 k).toHex

/-- The name of a symbol comes from its distance to the frame. -/
def StackAccess.name? (access : StackAccess) : Option String := do
  let off ← fitsI16 (access.off + frameOffset)
  if 0 < access.off then return "_param_" ++ hex4 off
  else return "_local_" ++ hex4 (← fitsI16 (-off))

def StackAccess.symbol? (access : StackAccess) : Option SymbolDef := do
  let typ ← inferTypeFromSize access.size
  return ⟨← access.name?, typ, access.off, access.size⟩

/-- The accesses in the order of the sweep, each with the symbol that it adds to its table. -/
def collect (ir : IR) : List Ref → Option (List (StackAccess × SymbolDef))
  | [] => some []
  | r :: rs => do
      match ← stackAccess? ir r with
      | none => collect ir rs
      | some access => do
          let symbol ← access.symbol?
          return (access, symbol) :: (← collect ir rs)

def tableOf (table : Table) (found : List (StackAccess × SymbolDef)) : List SymbolDef :=
  (found.filter fun entry => entry.1.table = table).map Prod.snd

/-- The first symbol that contains the offset. -/
def findRef (map : SymbolMap) (table : Table) (off : Int) (size : Nat) : Option SymbolRef := do
  let idx ← (map.getTable table).findIdx? fun symbol => symbol.start ≤ off ∧ off < symbol.stop
  let symbol ← (map.getTable table)[idx]?
  return ⟨⟨table, idx⟩, ⟨off - symbol.start, size⟩⟩

/-- The operation on a variable in place of one on memory. -/
def varOpcode : Opcode → Option Opcode
  | .load8 => some .readVar8
  | .load16 => some .readVar16
  | .load32 => some .readVar32
  | .store8 => some .writeVar8
  | .store16 => some .writeVar16
  | _ => none

def rewriteAccess (ir : IR) (access : StackAccess) : Option IR := do
  let symref ← findRef ir.symbols access.table access.off access.size
  let instr ← ir.instr? access.memRef
  let opcode ← varOpcode instr.opcode
  if instr.opcode.isLoad then
    return ir.modifyInstr access.memRef fun instr => { instr with opcode, operands := [.symbol symref] }
  else
    let value ← instr.operands[2]?
    return ir.modifyInstr access.memRef fun instr =>
      { instr with opcode, operands := [.symbol symref, value] }

/-- The tables are coalesced before any instruction refers to them. -/
def symbolizeStack (ir : IR) : Option IR := do
  let found ← collect ir ir.refs
  let params ← SymbolDef.coalesce (ir.symbols.params ++ tableOf .param found)
  let locals ← SymbolDef.coalesce (ir.symbols.locals ++ tableOf .local found)
  (found.map Prod.fst).foldlM rewriteAccess { ir with symbols := { ir.symbols with params, locals } }

/-- The number of bytes that a memory operation accesses. -/
def accessSize : Opcode → Nat
  | .load8 | .store8 => 1
  | .load16 | .store16 => 2
  | _ => 4

/-- An address at a constant distance from the initial stack pointer; the sum wraps. -/
def addressOffset? (ir : IR) (addr : Ref) : Option (BitVec 16) := do
  let instr ← ir.instr? addr
  match instr.opcode, instr.operands with
  | .add, .init .SP :: c :: _ => ir.constLookup c
  | .sub, .init .SP :: c :: _ => (ir.constLookup c).map fun k => -k
  | _, _ => none

/-- What an instruction accesses relative to the initial stack pointer. -/
def accessAt? (ir : IR) (r : Ref) : Option StackAccess := do
  let instr ← ir.instr? r
  match instr.operands with
  | .init .SS :: addr :: _ =>
      if instr.opcode.isLoad || instr.opcode.isStore then
        (addressOffset? ir addr).map fun k => ⟨r, k.toInt, accessSize instr.opcode⟩
      else none
  | _ => none

def accesses (ir : IR) : List StackAccess := ir.refs.filterMap (accessAt? ir)

/-- Two accesses have a byte of the stack segment in common. -/
def StackAccess.Overlaps (a b : StackAccess) : Prop :=
  ∃ i < a.size, ∃ j < b.size, BitVec.ofInt 16 (a.off + i) = BitVec.ofInt 16 (b.off + j)

instance (a b : StackAccess) : Decidable (a.Overlaps b) :=
  inferInstanceAs (Decidable (∃ i < a.size, ∃ j < b.size,
    BitVec.ofInt 16 (a.off + i) = BitVec.ofInt 16 (b.off + j)))

def StackAccess.stop (access : StackAccess) : Int := access.off + access.size

/-- Two regions of a symbol have a byte in common. -/
def Region.Overlaps (a b : Region) : Prop := a.off < b.off + b.sz ∧ b.off < a.off + a.sz

/-- The symbol that an instruction refers to. -/
def symbolAt? (ir : IR) (r : Ref) : Option SymbolRef := do
  match ← (← ir.instr? r).operands[0]? with
  | .symbol symref => some symref
  | _ => none

/-- The symbols are in order and apart, each access lies inside exactly one of them, and accesses
overlap in memory exactly where their regions do. -/
structure Symbolized (ir next : IR) : Prop where
  apart : SymbolDef.Apart next.symbols.params ∧ SymbolDef.Apart next.symbols.locals
  covered : ∀ a ∈ accesses ir, ∃! idx : Nat, ∃ symbol : SymbolDef,
    (next.symbols.getTable a.table)[idx]? = some symbol ∧ symbol.start ≤ a.off ∧ a.stop ≤ symbol.stop
  overlaps : ∀ a ∈ accesses ir, ∀ b ∈ accesses ir, a.Overlaps b ↔
    ∃ s t, symbolAt? next a.memRef = some s ∧ symbolAt? next b.memRef = some t ∧
      s.id = t.id ∧ Region.Overlaps s.region t.region

/-- The pass starts with empty tables, and the operands it reads are there. -/
structure StackReady (ir : IR) : Prop where
  params : ir.symbols.params = []
  locals : ir.symbols.locals = []
  memory : ∀ r instr, ir.instr? r = some instr → instr.opcode.isLoad || instr.opcode.isStore →
    2 ≤ instr.operands.length
  stored : ∀ r instr, ir.instr? r = some instr → instr.opcode.isStore → 3 ≤ instr.operands.length
  addressed : ∀ r instr addr, ir.instr? r = some instr → instr.opcode.isLoad || instr.opcode.isStore →
    instr.operands[1]? = some addr → ∀ source, ir.instr? addr = some source →
    1 ≤ source.operands.length ∧
      (source.opcode = .add ∨ source.opcode = .sub → 2 ≤ source.operands.length)

/-- The address subtracts the constant that has no negation. -/
def NegatesLowest (ir : IR) (r : Ref) : Prop :=
  ∃ instr addr source c, ir.instr? r = some instr ∧ instr.operands[1]? = some addr ∧
    ir.instr? addr = some source ∧ source.opcode = .sub ∧ source.operands[1]? = some c ∧
    ir.constLookup c = some 0x8000

/-- What the accesses of a function need. -/
structure Symbolizable (ir : IR) : Prop where
  narrow : ∀ a ∈ accesses ir, ∀ instr, ir.instr? a.memRef = some instr → instr.opcode ≠ .store32
  negatable : ∀ a ∈ accesses ir, ¬ NegatesLowest ir a.memRef
  nameable : ∀ a ∈ accesses ir, a.off ≤ 32765
  aligned : ∀ a ∈ accesses ir, ∀ b ∈ accesses ir, a.table = b.table → a.off < b.off → b.off < a.stop →
    a.stop = b.stop
  separate : ∀ a ∈ accesses ir, ∀ b ∈ accesses ir, a.table ≠ b.table → ¬ a.Overlaps b

end Sym

end Dis86
