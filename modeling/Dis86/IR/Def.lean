import Dis86.Asm.Instr
import Mathlib.Data.List.Basic

namespace Dis86

/-- The operations of the intermediate representation. -/
inductive Opcode where
  | nop | pin | ref | phi | unimpl
  | add | sub | shl | shr | ushr | and | or | xor
  | imul | umul | idiv | udiv | irem | urem
  | neg | not
  | signExtTo16 | signExtTo32
  | load8 | load16 | load32 | store8 | store16 | store32
  | readVar8 | readVar16 | readVar32 | writeVar8 | writeVar16 | writeVar32
  | readArr8 | readArr16 | readArr32 | writeArr8 | writeArr16
  | lower16 | upper16 | make32
  | updateFlags | eqFlags | neqFlags | gtFlags | geqFlags | ltFlags | leqFlags
  | ugtFlags | ugeqFlags | ultFlags | uleqFlags | signFlags | overflowFlags | parityFlags
  | eq | neq | gt | geq | lt | leq | ugt | ugeq | ult | uleq | sign | notSign
  | callFar | callNear | callNearPtr | callFarPtr | callArgs | int
  | repMovs | repStos | repLods | repCmps | repScas
  | in8 | in16 | out8 | out16 | ins | outs | repIns | repOuts
  | cld | std | cli | sti
  | retFar | retNear | jmp | jne | jmpTbl
  | assertEven | assertPos
deriving DecidableEq, Repr

namespace Opcode

def isLoad : Opcode → Bool
  | .load8 | .load16 | .load32 => true
  | _ => false

def isStore : Opcode → Bool
  | .store8 | .store16 | .store32 => true
  | _ => false

def isFlagMarker : Opcode → Bool
  | .updateFlags | .eqFlags | .neqFlags | .gtFlags | .geqFlags | .ltFlags | .leqFlags
  | .ugtFlags | .ugeqFlags | .ultFlags | .uleqFlags | .signFlags
  | .overflowFlags | .parityFlags => true
  | _ => false

/-- Calls, interrupts and bulk string writes may change memory without a store operand. -/
def mayClobberMemory : Opcode → Bool
  | .callFar | .callNear | .callNearPtr | .callFarPtr | .callArgs => true
  | .int => true
  | .repMovs | .repStos => true
  | .ins | .repIns => true
  | _ => false

def isMemOp : Opcode → Bool
  | .load8 | .load16 | .load32 | .store8 | .store16 | .store32
  | .readVar8 | .readVar16 | .readVar32 | .writeVar8 | .writeVar16 | .writeVar32 => true
  | _ => false

def isCall : Opcode → Bool
  | .callFar | .callNear | .callNearPtr | .callFarPtr | .callArgs => true
  | _ => false

def hasNoResult : Opcode → Bool
  | .nop | .store8 | .store16 | .out8 | .out16 | .ins | .outs | .repIns | .repOuts
  | .cld | .std | .cli | .sti | .writeVar8 | .writeVar16 | .writeVar32
  | .retFar | .retNear | .jmp | .jne | .jmpTbl => true
  | _ => false

def maybeUnused : Opcode → Bool
  | .nop | .pin | .store8 | .store16 | .writeVar8 | .writeVar16 | .writeVar32
  | .callFar | .callNear | .callNearPtr | .callFarPtr | .callArgs | .int
  | .retFar | .retNear | .jmp | .jne | .jmpTbl => true
  | _ => false

def hasSideEffects : Opcode → Bool
  | .pin | .store8 | .store16 | .writeVar8 | .writeVar16 | .writeVar32
  | .callFar | .callNear | .callNearPtr | .callFarPtr | .callArgs | .int
  | .repMovs | .repStos | .in8 | .in16 | .out8 | .out16 | .ins | .outs | .repIns | .repOuts
  | .cld | .std | .cli | .sti | .retFar | .retNear | .jmp | .jne | .jmpTbl
  | .assertEven | .assertPos | .unimpl => true
  | _ => false

end Opcode

open Asm (Reg)

/-- A guest pointer is near to some segment or carries its own. -/
inductive GuestPtrKind where
  | near | nearSs | nearEs | far
deriving DecidableEq, Repr

/-- An array type may leave its bound open. -/
inductive ArraySize where
  | known (count : Nat)
  | unknown
deriving DecidableEq, Repr

/-- The types an instruction or a symbol carries. -/
inductive Typ where
  | void | u8 | u16 | u32 | i8 | i16 | i32
  | array (base : Typ) (size : ArraySize)
  | ptr (base : Typ)
  | guestPtr (base : Typ) (kind : GuestPtrKind)
  | struct (idx : Nat) (size : Nat)
  | unknown
deriving DecidableEq, Repr

/-- The size in bytes is known only for types with a fixed layout. -/
def Typ.sizeInBytes : Typ → Option Nat
  | .void => none
  | .u8 | .i8 => some 1
  | .u16 | .i16 => some 2
  | .u32 | .i32 => some 4
  | .array base (.known count) => do
      let size ← base.sizeInBytes
      if size * count < 2 ^ 64 then some (size * count) else none
  | .array _ .unknown => none
  | .ptr _ => none
  | .guestPtr _ .far => some 4
  | .guestPtr _ _ => some 2
  | .struct _ size => some size
  | .unknown => none

def Typ.isPrimitive : Typ → Bool
  | .void | .u8 | .u16 | .u32 | .i8 | .i16 | .i32 | .unknown => true
  | _ => false

/-- The dimensions of an array follow its innermost base, the outermost one first. -/
def Typ.displayWith (dims : String) : Typ → String
  | .void => "void" ++ dims
  | .u8 => "u8" ++ dims
  | .u16 => "u16" ++ dims
  | .u32 => "u32" ++ dims
  | .i8 => "i8" ++ dims
  | .i16 => "i16" ++ dims
  | .i32 => "i32" ++ dims
  | .array base (.known count) => base.displayWith (dims ++ "[" ++ toString count ++ "]")
  | .array base .unknown => base.displayWith (dims ++ "[]")
  | .ptr base => base.displayWith "" ++ "*" ++ dims
  | .guestPtr base .near => "near<" ++ base.displayWith "" ++ ">" ++ dims
  | .guestPtr base .nearSs => "near_ss<" ++ base.displayWith "" ++ ">" ++ dims
  | .guestPtr base .nearEs => "near_es<" ++ base.displayWith "" ++ ">" ++ dims
  | .guestPtr base .far => "far<" ++ base.displayWith "" ++ ">" ++ dims
  | .struct idx _ => "struct_id_" ++ toString idx ++ dims
  | .unknown => "?unknown_type?" ++ dims

def Typ.display (typ : Typ) : String := typ.displayWith ""

/-- A member of a structure lies at a byte offset. -/
structure StructMember where
  name : String
  typ : Typ
  off : Nat
deriving DecidableEq, Repr

/-- The type database lists the members of each structure. -/
structure Struct where
  name : String
  size : Nat
  members : List StructMember
deriving DecidableEq, Repr

/-- The four symbol tables. -/
inductive Table where
  | param | local | global | register
deriving DecidableEq, Repr

/-- A symbol is named by its table and its position there. -/
structure SymbolId where
  table : Table
  idx : Nat
deriving DecidableEq, Repr

/-- A region is a byte range inside a symbol. -/
structure Region where
  off : Int
  sz : Nat
deriving DecidableEq, Repr

/-- A symbol reference accesses one region of one symbol. -/
structure SymbolRef where
  id : SymbolId
  region : Region
deriving DecidableEq, Repr

/-- A symbol definition places a name at an offset of its table. -/
structure SymbolDef where
  name : String
  typ : Typ
  off : Int
  size : Nat
deriving DecidableEq, Repr

/-- The symbol map holds one table for each kind of symbol. -/
structure SymbolMap where
  params : List SymbolDef
  locals : List SymbolDef
  globals : List SymbolDef
  registers : List SymbolDef

/-- A new map knows the sixteen-bit registers only. -/
def SymbolMap.new : SymbolMap where
  params := []
  locals := []
  globals := []
  registers := [
    ⟨"AX", .u16, 0, 2⟩, ⟨"CX", .u16, 2, 2⟩, ⟨"DX", .u16, 4, 2⟩, ⟨"BX", .u16, 6, 2⟩,
    ⟨"SP", .u16, 8, 2⟩, ⟨"BP", .u16, 10, 2⟩, ⟨"SI", .u16, 12, 2⟩, ⟨"DI", .u16, 14, 2⟩,
    ⟨"ES", .u16, 16, 2⟩, ⟨"CS", .u16, 18, 2⟩, ⟨"SS", .u16, 20, 2⟩, ⟨"DS", .u16, 22, 2⟩,
    ⟨"IP", .u16, 24, 2⟩, ⟨"FLAGS", .u16, 26, 2⟩]

def SymbolMap.getTable (map : SymbolMap) : Table → List SymbolDef
  | .param => map.params
  | .local => map.locals
  | .global => map.globals
  | .register => map.registers

/-- The lookup fails where the source would index out of bounds. -/
def SymbolRef.def? (symref : SymbolRef) (map : SymbolMap) : Option SymbolDef :=
  (map.getTable symref.id.table)[symref.id.idx]?

def SymbolRef.table (symref : SymbolRef) : Table := symref.id.table

def SymbolRef.off (symref : SymbolRef) : Int := symref.region.off

def SymbolRef.getType? (symref : SymbolRef) (map : SymbolMap) : Option Typ :=
  (symref.def? map).map SymbolDef.typ

/-- A reference at offset zero has the symbol's own name. -/
def SymbolRef.name? (symref : SymbolRef) (map : SymbolMap) : Option String :=
  (symref.def? map).map fun symbol =>
    if symref.off = 0 then symbol.name else symbol.name ++ "@+" ++ toString symref.off

/-- Blocks are named by their position in the function. -/
abbrev BlockRef := Nat

/-- A reference is the name of a value. -/
inductive Ref where
  | const (idx : Nat)
  | instr (blk : BlockRef) (idx : Nat)
  | init (reg : Reg)
  | block (blk : BlockRef)
  | symbol (symref : SymbolRef)
  | func (idx : Nat)
deriving DecidableEq, Repr

/-- A source variable is a register or a named slot. -/
inductive Name where
  | reg (reg : Reg)
  | var (name : String)
deriving DecidableEq, Repr

/-- The name of a register inside the name of a value. -/
def regName : Reg → String
  | .AX => "ax" | .CX => "cx" | .DX => "dx" | .BX => "bx"
  | .SP => "sp" | .BP => "bp" | .SI => "si" | .DI => "di"
  | .AL => "al" | .CL => "cl" | .DL => "dl" | .BL => "bl"
  | .AH => "ah" | .CH => "ch" | .DH => "dh" | .BH => "bh"
  | .ES => "es" | .CS => "cs" | .SS => "ss" | .DS => "ds"
  | .IP => "ip" | .FLAGS => "flags"

def Name.display : Name → String
  | .reg r => regName r
  | .var name => name

/-- Each definition of a variable gets its own number. -/
structure FullName where
  name : Name
  idx : Nat
deriving DecidableEq, Repr

def FullName.display (full : FullName) : String := full.name.display ++ "_" ++ toString full.idx

namespace Attribute

def NONE : BitVec 8 := 0
/-- The access may reach memory that other code can see. -/
def MAY_ESCAPE : BitVec 8 := 1
def STACK_PTR : BitVec 8 := 2
def PIN : BitVec 8 := 4
/-- The value is emitted as a named temporary at its own position. -/
def MATERIALISE : BitVec 8 := 8
def EXIT_STATE : BitVec 8 := 16
def STACK_SAVE : BitVec 8 := 32
def POST_FRAME : BitVec 8 := 64
def CALL_CONTRACT : BitVec 8 := 128

end Attribute

/-- A comparison of bytes or of words. -/
inductive CompareWidth where
  | byte | word
deriving DecidableEq, Repr

/-- An instruction names its result by its own position. -/
structure Instr where
  typ : Typ
  compareWidth : Option CompareWidth
  attrs : BitVec 8
  opcode : Opcode
  operands : List Ref
deriving DecidableEq, Repr

/-- An insertion point is an end of the block or the place before an instruction. -/
inductive Loc where
  | first
  | last
  | before (idx : Nat)
deriving DecidableEq, Repr

/-- The instructions stay where they were pushed; the order lists each of them at most once. -/
structure InstrData where
  instrs : List Instr
  order : List Nat
  bounded : ∀ idx ∈ order, idx < instrs.length
  distinct : order.Nodup

theorem bounded_range (instrs : List Instr) : ∀ idx ∈ List.range instrs.length, idx < instrs.length :=
  fun _ inside => List.mem_range.mp inside

theorem distinct_range (instrs : List Instr) : (List.range instrs.length).Nodup := List.nodup_range

theorem distinct_one : [0].Nodup := by decide

theorem distinct_two : [0, 1].Nodup := by decide

theorem distinct_three : [0, 1, 2].Nodup := by decide

def InstrData.new : InstrData := ⟨[], [], by simp, .nil⟩

def InstrData.count (data : InstrData) : Nat := data.instrs.length

def InstrData.lookup (data : InstrData) (idx : Nat) : Option Instr := data.instrs[idx]?

theorem InstrData.fresh_notMem (data : InstrData) : data.instrs.length ∉ data.order := by
  intro inside
  have := data.bounded _ inside
  omega

/-- The order places a new instruction before an old one. -/
def insertBefore (idx before : Nat) : List Nat → List Nat
  | [] => []
  | next :: rest => if next = before then idx :: next :: rest else next :: insertBefore idx before rest

theorem mem_insertBefore {idx before other : Nat} {order : List Nat}
    (inside : other ∈ insertBefore idx before order) : other = idx ∨ other ∈ order := by
  induction order with
  | nil => simp [insertBefore] at inside
  | cons next rest ih =>
      simp only [insertBefore] at inside
      split at inside
      · simpa using inside
      · rcases List.mem_cons.mp inside with rfl | inside
        · simp
        · rcases ih inside with same | old
          · exact .inl same
          · exact .inr (List.mem_cons_of_mem _ old)

theorem insertBefore_nodup {idx before : Nat} {order : List Nat} (distinct : order.Nodup)
    (fresh : idx ∉ order) : (insertBefore idx before order).Nodup := by
  induction order with
  | nil => exact .nil
  | cons next rest ih =>
      obtain ⟨first, others⟩ := List.nodup_cons.mp distinct
      simp only [List.mem_cons, not_or] at fresh
      simp only [insertBefore]
      split
      · exact List.nodup_cons.mpr ⟨by simp [fresh], distinct⟩
      · refine List.nodup_cons.mpr ⟨fun inside => ?_, ih others fresh.2⟩
        rcases mem_insertBefore inside with same | old
        · exact fresh.1 same.symm
        · exact first old

/-- The new instruction splits the order before the old one. -/
theorem insertBefore_split {idx before : Nat} {front back : List Nat} (fresh : before ∉ front) :
    insertBefore idx before (front ++ before :: back) = front ++ idx :: before :: back := by
  induction front with
  | nil => simp [insertBefore]
  | cons node rest ih =>
      simp only [List.mem_cons, not_or] at fresh
      rw [List.cons_append, insertBefore, if_neg (Ne.symm fresh.1), ih fresh.2]
      rfl

/-- The place of a new instruction in the order. -/
def insertAt (idx : Nat) (order : List Nat) : Loc → List Nat
  | .first => idx :: order
  | .last => order ++ [idx]
  | .before next => insertBefore idx next order

theorem mem_insertAt {idx other : Nat} {order : List Nat} {loc : Loc}
    (inside : other ∈ insertAt idx order loc) : other = idx ∨ other ∈ order := by
  cases loc with
  | first => simpa [insertAt] using inside
  | last => simpa [insertAt, or_comm] using inside
  | before next => exact mem_insertBefore inside

theorem insertAt_nodup {idx : Nat} {order : List Nat} (loc : Loc) (distinct : order.Nodup)
    (fresh : idx ∉ order) : (insertAt idx order loc).Nodup := by
  cases loc with
  | first => exact List.nodup_cons.mpr ⟨fresh, distinct⟩
  | last => exact List.nodup_append.mpr ⟨distinct, by simp, by
      intro old inside new isNew same
      simp only [List.mem_singleton] at isNew
      subst isNew same
      exact fresh inside⟩
  | before next => exact insertBefore_nodup distinct fresh

/-- An insertion pushes the instruction and links it into the order. -/
def InstrData.insert (data : InstrData) (instr : Instr) (loc : Loc) : Nat × InstrData :=
  (data.instrs.length, {
    instrs := data.instrs ++ [instr]
    order := insertAt data.instrs.length data.order loc
    bounded := by
      intro idx inside
      rcases mem_insertAt inside with same | old
      · simp [same]
      · have := data.bounded idx old
        simp only [List.length_append, List.length_singleton]
        omega
    distinct := insertAt_nodup loc data.distinct data.fresh_notMem })

def InstrData.modify (data : InstrData) (idx : Nat) (f : Instr → Instr) : InstrData :=
  { data with
    instrs := data.instrs.modify idx f
    bounded := by simpa using data.bounded }

/-- A block knows its predecessors and the current value of each variable. -/
structure Block where
  name : String
  defs : Name → Option Ref
  preds : List BlockRef
  data : InstrData
  sealed : Bool
  incompletePhis : List (Name × Ref)

/-- A function body; a removed block leaves an empty place. -/
structure IR where
  consts : List (BitVec 16)
  symbols : SymbolMap
  funcs : List String
  names : Ref → Option FullName
  nameNext : Name → Option Nat
  blocks : List (Option Block)

end Dis86
