import Dis86.Ast.Expr
import Dis86.IR.Fin

namespace Dis86.Ast
open Asm (Reg)

/-- What the builder reads and never changes: the type database and the function. -/
structure Input where
  structs : List Struct
  ir : IR

/-- The builder keeps the temporaries it has named, the variables it has declared and the frame
it has seen. Each temporary has a number below the count. -/
structure Builder extends Input where
  tempNames : Ref → Option Nat
  tempCount : Nat
  frameOffLow : Int
  frameOffHigh : Int
  usesEntryBp : Bool
  assigns : List (String × Typ)
  mappings : List (String × Typ × Expr)
  layoutError : Option String
  tempBounded : ∀ r k, tempNames r = some k → k < tempCount

namespace Builder

def new (structs : List Struct) (ir : IR) : Builder where
  structs := structs
  ir := ir
  tempNames := fun _ => none
  tempCount := 0
  frameOffLow := -32767
  frameOffHigh := 0
  usesEntryBp := false
  assigns := []
  mappings := []
  layoutError := none
  tempBounded := by simp

def tempName (k : Nat) : String := "tmp_" ++ toString k

/-- A value without a name becomes the next temporary. -/
def newTemp (b : Builder) (r : Ref) : Builder :=
  { b with
    tempNames := Function.update b.tempNames r (some b.tempCount)
    tempCount := b.tempCount + 1
    tempBounded := by
      intro other k named
      by_cases same : other = r
      · subst same
        simp only [Function.update_self, Option.some.injEq] at named
        omega
      · rw [Function.update_of_ne same] at named
        have := b.tempBounded other k named
        omega }

def refName (b : Builder) (r : Ref) : String × Builder :=
  match b.ir.names r with
  | some full => (full.display, b)
  | none =>
    match b.tempNames r with
    | some k => (tempName k, b)
    | none => (tempName b.tempCount, b.newTemp r)

/-- Only the first layout error is kept. -/
def setLayoutError (b : Builder) (message : String) : Builder :=
  { b with layoutError := b.layoutError <|> some message }

/-- A variable is declared at its first assignment. -/
def assign (b : Builder) (blk : Block) (typ : Typ) (name : String) (rhs : Expr) : Block × Builder :=
  (blk ++ [.assign ⟨none, .name name, rhs⟩],
    if name ∈ b.assigns.map Prod.fst then b
    else { b with assigns := b.assigns ++ [(name, typ)] })

end Builder

/-- A pointer symbol, and the read that produced its value when there is one. -/
structure GuestPointerOrigin where
  symbol : SymbolRef
  kind : GuestPtrKind
  pointerValue : Option Ref
deriving DecidableEq, Repr

/-- The search keeps the origins it has found and the depth at which it has seen a value. -/
structure OriginSearch where
  found : List GuestPointerOrigin
  visited : Ref → Option Nat

def OriginSearch.insert (search : OriginSearch) (origin : GuestPointerOrigin) : OriginSearch :=
  if origin ∈ search.found then search else { search with found := origin :: search.found }

/-- The member of a structure that covers a byte range; it fails when a size is not known. -/
def coveringMember (off size : Nat) : List StructMember → Option StructMember
  | [] => none
  | member :: rest => do
      let memberEnd := member.off + (← member.typ.sizeInBytes)
      if member.off ≤ off ∧ off + size ≤ memberEnd then return member
      coveringMember off size rest

namespace Input

/-- The search for a pointer descends at most twenty-four levels. -/
def findPointerKind (input : Input) : Nat → Typ → Nat → Nat → Option GuestPtrKind
  | 0, _, _, _ => none
  | left + 1, typ, off, size =>
    match typ with
    | .guestPtr _ kind => if off = 0 ∧ typ.sizeInBytes = some size then some kind else none
    | .array base (.known len) => do
        let baseSize ← base.sizeInBytes
        if baseSize = 0 then none
        else if off / baseSize ≥ len ∨ off % baseSize + size > baseSize then none
        else input.findPointerKind left base (off % baseSize) size
    | .struct idx _ => do
        let layout ← input.structs[idx]?
        let member ← coveringMember off size layout.members
        input.findPointerKind left member.typ (off - member.off) size
    | _ => none

def annotatedPointerKind (input : Input) (symref : SymbolRef) : Option GuestPtrKind :=
  if symref.region.off < 0 then none
  else do
    let typ ← symref.getType? input.ir.symbols
    input.findPointerKind 25 typ symref.region.off.toNat symref.region.sz

/-- A symbol is a pointer by its own type or by the layout it lies in. -/
def pointerKind (input : Input) (symref : SymbolRef) : Option GuestPtrKind :=
  match symref.getType? input.ir.symbols with
  | some (.guestPtr _ kind) => some kind
  | _ => input.annotatedPointerKind symref

/-- The search for the origins of a pointer descends at most twenty-four levels and skips a value
it has seen at the same depth or above. -/
def collectGuestPointerOrigins (input : Input) : Nat → Ref → Nat → OriginSearch → OriginSearch
  | 0, _, _, search => search
  | left + 1, r, depth, search =>
    if (search.visited r).any (· ≤ depth) then search
    else
      let search := { search with visited := Function.update search.visited r (some depth) }
      match r with
      | .symbol symref =>
        match input.pointerKind symref with
        | some kind => search.insert ⟨symref, kind, none⟩
        | none => search
      | .instr _ _ =>
        match input.ir.instr? r with
        | none => search
        | some instr =>
          match instr.opcode with
          | .readVar8 | .readVar16 | .readVar32 =>
            match instr.operands.head? with
            | some (.symbol symref) =>
              match input.pointerKind symref with
              | some kind => search.insert ⟨symref, kind, some r⟩
              | none => search
            | _ => search
          | .ref | .lower16 | .upper16 =>
            match instr.operands.head? with
            | some operand => input.collectGuestPointerOrigins left operand (depth + 1) search
            | none => search
          | _ => instr.operands.foldl
              (fun search operand => input.collectGuestPointerOrigins left operand (depth + 1) search)
              search
      | _ => search

/-- A pointer counts only when it has one origin. -/
def guestPointerOrigin (input : Input) (r : Ref) (depth : Nat) : Option GuestPointerOrigin :=
  match (input.collectGuestPointerOrigins (25 - depth) r depth ⟨[], fun _ => none⟩).found with
  | [origin] => some origin
  | _ => none

/-- A near pointer must come with the segment register of its kind. -/
def guestPointerPairMatches (input : Input) (origin : GuestPointerOrigin) (segRef : Ref) : Bool :=
  match origin.kind with
  | .near => segRef = .init .DS
  | .nearSs => segRef = .init .SS
  | .nearEs => segRef = .init .ES
  | .far => (input.guestPointerOrigin segRef 0).any fun segOrigin =>
      segOrigin = origin ∧ segOrigin.kind = .far

/-- The origin of a memory access through an annotated pointer. -/
def matchedOrigin (input : Input) (segRef offRef : Ref) : Option GuestPointerOrigin :=
  (input.guestPointerOrigin offRef 0).filter fun origin => input.guestPointerPairMatches origin segRef

end Input

/-- The frame grows to cover one local. -/
def widenFrame (low high start stop : Int) : Int × Int :=
  (if stop.natAbs < low.natAbs then stop else low,
    if start.natAbs > high.natAbs then start else high)

/-- One level of an access into a symbol: it ends with the expression, with an error beside the
expression, or goes on into a component. -/
inductive AccessStep where
  | finish (e : Expr)
  | fail (e : Expr) (message : String)
  | descend (e : Expr) (typ : Typ) (access : Region)

def Region.display (access : Region) : String :=
  toString access.off ++ ".." ++ toString (access.off + access.sz)

def arrayStep (expr : Expr) (typ base : Typ) (size : ArraySize) (access : Region)
    (symbol : String) : AccessStep :=
  match size with
  | .unknown => .fail expr ("Annotated access to " ++ symbol ++
      " uses an array with unknown bound (" ++ typ.display ++ ")")
  | .known len =>
    match base.sizeInBytes with
    | none => .fail expr ("Cannot determine element size for annotated access to " ++ symbol ++
        " (" ++ typ.display ++ ")")
    | some baseSize =>
      if baseSize = 0 ∨ access.off < 0 then
        .fail expr ("Invalid byte offset " ++ toString access.off ++ " for annotated access to " ++
          symbol ++ " (" ++ typ.display ++ ")")
      else
        let idx := access.off.toNat / baseSize
        if idx ≥ len ∨ access.off.toNat % baseSize + access.sz > baseSize ∨
            access.off.toNat + access.sz > typ.sizeInBytes.getD 0 then
          .fail expr ("Access byte range " ++ Region.display access ++ " is outside annotated " ++
            symbol ++ " layout " ++ typ.display)
        else
          let idxExpr : Expr :=
            if idx ≤ 32767 then .decimalConst (.ofNat 16 idx) else .hexConst (.ofNat 16 idx)
          .descend (.arrayAccess expr idxExpr) base ⟨access.off - idx * baseSize, access.sz⟩

/-- The first member that covers the access is taken, unless one before it has no size. -/
def structStep (structs : List Struct) (expr : Expr) (typ : Typ) (idx : Nat) (access : Region)
    (symbol : String) : AccessStep :=
  if access.off < 0 then
    .fail expr ("Invalid byte offset " ++ toString access.off ++ " for annotated access to " ++
      symbol ++ " (" ++ typ.display ++ ")")
  else
    match structs[idx]? with
    | none => .fail expr ("Missing struct layout for annotated access to " ++ symbol ++
        " (" ++ typ.display ++ ")")
    | some layout =>
      let stops (member : StructMember) : Bool := match member.typ.sizeInBytes with
        | none => true
        | some size => member.off ≤ access.off.toNat ∧
            access.off.toNat + access.sz ≤ member.off + size
      match layout.members.find? stops with
      | none => .fail expr ("Access byte range " ++ Region.display access ++
          " does not fit any member of annotated " ++ symbol ++ " (" ++ typ.display ++ ")")
      | some member =>
        if member.typ.sizeInBytes = none then
          .fail expr ("Unknown member size for annotated access to " ++ symbol ++ "." ++ member.name)
        else .descend (.structAccess expr (.name member.name)) member.typ
          ⟨access.off - member.off, access.sz⟩

/-- A partial access to a primitive reads through a cast of its address. -/
def primitiveStep (expr : Expr) (typ : Typ) (access : Region) (symbol : String) : AccessStep :=
  match typ.sizeInBytes with
  | none => .fail expr ("Unknown annotated access size for " ++ symbol ++
      " (" ++ typ.display ++ ")")
  | some size =>
    if access.off = 0 ∧ access.sz = size then .finish expr
    else
      let place : Expr := .unary .addr expr
      let place : Expr :=
        if access.off = 0 then place else .binary .add place (.hexConst (.ofInt 16 access.off))
      match access.sz with
      | 1 => .finish (.deref (.cast (.ptr .u8) place))
      | 2 => .finish (.deref (.cast (.ptr .u16) place))
      | 4 => .finish (.deref (.cast (.ptr .u32) place))
      | sz => .fail place ("Unsupported access width " ++ toString sz ++ " for annotated " ++
          symbol ++ " (" ++ typ.display ++ ")")

def accessStep (structs : List Struct) (expr : Expr) (typ : Typ) (access : Region)
    (symbol : String) : AccessStep :=
  match typ with
  | .array base size => arrayStep expr typ base size access symbol
  | .struct idx _ => structStep structs expr typ idx access symbol
  | .guestPtr _ _ =>
      if access.off ≠ 0 ∨ access.sz ≠ typ.sizeInBytes.getD 0 then
        .fail expr ("Partial access to annotated pointer " ++ symbol ++ " is unsupported")
      else .finish expr
  | .ptr _ => .fail expr ("Unsupported annotated layout type for " ++ symbol ++
      " (" ++ typ.display ++ ")")
  | _ => primitiveStep expr typ access symbol

namespace Builder

/-- An access that reaches no component leaves the expression as it is and records the error. -/
def symbolToExprRecurse : Nat → Builder → Expr → Typ → Region → String → Option (Expr × Builder)
  | 0, _, _, _, _, _ => none
  | fuel + 1, b, expr, typ, access, symbol =>
    match accessStep b.structs expr typ access symbol with
    | .finish e => some (e, b)
    | .fail e message => some (e, b.setLayoutError message)
    | .descend e typ access => symbolToExprRecurse fuel b e typ access symbol

/-- The width of a slot in the frame; other types panic in the source. -/
def slotSize : Typ → Option (Nat × String)
  | .u8 => some (1, "PTR_8")
  | .u16 => some (2, "PTR_16")
  | .u32 => some (4, "PTR_32")
  | _ => none

/-- A local widens the frame. -/
def growFrame (b : Builder) (table : Table) (sym : SymbolDef) : Option Builder :=
  if table = .local then do
    let (size, _) ← slotSize sym.typ
    guard (sym.off + size ≤ 32767)
    let (low, high) := widenFrame b.frameOffLow b.frameOffHigh sym.off (sym.off + size)
    return { b with frameOffLow := low, frameOffHigh := high }
  else some b

/-- A slot of the frame is mapped to its place on the entry stack once. -/
def mapSlot (b : Builder) (table : Table) (sym : SymbolDef) : Option Builder :=
  if (table = .local ∨ table = .param) ∧ sym.name ∉ b.mappings.map Prod.fst then do
    let (_, ptr) ← slotSize sym.typ
    let place : Expr := .deref (.abstract ptr
      [.name "SS", .binary .add (.name "SP0") (.hexConst (.ofInt 16 sym.off))])
    return { b with mappings := b.mappings ++ [(sym.name, sym.typ, place)] }
  else some b

def symbolToExpr (fuel : Nat) (b : Builder) (symref : SymbolRef) : Option (Expr × Builder) := do
  let sym ← symref.def? b.ir.symbols
  let b ← b.growFrame symref.table sym
  let b ← b.mapSlot symref.table sym
  symbolToExprRecurse fuel b (.name sym.name) sym.typ symref.region sym.name

end Builder

end Dis86.Ast
