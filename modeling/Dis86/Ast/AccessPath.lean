import Dis86.Ast.Builder

namespace Dis86.Ast

/-- One component on the way into a symbol. -/
inductive PathAccess where
  | array (idx : Nat)
  | struct (name : String)
deriving DecidableEq, Repr

/-- An access path, and what is left of the access behind it. -/
structure Access where
  path : List PathAccess
  off : Nat
  sz : Nat
  typ : Typ
deriving DecidableEq, Repr

/-- One level of an access path: it ends here, fails, or goes on into a component. -/
inductive PathStep where
  | finish
  | fail (message : String)
  | descend (access : PathAccess) (typ : Typ) (off : Nat)

def accessRange (off sz : Nat) : String :=
  "Access range " ++ toString off ++ ".." ++ toString (min (off + sz) (2 ^ 64 - 1))

def arrayPath (typ base : Typ) (size : ArraySize) (off sz : Nat) : PathStep :=
  match size with
  | .unknown => .fail ("Array " ++ typ.display ++ " has unknown bound")
  | .known len =>
    match base.sizeInBytes with
    | none => .fail ("Cannot determine element size for " ++ typ.display)
    | some baseSize =>
      if baseSize = 0 then .fail ("Array " ++ typ.display ++ " has zero-sized elements")
      else
        let idx := off / baseSize
        if idx ≥ len ∨ sz > baseSize ∨
            ¬ (off + sz < 2 ^ 64 ∧ off + sz ≤ typ.sizeInBytes.getD 0) then
          .fail (accessRange off sz ++ " is outside array " ++ typ.display)
        else .descend (.array idx) base (off - idx * baseSize)

def memberEnd (member : StructMember) : Except String Nat :=
  match member.typ.sizeInBytes with
  | none => .error ("Unknown size for member " ++ member.name)
  | some size =>
    if member.off + size < 2 ^ 64 then .ok (member.off + size)
    else .error ("Layout overflow at member " ++ member.name)

/-- The first member that covers an access is taken, unless one before it has no end. -/
def memberAt (start stop : Nat) : List StructMember → Except String (Option StructMember)
  | [] => .ok none
  | member :: rest => do
      let mbrEnd ← memberEnd member
      if member.off ≤ start ∧ stop ≤ mbrEnd then return some member
      else memberAt start stop rest

def structPath (structs : List Struct) (typ : Typ) (idx off sz : Nat) : PathStep :=
  match structs[idx]? with
  | none => .fail ("Missing layout for " ++ typ.display)
  | some layout =>
    match memberAt off (off + sz) layout.members with
    | .error message => .fail message
    | .ok none => .fail (accessRange off sz ++ " does not fit a member of " ++ typ.display)
    | .ok (some member) => .descend (.struct member.name) member.typ (off - member.off)

/-- The end of an access to a structure is not checked, so it panics where it overflows. -/
def pathStep (structs : List Struct) (typ : Typ) (off sz : Nat) : Option PathStep :=
  if typ.isPrimitive then some .finish
  else match typ with
    | .guestPtr _ _ => some .finish
    | .array base size => some (arrayPath typ base size off sz)
    | .struct idx _ => if off + sz < 2 ^ 64 then some (structPath structs typ idx off sz) else none
    | _ => some (.fail ("Unsupported annotated access type " ++ typ.display))

def determinePathRecurse : Nat → List PathAccess → List Struct → Typ → Nat → Nat →
    Option (Except String Access)
  | 0, _, _, _, _, _ => none
  | fuel + 1, path, structs, typ, off, sz => do
      match ← pathStep structs typ off sz with
      | .finish => return .ok ⟨path, off, sz, typ⟩
      | .fail message => return .error message
      | .descend access typ off => determinePathRecurse fuel (path ++ [access]) structs typ off sz

def fromTypeAndOffset (fuel : Nat) (structs : List Struct) (typ : Typ) (off sz : Nat) :
    Option (Except String Access) :=
  determinePathRecurse fuel [] structs typ off sz

section Layouts

/-- The end of the members of a structure, when they stand one behind the other without gaps. -/
def occupied : Nat → List StructMember → Option Nat
  | cursor, [] => some cursor
  | cursor, member :: rest => do
      guard (member.off = cursor)
      let size ← member.typ.sizeInBytes
      occupied (cursor + size) rest

/-- A type of primitives, guest pointers, arrays, and structures that come before a bound. -/
inductive Built (structs : List Struct) (bound : Nat) : Typ → Prop where
  | primitive {typ : Typ} (primitive : typ.isPrimitive = true) : Built structs bound typ
  | guestPtr {base : Typ} {kind : GuestPtrKind} : Built structs bound (.guestPtr base kind)
  | array {base : Typ} {size : ArraySize} (inner : Built structs bound base) :
      Built structs bound (.array base size)
  | struct {idx : Nat} {layout : Struct} (before : idx < bound)
      (found : structs[idx]? = some layout) : Built structs bound (.struct idx layout.size)

/-- The checks of the configuration on its structures: members fill each of them, and the types of
members name earlier structures only. -/
structure Laid (structs : List Struct) : Prop where
  tiled : ∀ layout ∈ structs, occupied 0 layout.members = some layout.size
  small : ∀ layout ∈ structs, layout.size < 2 ^ 16
  earlier : ∀ idx layout, structs[idx]? = some layout →
    ∀ member ∈ layout.members, Built structs idx member.typ

variable {structs : List Struct} {members : List StructMember} {cursor stop : Nat}

theorem occupied_le (filled : occupied cursor members = some stop) : cursor ≤ stop := by
  induction members generalizing cursor with
  | nil => exact (Option.some.inj filled).le
  | cons member rest inductionHypothesis =>
      simp only [occupied, Option.bind_eq_bind, Option.bind_eq_some_iff] at filled
      obtain ⟨_, _, size, _, later⟩ := filled
      have := inductionHypothesis later
      omega

/-- A member of a filled structure has a size and lies inside. -/
theorem occupied_inside (filled : occupied cursor members = some stop) {member : StructMember}
    (inside : member ∈ members) :
    ∃ size, member.typ.sizeInBytes = some size ∧ member.off + size ≤ stop := by
  induction members generalizing cursor with
  | nil => cases inside
  | cons first rest inductionHypothesis =>
      simp only [occupied, Option.bind_eq_bind, Option.bind_eq_some_iff] at filled
      obtain ⟨_, here, size, sized, later⟩ := filled
      rcases List.mem_cons.mp inside with rfl | inside
      · obtain rfl := (Option.guard_eq_some' _).mp here
        exact ⟨size, sized, occupied_le later⟩
      · exact inductionHypothesis later inside

/-- A member with a size covers a byte range. -/
def covers (start stop : Nat) (member : StructMember) : Bool :=
  member.typ.sizeInBytes.any fun size => member.off ≤ start && stop ≤ member.off + size

theorem covers_iff {start stop : Nat} {member : StructMember} :
    covers start stop member = true ↔
      ∃ size, member.typ.sizeInBytes = some size ∧ member.off ≤ start ∧ stop ≤ member.off + size := by
  rw [covers, Option.any_eq_true]
  simp

variable (laid : Laid structs)
include laid

theorem Laid.inside {idx : Nat} {layout : Struct} (found : structs[idx]? = some layout)
    {member : StructMember} (inside : member ∈ layout.members) :
    ∃ size, member.typ.sizeInBytes = some size ∧ member.off + size ≤ layout.size :=
  occupied_inside (laid.tiled layout (List.mem_of_getElem? found)) inside

theorem Laid.memberEnd {idx : Nat} {layout : Struct} (found : structs[idx]? = some layout)
    {member : StructMember} (inside : member ∈ layout.members) :
    ∃ size, member.typ.sizeInBytes = some size ∧ Ast.memberEnd member = .ok (member.off + size) := by
  obtain ⟨size, sized, high⟩ := laid.inside found inside
  have small := laid.small layout (List.mem_of_getElem? found)
  refine ⟨size, sized, ?_⟩
  rw [Ast.memberEnd, sized]
  exact if_pos (by omega)

/-- In a filled structure both searches take the first member that covers the access. -/
theorem Laid.memberAt {idx : Nat} {layout : Struct} (found : structs[idx]? = some layout)
    (start stop : Nat) :
    Ast.memberAt start stop layout.members = .ok (layout.members.find? (covers start stop)) := by
  have ends (member : StructMember) (inside : member ∈ layout.members) :
      ∃ size, member.typ.sizeInBytes = some size ∧ Ast.memberEnd member = .ok (member.off + size) :=
    laid.memberEnd found inside
  generalize layout.members = members at ends
  induction members with
  | nil => rfl
  | cons member rest inductionHypothesis =>
      obtain ⟨size, sized, mbrEnd⟩ := ends member List.mem_cons_self
      have rest_eq := inductionHypothesis fun other inside => ends other (List.mem_cons_of_mem _ inside)
      rw [Ast.memberAt, mbrEnd, List.find?_cons]
      by_cases here : covers start stop member = true
      · obtain ⟨other, same, low, high⟩ := covers_iff.mp here
        obtain rfl := Option.some.inj (sized.symm.trans same)
        rw [here]
        exact if_pos ⟨low, high⟩
      · have misses : ¬ (member.off ≤ start ∧ stop ≤ member.off + size) := fun both =>
          here (covers_iff.mpr ⟨size, sized, both⟩)
        rw [Bool.not_eq_true] at here
        rw [here, ← rest_eq]
        exact if_neg misses

end Layouts

end Dis86.Ast
