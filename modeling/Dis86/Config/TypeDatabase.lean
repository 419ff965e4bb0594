import Dis86.IR.Def
import Dis86.Lib.Text

namespace Dis86
open Lib (strip)

/-- Why an annotation is no type. -/
inductive TypeError where
  | failed (s : List Char)
  | pointee (inner s : List Char)
  | suffix (s : List Char)
  | bound (dim s : List Char)
  | zeroBound (s : List Char)
deriving DecidableEq, Repr

/-- The characters with the Unicode property `White_Space`. -/
def isWhitespace (c : Char) : Bool :=
  0x09 ≤ c.toNat && c.toNat ≤ 0x0d || c.toNat = 0x20 || c.toNat = 0x85 || c.toNat = 0xa0 ||
    c.toNat = 0x1680 || 0x2000 ≤ c.toNat && c.toNat ≤ 0x200a || c.toNat = 0x2028 ||
    c.toNat = 0x2029 || c.toNat = 0x202f || c.toNat = 0x205f || c.toNat = 0x3000

def withoutSign : List Char → List Char
  | '+' :: rest => rest
  | s => s

/-- A number of 64 bits may have a sign. -/
def parseUsize (s : List Char) : Option Nat :=
  let digits := withoutSign s
  if digits ≠ [] ∧ digits.all Char.isDigit ∧ Nat.ofDigitChars 10 digits 0 < 2 ^ 64 then
    some (Nat.ofDigitChars 10 digits 0)
  else none

structure TypeDatabase where
  structs : List Struct
  basetypes : List (String × Typ)

namespace TypeDatabase

def new : TypeDatabase where
  structs := []
  basetypes := [("void", .void), ("u8", .u8), ("u16", .u16), ("u32", .u32), ("i8", .i8),
    ("i16", .i16), ("i32", .i32)]

/-- A later type hides an earlier one with its name. -/
def appendStruct (db : TypeDatabase) (s : Struct) : TypeDatabase where
  structs := db.structs ++ [s]
  basetypes := (s.name, .struct db.structs.length s.size) :: db.basetypes

def basetype? (db : TypeDatabase) (name : List Char) : Option Typ :=
  db.basetypes.lookup (String.ofList name)

end TypeDatabase

def guestPointers : List (String × GuestPtrKind) :=
  [("near_ss<", .nearSs), ("near_es<", .nearEs), ("near<", .near), ("far<", .far)]

/-- The text between an opening and the last character. -/
def insidePointer (opening s : List Char) : Option (List Char) :=
  if opening.isPrefixOf s && s.getLast? == some '>' then some (s.drop opening.length).dropLast
  else none

/-- The pointee of a guest pointer. A pointer without one is not read as a pointer. -/
def guestPointer? (s : List Char) : Option (GuestPtrKind × List Char) :=
  (guestPointers.findSome? fun (opening, kind) =>
    (insidePointer opening.toList s).map fun inner => (kind, inner)).filter
      fun (_, inner) => inner ≠ []

def isBracket (c : Char) : Bool := c = '[' || c = ']' || c = '<' || c = '>'

def parseBound (s dim : List Char) : Except TypeError ArraySize :=
  if dim = [] then .ok .unknown
  else match parseUsize dim with
    | none => .error (.bound dim s)
    | some 0 => .error (.zeroBound s)
    | some n => .ok (.known n)

theorem length_dropWhile_le {A : Type} (p : A → Bool) (s : List A) :
    (s.dropWhile p).length ≤ s.length :=
  (List.dropWhile_suffix p).length_le

/-- The dimensions of an array, each in its brackets. -/
def parseDims (s : List Char) : List Char → Except TypeError (List ArraySize)
  | [] => .ok []
  | '[' :: afterOpen =>
      match _shape : afterOpen.dropWhile (· ≠ ']') with
      | [] => .error (.failed s)
      | _ :: rest => do
          let size ← parseBound s (afterOpen.takeWhile (· ≠ ']'))
          if rest ≠ [] ∧ rest.head? ≠ some '[' then .error (.suffix s)
          else return size :: (← parseDims s rest)
  | _ => .error (.suffix s)
termination_by rest => rest.length
decreasing_by
  have short := length_dropWhile_le (fun c => decide (c ≠ ']')) afterOpen
  simp only [_shape, List.length_cons] at short ⊢
  omega

theorem length_strip_le {A : Type} (p : A → Bool) (s : List A) : (strip p s).length ≤ s.length := by
  obtain ⟨before, after, same, _⟩ := Lib.exists_strip p s
  have lengths := congrArg List.length same
  simp only [List.length_append] at lengths
  omega

theorem length_guestPointer? {s inner : List Char} {kind : GuestPtrKind}
    (found : guestPointer? s = some (kind, inner)) : inner.length < s.length := by
  obtain ⟨form, full⟩ := Option.filter_eq_some_iff.mp found
  obtain ⟨⟨opening, kind'⟩, member, inside⟩ := List.exists_of_findSome?_eq_some form
  obtain ⟨inner', cut, same⟩ := Option.map_eq_some_iff.mp inside
  obtain ⟨rfl, rfl⟩ := Prod.mk.inj same
  unfold insidePointer at cut
  split at cut
  · rename_i shape
    obtain rfl := Option.some.inj cut
    rw [Bool.and_eq_true, beq_iff_eq] at shape
    cases s with
    | nil => simp at shape
    | cons c s =>
        rw [List.length_dropLast, List.length_drop, List.length_cons]
        omega
  · cases cut

namespace TypeDatabase

/-- A pointee is a plain name, and the bounds of an array follow its base. -/
def parseType (db : TypeDatabase) (text : List Char) : Except TypeError Typ :=
  let s := strip isWhitespace text
  match db.basetype? s with
  | some typ => .ok typ
  | none =>
      match _pointer : guestPointer? s with
      | some (kind, inner) =>
          if inner.any isBracket then .error (.pointee inner s)
          else do return .guestPtr (← parseType db inner) kind
      | none =>
          if _bracket : '[' ∈ s then
            if s.getLast? ≠ some ']' then .error (.failed s)
            else do
              let base ← parseType db (s.takeWhile (· ≠ '['))
              let dims ← parseDims s (s.dropWhile (· ≠ '['))
              return dims.foldr (fun size typ => .array typ size) base
          else .error (.failed s)
termination_by text.length
decreasing_by
  · have short := length_guestPointer? _pointer
    have stripped : s.length ≤ text.length := length_strip_le isWhitespace text
    omega
  · have stripped : s.length ≤ text.length := length_strip_le isWhitespace text
    have cut := List.takeWhile_append_dropWhile (p := fun c => decide (c ≠ '[')) (l := s)
    have lengths := congrArg List.length cut
    rw [List.length_append] at lengths
    have more : 0 < (s.dropWhile fun c => decide (c ≠ '[')).length := by
      rw [List.length_pos_iff]
      intro none_
      have all := List.dropWhile_eq_nil_iff.mp none_ '[' _bracket
      simp at all
    show (s.takeWhile fun c => decide (c ≠ '[')).length < text.length
    omega

end TypeDatabase

end Dis86
