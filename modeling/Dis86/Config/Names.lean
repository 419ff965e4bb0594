import Dis86.Config.TypeDatabase

namespace Dis86
open Lib (strip)

namespace Annotation

/-- Why an annotation is refused. -/
inductive AnnotationError where
  | invalidType (s : List Char)
  | invalidPointer (s : List Char)
  | intDigits (digits : List Char)
  | zeroBound (s : List Char)
  | oversized (basetype : List Char) (dimensions : List (Option Nat))
deriving DecidableEq, Repr

/-- The sizes of the types that have been defined. -/
def typeSizes (structs : List Struct) : List (String × Nat) :=
  [("u8", 1), ("i8", 1), ("u16", 2), ("i16", 2), ("u32", 4), ("i32", 4)] ++
    structs.map fun s => (s.name, s.size)

/-- White space, and the separators of ASCII. -/
def isSpace (c : Char) : Bool := isWhitespace c || 0x1c ≤ c.toNat && c.toNat ≤ 0x1f

section
variable (alnum : Char → Bool)

/-- A character of an identifier. What is alphanumeric beyond ASCII is a table of its own. -/
def isWord (c : Char) : Bool :=
  c = '_' || if c.toNat < 128 then c.isAlphanum else alnum c && !isSpace c

def isIdentifier : List Char → Bool
  | [] => false
  | c :: rest => (c = '_' || c.isAlpha) && rest.all (isWord alnum)

def pointerKinds : List (String × GuestPtrKind) :=
  [("near<", .near), ("near_ss<", .nearSs), ("near_es<", .nearEs), ("far<", .far)]

/-- A pointer to a plain name. -/
def pointerSpec (typename : List Char) : Option (GuestPtrKind × List Char) :=
  pointerKinds.findSome? fun (opening, kind) =>
    ((insidePointer opening.toList typename).filter (isIdentifier alnum)).map fun name =>
      (kind, name)

def pointerWidth (typename : List Char) : Option Nat :=
  (pointerSpec alnum typename).map fun spec => if spec.1 = .far then 4 else 2

def basetypeSizeInBytes (structs : List Struct) (typename : List Char) : Option Nat :=
  (typeSizes structs).lookup (String.ofList typename)

end

/-- A base with the bounds of its dimensions, the outermost one first. -/
structure Annotated where
  basetype : List Char
  dimensions : List (Option Nat)
deriving DecidableEq, Repr

/-- The digits between the brackets of a suffix that has nothing else. -/
def suffixGroups : List Char → Option (List (List Char))
  | [] => some []
  | '[' :: afterOpen =>
      match _shape : afterOpen.dropWhile Char.isDigit with
      | ']' :: rest => (afterOpen.takeWhile Char.isDigit :: ·) <$> suffixGroups rest
      | _ => none
  | _ => none
termination_by suffix => suffix.length
decreasing_by
  have short := length_dropWhile_le Char.isDigit afterOpen
  simp only [_shape, List.length_cons] at short ⊢
  omega

/-- A number is converted when it has no more digits than the default limit. -/
def int (digits : List Char) : Except AnnotationError Nat :=
  if digits.length ≤ 4300 then .ok (Nat.ofDigitChars 10 digits 0) else .error (.intDigits digits)

def dimension (digits : List Char) : Except AnnotationError (Option Nat) :=
  if digits = [] then .ok none else some <$> int digits

def isUnbracketed (c : Char) : Bool := c ≠ '[' && c ≠ ']'

section
variable (alnum : Char → Bool)

def fromStr (text : List Char) : Except AnnotationError Annotated := do
  let s := strip isSpace text
  let base := s.takeWhile isUnbracketed
  if base = [] then .error (.invalidType s)
  else match suffixGroups (s.dropWhile isUnbracketed) with
    | none => .error (.invalidType s)
    | some groups =>
        if pointerKinds.any (fun (opening, _) => opening.toList.isPrefixOf base) ∧
            pointerWidth alnum base = none then .error (.invalidPointer s)
        else do
          let dims ← groups.mapM dimension
          if some 0 ∈ dims then .error (.zeroBound s)
          else return ⟨base, dims⟩

/-- The size of an array must stay within a segment. -/
def growSize (typ : Annotated) : Nat → List (Option Nat) → Except AnnotationError (Option Nat)
  | size, [] => .ok (some size)
  | _, none :: _ => .ok none
  | size, some n :: dims =>
      if size * n > 0xffff then .error (.oversized typ.basetype typ.dimensions)
      else growSize typ (size * n) dims

def sizeInBytes (structs : List Struct) (typ : Annotated) : Except AnnotationError (Option Nat) :=
  match (pointerWidth alnum typ.basetype).or (basetypeSizeInBytes structs typ.basetype) with
  | none => .ok none
  | some size => if none ∈ typ.dimensions then .ok none else growSize typ size typ.dimensions

/-- The size of an accepted annotation, when it is known. -/
def knownSize (structs : List Struct) (text : List Char) : Option Nat :=
  match fromStr alnum text >>= sizeInBytes alnum structs with
  | .ok size => size
  | .error _ => none

/-- Structures that the annotations define and name, each once. -/
structure Defined (structs : List Struct) : Prop where
  suffix : ∀ s ∈ structs, ['_', 't'] <:+ s.name.toList
  size : ∀ s ∈ structs, 0 < s.size ∧ s.size ≤ 0xffff
  unique : (structs.map Struct.name).Nodup
  named : ∀ s ∈ structs, fromStr alnum s.name.toList = .ok ⟨s.name.toList, []⟩

end

end Annotation

open Lib (Bare Blank)

def GuestPtrKind.opening : GuestPtrKind → List Char
  | .near => ['n', 'e', 'a', 'r', '<']
  | .nearSs => ['n', 'e', 'a', 'r', '_', 's', 's', '<']
  | .nearEs => ['n', 'e', 'a', 'r', '_', 'e', 's', '<']
  | .far => ['f', 'a', 'r', '<']

def GuestPtrKind.width : GuestPtrKind → Nat
  | .far => 4
  | _ => 2

theorem insidePointer_eq_some {opening s inner : List Char} (last : opening.getLast? = some '<') :
    insidePointer opening s = some inner ↔ s = opening ++ inner ++ ['>'] := by
  unfold insidePointer
  constructor
  · intro found
    split at found
    · rename_i shape
      obtain rfl := Option.some.inj found
      rw [Bool.and_eq_true, List.isPrefixOf_iff_prefix, beq_iff_eq] at shape
      obtain ⟨⟨rest, rfl⟩, final⟩ := shape
      rw [List.drop_left]
      cases rest using List.reverseRecOn with
      | nil =>
          rw [List.append_nil, last] at final
          exact absurd final (by decide)
      | append_singleton rest c =>
          rw [← List.append_assoc, List.getLast?_append] at final
          obtain rfl : c = '>' := by simpa using final
          rw [List.dropLast_concat, ← List.append_assoc]
    · cases found
  · rintro rfl
    have starts : opening.isPrefixOf (opening ++ inner ++ ['>']) = true := by
      rw [List.isPrefixOf_iff_prefix, List.append_assoc]
      exact List.prefix_append _ _
    have final : (opening ++ inner ++ ['>']).getLast? = some '>' := by simp
    rw [starts, final, List.append_assoc, List.drop_left, List.dropLast_concat]
    rfl

theorem GuestPtrKind.opening_last (kind : GuestPtrKind) : kind.opening.getLast? = some '<' := by
  cases kind <;> rfl

/-- The openings of two kinds are told apart by the text that follows. -/
theorem GuestPtrKind.opening_inj {kind kind' : GuestPtrKind} {rest rest' : List Char}
    (same : kind.opening ++ rest = kind'.opening ++ rest') : kind = kind' := by
  cases kind <;> cases kind' <;> simp [opening] at same ⊢

/-- A pointer is read by the form that it has, whatever the order of the forms. -/
theorem findSome_pointer {forms : List (String × GuestPtrKind)} {test : List Char → Bool}
    (opens : ∀ form ∈ forms, form.1.toList = form.2.opening)
    (all : ∀ kind, ∃ form ∈ forms, form.2 = kind) {s inner : List Char} {kind : GuestPtrKind} :
    forms.findSome? (fun (opening, kind) =>
        ((insidePointer opening.toList s).filter test).map fun inner => (kind, inner)) =
      some (kind, inner) ↔ s = kind.opening ++ inner ++ ['>'] ∧ test inner = true := by
  have reads {kind : GuestPtrKind} {inner : List Char} (found : forms.findSome?
      (fun (opening, kind) => ((insidePointer opening.toList s).filter test).map fun inner =>
        (kind, inner)) = some (kind, inner)) :
      s = kind.opening ++ inner ++ ['>'] ∧ test inner = true := by
    obtain ⟨⟨opening, kind'⟩, member, inside⟩ := List.exists_of_findSome?_eq_some found
    obtain ⟨inner', kept, same⟩ := Option.map_eq_some_iff.mp inside
    obtain ⟨rfl, rfl⟩ := Prod.mk.inj same
    obtain ⟨cut, passes⟩ := Option.filter_eq_some_iff.mp kept
    rw [opens _ member] at cut
    exact ⟨(insidePointer_eq_some kind'.opening_last).mp cut, passes⟩
  constructor
  · exact reads
  · rintro ⟨shape, passes⟩
    obtain ⟨⟨opening, _⟩, member, rfl⟩ := all kind
    have inside : insidePointer opening.toList s = some inner := by
      rw [opens _ member]
      exact (insidePointer_eq_some (GuestPtrKind.opening_last _)).mpr shape
    cases found : forms.findSome? fun (opening, kind) =>
        ((insidePointer opening.toList s).filter test).map fun inner => (kind, inner) with
    | none =>
        have gone := List.findSome?_eq_none_iff.mp found _ member
        simp [inside, passes] at gone
    | some other =>
        obtain ⟨shape', _⟩ := reads found
        rw [shape, List.append_assoc, List.append_assoc] at shape'
        have same := GuestPtrKind.opening_inj shape'
        rw [same] at shape' ⊢
        rw [List.append_cancel_right (List.append_cancel_left shape')]

theorem guestPointer?_eq_some {s inner : List Char} {kind : GuestPtrKind} :
    guestPointer? s = some (kind, inner) ↔ s = kind.opening ++ inner ++ ['>'] ∧ inner ≠ [] := by
  have read := @findSome_pointer guestPointers (fun _ => true) (by decide)
    (fun kind => by cases kind <;> decide) s inner kind
  have every (found : Option (List Char)) : found.filter (fun _ => true) = found := by
    cases found <;> rfl
  simp only [every, and_true] at read
  unfold guestPointer?
  rw [Option.filter_eq_some_iff]
  exact and_congr read (by simp)

theorem Annotation.pointerSpec_eq_some {alnum : Char → Bool} {s name : List Char}
    {kind : GuestPtrKind} :
    pointerSpec alnum s = some (kind, name) ↔
      s = kind.opening ++ name ++ ['>'] ∧ isIdentifier alnum name = true :=
  findSome_pointer (by decide) fun kind => by cases kind <;> decide

namespace TypeDatabase

/-- The types of a list of structures, added in their order. -/
def ofStructs (structs : List Struct) : TypeDatabase := structs.foldl appendStruct new

theorem basetype?_appendStruct (db : TypeDatabase) (s : Struct) (name : List Char) :
    (db.appendStruct s).basetype? name =
      if String.ofList name = s.name then some (.struct db.structs.length s.size)
      else db.basetype? name := by
  unfold basetype? appendStruct
  rw [List.lookup_cons]
  by_cases same : String.ofList name = s.name
  · simp [same]
  · rw [if_neg same, beq_false_of_ne same]

theorem basetype?_foldl {structs : List Struct} {name : List Char}
    (fresh : ∀ s ∈ structs, String.ofList name ≠ s.name) (db : TypeDatabase) :
    (structs.foldl appendStruct db).basetype? name = db.basetype? name := by
  induction structs generalizing db with
  | nil => rfl
  | cons s structs ih =>
      rw [List.foldl_cons, ih (fun s inside => fresh s (List.mem_cons_of_mem _ inside)),
        basetype?_appendStruct, if_neg (fresh s List.mem_cons_self)]

theorem isSome_basetype?_foldl (structs : List Struct) (name : List Char) (db : TypeDatabase) :
    ((structs.foldl appendStruct db).basetype? name).isSome = true ↔
      (∃ s ∈ structs, String.ofList name = s.name) ∨ (db.basetype? name).isSome = true := by
  induction structs generalizing db with
  | nil => simp
  | cons s structs ih =>
      rw [List.foldl_cons, ih, basetype?_appendStruct, List.exists_mem_cons_iff]
      by_cases same : String.ofList name = s.name
      · simp [same]
      · simp [same]

theorem size_basetype?_foldl {structs : List Struct} (unique : (structs.map Struct.name).Nodup)
    (name : List Char) (db : TypeDatabase) :
    ((structs.foldl appendStruct db).basetype? name).bind Typ.sizeInBytes =
      ((structs.map fun s => (s.name, s.size)).lookup (String.ofList name)).or
        ((db.basetype? name).bind Typ.sizeInBytes) := by
  induction structs generalizing db with
  | nil => rfl
  | cons s structs ih =>
      have apart := List.nodup_cons.mp unique
      rw [List.foldl_cons, ih apart.2, basetype?_appendStruct, List.map_cons, List.lookup_cons]
      by_cases same : String.ofList name = s.name
      · have none_ : (structs.map fun s => (s.name, s.size)).lookup s.name = none := by
          apply Lib.lookup_eq_none
          rw [List.map_map]
          exact apart.1
        rw [if_pos same, same, none_]
        simp [Typ.sizeInBytes]
      · rw [if_neg same, beq_false_of_ne same]

end TypeDatabase

end Dis86
