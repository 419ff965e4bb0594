import Dis86.Config.Spelling
import Mathlib.Tactic.FinCases

namespace Dis86
open Lib (strip Bare Blank)

namespace Annotation

/-- A name that can stand as a base. -/
structure PlainName (name : List Char) : Prop where
  bare : Bare isSpace name
  nonempty : name ≠ []
  unbracketed : ∀ c ∈ name, isUnbracketed c = true
  opens : ∀ kind rest, name ≠ GuestPtrKind.opening kind ++ rest

theorem plainName_primitive {name : List Char}
    (member : String.ofList name ∈ TypeDatabase.new.basetypes.map Prod.fst) : PlainName name := by
  have opens {name : List Char} (short : name.length ≤ 4)
      (neither : name.take 2 ≠ ['n', 'e'] ∧ name.take 4 ≠ ['f', 'a', 'r', '<'])
      (kind : GuestPtrKind) (rest : List Char) : name ≠ kind.opening ++ rest := by
    rintro rfl
    cases kind <;> simp [GuestPtrKind.opening] at neither
  have names : name ∈ TypeDatabase.new.basetypes.map fun entry => entry.1.toList := by
    obtain ⟨entry, inside, same⟩ := List.mem_map.mp member
    refine List.mem_map.mpr ⟨entry, inside, ?_⟩
    rw [same, String.toList_ofList]
  fin_cases names <;>
    exact ⟨Lib.bare_of_strip (by decide), by decide, List.all_eq_true.mp (by decide),
      opens (by decide) (by decide)⟩

variable {alnum : Char → Bool} {structs : List Struct}

theorem Defined.plainName (defined : Defined alnum structs) {s : Struct} (inside : s ∈ structs) :
    PlainName s.name.toList := by
  obtain ⟨groups, shape, nonempty, plain, _, pointer, mapped, _⟩ :=
    fromStr_eq_ok.mp (defined.named s inside)
  cases groups with
  | cons group groups =>
      rw [List.mapM_cons] at mapped
      obtain ⟨_, _, mapped⟩ := Lib.except_bind_eq_ok.mp mapped
      obtain ⟨_, _, same⟩ := Lib.except_bind_eq_ok.mp mapped
      cases Except.ok.inj same
  | nil =>
      rw [dimText, List.flatMap_nil, List.append_nil] at shape
      refine ⟨Lib.bare_of_strip shape, nonempty, plain, fun kind rest same => ?_⟩
      obtain ⟨⟨kind', name⟩, spec⟩ := Option.isSome_iff_exists.mp (pointer kind rest same)
      have closed := (pointerSpec_eq_some.mp spec).1
      simp only at closed
      obtain ⟨stem, suffix⟩ := defined.suffix s inside
      have last := congrArg List.getLast? (suffix.trans closed)
      rw [List.getLast?_append, List.getLast?_concat] at last
      exact absurd (Option.some.inj (show some 't' = some '>' from last)) (by decide)

/-- The names of structures are not those of the primitive types. -/
theorem Defined.fresh (defined : Defined alnum structs) {name : List Char}
    (primitive : String.ofList name ∈ TypeDatabase.new.basetypes.map Prod.fst) :
    ∀ s ∈ structs, String.ofList name ≠ s.name := by
  intro s inside same
  obtain ⟨stem, suffix⟩ := defined.suffix s inside
  have unlike : ∀ base ∈ TypeDatabase.new.basetypes.map Prod.fst,
      base.toList.getLast? ≠ some 't' := by decide
  rw [same] at primitive
  apply unlike _ primitive
  rw [← suffix, List.getLast?_append]
  rfl

theorem isSome_basetype? (name : List Char) (db : TypeDatabase) :
    (db.basetype? name).isSome = true ↔ String.ofList name ∈ db.basetypes.map Prod.fst := by
  unfold TypeDatabase.basetype?
  rw [List.lookup_isSome_iff, List.mem_map]
  constructor
  · rintro ⟨entry, inside, same⟩
    exact ⟨entry, inside, (beq_iff_eq.mp same).symm⟩
  · rintro ⟨entry, inside, same⟩
    exact ⟨entry, inside, beq_iff_eq.mpr same.symm⟩

/-- Every name that the database knows can stand as a base. -/
theorem Defined.plainName_of_basetype? (defined : Defined alnum structs) {name : List Char}
    (known : ((TypeDatabase.ofStructs structs).basetype? name).isSome = true) :
    PlainName name := by
  rcases (TypeDatabase.isSome_basetype?_foldl structs name _).mp known with
    ⟨s, inside, same⟩ | primitive
  · have plain := defined.plainName inside
    rwa [← same, String.toList_ofList] at plain
  · exact plainName_primitive ((isSome_basetype? name _).mp primitive)

theorem size_primitive (key : String) :
    (TypeDatabase.new.basetypes.lookup key).bind Typ.sizeInBytes = (typeSizes []).lookup key := by
  by_cases primitive : key ∈ TypeDatabase.new.basetypes.map Prod.fst
  · fin_cases primitive <;> rfl
  · have subset : (typeSizes []).map Prod.fst ⊆ TypeDatabase.new.basetypes.map Prod.fst := by
      decide
    rw [Lib.lookup_eq_none primitive, Lib.lookup_eq_none fun inside => primitive (subset inside)]
    rfl

/-- Both sides have the same sizes. -/
theorem Defined.size_eq (defined : Defined alnum structs) (name : List Char) :
    basetypeSizeInBytes structs name =
      ((TypeDatabase.ofStructs structs).basetype? name).bind Typ.sizeInBytes := by
  rw [TypeDatabase.ofStructs, TypeDatabase.size_basetype?_foldl defined.unique,
    TypeDatabase.basetype?, size_primitive, basetypeSizeInBytes]
  have split_ : (typeSizes structs).lookup (String.ofList name) =
      ((typeSizes []).lookup (String.ofList name)).or
        ((structs.map fun s => (s.name, s.size)).lookup (String.ofList name)) := by
    rw [typeSizes, List.lookup_append]
    rfl
  rw [split_]
  by_cases primitive : String.ofList name ∈ TypeDatabase.new.basetypes.map Prod.fst
  · have absent : (structs.map fun s => (s.name, s.size)).lookup (String.ofList name) = none := by
      apply Lib.lookup_eq_none
      intro inside
      obtain ⟨_, entry, same⟩ := List.mem_map.mp inside
      obtain ⟨s, member, rfl⟩ := List.mem_map.mp entry
      exact defined.fresh primitive s member same.symm
    rw [absent, Option.or_none, Option.none_or]
  · have subset : (typeSizes []).map Prod.fst ⊆ TypeDatabase.new.basetypes.map Prod.fst := by
      decide
    rw [Lib.lookup_eq_none fun inside => primitive (subset inside), Option.or_none, Option.none_or]

end Annotation

open Annotation

/-- The bound of a dimension as it is written. -/
structure Bound where
  signed : Bool
  digits : List Char
deriving DecidableEq, Repr

namespace Bound

def text (bound : Bound) : List Char := if bound.signed then '+' :: bound.digits else bound.digits

def value (bound : Bound) : Nat := Nat.ofDigitChars 10 bound.digits 0

structure Valid (bound : Bound) : Prop where
  nonempty : bound.digits ≠ []
  digits : ∀ c ∈ bound.digits, c.isDigit = true
  positive : 0 < bound.value

theorem Valid.text_chars {bound : Bound} (valid : bound.Valid) :
    ∀ c ∈ bound.text, c ≠ ']' := by
  intro c inside
  have digit (member : c ∈ bound.digits) : c ≠ ']' := by
    rintro rfl
    exact absurd (valid.digits _ member) (by decide)
  unfold text at inside
  split at inside
  · rcases List.mem_cons.mp inside with rfl | member
    · decide
    · exact digit member
  · exact digit inside

theorem text_inj {bound bound' : Bound} (valid : bound.Valid) (valid' : bound'.Valid)
    (same : bound.text = bound'.text) : bound = bound' := by
  have unsigned {digits rest : List Char} (all : ∀ c ∈ digits, c.isDigit = true)
      (plus : digits = '+' :: rest) : False :=
    absurd (all '+' (plus ▸ List.mem_cons_self)) (by decide)
  obtain ⟨signed, digits⟩ := bound
  obtain ⟨signed', digits'⟩ := bound'
  cases signed with
  | true =>
      cases signed' with
      | true => exact congrArg (Bound.mk true) (List.cons.inj same).2
      | false => exact (unsigned valid'.digits same.symm).elim
  | false =>
      cases signed' with
      | true => exact (unsigned valid.digits same).elim
      | false => exact congrArg (Bound.mk false) same

end Bound

theorem Bound.withoutSign_text {bound : Bound} (digits : ∀ c ∈ bound.digits, c.isDigit = true) :
    withoutSign bound.text = bound.digits := by
  obtain ⟨signed, digits'⟩ := bound
  cases signed with
  | true => rfl
  | false =>
      show withoutSign digits' = digits'
      unfold withoutSign
      split
      · exact absurd (digits '+' List.mem_cons_self) (by decide)
      · rfl

theorem parseUsize_eq_some {s : List Char} {n : Nat} :
    parseUsize s = some n ↔ ∃ bound : Bound, s = bound.text ∧ bound.digits ≠ [] ∧
      (∀ c ∈ bound.digits, c.isDigit = true) ∧ n = bound.value ∧ n < 2 ^ 64 := by
  constructor
  · intro parsed
    have written : ∃ signed, s = Bound.text ⟨signed, withoutSign s⟩ := by
      unfold withoutSign
      split
      · exact ⟨true, rfl⟩
      · exact ⟨false, rfl⟩
    obtain ⟨signed, written⟩ := written
    unfold parseUsize at parsed
    simp only at parsed
    split at parsed
    · rename_i shape
      obtain rfl := Option.some.inj parsed
      exact ⟨_, written, shape.1, List.all_eq_true.mp shape.2.1, rfl, shape.2.2⟩
    · cases parsed
  · rintro ⟨bound, rfl, nonempty, digits, rfl, small⟩
    unfold parseUsize
    simp only
    rw [Bound.withoutSign_text digits, if_pos ⟨nonempty, List.all_eq_true.mpr digits, small⟩]
    rfl

theorem parseBound_eq_known {s dim : List Char} {n : Nat} :
    parseBound s dim = .ok (.known n) ↔
      ∃ bound : Bound, bound.Valid ∧ dim = bound.text ∧ n = bound.value ∧ n < 2 ^ 64 := by
  unfold parseBound
  constructor
  · intro parsed
    split at parsed
    · cases parsed
    · split at parsed
      · cases parsed
      · cases parsed
      · rename_i m nonzero found
        obtain rfl := ArraySize.known.inj (Except.ok.inj parsed)
        obtain ⟨bound, rfl, nonempty, digits, rfl, small⟩ := parseUsize_eq_some.mp found
        exact ⟨bound, ⟨nonempty, digits, Nat.pos_of_ne_zero nonzero⟩,
          rfl, rfl, small⟩
  · rintro ⟨bound, valid, rfl, rfl, small⟩
    have found := parseUsize_eq_some.mpr
      ⟨bound, rfl, valid.nonempty, valid.digits, rfl, small⟩
    have nonempty : bound.text ≠ [] := by
      intro empty
      rw [empty] at found
      cases found
    rw [if_neg nonempty, found]
    split
    · rename_i none_
      cases none_
    · rename_i zero
      exact absurd (Option.some.inj zero) (by have := valid.positive; omega)
    · rename_i m _ some_
      rw [Option.some.inj some_]

/-- A base as it is written. -/
inductive BaseSpelling where
  | plain (name : List Char)
  | pointer (kind : GuestPtrKind) (before name after : List Char)
deriving DecidableEq, Repr

namespace BaseSpelling

def text : BaseSpelling → List Char
  | .plain name => name
  | .pointer kind before name after => kind.opening ++ (before ++ name ++ after) ++ ['>']

/-- The type of a base. The pointee of a pointer must be known. -/
def typ (db : TypeDatabase) : BaseSpelling → Option Typ
  | .plain name => db.basetype? name
  | .pointer kind _ name _ => (db.basetype? name).map fun base => .guestPtr base kind

def width (db : TypeDatabase) : BaseSpelling → Option Nat
  | .plain name => (db.basetype? name).bind Typ.sizeInBytes
  | .pointer kind _ _ _ => some kind.width

/-- A base is a known name, or a pointer to a known name or an identifier. -/
def Valid (alnum : Char → Bool) (db : TypeDatabase) : BaseSpelling → Prop
  | .plain name => (db.basetype? name).isSome = true
  | .pointer _ before name after => Blank isWhitespace before ∧ Blank isWhitespace after ∧
      (∀ c ∈ name, isBracket c = false) ∧
      ((db.basetype? name).isSome = true ∨ isIdentifier alnum name = true)

end BaseSpelling

/-- A type as it is written. -/
structure Spelling where
  before : List Char
  base : BaseSpelling
  gap : List Char
  bounds : List Bound
  after : List Char
deriving DecidableEq, Repr

namespace Spelling

def core (sp : Spelling) : List Char :=
  sp.base.text ++ sp.gap ++ dimText (sp.bounds.map Bound.text)

def text (sp : Spelling) : List Char := sp.before ++ sp.core ++ sp.after

def size (db : TypeDatabase) (sp : Spelling) : Option Nat :=
  (sp.base.width db).map fun width => width * (sp.bounds.map Bound.value).prod

/-- White space stands at the ends, behind the base of an array and around a pointee. -/
structure Valid (alnum : Char → Bool) (db : TypeDatabase) (sp : Spelling) : Prop where
  before : Blank isSpace sp.before
  base : sp.base.Valid alnum db
  gap : Blank isWhitespace sp.gap
  scalar : sp.bounds = [] → sp.gap = []
  bounds : ∀ bound ∈ sp.bounds, bound.Valid
  after : Blank isSpace sp.after

/-- What the one parser accepts only: a separator of ASCII at an end, or an unknown pointee. -/
def PythonOnly (db : TypeDatabase) (sp : Spelling) : Prop :=
  (∃ c ∈ sp.before ++ sp.after, isWhitespace c = false) ∨ sp.base.typ db = none

/-- What the other parser accepts only: white space inside, a pointee that is no identifier, a sign,
or more digits than a number may have. -/
def RustOnly (alnum : Char → Bool) (sp : Spelling) : Prop :=
  sp.gap ≠ [] ∨ (∃ kind before name after, sp.base = .pointer kind before name after ∧
    (before ≠ [] ∨ after ≠ [] ∨ isIdentifier alnum name = false)) ∨
  ∃ bound ∈ sp.bounds, bound.signed = true ∨ 4300 < bound.digits.length

end Spelling

section
variable {alnum : Char → Bool} {structs : List Struct}

theorem isSpace_of_isWhitespace (c : Char) (white : isWhitespace c = true) : isSpace c = true := by
  unfold isSpace
  rw [white]
  rfl

theorem blank_space {s : List Char} (blank : Blank isWhitespace s) : Blank isSpace s :=
  fun c inside => isSpace_of_isWhitespace c (blank c inside)

theorem isAlphanum_not_space {c : Char} (word : c.isAlphanum = true) : isSpace c = false := by
  simp only [Char.isAlphanum, Bool.or_eq_true, Lib.isAlpha_iff, Char.isDigit, Bool.and_eq_true, decide_eq_true_eq,
    ge_iff_le, UInt32.le_iff_toNat_le] at word
  simp only [isSpace, isWhitespace, Bool.or_eq_false_iff, Bool.and_eq_false_iff, decide_eq_false_iff_not]
  simp only [Char.toNat, Char.reduceVal, UInt32.reduceToNat] at word ⊢
  omega

theorem isWord_not_space {c : Char} (word : isWord alnum c = true) : isSpace c = false := by
  unfold isWord at word
  rcases Bool.or_eq_true_iff.mp word with underscore | letter
  · rw [of_decide_eq_true underscore]
    decide
  · split at letter
    · exact isAlphanum_not_space letter
    · rw [Bool.and_eq_true, Bool.not_eq_true'] at letter
      exact letter.2

/-- An identifier has no spaces and is not empty. -/
theorem identifier_not_space {name : List Char} (identifier : isIdentifier alnum name = true) :
    name ≠ [] ∧ ∀ c ∈ name, isSpace c = false := by
  cases name with
  | nil => cases identifier
  | cons c rest =>
      unfold isIdentifier at identifier
      rw [Bool.and_eq_true, List.all_eq_true] at identifier
      refine ⟨by simp, fun d inside => ?_⟩
      rcases List.mem_cons.mp inside with rfl | later
      · rcases Bool.or_eq_true_iff.mp identifier.1 with underscore | letter
        · rw [of_decide_eq_true underscore]
          decide
        · exact isAlphanum_not_space (by simp [Char.isAlphanum, letter])
      · exact isWord_not_space (identifier.2 d later)

theorem bare_of_not_space {s : List Char} (none_ : ∀ c ∈ s, isSpace c = false) :
    Bare isSpace s :=
  ⟨fun c first => none_ c (List.mem_of_head? first), fun c final => none_ c (List.mem_of_getLast? final)⟩

end

end Dis86
