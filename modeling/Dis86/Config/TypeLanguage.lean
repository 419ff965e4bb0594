import Dis86.Config.AnnotationLanguage

namespace Dis86
open Lib (strip Bare Blank)
open Annotation

namespace TypeDatabase

/-- What a parse does with its text: a known name, a pointer, an array, or neither. -/
theorem parseType_cases (db : TypeDatabase) (text : List Char) :
    (∃ typ, db.basetype? (strip isWhitespace text) = some typ ∧ db.parseType text = .ok typ) ∨
    (db.basetype? (strip isWhitespace text) = none ∧ ∃ kind inner,
      guestPointer? (strip isWhitespace text) = some (kind, inner) ∧
      db.parseType text =
        if inner.any isBracket then .error (.pointee inner (strip isWhitespace text))
        else do return .guestPtr (← db.parseType inner) kind) ∨
    (db.basetype? (strip isWhitespace text) = none ∧
      guestPointer? (strip isWhitespace text) = none ∧
      db.parseType text =
        if '[' ∈ strip isWhitespace text then
          if (strip isWhitespace text).getLast? ≠ some ']' then
            .error (.failed (strip isWhitespace text))
          else do
            let base ← db.parseType ((strip isWhitespace text).takeWhile (· ≠ '['))
            let dims ← parseDims (strip isWhitespace text)
              ((strip isWhitespace text).dropWhile (· ≠ '['))
            return dims.foldr (fun size typ => .array typ size) base
        else .error (.failed (strip isWhitespace text))) := by
  rw [parseType]
  cases known : db.basetype? (strip isWhitespace text) with
  | some typ => exact .inl ⟨typ, rfl, rfl⟩
  | none =>
      refine .inr ?_
      simp only
      split
      · rename_i kind inner pointer
        exact .inl ⟨trivial, kind, inner, pointer, rfl⟩
      · rename_i none_
        exact .inr ⟨trivial, none_, rfl⟩

/-- A text without brackets is a known name, or no type. -/
theorem parseType_plain {db : TypeDatabase} {text : List Char} {typ : Typ}
    (plain : ∀ c ∈ text, isBracket c = false) :
    db.parseType text = .ok typ ↔ db.basetype? (strip isWhitespace text) = some typ := by
  obtain ⟨before, after, whole, _⟩ := Lib.exists_strip isWhitespace text
  have inside : ∀ c ∈ strip isWhitespace text, isBracket c = false := by
    intro c member
    refine plain c ?_
    rw [whole]
    exact List.mem_append_left _ (List.mem_append_right _ member)
  rcases parseType_cases db text with ⟨found, known, parsed⟩ | ⟨unknown, kind, inner, pointer, _⟩ |
    ⟨unknown, _, parsed⟩
  · rw [known, parsed, Except.ok.injEq, Option.some.injEq]
  · have closes := inside '>' (by
      rw [(guestPointer?_eq_some.mp pointer).1]
      exact List.mem_append_right _ List.mem_cons_self)
    cases closes
  · have no_bracket : '[' ∉ strip isWhitespace text := fun member => nomatch inside '[' member
    rw [unknown, parsed, if_neg no_bracket]
    exact ⟨nofun, nofun⟩

/-- A text without square brackets is a base between white space, or no type. -/
theorem parseType_base {alnum : Char → Bool} {db : TypeDatabase} {text : List Char} {typ : Typ}
    (unbracketed : '[' ∉ text) (parsed : db.parseType text = .ok typ) :
    ∃ before base after, text = before ++ BaseSpelling.text base ++ after ∧
      Blank isWhitespace before ∧ Blank isWhitespace after ∧ base.Valid alnum db ∧
      base.typ db = some typ := by
  obtain ⟨before, after, whole, left, right, _⟩ := Lib.exists_strip isWhitespace text
  rcases parseType_cases db text with ⟨found, known, found_eq⟩ | ⟨_, kind, inner, pointer, found_eq⟩ |
    ⟨_, _, found_eq⟩
  · obtain rfl := Except.ok.inj (parsed.symm.trans found_eq)
    exact ⟨before, .plain _, after, whole, left, right, Option.isSome_iff_exists.mpr ⟨_, known⟩, known⟩
  · rw [parsed] at found_eq
    split at found_eq
    · cases found_eq
    · rename_i plain
      have brackets : ∀ c ∈ inner, isBracket c = false := by
        intro c member
        cases bracket : isBracket c with
        | false => rfl
        | true => exact absurd (List.any_eq_true.mpr ⟨c, member, bracket⟩) plain
      obtain ⟨pointee, pointed, same⟩ := Lib.except_bind_eq_ok.mp found_eq.symm
      obtain rfl := Except.ok.inj same
      have known := (parseType_plain brackets).mp pointed
      obtain ⟨space, space', inner_eq, blank, blank', _⟩ := Lib.exists_strip isWhitespace inner
      refine ⟨before, .pointer kind space (strip isWhitespace inner) space', after, ?_, left, right,
        ⟨blank, blank', ?_, .inl (Option.isSome_iff_exists.mpr ⟨_, known⟩)⟩, ?_⟩
      · rw [BaseSpelling.text, ← inner_eq, ← (guestPointer?_eq_some.mp pointer).1]
        exact whole
      · intro c member
        refine brackets c ?_
        rw [inner_eq]
        exact List.mem_append_left _ (List.mem_append_right _ member)
      · rw [BaseSpelling.typ, known]
        rfl
  · rw [parsed] at found_eq
    have none_ : '[' ∉ strip isWhitespace text := by
      intro member
      apply unbracketed
      rw [whole]
      exact List.mem_append_left _ (List.mem_append_right _ member)
    rw [if_neg none_] at found_eq
    cases found_eq

/-- A type that is parsed is a base with dimensions, between white space. -/
theorem parseType_shape (alnum : Char → Bool) {db : TypeDatabase} {text : List Char} {typ : Typ}
    (parsed : db.parseType text = .ok typ) :
    ∃ before base gap dims after baseTyp sizes,
      text = before ++ (BaseSpelling.text base ++ gap ++ dimText dims) ++ after ∧
      Blank isWhitespace before ∧ Blank isWhitespace gap ∧ Blank isWhitespace after ∧
      (dims = [] → gap = []) ∧ base.Valid alnum db ∧ base.typ db = some baseTyp ∧
      List.Forall₂ (fun dim size => parseBound (strip isWhitespace text) dim = .ok size) dims sizes ∧
      typ = sizes.foldr (fun size typ => .array typ size) baseTyp := by
  have nothing : Blank isWhitespace ([] : List Char) := fun _ no => nomatch no
  by_cases bracket : '[' ∈ text
  · obtain ⟨before, after, whole, left, right, bare⟩ := Lib.exists_strip isWhitespace text
    rcases parseType_cases db text with ⟨found, known, found_eq⟩ |
      ⟨_, kind, inner, pointer, found_eq⟩ | ⟨_, _, found_eq⟩
    · obtain rfl := Except.ok.inj (parsed.symm.trans found_eq)
      refine ⟨before, .plain (strip isWhitespace text), [], [], after, _, [], ?_, left, nothing,
        right, fun _ => rfl, Option.isSome_iff_exists.mpr ⟨_, known⟩, known, .nil, rfl⟩
      rw [dimText, List.flatMap_nil, List.append_nil, List.append_nil]
      exact whole
    · rw [parsed] at found_eq
      split at found_eq
      · cases found_eq
      · rename_i plain
        have no_bracket : '[' ∉ strip isWhitespace text := by
          rw [(guestPointer?_eq_some.mp pointer).1]
          intro member
          rcases List.mem_append.mp member with member | closes
          · rcases List.mem_append.mp member with opening | member
            · cases kind <;> exact absurd opening (by decide)
            · exact plain (List.any_eq_true.mpr ⟨'[', member, rfl⟩)
          · exact absurd closes (by decide)
        have member := bracket
        rw [whole] at member
        rcases List.mem_append.mp member with member | member
        · rcases List.mem_append.mp member with member | member
          · exact absurd (left _ member) (by decide)
          · exact absurd member no_bracket
        · exact absurd (right _ member) (by decide)
    · rw [parsed] at found_eq
      split at found_eq
      · rename_i member
        split at found_eq
        · cases found_eq
        · obtain ⟨baseTyp, based, found_eq⟩ := Lib.except_bind_eq_ok.mp found_eq.symm
          obtain ⟨sizes, dimensions, same⟩ := Lib.except_bind_eq_ok.mp found_eq
          obtain rfl := Except.ok.inj same
          obtain ⟨dims, rest, _, bounds⟩ := parseDims_eq_ok.mp dimensions
          have no_bracket : '[' ∉ (strip isWhitespace text).takeWhile (· ≠ '[') := by
            intro member
            have wrong := List.mem_takeWhile_imp member
            simp at wrong
          obtain ⟨space, base, gap, base_eq, blank, blank', valid, typed⟩ :=
            parseType_base no_bracket based
          have split_ := List.takeWhile_append_dropWhile (p := fun c => decide (c ≠ '['))
            (l := strip isWhitespace text)
          rw [base_eq, rest] at split_
          obtain rfl : space = [] := by
            cases space with
            | nil => rfl
            | cons c space =>
                have white := blank c List.mem_cons_self
                rw [bare.head c (by rw [← split_]; rfl)] at white
                cases white
          refine ⟨before, base, gap, dims, after, baseTyp, sizes, ?_, left, blank', right, ?_, valid,
            typed, bounds, rfl⟩
          · rw [List.nil_append] at split_
            rw [split_]
            exact whole
          · rintro rfl
            rw [dimText, List.flatMap_nil] at rest
            exact absurd (List.dropWhile_eq_nil_iff.mp rest '[' member) (by decide)
      · cases found_eq
  · obtain ⟨before, base, after, rfl, left, right, valid, typed⟩ := parseType_base bracket parsed
    refine ⟨before, base, [], [], after, typ, [], ?_, left, nothing, right, fun _ => rfl, valid,
      typed, .nil, rfl⟩
    rw [dimText, List.flatMap_nil, List.append_nil, List.append_nil]

/-- A base that is spelled with a known pointee is parsed. -/
theorem parseType_scalar {alnum : Char → Bool} {structs : List Struct}
    (defined : Defined alnum structs) {before after : List Char} {base : BaseSpelling} {typ : Typ}
    (left : Blank isWhitespace before) (right : Blank isWhitespace after)
    (valid : base.Valid alnum (ofStructs structs)) (typed : base.typ (ofStructs structs) = some typ) :
    (ofStructs structs).parseType (before ++ base.text ++ after) = .ok typ := by
  have stands := valid.stands defined
  have stripped := Lib.strip_append left right (stands.bare.mono isSpace_of_isWhitespace)
  have cases_ := parseType_cases (ofStructs structs) (before ++ base.text ++ after)
  rw [stripped] at cases_
  cases base with
  | plain name =>
      rcases cases_ with ⟨found, known, parsed⟩ | ⟨unknown, _⟩ | ⟨unknown, _⟩
      · rw [parsed, ← Option.some.inj (known.symm.trans typed)]
      · exact absurd (unknown.symm.trans typed) (Option.some_ne_none typ).symm
      · exact absurd (unknown.symm.trans typed) (Option.some_ne_none typ).symm
  | pointer kind space name space' =>
      obtain ⟨blank, blank', brackets, _⟩ := valid
      obtain ⟨pointee, known, rfl⟩ := Option.map_eq_some_iff.mp typed
      have plain := defined.plainName_of_basetype? (Option.isSome_iff_exists.mpr ⟨_, known⟩)
      have inner_plain : ∀ c ∈ space ++ name ++ space', isBracket c = false := by
        have white {c : Char} (white : isWhitespace c = true) : isBracket c = false := by
          have differs (d : Char) (black : isWhitespace d = false) : c ≠ d := by
            rintro rfl
            rw [black] at white
            cases white
          simp [isBracket, differs '[' (by decide), differs ']' (by decide),
            differs '<' (by decide), differs '>' (by decide)]
        intro c inside
        rcases List.mem_append.mp inside with inside | inside
        · rcases List.mem_append.mp inside with inside | inside
          · exact white (blank c inside)
          · exact brackets c inside
        · exact white (blank' c inside)
      have pointed : (ofStructs structs).parseType (space ++ name ++ space') = .ok pointee := by
        rw [parseType_plain inner_plain, Lib.strip_append blank blank'
          (plain.bare.mono isSpace_of_isWhitespace)]
        exact known
      have pointer : guestPointer? (BaseSpelling.pointer kind space name space').text =
          some (kind, space ++ name ++ space') := by
        refine guestPointer?_eq_some.mpr ⟨rfl, fun empty => plain.nonempty ?_⟩
        exact (List.append_eq_nil_iff.mp (List.append_eq_nil_iff.mp empty).1).2
      rcases cases_ with ⟨found, named, _⟩ | ⟨_, kind', inner, found, parsed⟩ | ⟨_, none_, _⟩
      · have opens := (defined.plainName_of_basetype?
          (Option.isSome_iff_exists.mpr ⟨_, named⟩)).opens kind (space ++ name ++ space' ++ ['>'])
        exact absurd (by rw [BaseSpelling.text, List.append_assoc]) opens
      · obtain ⟨rfl, rfl⟩ := Prod.mk.inj (Option.some.inj (pointer.symm.trans found))
        rw [parsed, if_neg, pointed]
        · rfl
        · intro some_
          obtain ⟨c, member, bracket⟩ := List.any_eq_true.mp some_
          rw [inner_plain c member] at bracket
          cases bracket
      · exact absurd (pointer.symm.trans none_) (Option.some_ne_none _)

/-- A type that is spelled with a known pointee, between white space, is parsed. -/
theorem parseType_spelling {alnum : Char → Bool} {structs : List Struct}
    (defined : Defined alnum structs) {sp : Spelling} {typ : Typ}
    (valid : sp.Valid alnum (ofStructs structs)) (left : Blank isWhitespace sp.before)
    (right : Blank isWhitespace sp.after) (typed : sp.base.typ (ofStructs structs) = some typ)
    (small : ∀ bound ∈ sp.bounds, bound.value < 2 ^ 64) :
    (ofStructs structs).parseType sp.text =
      .ok (sp.bounds.foldr (fun bound typ => .array typ (.known bound.value)) typ) := by
  by_cases scalar : sp.bounds = []
  · have core : sp.core = sp.base.text := by
      rw [Spelling.core, valid.scalar scalar, scalar, List.map_nil, dimText, List.flatMap_nil,
        List.append_nil, List.append_nil]
    rw [Spelling.text, core, scalar, parseType_scalar defined left right valid.base typed]
    rfl
  · obtain ⟨nonempty, bare⟩ := valid.core_bare defined
    have stripped : strip isWhitespace sp.text = sp.core :=
      Lib.strip_append left right (bare.mono isSpace_of_isWhitespace)
    have closes : sp.core.getLast? = some ']' := by
      rw [Spelling.core, List.getLast?_append, dimText_last (by simpa using scalar)]
      rfl
    have unknown : (ofStructs structs).basetype? sp.core = none := by
      by_contra known
      have plain := defined.plainName_of_basetype? (Option.isSome_iff_ne_none.mpr known)
      exact absurd (plain.unbracketed ']' (List.mem_of_getLast? closes)) (by decide)
    have no_pointer : guestPointer? sp.core = none := by
      by_contra some_
      obtain ⟨⟨kind, inner⟩, found⟩ := Option.ne_none_iff_exists'.mp some_
      rw [(guestPointer?_eq_some.mp found).1, List.getLast?_concat] at closes
      exact absurd (Option.some.inj closes) (by decide)
    have cut : sp.core.takeWhile (fun c => decide (c ≠ '[')) = sp.base.text ++ sp.gap ∧
        sp.core.dropWhile (fun c => decide (c ≠ '[')) = dimText (sp.bounds.map Bound.text) := by
      apply Lib.takeWhile_append
      · intro c inside
        have plain : isUnbracketed c = true := by
          rcases List.mem_append.mp inside with base | white
          · exact (valid.base.stands defined).unbracketed c base
          · exact isUnbracketed_of_isWhitespace (valid.gap c white)
        rw [isUnbracketed, Bool.and_eq_true] at plain
        exact plain.1
      · intro c first
        rw [dimText_head _ c first]
        decide
    have opens : '[' ∈ sp.core := by
      obtain ⟨bound, bounds, shape⟩ := List.exists_cons_of_ne_nil scalar
      rw [Spelling.core, shape, List.map_cons, dimText_cons]
      exact List.mem_append_right _ List.mem_cons_self
    have nothing : Blank isWhitespace [] := List.forall_mem_nil _
    have based : (ofStructs structs).parseType (sp.base.text ++ sp.gap) = .ok typ :=
      parseType_scalar defined nothing valid.gap valid.base typed
    have dims : parseDims sp.core (dimText (sp.bounds.map Bound.text)) =
        .ok (sp.bounds.map fun bound => .known bound.value) := by
      refine parseDims_eq_ok.mpr ⟨_, rfl, ?_, ?_⟩
      · intro dim member
        obtain ⟨bound, inside, rfl⟩ := List.mem_map.mp member
        exact (valid.bounds bound inside).text_chars
      · rw [List.forall₂_map_left_iff, List.forall₂_map_right_iff, List.forall₂_same]
        intro bound inside
        exact parseBound_eq_known.mpr
          ⟨bound, valid.bounds bound inside, rfl, rfl, small bound inside⟩
    have cases_ := parseType_cases (ofStructs structs) sp.text
    rw [stripped] at cases_
    rcases cases_ with ⟨_, known, _⟩ | ⟨_, _, _, pointer, _⟩ | ⟨_, _, parsed⟩
    · exact absurd (unknown.symm.trans known) (Option.some_ne_none _).symm
    · exact absurd (no_pointer.symm.trans pointer) (Option.some_ne_none _).symm
    · rw [parsed, if_pos opens, if_neg (not_not.mpr closes), cut.1, cut.2, based]
      show (parseDims sp.core (dimText (sp.bounds.map Bound.text)) >>= _) = _
      rw [dims]
      show Except.ok _ = Except.ok _
      rw [List.foldr_map]

end TypeDatabase

end Dis86
