import Dis86.Config.TypeLanguage
import Mathlib.Algebra.BigOperators.Group.List.Lemmas
import Mathlib.Tactic.Ring

namespace Dis86
open Lib (strip Bare Blank)
open Annotation

variable {alnum : Char → Bool} {structs : List Struct}

/-- A type whose size is known has known bounds. -/
theorem sizes_known {sizes : List ArraySize} {base : Typ} {n : Nat}
    (sized : (sizes.foldr (fun size typ => Typ.array typ size) base).sizeInBytes = some n) :
    ∃ (ns : List Nat) (width : Nat), sizes = ns.map ArraySize.known ∧ base.sizeInBytes = some width ∧
      n = width * ns.prod := by
  induction sizes generalizing n with
  | nil => exact ⟨[], n, rfl, sized, by simp⟩
  | cons size sizes ih =>
      cases size with
      | unknown => cases sized
      | known count =>
          obtain ⟨inner, inner_eq, later⟩ := Option.bind_eq_some_iff.mp sized
          obtain ⟨ns, width, rfl, base_eq, rfl⟩ := ih inner_eq
          split at later
          · obtain rfl := Option.some.inj later
            refine ⟨count :: ns, width, rfl, base_eq, ?_⟩
            rw [List.prod_cons]
            ring
          · cases later

/-- The size of an array is known when it is small. -/
theorem sizeInBytes_foldr {ns : List Nat} {base : Typ} {width : Nat}
    (known : base.sizeInBytes = some width) (positive : ∀ n ∈ ns, 0 < n)
    (small : width * ns.prod < 2 ^ 64) :
    (ns.foldr (fun n typ => Typ.array typ (.known n)) base).sizeInBytes =
      some (width * ns.prod) := by
  induction ns with
  | nil => simpa using known
  | cons n ns ih =>
      rw [List.prod_cons] at small ⊢
      have above := positive n List.mem_cons_self
      have less : width * ns.prod ≤ width * (n * ns.prod) :=
        Nat.mul_le_mul_left _ (Nat.le_mul_of_pos_left _ above)
      have inner := ih (fun m inside => positive m (List.mem_cons_of_mem _ inside))
        (less.trans_lt small)
      have same : width * ns.prod * n = width * (n * ns.prod) := by ring
      show Option.bind (Typ.sizeInBytes _) _ = _
      rw [inner, Option.bind_some, same, if_pos small]

theorem foldr_bounds (bounds : List Bound) (base : Typ) :
    bounds.foldr (fun bound typ => Typ.array typ (.known bound.value)) base =
      (bounds.map Bound.value).foldr (fun n typ => Typ.array typ (.known n)) base := by
  rw [List.foldr_map]

theorem BaseSpelling.size_typ {db : TypeDatabase} {base : BaseSpelling} {typ : Typ}
    (typed : base.typ db = some typ) : typ.sizeInBytes = base.width db := by
  cases base with
  | plain name => rw [width, show db.basetype? name = some typ from typed, Option.bind_some]
  | pointer kind before name after =>
      obtain ⟨pointee, _, rfl⟩ := Option.map_eq_some_iff.mp typed
      cases kind <;> rfl

theorem exists_bounds {s : List Char} {dims : List (List Char)} {ns : List Nat}
    (parsed : List.Forall₂ (fun dim size => parseBound s dim = .ok size) dims
      (ns.map ArraySize.known)) :
    ∃ bounds : List Bound, dims = bounds.map Bound.text ∧ ns = bounds.map Bound.value ∧
      ∀ bound ∈ bounds, bound.Valid ∧ bound.value < 2 ^ 64 := by
  induction ns generalizing dims with
  | nil =>
      cases parsed
      exact ⟨[], rfl, rfl, by simp⟩
  | cons n ns ih =>
      cases parsed with
      | cons first later =>
          obtain ⟨bound, valid, rfl, rfl, small⟩ := parseBound_eq_known.mp first
          obtain ⟨bounds, rfl, rfl, all⟩ := ih later
          exact ⟨bound :: bounds, rfl, rfl, List.forall_mem_cons.mpr ⟨⟨valid, small⟩, all⟩⟩

/-- The size of a type that is parsed, when it is known. -/
def TypeDatabase.parsedSize (db : TypeDatabase) (text : List Char) : Option Nat :=
  (db.parseType text).toOption.bind Typ.sizeInBytes

theorem TypeDatabase.parsedSize_eq_some {db : TypeDatabase} {text : List Char} {n : Nat} :
    db.parsedSize text = some n ↔
      ∃ typ, db.parseType text = .ok typ ∧ typ.sizeInBytes = some n := by
  unfold parsedSize
  cases db.parseType text with
  | error e => exact ⟨nofun, fun ⟨_, no, _⟩ => nomatch no⟩
  | ok typ =>
      constructor
      · exact fun sized => ⟨typ, rfl, sized⟩
      · rintro ⟨_, same, sized⟩
        obtain rfl := Except.ok.inj same
        exact sized

theorem BaseSpelling.width_pos (defined : Defined alnum structs) {base : BaseSpelling} {width : Nat}
    (known : base.width (.ofStructs structs) = some width) : 0 < width := by
  cases base with
  | plain name =>
      have sized : basetypeSizeInBytes structs name = some width :=
        (defined.size_eq name).trans known
      exact (basetypeSize_bounds defined sized).1
  | pointer kind before name after =>
      obtain rfl := Option.some.inj known
      cases kind <;> decide

/-- The sized types that are parsed are those that are spelled with known pointees and without
separators. -/
theorem parsedSize_iff (defined : Defined alnum structs) {text : List Char} {n : Nat}
    (fits : n ≤ 0xffff) :
    (TypeDatabase.ofStructs structs).parsedSize text = some n ↔ ∃ sp : Spelling, sp.text = text ∧
      sp.Valid alnum (.ofStructs structs) ∧ ¬ sp.PythonOnly (.ofStructs structs) ∧
      sp.size (.ofStructs structs) = some n := by
  rw [TypeDatabase.parsedSize_eq_some]
  constructor
  · rintro ⟨typ, parsed, sized⟩
    obtain ⟨before, base, gap, dims, after, baseTyp, sizes, rfl, left, middle, right, scalar, valid,
      typed, written, rfl⟩ := TypeDatabase.parseType_shape alnum parsed
    obtain ⟨ns, width, rfl, base_size, rfl⟩ := sizes_known sized
    obtain ⟨bounds, rfl, rfl, all⟩ := exists_bounds written
    refine ⟨⟨before, base, gap, bounds, after⟩, rfl, ⟨blank_space left, valid, middle, ?_,
      fun bound inside => (all bound inside).1, blank_space right⟩, ?_, ?_⟩
    · rintro (rfl : bounds = [])
      exact scalar rfl
    · rintro (⟨c, inside, odd⟩ | unknown)
      · rcases List.mem_append.mp inside with inside | inside
        · rw [left c inside] at odd
          cases odd
        · rw [right c inside] at odd
          cases odd
      · exact absurd (unknown.symm.trans typed) nofun
    · rw [Spelling.size, ← BaseSpelling.size_typ typed, base_size]
      rfl
  · rintro ⟨sp, rfl, valid, regular, sized⟩
    obtain ⟨width, base_width, rfl⟩ := Option.map_eq_some_iff.mp sized
    have white : ∀ c ∈ sp.before ++ sp.after, isWhitespace c = true := by
      intro c inside
      cases odd : isWhitespace c with
      | true => rfl
      | false => exact absurd (.inl ⟨c, inside, odd⟩) regular
    obtain ⟨typ, typed⟩ := Option.ne_none_iff_exists'.mp fun unknown => regular (.inr unknown)
    have above : ∀ n ∈ sp.bounds.map Bound.value, 0 < n := by
      intro n inside
      obtain ⟨bound, member, rfl⟩ := List.mem_map.mp inside
      exact (valid.bounds bound member).positive
    have positive := List.prod_pos_iff_forall_pos_nat.mpr above
    have product : (sp.bounds.map Bound.value).prod ≤ 0xffff :=
      (Nat.le_mul_of_pos_left _ (BaseSpelling.width_pos defined base_width)).trans fits
    have small : ∀ bound ∈ sp.bounds, bound.value < 2 ^ 64 := by
      intro bound inside
      have least := Nat.le_of_dvd positive (List.dvd_prod (List.mem_map_of_mem inside))
      omega
    refine ⟨_, TypeDatabase.parseType_spelling defined valid ?_ ?_ typed small, ?_⟩
    · exact fun c inside => white c (List.mem_append_left _ inside)
    · exact fun c inside => white c (List.mem_append_right _ inside)
    · rw [foldr_bounds]
      exact sizeInBytes_foldr ((BaseSpelling.size_typ typed).trans base_width) above (by omega)

/-- A type of base types, arrays with positive bounds, and guest pointers. -/
inductive Annotatable : Typ → Prop where
  | primitive {typ : Typ}
      (member : typ ∈ [Typ.void, .u8, .u16, .u32, .i8, .i16, .i32]) : Annotatable typ
  | array {base : Typ} {n : Nat} (inner : Annotatable base) (positive : 0 < n) :
      Annotatable (.array base (.known n))
  | guestPtr {base : Typ} {kind : GuestPtrKind} (inner : Annotatable base) :
      Annotatable (.guestPtr base kind)

theorem annotatable_foldr {sizes : List ArraySize} {base : Typ}
    (made : Annotatable (sizes.foldr (fun size typ => Typ.array typ size) base)) :
    Annotatable base ∧ ∃ ns : List Nat, sizes = ns.map ArraySize.known := by
  induction sizes with
  | nil => exact ⟨made, [], rfl⟩
  | cons size sizes ih =>
      cases made with
      | primitive member => simp at member
      | @array _ n inner positive =>
          obtain ⟨base_made, ns, rfl⟩ := ih inner
          exact ⟨base_made, n :: ns, rfl⟩

/-- A known name that is no structure is a primitive type, which is displayed as itself. -/
theorem basetype?_primitive {name : List Char} {typ : Typ}
    (known : (TypeDatabase.ofStructs structs).basetype? name = some typ)
    (made : Annotatable typ) (dims : String) :
    (typ.displayWith dims).toList = name ++ dims.toList := by
  have later (structs : List Struct) (db : TypeDatabase)
      (known : (structs.foldl TypeDatabase.appendStruct db).basetype? name = some typ) :
      db.basetype? name = some typ := by
    induction structs generalizing db with
    | nil => exact known
    | cons s structs ih =>
        have found := ih (db.appendStruct s) known
        rw [TypeDatabase.basetype?_appendStruct] at found
        split at found
        · obtain rfl := Option.some.inj found
          cases made with
          | primitive member => simp at member
        · exact found
  obtain ⟨_, _, entries, _⟩ := List.lookup_eq_some_iff.mp (later _ _ known)
  have member : (String.ofList name, typ) ∈ TypeDatabase.new.basetypes := by
    rw [entries]
    simp
  have displayed : ∀ entry ∈ TypeDatabase.new.basetypes,
      entry.2.displayWith dims = entry.1 ++ dims := by
    intro entry inside
    fin_cases inside <;> rfl
  have same := displayed _ member
  rw [same, String.toList_append, String.toList_ofList]

/-- The dimensions of an array are displayed in their order. -/
theorem displayWith_foldr (ns : List Nat) (base : Typ) (dims : String) :
    ∃ more : String, (ns.foldr (fun n typ => Typ.array typ (.known n)) base).displayWith dims =
        base.displayWith (dims ++ more) ∧
      more.toList = dimText (ns.map fun n => Nat.toDigits 10 n) := by
  induction ns generalizing dims with
  | nil => exact ⟨"", by simp, rfl⟩
  | cons n ns ih =>
      obtain ⟨more, displayed, text⟩ := ih (dims ++ "[" ++ toString n ++ "]")
      refine ⟨"[" ++ toString n ++ "]" ++ more, ?_, ?_⟩
      · rw [List.foldr_cons, Typ.displayWith, displayed]
        simp only [String.append_assoc]
      · rw [List.map_cons, dimText_cons, ← text]
        simp [Nat.toString_eq_repr, Nat.repr_eq_ofList_toDigits]

/-- A type that is displayed is parsed again. -/
theorem parseType_display (defined : Defined alnum structs) {text : List Char} {typ : Typ}
    (parsed : (TypeDatabase.ofStructs structs).parseType text = .ok typ)
    (made : Annotatable typ) :
    (TypeDatabase.ofStructs structs).parseType typ.display.toList = .ok typ := by
  obtain ⟨_, base, _, dims, _, baseTyp, sizes, _, _, _, _, _, valid, typed, bounds, rfl⟩ :=
    TypeDatabase.parseType_shape alnum parsed
  obtain ⟨base_made, ns, rfl⟩ := annotatable_foldr made
  obtain ⟨written, _, values, facts⟩ := exists_bounds bounds
  have nothing : Blank isWhitespace [] := List.forall_mem_nil _
  -- The base without white space around a pointee.
  have strict : ∃ base : BaseSpelling, base.Valid alnum (.ofStructs structs) ∧
      base.typ (.ofStructs structs) = some baseTyp ∧
      ∀ dims, (baseTyp.displayWith dims).toList = base.text ++ dims.toList := by
    cases base with
    | plain name => exact ⟨.plain name, valid, typed, basetype?_primitive typed base_made⟩
    | pointer kind before name after =>
        obtain ⟨pointee, known, rfl⟩ := Option.map_eq_some_iff.mp typed
        obtain ⟨_, _, brackets, identified⟩ := valid
        cases base_made with
        | primitive member => simp at member
        | guestPtr inner =>
            refine ⟨.pointer kind [] name [], ⟨nothing, nothing, brackets, identified⟩, typed, fun dims => ?_⟩
            have displayed := basetype?_primitive known inner ""
            cases kind <;>
              simp [Typ.displayWith, displayed, BaseSpelling.text, GuestPtrKind.opening]
  obtain ⟨base', valid', typed', displayed⟩ := strict
  have shape : (ns.map ArraySize.known).foldr (fun size typ => Typ.array typ size) baseTyp =
      ns.foldr (fun n typ => Typ.array typ (.known n)) baseTyp := by
    rw [List.foldr_map]
  obtain ⟨more, displayedWith, text⟩ := displayWith_foldr ns baseTyp ""
  have digit_values : (ns.map fun n => Bound.mk false (Nat.toDigits 10 n)).map Bound.value = ns := by
    rw [List.map_map]
    refine (List.map_congr_left fun n _ => ?_).trans (List.map_id ns)
    exact Nat.ofDigitChars_ten_toDigits
  have small {n : Nat} (inside : n ∈ ns) : 0 < n ∧ n < 2 ^ 64 := by
    rw [values] at inside
    obtain ⟨bound, member, rfl⟩ := List.mem_map.mp inside
    exact ⟨(facts bound member).1.positive, (facts bound member).2⟩
  let sp : Spelling := ⟨[], base', [], ns.map fun n => ⟨false, Nat.toDigits 10 n⟩, []⟩
  have sp_text : sp.text = (baseTyp.displayWith ("" ++ more)).toList := by
    rw [displayed, String.toList_append, text, Spelling.text, Spelling.core]
    simp [sp, Bound.text, Function.comp_def]
  have sp_valid : sp.Valid alnum (.ofStructs structs) := by
    refine ⟨List.forall_mem_nil _, valid', nothing, fun _ => rfl, ?_, List.forall_mem_nil _⟩
    intro bound inside
    obtain ⟨n, member, rfl⟩ := List.mem_map.mp inside
    refine ⟨Nat.toDigits_ne_nil, fun c digit => ?_, ?_⟩
    · exact Nat.isDigit_of_mem_toDigits (by decide) (by decide) digit
    · rw [Bound.value, Nat.ofDigitChars_ten_toDigits]
      exact (small member).1
  have again := TypeDatabase.parseType_spelling defined sp_valid nothing nothing typed' (by
      intro bound inside
      obtain ⟨n, member, rfl⟩ := List.mem_map.mp inside
      rw [Bound.value, Nat.ofDigitChars_ten_toDigits]
      exact (small member).2)
  rw [shape, Typ.display, displayedWith, ← sp_text, again]
  rw [foldr_bounds, show sp.bounds.map Bound.value = ns from digit_values]

/-- The two parsers accept the same texts with the same small sizes, and a displayed type is parsed
again. -/
structure OneLanguage (alnum : Char → Bool) (structs : List Struct) (text : List Char) : Prop where
  sizes : ∀ n ≤ 0xffff, knownSize alnum structs text = some n ↔
    (TypeDatabase.ofStructs structs).parsedSize text = some n
  display : ∀ typ, (TypeDatabase.ofStructs structs).parseType text = .ok typ → Annotatable typ →
    (TypeDatabase.ofStructs structs).parseType typ.display.toList = .ok typ

/-- The parsers agree on a text if and only if a reading of it as a type of a small size uses what
only the one accepts together with what only the other accepts, or neither. -/
theorem oneLanguage_iff (defined : Defined alnum structs) (text : List Char) :
    OneLanguage alnum structs text ↔
      ∀ sp : Spelling, sp.text = text → sp.Valid alnum (.ofStructs structs) →
        ∀ n ≤ 0xffff, sp.size (.ofStructs structs) = some n →
          (sp.PythonOnly (.ofStructs structs) ↔ sp.RustOnly alnum) := by
  constructor
  · rintro ⟨agree, _⟩ sp written valid n fits sized
    have unique {sp' : Spelling} (written' : sp'.text = text)
        (valid' : sp'.Valid alnum (.ofStructs structs)) : sp = sp' :=
      Spelling.text_inj defined valid valid' (written.trans written'.symm)
    have left : knownSize alnum structs text = some n ↔ ¬ sp.RustOnly alnum := by
      rw [knownSize_iff defined]
      constructor
      · rintro ⟨sp', written', valid', regular, _⟩
        rwa [unique written' valid']
      · exact fun regular => ⟨sp, written, valid, regular, sized, fits⟩
    have right : (TypeDatabase.ofStructs structs).parsedSize text = some n ↔
        ¬ sp.PythonOnly (.ofStructs structs) := by
      rw [parsedSize_iff defined fits]
      constructor
      · rintro ⟨sp', written', valid', regular, _⟩
        rwa [unique written' valid']
      · exact fun regular => ⟨sp, written, valid, regular, sized⟩
    exact not_iff_not.mp (right.symm.trans ((agree n fits).symm.trans left))
  · intro mixed
    refine ⟨fun n fits => ?_, fun typ => parseType_display defined⟩
    rw [knownSize_iff defined, parsedSize_iff defined fits]
    constructor
    · rintro ⟨sp, written, valid, regular, sized, _⟩
      exact ⟨sp, written, valid, (mixed sp written valid n fits sized).not.mpr regular, sized⟩
    · rintro ⟨sp, written, valid, regular, sized⟩
      exact ⟨sp, written, valid, (mixed sp written valid n fits sized).not.mp regular, sized, fits⟩

theorem oneLanguage_iff_point :
    Defined (fun _ => false) [⟨"point_t", 4, []⟩] ∧
      (OneLanguage (fun _ => false) [⟨"point_t", 4, []⟩] "far<point_t>[2]".toList ↔
        ∀ sp : Spelling, sp.text = "far<point_t>[2]".toList →
          sp.Valid (fun _ => false) (.ofStructs [⟨"point_t", 4, []⟩]) →
          ∀ n ≤ 0xffff, sp.size (.ofStructs [⟨"point_t", 4, []⟩]) = some n →
            (sp.PythonOnly (.ofStructs [⟨"point_t", 4, []⟩]) ↔ sp.RustOnly fun _ => false)) := by
  have defined : Defined (fun _ => false) [⟨"point_t", 4, []⟩] := by
    constructor
    · simp only [List.mem_singleton, forall_eq]
      exact ⟨"point".toList, by decide⟩
    · simp
    · simp
    · simp only [List.mem_singleton, forall_eq]
      decide +kernel
  exact ⟨defined, oneLanguage_iff defined _⟩

/-- A signed bound is accepted on one side only. -/
theorem signed_bound : knownSize (fun _ => false) [] "u8[+3]".toList = none ∧
    (TypeDatabase.ofStructs []).parsedSize "u8[+3]".toList = some 3 ∧
    ¬ OneLanguage (fun _ => false) [] "u8[+3]".toList := by
  have refused : knownSize (fun _ => false) [] "u8[+3]".toList = none := by decide +kernel
  have accepted : (TypeDatabase.ofStructs []).parsedSize "u8[+3]".toList = some 3 := by
    decide +kernel
  refine ⟨refused, accepted, fun one => ?_⟩
  have sized := (one.sizes 3 (by decide)).mpr accepted
  rw [refused] at sized
  cases sized

end Dis86
