import Dis86.Config.SpellingUnique

namespace Dis86
open Lib (strip Bare Blank)

namespace Annotation

variable {alnum : Char → Bool} {structs : List Struct}

theorem dimension_eq_some {digits : List Char} {n : Nat} :
    dimension digits = .ok (some n) ↔
      digits ≠ [] ∧ digits.length ≤ 4300 ∧ n = Nat.ofDigitChars 10 digits 0 := by
  unfold dimension int
  by_cases empty : digits = []
  · simp [empty]
  · by_cases short : digits.length ≤ 4300
    · rw [if_neg empty, if_pos short]
      show Except.ok (some _) = Except.ok (some n) ↔ _
      rw [Except.ok.injEq, Option.some.injEq]
      exact ⟨fun same => ⟨empty, short, same.symm⟩, fun facts => facts.2.2.symm⟩
    · rw [if_neg empty, if_neg short]
      exact ⟨nofun, fun facts => absurd facts.2.1 short⟩

/-- The dimensions are all known when each is written with digits. -/
theorem mapM_dimension {groups : List (List Char)} {ns : List Nat} :
    groups.mapM dimension = .ok (ns.map some) ↔
      ns = groups.map (fun digits => Nat.ofDigitChars 10 digits 0) ∧
      ∀ digits ∈ groups, digits ≠ [] ∧ digits.length ≤ 4300 := by
  induction groups generalizing ns with
  | nil =>
      show Except.ok [] = Except.ok (ns.map some) ↔ _
      rw [Except.ok.injEq, eq_comm, List.map_eq_nil_iff]
      simp
  | cons digits groups ih =>
      rw [List.mapM_cons, Lib.except_bind_eq_ok, List.forall_mem_cons, List.map_cons]
      constructor
      · rintro ⟨first, found, later⟩
        obtain ⟨rest, mapped, same⟩ := Lib.except_bind_eq_ok.mp later
        cases ns with
        | nil => cases Except.ok.inj same
        | cons n ns =>
            obtain ⟨rfl, rfl⟩ := List.cons.inj (Except.ok.inj same)
            obtain ⟨nonempty, short, rfl⟩ := dimension_eq_some.mp found
            obtain ⟨rfl, all⟩ := ih.mp mapped
            exact ⟨rfl, ⟨nonempty, short⟩, all⟩
      · rintro ⟨rfl, ⟨nonempty, short⟩, all⟩
        exact ⟨_, dimension_eq_some.mpr ⟨nonempty, short, rfl⟩,
          Lib.except_bind_eq_ok.mpr ⟨_, ih.mpr ⟨rfl, all⟩, rfl⟩⟩

theorem exists_map_some {dims : List (Option Nat)} (known : none ∉ dims) :
    ∃ ns : List Nat, dims = ns.map some := by
  induction dims with
  | nil => exact ⟨[], rfl⟩
  | cons dim dims ih =>
      rw [List.mem_cons, not_or] at known
      obtain ⟨n, rfl⟩ := Option.ne_none_iff_exists'.mp (Ne.symm known.1)
      obtain ⟨ns, rfl⟩ := ih known.2
      exact ⟨n :: ns, rfl⟩

/-- The bounds are positive, so that the size grows from one to the next. -/
theorem growSize_eq_ok {typ : Annotated} {size total : Nat} {ns : List Nat}
    (positive : ∀ n ∈ ns, 0 < n) (small : size ≤ 0xffff) :
    growSize typ size (ns.map some) = .ok (some total) ↔
      total = size * ns.prod ∧ total ≤ 0xffff := by
  induction ns generalizing size with
  | nil =>
      show Except.ok (some size) = Except.ok (some total) ↔ _
      rw [Except.ok.injEq, Option.some.injEq, List.prod_nil, Nat.mul_one]
      constructor
      · rintro rfl
        exact ⟨rfl, small⟩
      · rintro ⟨rfl, _⟩
        rfl
  | cons n ns ih =>
      have later : ∀ n ∈ ns, 0 < n := fun n inside => positive n (List.mem_cons_of_mem _ inside)
      rw [List.map_cons, growSize, List.prod_cons, ← Nat.mul_assoc]
      split
      · rename_i large
        refine ⟨nofun, ?_⟩
        rintro ⟨rfl, fits⟩
        have grows : size * n ≤ size * n * ns.prod :=
          Nat.le_mul_of_pos_right _ (List.prod_pos_iff_forall_pos_nat.mpr later)
        omega
      · rename_i fits
        exact ih later (by omega)

/-- The width of a base, when it is known. -/
def baseWidth (alnum : Char → Bool) (structs : List Struct) (base : List Char) : Option Nat :=
  (pointerWidth alnum base).or (basetypeSizeInBytes structs base)

theorem knownSize_eq_some {text : List Char} {n : Nat} :
    knownSize alnum structs text = some n ↔ ∃ typ width,
      fromStr alnum text = .ok typ ∧ baseWidth alnum structs typ.basetype = some width ∧
      none ∉ typ.dimensions ∧ growSize typ width typ.dimensions = .ok (some n) := by
  unfold knownSize
  cases fromStr alnum text with
  | error e =>
      constructor
      · intro found
        cases found
      · rintro ⟨_, _, no, _⟩
        cases no
  | ok typ =>
      have sized : sizeInBytes alnum structs typ = .ok (some n) ↔ ∃ width,
          baseWidth alnum structs typ.basetype = some width ∧ none ∉ typ.dimensions ∧
          growSize typ width typ.dimensions = .ok (some n) := by
        unfold sizeInBytes
        rw [← baseWidth]
        cases baseWidth alnum structs typ.basetype with
        | none =>
            constructor
            · intro found
              cases found
            · rintro ⟨_, no, _⟩
              cases no
        | some width =>
            by_cases open_ : none ∈ typ.dimensions
            · simp [open_]
            · simp [open_]
      rw [show (Except.ok typ >>= sizeInBytes alnum structs) = sizeInBytes alnum structs typ from rfl]
      constructor
      · intro found
        split at found
        · rename_i size sizes
          rw [found] at sizes
          obtain ⟨width, facts⟩ := sized.mp sizes
          exact ⟨typ, width, rfl, facts⟩
        · cases found
      · rintro ⟨typ', width, same, facts⟩
        obtain rfl := Except.ok.inj same
        rw [sized.mpr ⟨width, facts⟩]

theorem isIdentifier_brackets {name : List Char} (identifier : isIdentifier alnum name = true) :
    ∀ c ∈ name, isBracket c = false := by
  have word (c : Char) (inside : isWord alnum c = true) : isBracket c = false := by
    have differs (d : Char) (low : d.toNat < 128)
        (symbol : d ≠ '_' ∧ d.isAlphanum = false) : c ≠ d := by
      rintro rfl
      unfold isWord at inside
      rw [if_pos low, symbol.2, Bool.or_false, decide_eq_true_eq] at inside
      exact symbol.1 inside
    simp [isBracket, differs '[' (by decide) (by decide), differs ']' (by decide) (by decide),
      differs '<' (by decide) (by decide), differs '>' (by decide) (by decide)]
  cases name with
  | nil => simp
  | cons c rest =>
      unfold isIdentifier at identifier
      rw [Bool.and_eq_true, List.all_eq_true] at identifier
      intro d inside
      rcases List.mem_cons.mp inside with rfl | later
      · apply word
        unfold isWord
        rcases Bool.or_eq_true_iff.mp identifier.1 with underscore | letter
        · rw [underscore, Bool.true_or]
        · have low : d.toNat < 128 := by
            have range := Lib.isAlpha_iff.mp letter
            omega
          rw [if_pos low, Char.isAlphanum, letter, Bool.true_or, Bool.or_true]
      · exact word d (identifier.2 d later)

theorem basetypeSize_bounds (defined : Defined alnum structs) {name : List Char} {width : Nat}
    (known : basetypeSizeInBytes structs name = some width) : 0 < width ∧ width ≤ 0xffff := by
  obtain ⟨before, after, entries, _⟩ := List.lookup_eq_some_iff.mp known
  have member : (String.ofList name, width) ∈ typeSizes structs := by
    rw [entries]
    simp
  rcases List.mem_append.mp member with primitive | structure_
  · have small : ∀ entry ∈ [("u8", 1), ("i8", 1), ("u16", 2), ("i16", 2), ("u32", 4),
        ("i32", 4)], 0 < entry.2 ∧ entry.2 ≤ 0xffff := by decide
    exact small _ primitive
  · obtain ⟨s, inside, same⟩ := List.mem_map.mp structure_
    rw [← (Prod.mk.inj same).2]
    exact defined.size s inside

theorem baseWidth_le (defined : Defined alnum structs) {base : List Char} {width : Nat}
    (known : baseWidth alnum structs base = some width) : width ≤ 0xffff := by
  rcases Option.or_eq_some_iff.mp known with pointer | ⟨_, sized⟩
  · obtain ⟨spec, _, rfl⟩ := Option.map_eq_some_iff.mp pointer
    split <;> omega
  · exact (basetypeSize_bounds defined sized).2

/-- The width of a base that is spelled strictly. -/
theorem baseWidth_text (defined : Defined alnum structs) {base : BaseSpelling}
    (valid : base.Valid alnum (.ofStructs structs))
    (strict : ∀ kind before name after, base = .pointer kind before name after →
      before = [] ∧ after = [] ∧ isIdentifier alnum name = true) :
    baseWidth alnum structs base.text = base.width (.ofStructs structs) ∧
      ∀ kind rest, base.text = GuestPtrKind.opening kind ++ rest →
        (pointerSpec alnum base.text).isSome = true := by
  cases base with
  | plain name =>
      have plain := defined.plainName_of_basetype? valid
      have no_pointer : pointerSpec alnum name = none := by
        by_contra some_
        obtain ⟨⟨kind, inner⟩, spec⟩ := Option.ne_none_iff_exists'.mp some_
        obtain ⟨shape, _⟩ := pointerSpec_eq_some.mp spec
        exact plain.opens kind (inner ++ ['>']) (by rw [shape, List.append_assoc])
      refine ⟨?_, fun kind rest same => (plain.opens kind rest same).elim⟩
      show (pointerWidth alnum name).or (basetypeSizeInBytes structs name) = _
      rw [pointerWidth, no_pointer, defined.size_eq]
      rfl
  | pointer kind before name after =>
      obtain ⟨rfl, rfl, identifier⟩ := strict kind before name after rfl
      have spec : pointerSpec alnum (BaseSpelling.pointer kind [] name []).text =
          some (kind, name) := pointerSpec_eq_some.mpr ⟨by simp [BaseSpelling.text], identifier⟩
      refine ⟨?_, fun _ _ _ => by rw [spec]; rfl⟩
      rw [baseWidth, pointerWidth, spec]
      cases kind <;> rfl

/-- A base with a known width is a pointer to an identifier, or a known name. -/
theorem exists_base (defined : Defined alnum structs) {text : List Char} {width : Nat}
    (known : baseWidth alnum structs text = some width) :
    ∃ base : BaseSpelling, base.text = text ∧ base.Valid alnum (.ofStructs structs) ∧
      base.width (.ofStructs structs) = some width ∧
      ∀ kind before name after, base = .pointer kind before name after →
        before = [] ∧ after = [] ∧ isIdentifier alnum name = true := by
  have nothing : Blank isWhitespace [] := List.forall_mem_nil _
  rcases Option.or_eq_some_iff.mp known with pointer | ⟨_, sized⟩
  · obtain ⟨⟨kind, name⟩, spec, rfl⟩ := Option.map_eq_some_iff.mp pointer
    obtain ⟨rfl, identifier⟩ := pointerSpec_eq_some.mp spec
    refine ⟨.pointer kind [] name [], by simp [BaseSpelling.text], ⟨nothing, nothing,
      isIdentifier_brackets identifier, .inr identifier⟩, ?_, ?_⟩
    · cases kind <;> rfl
    · intro kind' before' name' after' same
      obtain ⟨rfl, rfl, rfl, rfl⟩ := BaseSpelling.pointer.inj same
      exact ⟨rfl, rfl, identifier⟩
  · rw [defined.size_eq] at sized
    refine ⟨.plain text, rfl, ?_, sized, ?_⟩
    · obtain ⟨typ, known, _⟩ := Option.bind_eq_some_iff.mp sized
      exact Option.isSome_iff_exists.mpr ⟨typ, known⟩
    · intro kind before name after same
      cases same

/-- The sized annotations are those that are spelled strictly and fit into a segment. -/
theorem knownSize_iff (defined : Defined alnum structs) {text : List Char} {n : Nat} :
    knownSize alnum structs text = some n ↔ ∃ sp : Spelling, sp.text = text ∧
      sp.Valid alnum (.ofStructs structs) ∧ ¬ sp.RustOnly alnum ∧
      sp.size (.ofStructs structs) = some n ∧ n ≤ 0xffff := by
  rw [knownSize_eq_some]
  constructor
  · rintro ⟨typ, width, parsed, known, closed, grown⟩
    obtain ⟨groups, shape, _, _, digits, _, mapped, positive⟩ := fromStr_eq_ok.mp parsed
    obtain ⟨ns, dims⟩ := exists_map_some closed
    rw [dims] at mapped grown positive
    obtain ⟨rfl, facts⟩ := mapM_dimension.mp mapped
    have above : ∀ n ∈ groups.map (fun digits => Nat.ofDigitChars 10 digits 0), 0 < n := by
      intro n inside
      refine Nat.pos_of_ne_zero ?_
      rintro rfl
      exact positive (List.mem_map_of_mem inside)
    obtain ⟨rfl, fits⟩ := (growSize_eq_ok above (baseWidth_le defined known)).mp grown
    obtain ⟨base, base_text, valid, base_width, strict⟩ := exists_base defined known
    obtain ⟨before, after, whole, left, right, _⟩ := Lib.exists_strip isSpace text
    refine ⟨⟨before, base, [], groups.map (Bound.mk false), after⟩, ?_, ?_, ?_, ?_, fits⟩
    · have texts : (groups.map (Bound.mk false)).map Bound.text = groups := by
        rw [List.map_map]
        exact List.map_id groups
      rw [Spelling.text, Spelling.core, texts, base_text, List.append_nil, ← shape, ← whole]
    · refine ⟨left, valid, List.forall_mem_nil _, fun _ => rfl, ?_, right⟩
      intro bound inside
      obtain ⟨group, member, rfl⟩ := List.mem_map.mp inside
      exact ⟨(facts group member).1, digits group member, above _ (List.mem_map_of_mem member)⟩
    · rintro (gap | ⟨kind, before', name, after', same, loose⟩ | ⟨bound, inside, odd⟩)
      · exact gap rfl
      · obtain ⟨rfl, rfl, identifier⟩ := strict kind before' name after' same
        rw [identifier] at loose
        simp at loose
      · obtain ⟨group, member, rfl⟩ := List.mem_map.mp inside
        have short := (facts group member).2
        rcases odd with signed | long
        · cases signed
        · simp only at long
          omega
    · rw [Spelling.size, base_width]
      simp only [Option.map_some, List.map_map]
      rfl
  · rintro ⟨sp, rfl, valid, regular, sized, fits⟩
    obtain ⟨width, base_width, rfl⟩ := Option.map_eq_some_iff.mp sized
    have gap : sp.gap = [] := not_not.mp fun more => regular (.inl more)
    have strict : ∀ kind before name after, sp.base = .pointer kind before name after →
        before = [] ∧ after = [] ∧ isIdentifier alnum name = true := by
      intro kind before name after same
      by_contra loose
      refine regular (.inr (.inl ⟨kind, before, name, after, same, ?_⟩))
      by_contra both
      simp only [not_or, not_not, Bool.not_eq_false] at both
      exact loose both
    have unsigned : ∀ bound ∈ sp.bounds, bound.text = bound.digits ∧ bound.digits.length ≤ 4300 := by
      intro bound inside
      have plain : ¬ (bound.signed = true ∨ 4300 < bound.digits.length) := fun odd =>
        regular (.inr (.inr ⟨bound, inside, odd⟩))
      rw [not_or, Nat.not_lt] at plain
      exact ⟨if_neg plain.1, plain.2⟩
    have groups : sp.bounds.map Bound.text = sp.bounds.map Bound.digits :=
      List.map_congr_left fun bound inside => (unsigned bound inside).1
    obtain ⟨widths, opens⟩ := baseWidth_text defined valid.base strict
    have stands := valid.base.stands defined
    have above : ∀ n ∈ sp.bounds.map Bound.value, 0 < n := by
      intro n inside
      obtain ⟨bound, member, rfl⟩ := List.mem_map.mp inside
      exact (valid.bounds bound member).positive
    have known := widths.trans base_width
    refine ⟨⟨sp.base.text, (sp.bounds.map Bound.value).map some⟩, width, ?_, known, ?_, ?_⟩
    · refine fromStr_eq_ok.mpr ⟨sp.bounds.map Bound.digits, ?_, stands.nonempty,
        stands.unbracketed, ?_, opens, ?_, ?_⟩
      · rw [valid.strip_text defined, Spelling.core, gap, List.append_nil, groups]
      · intro group member
        obtain ⟨bound, inside, rfl⟩ := List.mem_map.mp member
        exact (valid.bounds bound inside).digits
      · refine mapM_dimension.mpr ⟨by rw [List.map_map]; rfl, ?_⟩
        intro group member
        obtain ⟨bound, inside, rfl⟩ := List.mem_map.mp member
        exact ⟨(valid.bounds bound inside).nonempty, (unsigned bound inside).2⟩
      · intro zero
        obtain ⟨n, inside, same⟩ := List.mem_map.mp zero
        have := above n inside
        rw [Option.some.inj same] at this
        omega
    · intro open_
      obtain ⟨_, _, no⟩ := List.mem_map.mp open_
      cases no
    · exact (growSize_eq_ok above (baseWidth_le defined known)).mpr ⟨rfl, fits⟩

end Annotation

end Dis86
