import Dis86.Config.TypeSpelling

namespace Dis86
open Lib (strip Bare Blank)
open Annotation

variable {alnum : Char → Bool} {structs : List Struct}

theorem isUnbracketed_of_isWhitespace {c : Char} (white : isWhitespace c = true) :
    isUnbracketed c = true := by
  unfold isUnbracketed
  have differs (d : Char) (black : isWhitespace d = false) : c ≠ d := by
    rintro rfl
    rw [black] at white
    cases white
  simp [differs '[' (by decide), differs ']' (by decide)]

/-- A base stands between its spaces and before its dimensions. -/
structure BaseSpelling.Stands (base : BaseSpelling) : Prop where
  nonempty : base.text ≠ []
  bare : Bare isSpace base.text
  unbracketed : ∀ c ∈ base.text, isUnbracketed c = true

theorem BaseSpelling.Valid.stands {base : BaseSpelling} (defined : Defined alnum structs)
    (valid : base.Valid alnum (.ofStructs structs)) : base.Stands := by
  cases base with
  | plain name =>
      have plain := defined.plainName_of_basetype? valid
      exact ⟨plain.nonempty, plain.bare, plain.unbracketed⟩
  | pointer kind before name after =>
      obtain ⟨left, right, brackets, _⟩ := valid
      constructor
      case nonempty =>
        exact List.append_ne_nil_of_right_ne_nil _ (List.cons_ne_nil _ _)
      case bare =>
        constructor
        · intro c first
          cases kind <;> exact (Option.some.inj first) ▸ rfl
        · intro c final
          rw [text, List.getLast?_concat] at final
          exact (Option.some.inj final) ▸ rfl
      case unbracketed =>
        intro c inside
        simp only [text, List.mem_append, List.mem_singleton] at inside
        rcases inside with (opening | (white | plain) | white) | rfl
        · have all : kind.opening.all isUnbracketed = true := by cases kind <;> decide
          exact List.all_eq_true.mp all c opening
        · exact isUnbracketed_of_isWhitespace (left c white)
        · have plain := brackets c plain
          simp only [isBracket, Bool.or_eq_false_iff] at plain
          simp [isUnbracketed, of_decide_eq_false plain.1.1.1, of_decide_eq_false plain.1.1.2]
        · exact isUnbracketed_of_isWhitespace (right c white)
        · decide

namespace Spelling

/-- The core of a type begins with its base and has no spaces at its ends. -/
theorem Valid.core_bare {sp : Spelling} (defined : Defined alnum structs)
    (valid : sp.Valid alnum (.ofStructs structs)) : sp.core ≠ [] ∧ Bare isSpace sp.core := by
  obtain ⟨nonempty, bare, _⟩ := valid.base.stands defined
  have head : sp.core.head? = sp.base.text.head? := by
    rw [core, List.append_assoc, List.head?_append_of_ne_nil _ nonempty]
  refine ⟨fun empty => ?_, fun c first => bare.head c (head ▸ first), fun c final => ?_⟩
  · rw [empty] at head
    exact nonempty (List.head?_eq_none_iff.mp head.symm)
  · by_cases scalar : sp.bounds = []
    · rw [core, valid.scalar scalar, scalar, List.append_nil, List.map_nil, dimText,
        List.flatMap_nil, List.append_nil] at final
      exact bare.last c final
    · have closes := dimText_last (mt List.map_eq_nil_iff.mp scalar : sp.bounds.map Bound.text ≠ [])
      rw [core, List.getLast?_append, closes] at final
      exact (Option.some.inj final) ▸ rfl

theorem Valid.strip_text {sp : Spelling} (defined : Defined alnum structs)
    (valid : sp.Valid alnum (.ofStructs structs)) : strip isSpace sp.text = sp.core :=
  Lib.strip_append valid.before valid.after (valid.core_bare defined).2

/-- The dimensions begin at the first bracket. -/
theorem Valid.cut_core {sp : Spelling} (defined : Defined alnum structs)
    (valid : sp.Valid alnum (.ofStructs structs)) :
    sp.core.takeWhile isUnbracketed = sp.base.text ++ sp.gap ∧
      sp.core.dropWhile isUnbracketed = dimText (sp.bounds.map Bound.text) := by
  apply Lib.takeWhile_append
  · intro c inside
    rcases List.mem_append.mp inside with base | white
    · exact (valid.base.stands defined).unbracketed c base
    · exact isUnbracketed_of_isWhitespace (valid.gap c white)
  · intro c first
    rw [dimText_head _ c first]
    decide

end Spelling

/-- Dimensions are told apart by their closing brackets. -/
theorem dimText_inj {dims dims' : List (List Char)} (closed : ∀ dim ∈ dims, ∀ c ∈ dim, c ≠ ']')
    (closed' : ∀ dim ∈ dims', ∀ c ∈ dim, c ≠ ']') (same : dimText dims = dimText dims') :
    dims = dims' := by
  induction dims generalizing dims' with
  | nil =>
      cases dims' with
      | nil => rfl
      | cons dim dims' =>
          rw [dimText_cons] at same
          cases same
  | cons dim dims ih =>
      cases dims' with
      | nil =>
          rw [dimText_cons] at same
          cases same
      | cons dim' dims' =>
          rw [dimText_cons, dimText_cons] at same
          have tails := (List.cons.inj same).2
          have stop : decide (']' ≠ ']') = false := by decide
          have cut {dim : List Char} (closed : ∀ c ∈ dim, c ≠ ']') (rest : List Char) :=
            takeWhile_cons (fun c => decide (c ≠ ']')) rest
              (fun c member => decide_eq_true (closed c member)) stop
          have first := cut (closed dim List.mem_cons_self) (dimText dims)
          have first' := cut (closed' dim' List.mem_cons_self) (dimText dims')
          rw [tails] at first
          obtain rfl := first.1.symm.trans first'.1
          have rest := (List.cons.inj (first.2.symm.trans first'.2)).2
          rw [ih (fun dim member => closed dim (List.mem_cons_of_mem _ member))
            (fun dim member => closed' dim (List.mem_cons_of_mem _ member)) rest]

/-- A text whose ends are told apart from spaces has its spaces once. -/
theorem pad_inj {space : Char → Bool} {before before' core core' after after' : List Char}
    (left : Blank space before) (left' : Blank space before') (right : Blank space after)
    (right' : Blank space after') (nonempty : core ≠ []) (nonempty' : core' ≠ [])
    (bare : Bare space core) (bare' : Bare space core')
    (same : before ++ core ++ after = before' ++ core' ++ after') :
    before = before' ∧ core = core' ∧ after = after' := by
  have cores : core = core' := by
    rw [← Lib.strip_append left right bare, same, Lib.strip_append left' right' bare']
  have head {core : List Char} (rest : List Char) (nonempty : core ≠ []) (bare : Bare space core) :
      ∀ c ∈ (core ++ rest).head?, space c = false := by
    intro c first
    rw [List.head?_append_of_ne_nil _ nonempty] at first
    exact bare.head c first
  have cut := Lib.takeWhile_append _ left (head after nonempty bare)
  have cut' := Lib.takeWhile_append _ left' (head after' nonempty' bare')
  rw [← List.append_assoc, same, List.append_assoc] at cut
  refine ⟨cut.1.symm.trans cut'.1, cores, ?_⟩
  have tails := cut.2.symm.trans cut'.2
  rw [cores] at tails
  exact List.append_cancel_left tails

/-- A pointee has no spaces at its ends. -/
theorem pointee_bare (defined : Defined alnum structs) {name : List Char}
    (known : ((TypeDatabase.ofStructs structs).basetype? name).isSome = true ∨
      isIdentifier alnum name = true) : name ≠ [] ∧ Bare isWhitespace name := by
  rcases known with known | identifier
  · have plain := defined.plainName_of_basetype? known
    exact ⟨plain.nonempty, plain.bare.mono isSpace_of_isWhitespace⟩
  · obtain ⟨nonempty, spaces⟩ := identifier_not_space identifier
    exact ⟨nonempty, (bare_of_not_space spaces).mono isSpace_of_isWhitespace⟩

theorem BaseSpelling.text_inj (defined : Defined alnum structs) {base base' : BaseSpelling}
    (valid : base.Valid alnum (.ofStructs structs))
    (valid' : base'.Valid alnum (.ofStructs structs)) (same : base.text = base'.text) :
    base = base' := by
  have differ {name : List Char} {kind : GuestPtrKind} {inner : List Char}
      (known : ((TypeDatabase.ofStructs structs).basetype? name).isSome = true)
      (opens : name = kind.opening ++ inner ++ ['>']) : False :=
    (defined.plainName_of_basetype? known).opens kind (inner ++ ['>'])
      (by rw [opens, List.append_assoc])
  cases base with
  | plain name =>
      cases base' with
      | plain name' => exact congrArg BaseSpelling.plain same
      | pointer kind before name' after => exact (differ valid same).elim
  | pointer kind before name after =>
      cases base' with
      | plain name' => exact (differ valid' same.symm).elim
      | pointer kind' before' name' after' =>
          obtain ⟨left, right, _, known⟩ := valid
          obtain ⟨left', right', _, known'⟩ := valid'
          simp only [text, List.append_assoc] at same
          obtain rfl := GuestPtrKind.opening_inj same
          have inner := List.append_cancel_left same
          rw [← List.append_assoc, ← List.append_assoc, ← List.append_assoc before',
            ← List.append_assoc] at inner
          obtain ⟨rfl, rfl, rfl⟩ := pad_inj left left' right right'
            (pointee_bare defined known).1 (pointee_bare defined known').1
            (pointee_bare defined known).2 (pointee_bare defined known').2
            (List.append_cancel_right inner)
          rfl

namespace Spelling

/-- A text has one reading. -/
theorem text_inj (defined : Defined alnum structs) {sp sp' : Spelling}
    (valid : sp.Valid alnum (.ofStructs structs)) (valid' : sp'.Valid alnum (.ofStructs structs))
    (same : sp.text = sp'.text) : sp = sp' := by
  obtain ⟨nonempty, bare⟩ := valid.core_bare defined
  obtain ⟨nonempty', bare'⟩ := valid'.core_bare defined
  obtain ⟨before, cores, after⟩ := pad_inj valid.before valid'.before valid.after valid'.after
    nonempty nonempty' bare bare' same
  obtain ⟨bases, dims⟩ := valid.cut_core defined
  obtain ⟨bases', dims'⟩ := valid'.cut_core defined
  rw [cores] at bases dims
  have stands := valid.base.stands defined
  have stands' := valid'.base.stands defined
  have nothing : Blank isSpace [] := fun _ no => nomatch no
  obtain ⟨_, texts, gap⟩ := pad_inj nothing nothing (blank_space valid.gap)
    (blank_space valid'.gap) stands.nonempty stands'.nonempty stands.bare stands'.bare
    (bases.symm.trans bases')
  have closed {bounds : List Bound} (valid : ∀ bound ∈ bounds, bound.Valid) :
      ∀ dim ∈ bounds.map Bound.text, ∀ c ∈ dim, c ≠ ']' := by
    intro dim member
    obtain ⟨bound, inside, rfl⟩ := List.mem_map.mp member
    exact (valid bound inside).text_chars
  have written := dimText_inj (closed valid.bounds) (closed valid'.bounds) (dims.symm.trans dims')
  have bounds : sp.bounds = sp'.bounds := by
    have all := valid.bounds
    have all' := valid'.bounds
    revert written all all'
    generalize sp.bounds = bounds
    generalize sp'.bounds = bounds'
    intro written all all'
    induction bounds generalizing bounds' with
    | nil => exact (List.map_eq_nil_iff.mp written.symm).symm
    | cons bound bounds ih =>
        cases bounds' with
        | nil => cases written
        | cons bound' bounds' =>
            obtain ⟨first, later⟩ := List.cons.inj written
            rw [Bound.text_inj (all _ List.mem_cons_self) (all' _ List.mem_cons_self) first,
              ih bounds' later (fun b inside => all b (List.mem_cons_of_mem _ inside))
                fun b inside => all' b (List.mem_cons_of_mem _ inside)]
  have base := BaseSpelling.text_inj defined valid.base valid'.base texts
  obtain ⟨_, _, _, _, _⟩ := sp
  obtain ⟨_, _, _, _, _⟩ := sp'
  simp only at before after gap bounds base
  rw [before, after, gap, bounds, base]

end Spelling

end Dis86
