import Dis86.Config.Names

namespace Dis86
open Lib (strip Bare Blank)

/-- The dimensions of an array as they are written. -/
def dimText (dims : List (List Char)) : List Char := dims.flatMap fun dim => '[' :: (dim ++ [']'])

theorem dimText_cons (dim : List Char) (dims : List (List Char)) :
    dimText (dim :: dims) = '[' :: (dim ++ ']' :: dimText dims) := by
  simp [dimText]

theorem dimText_head (dims : List (List Char)) : ∀ c ∈ (dimText dims).head?, c = '[' := by
  intro c first
  cases dims with
  | nil => cases first
  | cons dim dims =>
      rw [dimText_cons] at first
      exact (Option.some.inj first).symm

theorem dimText_last {dims : List (List Char)} (some_ : dims ≠ []) :
    (dimText dims).getLast? = some ']' := by
  obtain ⟨dims, dim, rfl⟩ := List.eq_nil_or_concat dims |>.resolve_left some_
  rw [List.concat_eq_append, dimText, List.flatMap_append, List.flatMap_singleton,
    ← List.cons_append, ← List.append_assoc, List.getLast?_concat]

/-- A text up to a character, and the rest behind it. -/
theorem takeWhile_cons (stop : Char → Bool) {s : List Char} (rest : List Char) {c : Char}
    (inside : ∀ c ∈ s, stop c = true) (stops : stop c = false) :
    (s ++ c :: rest).takeWhile stop = s ∧ (s ++ c :: rest).dropWhile stop = c :: rest :=
  Lib.takeWhile_append _ inside fun _ first => Option.some.inj first ▸ stops

namespace Annotation

theorem suffixGroups_open {afterOpen group rest : List Char}
    (digits : ∀ c ∈ group, c.isDigit = true) (shape : afterOpen = group ++ ']' :: rest) :
    suffixGroups ('[' :: afterOpen) = (group :: ·) <$> suffixGroups rest := by
  have cut := takeWhile_cons Char.isDigit rest digits (show Char.isDigit ']' = false by decide)
  rw [← shape] at cut
  rw [suffixGroups]
  split
  · rename_i rest' shape'
    rw [cut.2] at shape'
    obtain ⟨_, rfl⟩ := List.cons.inj shape'
    rw [cut.1]
  · rename_i other
    exact absurd cut.2 (other rest)

theorem suffixGroups_eq_some {s : List Char} {groups : List (List Char)} :
    suffixGroups s = some groups ↔
      s = dimText groups ∧ ∀ group ∈ groups, ∀ c ∈ group, c.isDigit = true := by
  constructor
  · intro found
    induction s using suffixGroups.induct generalizing groups with
    | case1 =>
        rw [suffixGroups] at found
        obtain rfl := Option.some.inj found
        exact ⟨rfl, by simp⟩
    | case2 afterOpen rest shape ih =>
        have split_ := List.takeWhile_append_dropWhile (p := Char.isDigit) (l := afterOpen)
        rw [shape] at split_
        have digits : ∀ c ∈ afterOpen.takeWhile Char.isDigit, c.isDigit = true :=
          fun c inside => List.mem_takeWhile_imp inside
        rw [suffixGroups_open digits split_.symm] at found
        obtain ⟨later, walked, rfl⟩ := Option.map_eq_some_iff.mp found
        obtain ⟨rfl, all⟩ := ih walked
        refine ⟨?_, ?_⟩
        · rw [dimText_cons, split_]
        · intro group inside
          rcases List.mem_cons.mp inside with rfl | inside
          · exact digits
          · exact all group inside
    | case3 afterOpen other =>
        rw [suffixGroups] at found
        split at found
        · rename_i rest shape
          exact absurd shape (other rest)
        · cases found
    | case4 s empty other =>
        rw [suffixGroups] at found
        · cases found
        · exact empty
        · exact other
  · rintro ⟨rfl, digits⟩
    induction groups with
    | nil =>
        rw [dimText, List.flatMap_nil, suffixGroups]
    | cons group groups ih =>
        rw [dimText_cons, suffixGroups_open (digits group List.mem_cons_self) rfl,
          ih fun later inside => digits later (List.mem_cons_of_mem _ inside)]
        rfl

end Annotation

theorem parseDims_open {s afterOpen dim rest : List Char} (inside : ∀ c ∈ dim, c ≠ ']')
    (shape : afterOpen = dim ++ ']' :: rest) :
    parseDims s ('[' :: afterOpen) = do
      let size ← parseBound s dim
      if rest ≠ [] ∧ rest.head? ≠ some '[' then .error (.suffix s)
      else return size :: (← parseDims s rest) := by
  have cut := takeWhile_cons (fun c => decide (c ≠ ']')) rest
    (fun c member => decide_eq_true (inside c member)) (show decide (']' ≠ ']') = false by decide)
  rw [← shape] at cut
  rw [parseDims]
  split
  · rename_i none_
    rw [cut.2] at none_
    cases none_
  · rename_i c rest' shape'
    rw [cut.2] at shape'
    obtain ⟨_, rfl⟩ := List.cons.inj shape'
    rw [cut.1]

/-- The dimensions are parsed one by one. -/
theorem parseDims_eq_ok {s rest : List Char} {sizes : List ArraySize} :
    parseDims s rest = .ok sizes ↔ ∃ dims, rest = dimText dims ∧
      (∀ dim ∈ dims, ∀ c ∈ dim, c ≠ ']') ∧
      List.Forall₂ (fun dim size => parseBound s dim = .ok size) dims sizes := by
  constructor
  · intro parsed
    induction rest using parseDims.induct generalizing sizes with
    | case1 =>
        rw [parseDims] at parsed
        obtain rfl := Except.ok.inj parsed
        exact ⟨[], rfl, by simp, .nil⟩
    | case2 afterOpen none_ =>
        rw [parseDims] at parsed
        split at parsed
        · cases parsed
        · rename_i some_
          rw [none_] at some_
          cases some_
    | case3 afterOpen c rest shape ih =>
        have split_ := List.takeWhile_append_dropWhile (p := fun c => decide (c ≠ ']'))
          (l := afterOpen)
        have stops := Lib.head_dropWhile (fun c => decide (c ≠ ']')) afterOpen c
          (by rw [shape]; rfl)
        obtain rfl : c = ']' := not_not.mp (of_decide_eq_false stops)
        rw [shape] at split_
        have inside : ∀ c ∈ afterOpen.takeWhile (fun c => decide (c ≠ ']')), c ≠ ']' :=
          fun c member => of_decide_eq_true
            (List.mem_takeWhile_imp (p := fun c => decide (c ≠ ']')) member)
        rw [parseDims_open inside split_.symm] at parsed
        obtain ⟨size, bound, parsed⟩ := Lib.except_bind_eq_ok.mp parsed
        split at parsed
        · cases parsed
        · obtain ⟨later, walked, same⟩ := Lib.except_bind_eq_ok.mp parsed
          obtain rfl := Except.ok.inj same
          obtain ⟨dims, rfl, all, sizes⟩ := ih walked
          refine ⟨afterOpen.takeWhile (fun c => decide (c ≠ ']')) :: dims, ?_, ?_, .cons bound sizes⟩
          · rw [dimText_cons, split_]
          · intro dim member
            rcases List.mem_cons.mp member with rfl | member
            · exact inside
            · exact all dim member
    | case4 s' empty other =>
        rw [parseDims] at parsed
        · cases parsed
        · exact empty
        · exact other
  · rintro ⟨dims, rfl, inside, sizes⟩
    induction sizes with
    | nil =>
        rw [dimText, List.flatMap_nil, parseDims]
    | @cons dim size dims sizes bound later ih =>
        have follows : ¬ (dimText dims ≠ [] ∧ (dimText dims).head? ≠ some '[') := by
          rintro ⟨more, wrong⟩
          obtain ⟨c, rest, shape⟩ := List.exists_cons_of_ne_nil more
          rw [shape] at wrong
          exact wrong (congrArg some (dimText_head dims c (by rw [shape]; rfl)))
        rw [dimText_cons, parseDims_open (inside dim List.mem_cons_self) rfl, bound]
        show (if dimText dims ≠ [] ∧ (dimText dims).head? ≠ some '[' then _ else _) = _
        rw [if_neg follows, ih fun later member => inside later (List.mem_cons_of_mem _ member)]
        rfl

namespace Annotation

variable {alnum : Char → Bool}

/-- An annotation is a base and dimensions of digits, and a base that opens a pointer is one. -/
theorem fromStr_eq_ok {text : List Char} {typ : Annotated} :
    fromStr alnum text = .ok typ ↔ ∃ groups,
      strip isSpace text = typ.basetype ++ dimText groups ∧ typ.basetype ≠ [] ∧
      (∀ c ∈ typ.basetype, isUnbracketed c = true) ∧
      (∀ group ∈ groups, ∀ c ∈ group, c.isDigit = true) ∧
      (∀ kind rest, typ.basetype = GuestPtrKind.opening kind ++ rest →
        (pointerSpec alnum typ.basetype).isSome = true) ∧
      groups.mapM dimension = .ok typ.dimensions ∧ some 0 ∉ typ.dimensions := by
  have opened (base : List Char) :
      (pointerKinds.any (fun form => form.1.toList.isPrefixOf base) ∧
        pointerWidth alnum base = none) ↔ ¬ ∀ kind rest,
          base = GuestPtrKind.opening kind ++ rest → (pointerSpec alnum base).isSome = true := by
    have opens : pointerKinds.any (fun form => form.1.toList.isPrefixOf base) = true ↔
        ∃ kind rest, base = GuestPtrKind.opening kind ++ rest := by
      rw [List.any_eq_true]
      constructor
      · rintro ⟨⟨opening, kind⟩, member, starts⟩
        obtain ⟨rest, rfl⟩ := List.isPrefixOf_iff_prefix.mp starts
        have same : opening.toList = kind.opening :=
          (show ∀ form ∈ pointerKinds, form.1.toList = form.2.opening by decide) _ member
        exact ⟨kind, rest, by rw [same]⟩
      · rintro ⟨kind, rest, rfl⟩
        obtain ⟨⟨opening, _⟩, member, rfl⟩ :=
          (show ∃ form ∈ pointerKinds, form.2 = kind by cases kind <;> decide)
        refine ⟨_, member, List.isPrefixOf_iff_prefix.mpr ?_⟩
        rw [(show ∀ form ∈ pointerKinds, form.1.toList = form.2.opening by decide) _ member]
        exact List.prefix_append _ _
    rw [opens, pointerWidth, Option.map_eq_none_iff]
    cases pointerSpec alnum base with
    | none => simp
    | some spec => simp
  constructor
  · intro parsed
    unfold fromStr at parsed
    simp only at parsed
    split at parsed
    · cases parsed
    · rename_i nonempty
      split at parsed
      · cases parsed
      · rename_i groups suffix
        split at parsed
        · cases parsed
        · rename_i pointer
          obtain ⟨dims, mapped, checked⟩ := Lib.except_bind_eq_ok.mp parsed
          split at checked
          · cases checked
          · rename_i positive
            obtain rfl := Except.ok.inj checked
            obtain ⟨shape, digits⟩ := suffixGroups_eq_some.mp suffix
            refine ⟨groups, ?_, nonempty, ?_, digits, ?_, mapped, positive⟩
            · rw [← shape, List.takeWhile_append_dropWhile]
            · exact fun c inside => List.mem_takeWhile_imp inside
            · exact not_not.mp fun wrong => pointer ((opened _).mpr wrong)
  · rintro ⟨groups, shape, nonempty, plain, digits, pointer, mapped, positive⟩
    have cut := Lib.takeWhile_append (dimText groups) plain fun c first => by
      rw [dimText_head groups c first]
      decide
    rw [← shape] at cut
    unfold fromStr
    simp only [cut.1, cut.2]
    rw [if_neg nonempty, suffixGroups_eq_some.mpr ⟨rfl, digits⟩]
    simp only
    rw [if_neg fun wrong => (opened _).mp wrong pointer, mapped]
    show (if some 0 ∈ typ.dimensions then _ else _) = _
    rw [if_neg positive]
    rfl

end Annotation

end Dis86
