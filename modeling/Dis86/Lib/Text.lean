import Mathlib.Data.List.DropRight
import Mathlib.Tactic.Common

namespace Dis86.Lib

variable {A : Type} {space fewer : A → Bool}

/-- A text without the spaces at its ends. -/
def strip (space : A → Bool) (s : List A) : List A := (s.dropWhile space).rdropWhile space

/-- A text does not begin or end with a space. -/
structure Bare (space : A → Bool) (s : List A) : Prop where
  head : ∀ c ∈ s.head?, space c = false
  last : ∀ c ∈ s.getLast?, space c = false

/-- A text consists of spaces only. -/
def Blank (space : A → Bool) (s : List A) : Prop := ∀ c ∈ s, space c = true

theorem dropWhile_eq_self {s : List A} (head : ∀ c ∈ s.head?, space c = false) :
    s.dropWhile space = s := by
  cases s with
  | nil => rfl
  | cons c s => rw [List.dropWhile_cons_of_neg (by simp [head c rfl])]

theorem rdropWhile_eq_self {s : List A} (last : ∀ c ∈ s.getLast?, space c = false) :
    s.rdropWhile space = s := by
  rw [List.rdropWhile, dropWhile_eq_self, List.reverse_reverse]
  rwa [List.head?_reverse]

theorem rdropWhile_append {s after : List A} (blank : Blank space after) :
    (s ++ after).rdropWhile space = s.rdropWhile space := by
  rw [List.rdropWhile, List.rdropWhile, List.reverse_append, List.dropWhile_append_of_pos]
  intro c inside
  exact blank c (List.mem_reverse.mp inside)

theorem Bare.strip_eq {s : List A} (bare : Bare space s) : strip space s = s := by
  rw [strip, dropWhile_eq_self bare.head, rdropWhile_eq_self bare.last]

/-- The spaces around a text are dropped, and nothing else. -/
theorem strip_append {before core after : List A} (left : Blank space before)
    (right : Blank space after) (bare : Bare space core) :
    strip space (before ++ core ++ after) = core := by
  rw [List.append_assoc, strip, List.dropWhile_append_of_pos left]
  cases core with
  | nil =>
      have gone : after.dropWhile space = [] := List.dropWhile_eq_nil_iff.mpr right
      rw [List.nil_append, gone]
      rfl
  | cons c core =>
      have starts : (c :: core ++ after).dropWhile space = c :: core ++ after :=
        dropWhile_eq_self bare.head
      rw [starts, rdropWhile_append right, rdropWhile_eq_self bare.last]

theorem head_dropWhile (space : A → Bool) (s : List A) : ∀ c ∈ (s.dropWhile space).head?, space c = false := by
  intro c first
  have stops := List.head?_dropWhile_not space s
  rw [Option.mem_def.mp first] at stops
  exact stops

theorem exists_strip (space : A → Bool) (s : List A) : ∃ before after,
    s = before ++ strip space s ++ after ∧ Blank space before ∧ Blank space after ∧
      Bare space (strip space s) := by
  have left := List.takeWhile_append_dropWhile (p := space) (l := s)
  have right : (s.dropWhile space).rdropWhile space ++ (s.dropWhile space).rtakeWhile space =
      s.dropWhile space := List.rdropWhile_append_rtakeWhile ..
  refine ⟨s.takeWhile space, (s.dropWhile space).rtakeWhile space, ?_, ?_, ?_, ?_, ?_⟩
  · rw [List.append_assoc, strip, right, left]
  · exact fun c inside => List.mem_takeWhile_imp inside
  · exact fun c inside => List.mem_rtakeWhile_imp inside
  · intro c first
    apply head_dropWhile space s c
    rw [← right, List.head?_append]
    exact Option.mem_def.mpr (by rw [show ((s.dropWhile space).rdropWhile space).head? = some c from first]; rfl)
  · intro c final
    rw [strip, List.rdropWhile, List.getLast?_reverse] at final
    exact head_dropWhile space _ c final

/-- Spaces after a text are dropped as well. -/
theorem strip_append_blank {s after : List A} (blank : Blank space after) :
    strip space (s ++ after) = strip space s := by
  obtain ⟨before, more, same, left, right, bare⟩ := exists_strip space s
  have both : Blank space (more ++ after) := by
    intro c inside
    rcases List.mem_append.mp inside with early | late
    · exact right c early
    · exact blank c late
  calc strip space (s ++ after) = strip space (before ++ strip space s ++ (more ++ after)) := by
        rw [← List.append_assoc, ← same]
    _ = strip space s := strip_append left both bare

/-- A text is bare if it is what remains of it. -/
theorem bare_of_strip {s : List A} (same : strip space s = s) : Bare space s := by
  obtain ⟨_, _, _, _, _, bare⟩ := exists_strip space s
  rwa [same] at bare

theorem Bare.mono {s : List A} (bare : Bare space s)
    (subset : ∀ c, fewer c = true → space c = true) : Bare fewer s := by
  have weaker (c : A) (no : space c = false) : fewer c = false := by
    cases found : fewer c with
    | false => rfl
    | true => exact absurd (subset c found) (by simp [no])
  exact ⟨fun c first => weaker c (bare.head c first), fun c final => weaker c (bare.last c final)⟩

theorem takeWhile_append {stop : A → Bool} {s : List A} (rest : List A) (inside : ∀ c ∈ s, stop c = true)
    (head : ∀ c ∈ rest.head?, stop c = false) :
    (s ++ rest).takeWhile stop = s ∧ (s ++ rest).dropWhile stop = rest := by
  rw [List.takeWhile_append_of_pos inside, List.dropWhile_append_of_pos inside,
    dropWhile_eq_self head]
  refine ⟨?_, rfl⟩
  cases rest with
  | nil => simp
  | cons c rest => rw [List.takeWhile_cons_of_neg (by simp [head c rfl]), List.append_nil]

theorem lookup_eq_none {A B : Type} [BEq A] [LawfulBEq A] {entries : List (A × B)} {key : A}
    (absent : key ∉ entries.map Prod.fst) : entries.lookup key = none := by
  rw [List.lookup_eq_none_iff]
  intro entry inside
  rw [bne_iff_ne]
  rintro rfl
  exact absent (List.mem_map_of_mem inside)

theorem except_bind_eq_ok {E A B : Type} {x : Except E A} {f : A → Except E B} {b : B} :
    x >>= f = .ok b ↔ ∃ a, x = .ok a ∧ f a = .ok b := by
  cases x with
  | error e => exact ⟨nofun, fun ⟨_, no, _⟩ => nomatch no⟩
  | ok a =>
      constructor
      · exact fun same => ⟨a, rfl, same⟩
      · rintro ⟨_, same, later⟩
        obtain rfl := Except.ok.inj same
        exact later

theorem isAlpha_iff {c : Char} : c.isAlpha = true ↔
    (65 ≤ c.toNat ∧ c.toNat ≤ 90) ∨ (97 ≤ c.toNat ∧ c.toNat ≤ 122) := by
  have unfolded : c.isAlpha =
      (decide ('A'.val ≤ c.val ∧ c.val ≤ 'Z'.val) || (decide ('a'.val ≤ c.val) && decide (c.val ≤ 'z'.val))) := rfl
  simp only [unfolded, Bool.or_eq_true, Bool.and_eq_true, decide_eq_true_eq, UInt32.le_iff_toNat_le]
  rfl

end Dis86.Lib
