import Mathlib.Data.List.DropRight
import Mathlib.Data.List.Infix
import Mathlib.Tactic.Common

namespace Dis86.Lib

/-- What a reader finds in the part of a text that has arrived. -/
inductive Reading (A B : Type) where
  | ok (value : B) (rest : List A)
  | incomplete
  | garbage
deriving DecidableEq, Repr

/-- A reader of a text that arrives in parts. -/
def Reader (A B : Type) : Type := List A → Reading A B

variable {A B C : Type}

namespace Reader

protected def pure (value : B) : Reader A B := fun s => .ok value s

protected def bind (p : Reader A B) (next : B → Reader A C) : Reader A C := fun s =>
  match p s with
  | .ok value rest => next value rest
  | .incomplete => .incomplete
  | .garbage => .garbage

instance : Monad (Reader A) where
  pure := Reader.pure
  bind := Reader.bind

theorem bind_ok {p : Reader A B} {next : B → Reader A C} {s rest : List A} {value : B}
    (found : p s = .ok value rest) : (p >>= next) s = next value rest := by
  show Reader.bind p next s = _
  rw [Reader.bind, found]

theorem bind_incomplete {p : Reader A B} {next : B → Reader A C} {s : List A} (found : p s = .incomplete) :
    (p >>= next) s = .incomplete := by
  show Reader.bind p next s = _
  rw [Reader.bind, found]

theorem bind_garbage {p : Reader A B} {next : B → Reader A C} {s : List A} (found : p s = .garbage) :
    (p >>= next) s = .garbage := by
  show Reader.bind p next s = _
  rw [Reader.bind, found]

theorem bind_eq_ok {p : Reader A B} {next : B → Reader A C} {s rest : List A} {result : C}
    (found : (p >>= next) s = .ok result rest) : ∃ value middle, p s = .ok value middle ∧
      next value middle = .ok result rest := by
  change Reader.bind p next s = _ at found
  unfold Reader.bind at found
  cases read : p s with
  | ok value middle =>
      rw [read] at found
      exact ⟨value, middle, rfl, found⟩
  | incomplete =>
      rw [read] at found
      cases found
  | garbage =>
      rw [read] at found
      cases found

/-- A reader takes a text and leaves what comes after it, if that starts as it may. Of a part of the text it asks for
more, or leaves nothing. -/
structure Takes (p : Reader A B) (text : List A) (value : B) (next : A → Prop) : Prop where
  whole : ∀ rest : List A, (∀ c ∈ rest.head?, next c) → p (text ++ rest) = .ok value rest
  part : ∀ before, before <+: text → before ≠ text → p before = .incomplete ∨ ∃ v, p before = .ok v []

/-- A reader asks for more or leaves a text with the property, whenever it is given one with it. -/
def Keeps (P : List A → Prop) (p : Reader A B) : Prop :=
  ∀ s, P s → p s = .incomplete ∨ ∃ v rest, p s = .ok v rest ∧ P rest

/-- Where nothing has arrived, a reader asks for more or leaves nothing. -/
def Quiet (p : Reader A B) : Prop := p.Keeps (· = [])

variable {next after : A → Prop} {value : B} {result : C} {P : List A → Prop}

theorem Keeps.bind {p : Reader A B} {q : B → Reader A C} (first : p.Keeps P) (second : ∀ v, (q v).Keeps P) :
    (p >>= q).Keeps P := by
  intro s given
  rcases first s given with more | ⟨v, rest, read, kept⟩
  · exact .inl (bind_incomplete more)
  · rw [bind_ok read]
    exact second v rest kept

/-- What follows a reader that keeps a property asks for more, and so do both of them. -/
theorem Keeps.waits {p : Reader A B} {q : B → Reader A C} (first : p.Keeps P)
    (second : ∀ v s, P s → q v s = .incomplete) : ∀ s, P s → (p >>= q) s = .incomplete := by
  intro s given
  rcases first s given with more | ⟨v, rest, read, kept⟩
  · exact bind_incomplete more
  · rw [bind_ok read]
    exact second v rest kept

theorem Quiet.bind {p : Reader A B} {q : B → Reader A C} (first : p.Quiet) (second : ∀ v, (q v).Quiet) :
    (p >>= q).Quiet := Keeps.bind first second

theorem keeps_pure (value : B) : (pure value : Reader A B).Keeps P := fun s given => .inr ⟨value, s, rfl, given⟩

theorem quiet_pure (value : B) : (pure value : Reader A B).Quiet := keeps_pure value

theorem quiet_of_incomplete {p : Reader A B} (more : p [] = .incomplete) : p.Quiet := by
  rintro s rfl
  exact .inl more

theorem takes_pure (value : B) : (pure value : Reader A B).Takes [] value next := by
  constructor
  · exact fun rest _ => rfl
  · intro before inside other
    exact absurd (List.prefix_nil.mp inside) other

theorem Takes.weaken {p : Reader A B} {text : List A} (takes : p.Takes text value next)
    (fewer : ∀ c, after c → next c) : p.Takes text value after :=
  ⟨fun rest starts => takes.whole rest fun c first => fewer c (starts c first), takes.part⟩

/-- Two texts are taken one after the other, if the second one may follow the first. -/
theorem Takes.bind {p : Reader A B} {q : B → Reader A C} {first second : List A} (one : p.Takes first value next)
    (two : (q value).Takes second result after) (quiet : ∀ v, (q v).Quiet) (starts : ∀ c ∈ second.head?, next c)
    (passes : second = [] → ∀ c, after c → next c) : (p >>= q).Takes (first ++ second) result after := by
  constructor
  · intro rest follows
    have may : ∀ c ∈ (second ++ rest).head?, next c := by
      cases second with
      | nil => exact fun c head => passes rfl c (follows c head)
      | cons c second => exact starts
    rw [List.append_assoc, bind_ok (one.whole _ may)]
    exact two.whole rest follows
  · intro before inside other
    rcases List.prefix_or_prefix_of_prefix inside (List.prefix_append first second) with early | late
    · by_cases all : before = first
      · subst all
        have left : second ≠ [] := by
          rintro rfl
          exact other (List.append_nil _).symm
        have none := one.whole [] (fun c head => nomatch head)
        rw [List.append_nil] at none
        rw [bind_ok none]
        exact two.part [] List.nil_prefix (Ne.symm left)
      · rcases one.part before early all with more | ⟨v, none⟩
        · exact .inl (bind_incomplete more)
        · rw [bind_ok none]
          rcases quiet v [] rfl with more | ⟨w, rest, read, rfl⟩
          · exact .inl more
          · exact .inr ⟨w, read⟩
    · obtain ⟨cut, rfl⟩ := late
      have within : cut <+: second := (List.prefix_append_right_inj first).mp inside
      have may : ∀ c ∈ cut.head?, next c := by
        intro c head
        cases cut with
        | nil => cases head
        | cons c' cut =>
            obtain ⟨more, rfl⟩ := within
            exact starts c head
      rw [bind_ok (one.whole cut may)]
      exact two.part cut within fun same => other (by rw [same])

/-- The value of a reader changes, and nothing else. -/
theorem Takes.map {p : Reader A B} {text : List A} (takes : p.Takes text value next) (f : B → C) :
    (p >>= fun v => pure (f v)).Takes text (f value) next := by
  have both : (p >>= fun v => (pure (f v) : Reader A C)).Takes (text ++ []) (f value) next :=
    takes.bind (takes_pure (f value)) (fun v => quiet_pure (f v)) (fun c first => nomatch first) (fun _ c may => may)
  rwa [List.append_nil] at both

def skipWhile (blank : A → Bool) : Reader A Unit := fun s => .ok () (s.dropWhile blank)

theorem takes_skipWhile {blank : A → Bool} {text : List A} (blanks : ∀ c ∈ text, blank c = true) :
    (skipWhile blank).Takes text () (fun c => blank c = false) := by
  constructor
  · intro rest follows
    rw [skipWhile, List.dropWhile_append_of_pos blanks]
    cases rest with
    | nil => rfl
    | cons c rest => rw [List.dropWhile_cons_of_neg (by simp [follows c rfl])]
  · intro before inside _
    refine .inr ⟨(), ?_⟩
    have gone : before.dropWhile blank = [] :=
      List.dropWhile_eq_nil_iff.mpr fun c at_ => blanks c (inside.subset at_)
    rw [skipWhile, gone]

theorem quiet_skipWhile (blank : A → Bool) : (skipWhile blank).Quiet := by
  rintro s rfl
  exact .inr ⟨(), [], rfl, rfl⟩

section Readers

variable [DecidableEq A]

/-- A given text comes next. -/
def expect (text : List A) : Reader A Unit := fun s =>
  if text <+: s then .ok () (s.drop text.length) else .incomplete

/-- The rest of a text from the first place of another one. -/
def findSub (needle : List A) : List A → Option (List A)
  | [] => if needle = [] then some [] else none
  | c :: s => if needle <+: c :: s then some (c :: s) else findSub needle s

def find (needle : List A) : Reader A Unit := fun s =>
  match findSub needle s with
  | some rest => .ok () rest
  | none => .incomplete

theorem takes_expect (text : List A) : (expect text).Takes text () next := by
  constructor
  · intro rest _
    rw [expect, if_pos (List.prefix_append _ _), List.drop_left]
  · intro before inside other
    have missing : ¬text <+: before := fun again => other (inside.eq_of_length_le again.length_le)
    exact .inl (if_neg missing)

theorem quiet_expect {c : A} {text : List A} : (expect (c :: text)).Quiet :=
  quiet_of_incomplete (if_neg (by simp))

variable {needle s : List A}

theorem findSub_eq_none : findSub needle s = none ↔ ¬needle <:+: s := by
  induction s with
  | nil =>
      rw [List.infix_nil]
      by_cases empty : needle = [] <;> simp [findSub, empty]
  | cons c s ih =>
      rw [List.infix_cons_iff, findSub]
      by_cases here : needle <+: c :: s <;> simp [here, ih]

end Readers

section Names

variable {name : List A} {c : A} {s t : List A}

/-- A name that ends in a letter of its own does not begin before its place. -/
theorem absent_append (fresh : c ∉ name) (absent : ¬name ++ [c] <:+: s) : ¬name ++ [c] <:+: s ++ name := by
  rintro ⟨before, rest, same⟩
  rcases List.append_eq_append_iff.mp same with ⟨more, inside, -⟩ | ⟨more, inside, rest'⟩
  · exact absent ⟨before, more, inside.symm⟩
  · rcases List.eq_nil_or_concat more with rfl | ⟨more, last, rfl⟩
    · exact absent ⟨before, [], by rw [inside, List.append_nil, List.append_nil]⟩
    · have ends : before ++ name ++ [c] = s ++ more ++ [last] := by
        rw [List.append_assoc, inside, List.append_assoc, List.concat_eq_append]
      have letter : c = last := (List.append_inj' ends rfl).2 |> List.singleton_inj.mp
      apply fresh
      rw [rest', List.concat_eq_append, letter]
      simp

variable [DecidableEq A]

/-- What is found begins with the needle, and the needle is not complete before. -/
theorem findSub_spec (found : findSub (name ++ [c]) s = some t) :
    ∃ before, s = before ++ t ∧ name ++ [c] <+: t ∧ ¬name ++ [c] <:+: before ++ name := by
  induction s with
  | nil => simp [findSub] at found
  | cons first s ih =>
      unfold findSub at found
      split at found
      · rename_i here
        obtain rfl := Option.some.inj found
        refine ⟨[], rfl, here, fun again => ?_⟩
        have short := again.length_le
        rw [List.nil_append, List.length_append, List.length_singleton] at short
        omega
      · rename_i elsewhere
        obtain ⟨before, rfl, starts, absent⟩ := ih found
        refine ⟨first :: before, rfl, starts, fun again => ?_⟩
        rw [List.cons_append, List.infix_cons_iff] at again
        rcases again with here | later
        · have within : name <+: t := (List.prefix_append name [c]).trans starts
          have longer : first :: (before ++ name) <+: first :: (before ++ t) :=
            List.cons_prefix_cons.mpr ⟨rfl, (List.prefix_append_right_inj before).mpr within⟩
          exact elsewhere (here.trans longer)
        · exact absent later

/-- The first place is found. -/
theorem findSub_first {before : List A} (starts : name ++ [c] <+: t) (absent : ¬name ++ [c] <:+: before ++ name) :
    findSub (name ++ [c]) (before ++ t) = some t := by
  induction before with
  | nil =>
      cases t with
      | nil => simp at starts
      | cons first t => rw [List.nil_append, findSub, if_pos starts]
  | cons first before ih =>
      rw [List.cons_append, List.infix_cons_iff, not_or] at absent
      rw [List.cons_append, findSub, if_neg, ih absent.2]
      intro here
      have short : (name ++ [c]).length ≤ (first :: (before ++ name)).length := by
        simp
      have within : first :: (before ++ name) <+: first :: (before ++ t) :=
        List.cons_prefix_cons.mpr
          ⟨rfl, (List.prefix_append_right_inj before).mpr ((List.prefix_append name [c]).trans starts)⟩
      exact absent.1 (List.prefix_of_prefix_length_le here within short)

/-- The first place stays the first one when more of the text arrives. -/
theorem findSub_append (found : findSub (name ++ [c]) s = some t) (more : List A) :
    findSub (name ++ [c]) (s ++ more) = some (t ++ more) := by
  obtain ⟨before, rfl, starts, absent⟩ := findSub_spec found
  rw [List.append_assoc]
  exact findSub_first (starts.trans (List.prefix_append t more)) absent

theorem takes_find {p : Reader A B} {before text : List A} (fresh : c ∉ name) (absent : ¬name ++ [c] <:+: before)
    (starts : name ++ [c] <+: text) (takes : p.Takes text value next) :
    (find (name ++ [c]) >>= fun _ => p).Takes (before ++ text) value next := by
  have early : ¬name ++ [c] <:+: before ++ name := absent_append fresh absent
  have place : ∀ rest, name ++ [c] <+: rest → find (name ++ [c]) (before ++ rest) = .ok () rest := by
    intro rest starts
    rw [find, findSub_first starts early]
  constructor
  · intro rest follows
    rw [List.append_assoc, bind_ok (place _ (starts.trans (List.prefix_append text rest)))]
    exact takes.whole rest follows
  · intro cut inside other
    have missing : cut <+: before ++ name → (find (name ++ [c]) >>= fun _ => p) cut = .incomplete := by
      intro short
      have none : findSub (name ++ [c]) cut = none := findSub_eq_none.mpr fun again => early (again.trans short.isInfix)
      apply bind_incomplete
      rw [find, none]
    by_cases long : before ++ (name ++ [c]) <+: cut
    · obtain ⟨rest, rfl⟩ := long
      rw [List.append_assoc] at inside other ⊢
      rw [bind_ok (place _ (List.prefix_append _ _))]
      exact takes.part _ ((List.prefix_append_right_inj before).mp inside) fun same => other (by rw [same])
    · have upTo : before ++ (name ++ [c]) <+: before ++ text := (List.prefix_append_right_inj before).mpr starts
      have short := (List.prefix_or_prefix_of_prefix inside upTo).resolve_right long
      rw [← List.append_assoc] at short long
      rcases List.prefix_concat_iff.mp short with all | short
      · exact absurd (all ▸ List.prefix_rfl) long
      · exact .inl (missing short)

theorem quiet_find (needle : List A) (some : needle ≠ []) : (find needle).Quiet := by
  apply quiet_of_incomplete
  rw [find, findSub, if_neg some]

end Names

end Reader

end Dis86.Lib
