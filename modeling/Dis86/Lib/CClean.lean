import Dis86.Lib.CGrammar

namespace Dis86.Lib.C

section Clean

/-- No double minus, and no number with a point. -/
def Token.clean : Token → Bool
  | .ident _ => true
  | .number text => !text.contains '.'
  | .punct text => text != ['-', '-']

mutual

/-- No decrement, and no number with a point. -/
def Tree.plain : Tree → Bool
  | .ident _ => true
  | .number text => !text.contains '.'
  | .pre op t => op != .dec && t.plain
  | .cast _ _ t => t.plain
  | .binary _ lhs rhs => lhs.plain && rhs.plain
  | .index t idx => t.plain && idx.plain
  | .call f args => f.plain && plainAll args
  | .member t _ => t.plain
  | .arrow t _ => t.plain
  | .postInc t => t.plain
  | .postDec _ => false

def plainAll : List Tree → Bool
  | [] => true
  | t :: ts => t.plain && plainAll ts

end

/-- The tokens in front of the rest are clean when a tree is plain. -/
def Consumes (tokens rest : List Token) (plain : Prop) : Prop :=
  ∃ used, tokens = used ++ rest ∧ (plain → ∀ token ∈ used, token.clean = true)

variable {isType : List Char → Bool} {tokens rest rest' : List Token} {p q r : Prop}

theorem Consumes.refl : Consumes tokens tokens p := ⟨[], rfl, fun _ => by simp⟩

theorem Consumes.trans (one : Consumes tokens rest p) (two : Consumes rest rest' q) (both : r → p ∧ q) :
    Consumes tokens rest' r := by
  obtain ⟨used, rfl, clean⟩ := one
  obtain ⟨used', rfl, clean'⟩ := two
  refine ⟨used ++ used', (List.append_assoc _ _ _).symm, fun plain token inside => ?_⟩
  rcases List.mem_append.mp inside with early | late
  · exact clean (both plain).1 token early
  · exact clean' (both plain).2 token late

theorem Consumes.token {token : Token} (clean : p → token.clean = true) : Consumes (token :: rest) rest p :=
  ⟨[token], rfl, by simpa using clean⟩

theorem Consumes.expect {text : List Char} (found : C.expect text tokens = some rest)
    (single : text ≠ ['-', '-']) : Consumes tokens rest p := by
  unfold C.expect at found
  split at found
  · split at found
    · rename_i same
      obtain rfl := Option.some.inj found
      exact .token fun _ => by simpa [Token.clean, same] using single
    · cases found
  · cases found

theorem Consumes.stars (tokens : List Token) : Consumes tokens (C.stars tokens).2 p := by
  induction tokens with
  | nil => exact .refl
  | cons token tokens inductionHypothesis =>
      unfold C.stars
      split
      · rename_i text rest same
        obtain ⟨rfl, rfl⟩ := List.cons.inj same
        split
        · rename_i star
          exact (Consumes.token fun _ => by simp [Token.clean, star]).trans inductionHypothesis fun plain => ⟨plain, plain⟩
        · exact .refl
      · exact .refl

theorem Consumes.castType {base : List Char} {count : Nat}
    (found : C.castType isType tokens = some (base, count, rest)) : Consumes tokens rest p := by
  obtain ⟨inner, opened, later⟩ := Option.bind_eq_some_iff.mp found
  have front : Consumes tokens inner p := .expect opened (by decide)
  split at later
  · rename_i name rest'
    split at later
    · obtain ⟨after, closed, same⟩ := Option.bind_eq_some_iff.mp later
      obtain ⟨rfl, rfl, rfl⟩ := by simpa using same
      have word : Consumes (.ident name :: rest') rest' p := .token fun _ => rfl
      have back : Consumes (C.stars rest').2 after p := .expect closed (by decide)
      exact front.trans (word.trans ((Consumes.stars rest').trans back fun plain => ⟨plain, plain⟩)
        fun plain => ⟨plain, plain⟩) fun plain => ⟨plain, plain⟩
    · cases later
  · cases later

/-- What each part of the parser consumes with some fuel. -/
structure Sound (isType : List Char → Bool) (fuel : Nat) : Prop where
  expr : ∀ least tokens t rest, parseExpr isType fuel least tokens = some (t, rest) →
    Consumes tokens rest (t.plain = true)
  tail : ∀ least lhs tokens t rest, parseTail isType fuel least lhs tokens = some (t, rest) →
    Consumes tokens rest (t.plain = true) ∧ (t.plain = true → lhs.plain = true)
  cast : ∀ tokens t rest, parseCast isType fuel tokens = some (t, rest) →
    Consumes tokens rest (t.plain = true)
  unary : ∀ tokens t rest, parseUnary isType fuel tokens = some (t, rest) →
    Consumes tokens rest (t.plain = true)
  primary : ∀ tokens t rest, parsePrimary isType fuel tokens = some (t, rest) →
    Consumes tokens rest (t.plain = true)
  postfix_ : ∀ tokens lhs t rest, parsePostfix isType fuel lhs tokens = some (t, rest) →
    Consumes tokens rest (t.plain = true) ∧ (t.plain = true → lhs.plain = true)
  args : ∀ tokens ts rest, parseArgs isType fuel tokens = some (ts, rest) →
    Consumes tokens rest (plainAll ts = true)
  argList : ∀ tokens ts rest, parseArgList isType fuel tokens = some (ts, rest) →
    Consumes tokens rest (plainAll ts = true)

variable {fuel : Nat}

theorem Sound.zero : Sound isType 0 where
  expr _ _ _ _ ran := by cases ran
  tail _ _ _ _ _ ran := by cases ran
  cast _ _ _ ran := by cases ran
  unary _ _ _ ran := by cases ran
  primary _ _ _ ran := by cases ran
  postfix_ _ _ _ _ ran := by cases ran
  args _ _ _ ran := by cases ran
  argList _ _ _ ran := by cases ran

namespace Sound

variable (sound : Sound isType fuel) {t lhs : Tree} {least : Nat}
include sound

theorem expr_succ (ran : parseExpr isType (fuel + 1) least tokens = some (t, rest)) :
    Consumes tokens rest (t.plain = true) := by
  obtain ⟨⟨first, middle⟩, front, later⟩ := Option.bind_eq_some_iff.mp ran
  obtain ⟨back, kept⟩ := sound.tail _ _ _ _ _ later
  exact (sound.cast _ _ _ front).trans back fun plain => ⟨kept plain, plain⟩

theorem tail_succ (ran : parseTail isType (fuel + 1) least lhs tokens = some (t, rest)) :
    Consumes tokens rest (t.plain = true) ∧ (t.plain = true → lhs.plain = true) := by
  have stop (same : some (lhs, tokens) = some (t, rest)) :
      Consumes tokens rest (t.plain = true) ∧ (t.plain = true → lhs.plain = true) := by
    obtain ⟨rfl, rfl⟩ := Prod.mk.inj (Option.some.inj same)
    exact ⟨.refl, id⟩
  unfold parseTail at ran
  split at ran
  · rename_i text more
    split at ran
    · rename_i op precedence found
      split at ran
      · obtain ⟨⟨rhs, middle⟩, front, later⟩ := Option.bind_eq_some_iff.mp ran
        obtain ⟨back, kept⟩ := sound.tail _ _ _ _ _ later
        have both (plain : t.plain = true) : lhs.plain = true ∧ rhs.plain = true := by
          simpa [Tree.plain] using kept plain
        have single : text ≠ ['-', '-'] := by
          rintro rfl
          have unknown : binOps.lookup ['-', '-'] = none := by decide
          rw [unknown] at found
          cases found
        have operator : Consumes (.punct text :: more) more (t.plain = true) :=
          .token fun _ => by simpa [Token.clean] using single
        exact ⟨operator.trans ((sound.expr _ _ _ _ front).trans back fun plain => ⟨(both plain).2, plain⟩)
          fun plain => ⟨plain, plain⟩, fun plain => (both plain).1⟩
      · exact stop ran
    · exact stop ran
  · exact stop ran

theorem cast_succ (ran : parseCast isType (fuel + 1) tokens = some (t, rest)) :
    Consumes tokens rest (t.plain = true) := by
  unfold parseCast at ran
  split at ran
  · rename_i base count middle typed
    obtain ⟨⟨inner, after⟩, later, same⟩ := Option.bind_eq_some_iff.mp ran
    obtain ⟨rfl, rfl⟩ := Prod.mk.inj (Option.some.inj same)
    exact (Consumes.castType typed).trans (sound.cast _ _ _ later) fun plain => ⟨plain, plain⟩
  · exact sound.unary _ _ _ ran

theorem unary_succ (ran : parseUnary isType (fuel + 1) tokens = some (t, rest)) :
    Consumes tokens rest (t.plain = true) := by
  unfold parseUnary at ran
  split at ran
  · rename_i text more
    split at ran
    · rename_i op found
      have operand : ∃ inner, t = .pre op inner ∧ Consumes more rest (inner.plain = true) := by
        split at ran
        · obtain ⟨⟨inner, after⟩, later, same⟩ := Option.map_eq_some_iff.mp ran
          obtain ⟨rfl, rfl⟩ := Prod.mk.inj same
          exact ⟨inner, rfl, sound.unary _ _ _ later⟩
        · obtain ⟨⟨inner, after⟩, later, same⟩ := Option.map_eq_some_iff.mp ran
          obtain ⟨rfl, rfl⟩ := Prod.mk.inj same
          exact ⟨inner, rfl, sound.cast _ _ _ later⟩
      obtain ⟨inner, rfl, operand⟩ := operand
      have operator : Consumes (.punct text :: more) more ((Tree.pre op inner).plain = true) := by
        refine .token fun plain => ?_
        simp only [Token.clean, bne_iff_ne]
        rintro rfl
        obtain rfl := Option.some.inj (found.symm.trans (show preOps.lookup ['-', '-'] = some .dec by decide))
        simp [Tree.plain] at plain
      refine operator.trans operand fun plain => ⟨plain, ?_⟩
      simp only [Tree.plain, Bool.and_eq_true] at plain
      exact plain.2
    · exact sound.primary _ _ _ ran
  · exact sound.primary _ _ _ ran

theorem primary_succ (ran : parsePrimary isType (fuel + 1) tokens = some (t, rest)) :
    Consumes tokens rest (t.plain = true) := by
  unfold parsePrimary at ran
  split at ran
  · split at ran
    · obtain ⟨back, _⟩ := sound.postfix_ _ _ _ _ ran
      exact (Consumes.token fun _ => rfl).trans back fun plain => ⟨plain, plain⟩
    · cases ran
  · rename_i text more
    obtain ⟨back, kept⟩ := sound.postfix_ _ _ _ _ ran
    have number : Consumes (.number text :: more) more (t.plain = true) := .token fun plain => kept plain
    exact number.trans back fun plain => ⟨plain, plain⟩
  · obtain ⟨inner, opened, later⟩ := Option.bind_eq_some_iff.mp ran
    obtain ⟨⟨paren, middle⟩, front, later⟩ := Option.bind_eq_some_iff.mp later
    obtain ⟨after, closed, later⟩ := Option.bind_eq_some_iff.mp later
    obtain ⟨back, kept⟩ := sound.postfix_ _ _ _ _ later
    have left : Consumes tokens inner (t.plain = true) := .expect opened (by decide)
    have right : Consumes middle after (t.plain = true) := .expect closed (by decide)
    exact left.trans ((sound.expr _ _ _ _ front).trans (right.trans back fun plain => ⟨plain, plain⟩)
      fun plain => ⟨kept plain, plain⟩) fun plain => ⟨plain, plain⟩

theorem postfix_succ (ran : parsePostfix isType (fuel + 1) lhs tokens = some (t, rest)) :
    Consumes tokens rest (t.plain = true) ∧ (t.plain = true → lhs.plain = true) := by
  -- One postfix operator, and what stands behind it.
  have go {text : List Char} {more inner : List Token} {next : Tree}
      (single : text ≠ ['-', '-'] ∨ next.plain = false)
      (front : next.plain = true → lhs.plain = true) (used : Consumes more inner (next.plain = true))
      (later : parsePostfix isType fuel next inner = some (t, rest)) :
      Consumes (.punct text :: more) rest (t.plain = true) ∧ (t.plain = true → lhs.plain = true) := by
    obtain ⟨back, kept⟩ := sound.postfix_ _ _ _ _ later
    have operator : Consumes (.punct text :: more) more (t.plain = true) := by
      refine .token fun plain => ?_
      rcases single with single | notPlain
      · simpa [Token.clean] using single
      · rw [kept plain] at notPlain
        cases notPlain
    exact ⟨operator.trans (used.trans back fun plain => ⟨kept plain, plain⟩) fun plain => ⟨plain, plain⟩,
      fun plain => front (kept plain)⟩
  unfold parsePostfix at ran
  split at ran
  · rename_i text more
    split at ran
    · rename_i bracket
      obtain ⟨⟨idx, middle⟩, front, later⟩ := Option.bind_eq_some_iff.mp ran
      obtain ⟨after, closed, later⟩ := Option.bind_eq_some_iff.mp later
      have right : Consumes middle after ((Tree.index lhs idx).plain = true) := .expect closed (by decide)
      refine go (.inl (by simp [bracket])) ?_ ((sound.expr _ _ _ _ front).trans right ?_) later
      · simp +contextual [Tree.plain]
      · simp +contextual [Tree.plain]
    split at ran
    · rename_i paren
      obtain ⟨⟨args, middle⟩, front, later⟩ := Option.bind_eq_some_iff.mp ran
      have used : Consumes middle middle ((Tree.call lhs args).plain = true) := .refl
      refine go (.inl (by simp [paren])) ?_ ((sound.args _ _ _ front).trans used ?_) later
      · simp +contextual [Tree.plain]
      · simp +contextual [Tree.plain]
    split at ran
    · rename_i point
      split at ran
      · rename_i name rest'
        have kept (plain : (Tree.member lhs name).plain = true) : lhs.plain = true := plain
        split at ran
        · cases ran
        · exact go (.inl (by simp [point])) kept (.token fun _ => rfl) ran
      · cases ran
    split at ran
    · rename_i arrow
      split at ran
      · rename_i name rest'
        have kept (plain : (Tree.arrow lhs name).plain = true) : lhs.plain = true := plain
        split at ran
        · cases ran
        · exact go (.inl (by simp [arrow])) kept (.token fun _ => rfl) ran
      · cases ran
    split at ran
    · rename_i plus
      have kept (plain : (Tree.postInc lhs).plain = true) : lhs.plain = true := plain
      exact go (.inl (by simp [plus])) kept .refl ran
    split at ran
    · exact go (.inr rfl) (fun plain => Bool.noConfusion plain) .refl ran
    · obtain ⟨rfl, rfl⟩ := Prod.mk.inj (Option.some.inj ran)
      exact ⟨.refl, id⟩
  · obtain ⟨rfl, rfl⟩ := Prod.mk.inj (Option.some.inj ran)
    exact ⟨.refl, id⟩

theorem args_succ {ts : List Tree} (ran : parseArgs isType (fuel + 1) tokens = some (ts, rest)) :
    Consumes tokens rest (plainAll ts = true) := by
  unfold parseArgs at ran
  split at ran
  · rename_i closed
    obtain ⟨rfl, rfl⟩ := Prod.mk.inj (Option.some.inj ran)
    exact .expect closed (by decide)
  · exact sound.argList _ _ _ ran

theorem argList_succ {ts : List Tree} (ran : parseArgList isType (fuel + 1) tokens = some (ts, rest)) :
    Consumes tokens rest (plainAll ts = true) := by
  obtain ⟨⟨arg, middle⟩, front, later⟩ := Option.bind_eq_some_iff.mp ran
  have first := sound.expr _ _ _ _ front
  dsimp only at later
  split at later
  · rename_i more comma
    obtain ⟨⟨args, after⟩, others, same⟩ := Option.bind_eq_some_iff.mp later
    obtain ⟨rfl, rfl⟩ := Prod.mk.inj (Option.some.inj same)
    have separator : Consumes middle more (plainAll args = true) := .expect comma (by decide)
    exact first.trans (separator.trans (sound.argList _ _ _ others) fun plain => ⟨plain, plain⟩)
      (by simp [plainAll])
  · obtain ⟨after, closed, same⟩ := Option.bind_eq_some_iff.mp later
    obtain ⟨rfl, rfl⟩ := Prod.mk.inj (Option.some.inj same)
    have right : Consumes middle after (plainAll [arg] = true) := .expect closed (by decide)
    exact first.trans right (by simp [plainAll])

end Sound

theorem sound (fuel : Nat) : Sound isType fuel := by
  induction fuel with
  | zero => exact .zero
  | succ fuel inductionHypothesis => exact {
      expr := fun _ _ _ _ => inductionHypothesis.expr_succ
      tail := fun _ _ _ _ _ => inductionHypothesis.tail_succ
      cast := fun _ _ _ => inductionHypothesis.cast_succ
      unary := fun _ _ _ => inductionHypothesis.unary_succ
      primary := fun _ _ _ => inductionHypothesis.primary_succ
      postfix_ := fun _ _ _ _ => inductionHypothesis.postfix_succ
      args := fun _ _ _ => inductionHypothesis.args_succ
      argList := fun _ _ _ => inductionHypothesis.argList_succ }

/-- A text that reads as a plain tree has clean tokens. -/
theorem Reads.clean {text : List Char} {t : Tree} (reads : Reads isType text t) (plain : t.plain = true) :
    ∃ tokens, Lexes text tokens ∧ ∀ token ∈ tokens, token.clean = true := by
  obtain ⟨tokens, lexes, fuel, parses⟩ := reads
  obtain ⟨used, same, clean⟩ := (sound fuel).expr _ _ _ _ (parses fuel le_rfl)
  rw [List.append_nil] at same
  exact ⟨tokens, lexes, same ▸ clean plain⟩

end Clean

end Dis86.Lib.C
