import Dis86.Abi.CallerReads

namespace Dis86.Abi
open IR
open Lib (anyOf depthFirst Away around Reaches)

variable {ir : IR} {live : Ref → Bool} {dxResult : Option Ref} {l before rest : List Ref} {x call : Ref}
  {blk b c : BlockRef} {idx : Nat} {enters : BlockRef → Prop} {start : List Ref}

/-- The reference is no instruction that writes the register. -/
def Keeps (ir : IR) (r : Ref) : Prop := ∀ instr, ir.instr? r = some instr → writesDx ir instr = false

/-- The instructions that are still to come on a path that has met no write. It starts in a block
with some of its instructions, and goes on into blocks that may be entered. -/
inductive Ahead (ir : IR) (enters : BlockRef → Prop) (blk : BlockRef) (start : List Ref) :
    BlockRef → List Ref → Prop where
  | start : Ahead ir enters blk start blk start
  | pass {b : BlockRef} {r : Ref} {rest : List Ref} (ahead : Ahead ir enters blk start b (r :: rest))
      (keeps : Keeps ir r) : Ahead ir enters blk start b rest
  | jump {b c : BlockRef} {next : List BlockRef} (ahead : Ahead ir enters blk start b [])
      (known : successors ir b = some next) (edge : c ∈ next) (may : enters c) :
      Ahead ir enters blk start c (ir.iterInstrs c)

/-- The instruction stands on a path from just after the call, before any write. -/
def Exposed (ir : IR) (blk : BlockRef) (call x : Ref) : Prop :=
  ∃ b rest, Ahead ir (fun _ => True) blk ((ir.iterInstrs blk).dropWhile (· ≠ call)).tail b (x :: rest)

/-- The instruction writes nothing itself and stands on a path that starts at a position of the
block and does not come back to the block. -/
def Searched (ir : IR) (blk : BlockRef) (position : Nat) (x : Ref) : Prop :=
  Keeps ir x ∧ ∃ b rest, Ahead ir (· ≠ blk) blk ((ir.iterInstrs blk).drop position) b (x :: rest)

/-- An operand is the register or the upper half of the result of the call, or a projection. -/
def ReadsDx (ir : IR) (call : Ref) (instr : Instr) : Prop :=
  ∃ o ∈ instr.operands, ∃ t, Derives ir o t ∧ (isPartOf .DX t = true ∨
    ∃ b ∈ ir.iterBlocks, t ∈ ir.iterInstrs b ∧ isUpperOf ir call t = true)

/-- The blocks that a path may enter exist. -/
def Connected (ir : IR) : Prop :=
  ∀ b ∈ ir.iterBlocks, ∃ next, successors ir b = some next ∧ ∀ c ∈ next, c ∈ ir.iterBlocks

section Reads

theorem readsDx_iff {instr : Instr} : readsDx ir dxResult instr = true ↔
    ∃ o ∈ instr.operands, ∃ t, Derives ir o t ∧ (isPartOf .DX t = true ∨ dxResult = some t) := by
  simp only [readsDx, Bool.or_eq_true, List.any_eq_true, Option.any_eq_true, derivesFromReg,
    derivesFrom, derivesBy_iff, decide_eq_true_iff]
  constructor
  · intro either
    rcases either with ⟨o, inside, t, part, derives⟩ | ⟨result, isResult, o, inside, _, rfl, derives⟩
    · exact ⟨o, inside, t, derives, .inl part⟩
    · exact ⟨o, inside, _, derives, .inr isResult⟩
  · rintro ⟨o, inside, t, derives, part | isResult⟩
    · exact .inl ⟨o, inside, t, part, derives⟩
    · exact .inr ⟨t, isResult, o, inside, t, rfl, derives⟩

/-- The search knows one upper half only, so it sees no more reads than there are. -/
theorem readsDx_sound {instr : Instr} (reads : readsDx ir (dxResultOfCall ir call) instr = true) :
    ReadsDx ir call instr := by
  obtain ⟨o, inside, t, derives, part | isResult⟩ := readsDx_iff.mp reads
  · exact ⟨o, inside, t, derives, .inl part⟩
  · obtain ⟨b, isBlock, found⟩ := List.exists_of_findSome?_eq_some isResult
    exact ⟨o, inside, t, derives, .inr ⟨b, isBlock, List.mem_of_find?_eq_some found, List.find?_some found⟩⟩

end Reads

section Scan

/-- A read that the search takes for a hit. -/
def Hits (ir : IR) (live : Ref → Bool) (dxResult : Option Ref) (x : Ref) : Prop :=
  live x = true ∧ Keeps ir x ∧ ∃ instr, ir.instr? x = some instr ∧ readsDx ir dxResult instr = true

theorem keeps_of_none {r : Ref} (absent : ir.instr? r = none) : Keeps ir r :=
  fun _ known => absurd (absent.symm.trans known) nofun

theorem keeps_of_some {r : Ref} {instr : Instr} (found : ir.instr? r = some instr)
    (keeps : ¬ writesDx ir instr = true) : Keeps ir r := by
  intro other known
  obtain rfl := Option.some.inj (found.symm.trans known)
  exact Bool.eq_false_iff.mpr keeps

theorem scan_hit (hit : scan ir live dxResult l = .hit) :
    ∃ before x rest, l = before ++ x :: rest ∧ (∀ r ∈ before, Keeps ir r) ∧ Hits ir live dxResult x := by
  induction l with
  | nil => cases hit
  | cons r rest inductionHypothesis =>
      have skip (keeps : Keeps ir r) (later : scan ir live dxResult rest = .hit) :
          ∃ before x rest', r :: rest = before ++ x :: rest' ∧ (∀ r ∈ before, Keeps ir r) ∧
            Hits ir live dxResult x := by
        obtain ⟨before, x, rest', rfl, free, hits⟩ := inductionHypothesis later
        exact ⟨r :: before, x, rest', rfl, List.forall_mem_cons.mpr ⟨keeps, free⟩, hits⟩
      cases found : ir.instr? r with
      | none =>
          rw [scan, found] at hit
          exact skip (keeps_of_none found) hit
      | some instr =>
          simp only [scan, found] at hit
          split at hit
          · cases hit
          · rename_i keeps
            split at hit
            · rename_i both
              rw [Bool.and_eq_true] at both
              exact ⟨[], r, rest, rfl, by simp, both.1, keeps_of_some found keeps, instr, found, both.2⟩
            · exact skip (keeps_of_some found keeps) hit

theorem scan_hits (free : ∀ r ∈ before, Keeps ir r) (hits : Hits ir live dxResult x) :
    scan ir live dxResult (before ++ x :: rest) = .hit := by
  induction before with
  | nil =>
      obtain ⟨isLive, keeps, instr, found, reads⟩ := hits
      simp [scan, found, keeps instr found, isLive, reads]
  | cons r before inductionHypothesis =>
      obtain ⟨keeps, later⟩ := List.forall_mem_cons.mp free
      rw [List.cons_append, scan]
      cases found : ir.instr? r with
      | none => exact inductionHypothesis later
      | some instr =>
          simp only [keeps instr found, Bool.false_eq_true, if_false]
          split
          · rfl
          · exact inductionHypothesis later

theorem scan_through (through : scan ir live dxResult l = .through) : ∀ r ∈ l, Keeps ir r := by
  induction l with
  | nil => simp
  | cons r rest inductionHypothesis =>
      cases found : ir.instr? r with
      | none =>
          rw [scan, found] at through
          exact List.forall_mem_cons.mpr ⟨keeps_of_none found, inductionHypothesis through⟩
      | some instr =>
          simp only [scan, found] at through
          split at through
          · cases through
          · rename_i keeps
            split at through
            · cases through
            · exact List.forall_mem_cons.mpr ⟨keeps_of_some found keeps, inductionHypothesis through⟩

theorem scan_free (free : ∀ r ∈ l, Keeps ir r) (missed : scan ir live dxResult l ≠ .hit) :
    scan ir live dxResult l = .through := by
  induction l with
  | nil => rfl
  | cons r rest inductionHypothesis =>
      obtain ⟨keeps, later⟩ := List.forall_mem_cons.mp free
      cases found : ir.instr? r with
      | none =>
          rw [scan, found] at missed ⊢
          exact inductionHypothesis later missed
      | some instr =>
          simp only [scan, found, keeps instr found, Bool.false_eq_true, if_false] at missed ⊢
          split at missed
          · exact absurd rfl missed
          · rename_i noHit
            rw [if_neg noHit]
            exact inductionHypothesis later missed

end Scan

section Search

/-- The successors of a block that the search goes on from. -/
def onward (ir : IR) (live : Ref → Bool) (dxResult : Option Ref) (b : BlockRef) : Option (List BlockRef) :=
  match scan ir live dxResult (ir.iterInstrs b) with
  | .through => successors ir b
  | _ => some []

def hitIn (ir : IR) (live : Ref → Bool) (dxResult : Option Ref) (b : BlockRef) : Bool :=
  scan ir live dxResult (ir.iterInstrs b) = .hit

/-- Behind its first block, the search is a depth-first search. -/
theorem readsDxFrom_eq (fuel : Nat) (b : BlockRef) (seen : List BlockRef) :
    readsDxFrom ir live dxResult fuel b none seen =
      depthFirst (onward ir live dxResult) (hitIn ir live dxResult) fuel b seen := by
  induction fuel generalizing b seen with
  | zero => rfl
  | succ fuel inductionHypothesis =>
      have deeper : (fun b seen => readsDxFrom ir live dxResult fuel b none seen) =
          depthFirst (onward ir live dxResult) (hitIn ir live dxResult) fuel := by
        funext b seen
        exact inductionHypothesis b seen
      rw [readsDxFrom, depthFirst, deeper, onward, hitIn, Option.getD_none, List.drop_zero]
      cases scan ir live dxResult (ir.iterInstrs b) <;> rfl

theorem onward_connected (connected : Connected ir) (b : BlockRef) (inside : b ∈ ir.iterBlocks.toFinset) :
    ∃ next, onward ir live dxResult b = some next ∧ ∀ c ∈ next, c ∈ ir.iterBlocks.toFinset := by
  unfold onward
  split
  · obtain ⟨next, known, inner⟩ := connected b (List.mem_toFinset.mp inside)
    exact ⟨next, known, fun c isNext => List.mem_toFinset.mpr (inner c isNext)⟩
  · exact ⟨[], rfl, by simp⟩

theorem blocks_card (seen : List BlockRef) :
    (ir.iterBlocks.toFinset.filter (· ∉ seen)).card < ir.blocks.length + 1 := by
  have few := List.toFinset_card_le ir.iterBlocks
  have less := Finset.card_filter_le ir.iterBlocks.toFinset (· ∉ seen)
  have bound := List.length_filter_le (fun b => (ir.block? b).isSome) (List.range ir.blocks.length)
  rw [List.length_range] at bound
  change ir.iterBlocks.length ≤ _ at bound
  omega

/-- The search in a block from a position on returns. -/
theorem readsDxFrom_start (connected : Connected ir) (inside : blk ∈ ir.iterBlocks) (position : Nat) :
    ∃ answer, readsDxFrom ir live dxResult (ir.blocks.length + 2) blk (some position) [] = some answer ∧
      (answer.1 = true ↔
        scan ir live dxResult ((ir.iterInstrs blk).drop position) = .hit ∨
        scan ir live dxResult ((ir.iterInstrs blk).drop position) = .through ∧
          ∃ next c, successors ir blk = some next ∧ hitIn ir live dxResult c = true ∧
            Away (onward ir live dxResult) [blk] next c) := by
  have deeper : (fun b seen => readsDxFrom ir live dxResult (ir.blocks.length + 1) b none seen) =
      depthFirst (onward ir live dxResult) (hitIn ir live dxResult) (ir.blocks.length + 1) := by
    funext b seen
    exact readsDxFrom_eq _ b seen
  rw [readsDxFrom, if_neg (List.not_mem_nil), deeper, Option.getD_some]
  cases event : scan ir live dxResult ((ir.iterInstrs blk).drop position) with
  | stop => exact ⟨_, rfl, by simp⟩
  | hit => exact ⟨_, rfl, by simp⟩
  | through =>
      obtain ⟨next, known, inner⟩ := connected blk inside
      have each (c : BlockRef) (isBlock : c ∈ ir.iterBlocks.toFinset) (seen : List BlockRef)
          (_ : ∀ y ∈ [blk], y ∈ seen) :
          ∃ answer, depthFirst (onward ir live dxResult) (hitIn ir live dxResult) (ir.blocks.length + 1) c
            seen = some answer ∧ ∀ y ∈ seen, y ∈ answer.2 :=
        Lib.depthFirst_isSome isBlock (onward_connected connected) (blocks_card seen)
      obtain ⟨answer, ran, _⟩ := Lib.anyOf_isSome each fun c isNext => List.mem_toFinset.mpr (inner c isNext)
      refine ⟨answer, by simp only [known]; exact ran, ?_⟩
      rw [(Lib.anyOf_answer (fun _ _ _ => Lib.depthFirst_answer) ran).iff]
      simp [known]

theorem Ahead.pass_all (ahead : Ahead ir enters blk start b (before ++ rest))
    (free : ∀ r ∈ before, Keeps ir r) : Ahead ir enters blk start b rest := by
  induction before with
  | nil => exact ahead
  | cons r before inductionHypothesis =>
      obtain ⟨keeps, later⟩ := List.forall_mem_cons.mp free
      exact inductionHypothesis (ahead.pass keeps) later

theorem Ahead.pass_block (ahead : Ahead ir enters blk start b l)
    (through : scan ir live dxResult l = .through) : Ahead ir enters blk start b [] := by
  rw [← List.append_nil l] at ahead
  exact ahead.pass_all (scan_through through)

/-- A block that the search comes to is on a path. -/
theorem ahead_of_away {next : List BlockRef} (through : scan ir live dxResult start = .through)
    (known : successors ir blk = some next) (away : Away (onward ir live dxResult) [blk] next c) :
    Ahead ir (· ≠ blk) blk start c (ir.iterInstrs c) := by
  induction away with
  | start inside =>
      rw [List.mem_filter, decide_eq_true_iff, List.mem_singleton] at inside
      exact .jump (Ahead.start.pass_block through) known inside.1 inside.2
  | @step b c _ inside inductionHypothesis =>
      rw [around, List.mem_filter, decide_eq_true_iff, List.mem_singleton, onward] at inside
      obtain ⟨edge, apart⟩ := inside
      split at edge
      · rename_i through
        cases known : successors ir b with
        | none => simp [known] at edge
        | some next =>
            rw [known, Option.getD_some] at edge
            exact .jump (inductionHypothesis.pass_block through) known edge apart
      · simp at edge

/-- Where a path may be when the search finds nothing: still in its first instructions, or in a block
that the search has come to. -/
theorem ahead_cases (missed : scan ir live dxResult start ≠ .hit)
    (missedLater : scan ir live dxResult start = .through → ∀ next c, successors ir blk = some next →
      Away (onward ir live dxResult) [blk] next c → hitIn ir live dxResult c = false)
    (ahead : Ahead ir (· ≠ blk) blk start b l) :
    (b = blk ∧ ∃ before, start = before ++ l ∧ ∀ r ∈ before, Keeps ir r) ∨
      scan ir live dxResult start = .through ∧ (∃ next, successors ir blk = some next ∧
        Away (onward ir live dxResult) [blk] next b) ∧
        ∃ before, ir.iterInstrs b = before ++ l ∧ ∀ r ∈ before, Keeps ir r := by
  induction ahead with
  | start => exact .inl ⟨rfl, [], rfl, by simp⟩
  | @pass b r rest _ keeps inductionHypothesis =>
      have longer {before : List Ref} (free : ∀ r ∈ before, Keeps ir r) :
          ∀ y ∈ before ++ [r], Keeps ir y := by
        simp only [List.mem_append, List.mem_singleton]
        rintro y (old | rfl)
        · exact free y old
        · exact keeps
      rcases inductionHypothesis with ⟨here, before, same, free⟩ | ⟨through, away, before, same, free⟩
      · exact .inl ⟨here, before ++ [r], by simpa using same, longer free⟩
      · exact .inr ⟨through, away, before ++ [r], by simpa using same, longer free⟩
  | @jump b c next _ known edge apart inductionHypothesis =>
      refine .inr ?_
      rcases inductionHypothesis with ⟨rfl, before, rfl, free⟩ | ⟨through, ⟨first, isFirst, away⟩, before, same, free⟩
      · rw [List.append_nil] at missed ⊢
        refine ⟨scan_free free missed, ⟨next, known, .start ?_⟩, [], rfl, by simp⟩
        simpa [edge] using apart
      · rw [List.append_nil] at same
        have noHit : scan ir live dxResult (ir.iterInstrs b) ≠ .hit := by
          have := missedLater through first b isFirst away
          simpa [hitIn] using this
        have passes := scan_free (same ▸ free) noHit
        refine ⟨through, ⟨first, isFirst, away.step ?_⟩, [], rfl, by simp⟩
        simp only [around, onward, passes, known, Option.getD_some, List.mem_filter]
        simpa [edge] using apart

/-- The search answers whether a read is in its reach. -/
theorem found_iff (position : Nat) (start_eq : start = (ir.iterInstrs blk).drop position) :
    (scan ir live dxResult start = .hit ∨ scan ir live dxResult start = .through ∧
      ∃ next c, successors ir blk = some next ∧ hitIn ir live dxResult c = true ∧
        Away (onward ir live dxResult) [blk] next c) ↔
      ∃ x, Hits ir live dxResult x ∧ Searched ir blk position x := by
  constructor
  · rintro (hit | ⟨through, next, c, known, hit, away⟩)
    · obtain ⟨before, x, rest, rfl, free, hits⟩ := scan_hit hit
      refine ⟨x, hits, hits.2.1, blk, rest, ?_⟩
      rw [← start_eq]
      exact Ahead.start.pass_all free
    · obtain ⟨before, x, rest, same, free, hits⟩ := scan_hit (of_decide_eq_true hit)
      refine ⟨x, hits, hits.2.1, c, rest, ?_⟩
      have ahead := ahead_of_away through known away
      rw [same] at ahead
      rw [← start_eq]
      exact ahead.pass_all free
  · rintro ⟨x, hits, _, b, rest, ahead⟩
    by_contra none_
    obtain ⟨missed, later⟩ := not_or.mp none_
    have missedLater (through : scan ir live dxResult start = .through) (next : List BlockRef) (c : BlockRef)
        (known : successors ir blk = some next) (away : Away (onward ir live dxResult) [blk] next c) :
        hitIn ir live dxResult c = false :=
      Bool.eq_false_iff.mpr fun hit => later ⟨through, next, c, known, hit, away⟩
    rw [← start_eq] at ahead
    rcases ahead_cases missed missedLater ahead with
      ⟨_, before, same, free⟩ | ⟨through, ⟨next, known, away⟩, before, same, free⟩
    · exact missed (same ▸ scan_hits free hits)
    · have noHit := missedLater through next b known away
      rw [hitIn, same, scan_hits free hits] at noHit
      cases noHit

end Search

section Exact

/-- The search answers for every set of live instructions, and finds the reads in its reach. -/
theorem callerReads_iff (connected : Connected ir) (inside : blk ∈ ir.iterBlocks)
    (isLive : live (.instr blk idx) = true) :
    ∃ answer, callerReadsDxAfterCall ir live (.instr blk idx) = some answer ∧
      (answer = true ↔ ∃ x, Hits ir live (dxResultOfCall ir (.instr blk idx)) x ∧
        Searched ir blk (idx + 1) x) := by
  obtain ⟨answer, ran, isAnswer⟩ :=
    @readsDxFrom_start ir live (dxResultOfCall ir (.instr blk idx)) blk connected inside (idx + 1)
  refine ⟨answer.1, ?_, isAnswer.trans (found_iff (idx + 1) rfl)⟩
  rw [callerReadsDxAfterCall, if_pos isLive]
  simp only [ran, Option.map_some]

/-- A read of the register that a path from just after the call comes to before any write. -/
def ReadsExposed (ir : IR) (blk : BlockRef) (idx : Nat) (x : Ref) : Prop :=
  Exposed ir blk (.instr blk idx) x ∧ ∃ instr, ir.instr? x = some instr ∧ ReadsDx ir (.instr blk idx) instr

/-- A read that the search looks for and comes to. -/
def ReadsSearched (ir : IR) (blk : BlockRef) (idx : Nat) (x : Ref) : Prop :=
  Searched ir blk (idx + 1) x ∧ ∃ instr, ir.instr? x = some instr ∧
    readsDx ir (dxResultOfCall ir (.instr blk idx)) instr = true

/-- No read is out of the reach of the search, and no read is in its reach by accident. -/
structure Aligned (ir : IR) (blk : BlockRef) (idx : Nat) : Prop where
  none_missed : ∀ x instr, ir.instr? x = some instr → ReadsDx ir (.instr blk idx) instr →
    Exposed ir blk (.instr blk idx) x →
      Searched ir blk (idx + 1) x ∧ readsDx ir (dxResultOfCall ir (.instr blk idx)) instr = true
  none_invented : ∀ x instr, ir.instr? x = some instr →
    readsDx ir (dxResultOfCall ir (.instr blk idx)) instr = true → Searched ir blk (idx + 1) x →
      Exposed ir blk (.instr blk idx) x

theorem Aligned.iff (aligned : Aligned ir blk idx) (x : Ref) :
    ReadsSearched ir blk idx x ↔ ReadsExposed ir blk idx x := by
  constructor
  · rintro ⟨searched, instr, found, reads⟩
    exact ⟨aligned.none_invented x instr found reads searched, instr, found, readsDx_sound reads⟩
  · rintro ⟨exposed, instr, found, reads⟩
    obtain ⟨searched, known⟩ := aligned.none_missed x instr found reads exposed
    exact ⟨searched, instr, found, known⟩

theorem aligned_of_iff (same : ∀ x, ReadsSearched ir blk idx x ↔ ReadsExposed ir blk idx x) :
    Aligned ir blk idx where
  none_missed x instr found reads exposed := by
    obtain ⟨searched, other, isOther, known⟩ := (same x).mpr ⟨exposed, instr, found, reads⟩
    obtain rfl := Option.some.inj (found.symm.trans isOther)
    exact ⟨searched, known⟩
  none_invented x instr found reads searched :=
    ((same x).mp ⟨searched, instr, found, reads⟩).1

theorem hits_searched {x : Ref} : (Hits ir live (dxResultOfCall ir (.instr blk idx)) x ∧
    Searched ir blk (idx + 1) x) ↔ live x = true ∧ ReadsSearched ir blk idx x := by
  constructor
  · rintro ⟨⟨isLive, _, reads⟩, searched⟩
    exact ⟨isLive, searched, reads⟩
  · rintro ⟨isLive, searched, reads⟩
    exact ⟨⟨isLive, searched.1, reads⟩, searched⟩

theorem mem_iterBlocks_of_listed {x : Ref} (listed : x ∈ ir.iterInstrs blk) : blk ∈ ir.iterBlocks := by
  unfold iterInstrs at listed
  split at listed
  · rename_i block isBlock
    refine List.mem_filter.mpr ⟨List.mem_range.mpr ?_, by rw [isBlock]; rfl⟩
    by_contra beyond
    rw [block?, List.getD_eq_getElem?_getD, List.getElem?_eq_none (by omega)] at isBlock
    cases isBlock
  · cases listed

theorem isCall_writes {instr : Instr} (isCall : instr.opcode.isCall = true) : writesDx ir instr = true := by
  unfold writesDx
  revert isCall
  cases instr.opcode <;> first | exact fun _ => rfl | exact nofun

theorem Ahead.any (ahead : Ahead ir enters blk start b l) : Ahead ir (fun _ => True) blk start b l := by
  induction ahead with
  | start => exact .start
  | pass _ keeps inductionHypothesis => exact inductionHypothesis.pass keeps
  | jump _ known edge _ inductionHypothesis => exact inductionHypothesis.jump known edge trivial

/-- A path that comes back to the block of the call gets no further than the call. -/
theorem Ahead.leaves (writes : ¬ Keeps ir call) (listed : call ∈ ir.iterInstrs blk)
    (ahead : Ahead ir (fun _ => True) blk start b l) : Ahead ir (· ≠ blk) blk start b l ∨
      b = blk ∧ ∃ before, ir.iterInstrs blk = before ++ l ∧ call ∈ l := by
  induction ahead with
  | start => exact .inl .start
  | @pass b r rest _ keeps inductionHypothesis =>
      rcases inductionHypothesis with ahead | ⟨here, before, same, behind⟩
      · exact .inl (ahead.pass keeps)
      · rcases List.mem_cons.mp behind with rfl | behind
        · exact absurd keeps writes
        · exact .inr ⟨here, before ++ [r], by simpa using same, behind⟩
  | @jump b c _ _ known edge _ inductionHypothesis =>
      rcases inductionHypothesis with ahead | ⟨_, _, _, behind⟩
      · by_cases back : c = blk
        · subst back
          exact .inr ⟨rfl, [], rfl, listed⟩
        · exact .inl (ahead.jump known edge back)
      · cases behind

/-- Where the call is stored at its place in the order, the search is right when each read that a path
comes to is of a known value, is no write, and does not stand in front of the call. -/
theorem aligned_of_unshifted {instr : Instr} (found : ir.instr? (.instr blk idx) = some instr)
    (isCall : instr.opcode.isCall = true) (listed : .instr blk idx ∈ ir.iterInstrs blk)
    (unshifted : ((ir.iterInstrs blk).dropWhile (· ≠ .instr blk idx)).tail =
      (ir.iterInstrs blk).drop (idx + 1))
    (plain : ∀ x instr, ir.instr? x = some instr → ReadsDx ir (.instr blk idx) instr →
      Exposed ir blk (.instr blk idx) x → Keeps ir x ∧
        readsDx ir (dxResultOfCall ir (.instr blk idx)) instr = true ∧
        ∀ before rest, ir.iterInstrs blk = before ++ x :: rest → .instr blk idx ∉ x :: rest) :
    Aligned ir blk idx where
  none_missed x other isOther reads exposed := by
    obtain ⟨keeps, known, behind⟩ := plain x other isOther reads exposed
    obtain ⟨b, rest, ahead⟩ := exposed
    have writes : ¬ Keeps ir (.instr blk idx) := fun keeps =>
      absurd ((keeps instr found).symm.trans (isCall_writes isCall)) nofun
    rw [unshifted] at ahead
    rcases ahead.leaves writes listed with away | ⟨_, before, same, front⟩
    · exact ⟨⟨keeps, b, rest, away⟩, known⟩
    · exact absurd front (behind before rest same)
  none_invented x _ _ _ searched := by
    obtain ⟨_, b, rest, ahead⟩ := searched
    rw [← unshifted] at ahead
    exact ⟨b, rest, ahead.any⟩

/-- In a block without successors a path goes to its end only. -/
theorem Ahead.suffix (ends : successors ir blk = some [])
    (ahead : Ahead ir enters blk start b l) : b = blk ∧ l <:+ start := by
  induction ahead with
  | start => exact ⟨rfl, List.suffix_rfl⟩
  | pass _ _ inductionHypothesis =>
      exact ⟨inductionHypothesis.1, (List.suffix_cons _ _).trans inductionHypothesis.2⟩
  | jump _ known edge _ inductionHypothesis =>
      rw [inductionHypothesis.1, ends] at known
      obtain rfl := Option.some.inj known
      cases edge

/-- A call, and the sum of the register and itself. -/
def sumAfterCall : IR :=
  { IR.new with
    funcs := ["f"]
    blocks := [some ⟨"entry", fun _ => none, [],
      ⟨[⟨.u16, none, Attribute.NONE, .callArgs, [.func 0]⟩,
        ⟨.u16, none, Attribute.NONE, .add, [.init .DX, .init .DX]⟩], [0, 1], by decide, distinct_two⟩, true, []⟩] }

def everyLive : Ref → Bool := fun _ => true

/-- The same with a phi that has been put in front of the call. -/
def phiBeforeCall : IR :=
  { IR.new with
    funcs := ["f"]
    blocks := [some ⟨"entry", fun _ => none, [],
      ⟨[⟨.u16, none, Attribute.NONE, .callArgs, [.func 0]⟩,
        ⟨.u16, none, Attribute.NONE, .phi, []⟩,
        ⟨.u16, none, Attribute.NONE, .add, [.init .DX, .init .DX]⟩], [1, 0, 2], by decide, by decide⟩, true, []⟩] }

end Exact

end Dis86.Abi
