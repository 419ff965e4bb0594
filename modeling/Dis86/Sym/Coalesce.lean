import Dis86.IR.Def
import Mathlib.Data.List.Sort

namespace Dis86

/-- Only three sizes have a type, and every other one panics. -/
def inferTypeFromSize : Nat → Option Typ
  | 1 => some .u8
  | 2 => some .u16
  | 4 => some .u32
  | _ => none

namespace SymbolDef

def start (symbol : SymbolDef) : Int := symbol.off

def stop (symbol : SymbolDef) : Int := symbol.off + symbol.size

/-- The table order is by offset, then by size. -/
def Before (a b : SymbolDef) : Prop := a.off < b.off ∨ a.off = b.off ∧ a.size ≤ b.size

instance : DecidableRel Before := fun a b =>
  inferInstanceAs (Decidable (a.off < b.off ∨ a.off = b.off ∧ a.size ≤ b.size))

instance : Std.Total Before := ⟨fun a b => by unfold Before; omega⟩

instance : IsTrans SymbolDef Before := ⟨fun a b c => by unfold Before; omega⟩

def sort (symbols : List SymbolDef) : List SymbolDef := symbols.insertionSort Before

/-- A symbol that starts inside the last one resizes it to its own end. -/
def mergeInto (last : SymbolDef) : List SymbolDef → Option (List SymbolDef)
  | [] => some [last]
  | symbol :: rest =>
      if symbol.start < last.stop then do
        let size := symbol.stop - last.start
        guard (0 ≤ size ∧ size < 2 ^ 16)
        let typ ← inferTypeFromSize size.toNat
        mergeInto { last with size := size.toNat, typ } rest
      else do return last :: (← mergeInto symbol rest)

def coalesce (symbols : List SymbolDef) : Option (List SymbolDef) :=
  match sort symbols with
  | [] => some []
  | first :: rest => mergeInto first rest

/-- The bytes of one symbol lie inside another one. -/
def Inside (a b : SymbolDef) : Prop := b.start ≤ a.start ∧ a.stop ≤ b.stop

/-- Each symbol ends before the next one starts. -/
def Apart (symbols : List SymbolDef) : Prop := symbols.Pairwise fun a b => a.stop ≤ b.start

/-- Symbols that overlap start together or end together. -/
def Aligned (symbols : List SymbolDef) : Prop :=
  ∀ a ∈ symbols, ∀ b ∈ symbols, a.start < b.start → b.start < a.stop → a.stop = b.stop

/-- An access has one, two or four bytes. -/
def Sized (symbol : SymbolDef) : Prop := symbol.size = 1 ∨ symbol.size = 2 ∨ symbol.size = 4

section Merging

variable {last symbol : SymbolDef} {rest out : List SymbolDef}

theorem inferTypeFromSize_isSome {size : Nat} :
    (∃ typ, inferTypeFromSize size = some typ) ↔ size = 1 ∨ size = 2 ∨ size = 4 := by
  unfold inferTypeFromSize
  split <;> simp_all

/-- The last symbol up to another end. -/
def resizedTo (last : SymbolDef) (size : Nat) (typ : Typ) : SymbolDef := { last with size, typ }

theorem mergeInto_overlap (overlaps : symbol.start < last.stop) (later : last.start ≤ symbol.start) :
    mergeInto last (symbol :: rest) = some out ↔
      ∃ typ, inferTypeFromSize (symbol.stop - last.start).toNat = some typ ∧
        mergeInto (last.resizedTo (symbol.stop - last.start).toNat typ) rest = some out := by
  simp only [mergeInto, if_pos overlaps, Option.bind_eq_bind, Option.bind_eq_some_iff,
    Option.guard_eq_some', resizedTo]
  constructor
  · rintro ⟨_, _, typ, inferred, merged⟩
    exact ⟨typ, inferred, merged⟩
  · rintro ⟨typ, inferred, merged⟩
    have size := inferTypeFromSize_isSome.mp ⟨typ, inferred⟩
    exact ⟨(), by simp only [stop, start] at size later ⊢; omega, typ, inferred, merged⟩

theorem mergeInto_apart (apart : last.stop ≤ symbol.start) :
    mergeInto last (symbol :: rest) = some out ↔
      ∃ out', mergeInto symbol rest = some out' ∧ last :: out' = out := by
  simp only [mergeInto, if_neg (Int.not_lt.mpr apart), Option.bind_eq_bind, Option.bind_eq_some_iff,
    Option.pure_def, Option.some.injEq]

/-- The symbols come in the order of their starts. -/
def Ascending (symbols : List SymbolDef) : Prop := symbols.Pairwise fun a b => a.start ≤ b.start

theorem start_le_of_before {a b : SymbolDef} (before : Before a b) : a.start ≤ b.start := by
  unfold Before at before
  unfold start
  omega

theorem Ascending.resizedTo (ascending : Ascending (last :: rest)) (size : Nat) (typ : Typ) :
    Ascending (last.resizedTo size typ :: rest) := by
  obtain ⟨first, others⟩ := List.pairwise_cons.mp ascending
  exact List.pairwise_cons.mpr ⟨first, others⟩

theorem Ascending.skip (ascending : Ascending (last :: symbol :: rest)) : Ascending (last :: rest) :=
  ascending.sublist (List.Sublist.cons_cons last (List.sublist_cons_self symbol rest))

theorem Ascending.head_le (ascending : Ascending (last :: rest)) {a : SymbolDef} (inside : a ∈ rest) :
    last.start ≤ a.start := (List.pairwise_cons.mp ascending).1 a inside

/-- The merged symbols start no earlier than the last one, and they are apart. -/
theorem mergeInto_order (ascending : Ascending (last :: rest))
    (merged : mergeInto last rest = some out) :
    (∀ a ∈ out, last.start ≤ a.start) ∧ Apart out := by
  induction rest generalizing last out with
  | nil =>
      obtain rfl := Option.some.inj merged
      simp [Apart]
  | cons symbol rest hypothesis =>
      have later := ascending.head_le List.mem_cons_self
      by_cases overlaps : symbol.start < last.stop
      · obtain ⟨typ, _, resized⟩ := (mergeInto_overlap overlaps later).mp merged
        have bounds := hypothesis (ascending.skip.resizedTo _ typ) resized
        exact bounds
      · obtain ⟨out', remaining, rfl⟩ := (mergeInto_apart (Int.not_lt.mp overlaps)).mp merged
        obtain ⟨above, apart⟩ := hypothesis (List.pairwise_cons.mp ascending).2 remaining
        constructor
        · intro a inside
          rcases List.mem_cons.mp inside with rfl | inside
          · exact Int.le_refl _
          · have := above a inside
            omega
        · apply List.pairwise_cons.mpr
          refine ⟨fun a inside => ?_, apart⟩
          have := above a inside
          omega

/-- A pair of bytes never grows again. -/
theorem mergeInto_pair (pair : last.size = 2) (ascending : Ascending (last :: rest))
    (later : ∀ a ∈ rest, last.start < a.start) (sized : ∀ a ∈ rest, a.Sized)
    (merged : mergeInto last rest = some out) :
    ∀ b ∈ out, b.start ≤ last.start → b.stop ≤ last.start + 2 := by
  induction rest generalizing last out with
  | nil =>
      obtain rfl := Option.some.inj merged
      intro b inside _
      obtain rfl := List.mem_singleton.mp inside
      simp only [stop, start, pair]
      omega
  | cons symbol rest hypothesis =>
      have above := later symbol List.mem_cons_self
      by_cases overlaps : symbol.start < last.stop
      · obtain ⟨typ, inferred, resized⟩ := (mergeInto_overlap overlaps (by omega)).mp merged
        have size := inferTypeFromSize_isSome.mp ⟨typ, inferred⟩
        have symbolSize := sized symbol List.mem_cons_self
        have still : (last.resizedTo (symbol.stop - last.start).toNat typ).size = 2 := by
          simp only [SymbolDef.resizedTo, Sized, stop, start] at *
          omega
        have bounds := hypothesis still (ascending.skip.resizedTo _ typ)
          (fun a inside => later a (List.mem_cons_of_mem _ inside))
          (fun a inside => sized a (List.mem_cons_of_mem _ inside)) resized
        exact bounds
      · obtain ⟨out', remaining, rfl⟩ := (mergeInto_apart (Int.not_lt.mp overlaps)).mp merged
        obtain ⟨bound, _⟩ := mergeInto_order (List.pairwise_cons.mp ascending).2 remaining
        intro b inside low
        rcases List.mem_cons.mp inside with rfl | inside
        · simp only [stop, start, pair]
          omega
        · have := bound b inside
          omega

/-- Two symbols cover the same bytes. -/
def SameBytes (a b : SymbolDef) : Prop := a.start = b.start ∧ a.stop = b.stop

theorem Aligned.congr {other : SymbolDef} (same : SameBytes other last)
    (aligned : Aligned (last :: rest)) : Aligned (other :: rest) := by
  intro a isA b isB
  obtain ⟨starts, stops⟩ := same
  have bytes : ∀ c ∈ other :: rest, ∃ d ∈ last :: rest, SameBytes c d := by
    intro c inside
    rcases List.mem_cons.mp inside with rfl | inside
    · exact ⟨last, List.mem_cons_self, starts, stops⟩
    · exact ⟨c, List.mem_cons_of_mem _ inside, rfl, rfl⟩
  obtain ⟨c, isC, aStart, aStop⟩ := bytes a isA
  obtain ⟨d, isD, bStart, bStop⟩ := bytes b isB
  rw [aStart, aStop, bStart, bStop]
  exact aligned c isC d isD

theorem Aligned.subset {others : List SymbolDef} (aligned : Aligned rest) (sub : others ⊆ rest) :
    Aligned others := fun a isA b isB => aligned a (sub isA) b (sub isB)

theorem before_of_sameBytes {a b c : SymbolDef} (same : SameBytes a b) (before : Before b c) :
    Before a c := by
  simp only [SameBytes, start, stop, Before] at *
  omega

/-- Aligned symbols merge into symbols that cover them. -/
theorem mergeInto_covers (sorted : (last :: rest).Pairwise Before)
    (sized : ∀ a ∈ last :: rest, a.Sized) (aligned : Aligned (last :: rest)) :
    ∃ out, mergeInto last rest = some out ∧ ∀ a ∈ last :: rest, ∃ b ∈ out, Inside a b := by
  induction rest generalizing last with
  | nil => exact ⟨[last], rfl, fun a inside => ⟨a, inside, Int.le_refl _, Int.le_refl _⟩⟩
  | cons symbol rest hypothesis =>
      obtain ⟨first, others⟩ := List.pairwise_cons.mp sorted
      have before := first symbol List.mem_cons_self
      have later := start_le_of_before before
      have lastSized := sized last List.mem_cons_self
      have symbolSized := sized symbol (List.mem_cons_of_mem _ List.mem_cons_self)
      by_cases overlaps : symbol.start < last.stop
      · -- one of the two symbols already has the bytes of the result
        obtain ⟨whole, isWhole, starts, stops, reaches⟩ : ∃ whole ∈ [last, symbol],
            whole.start = last.start ∧ whole.stop = symbol.stop ∧ last.stop ≤ symbol.stop := by
          by_cases together : last.start = symbol.start
          · refine ⟨symbol, by simp, together.symm, rfl, ?_⟩
            simp only [Before, start, stop] at *
            omega
          · have ends := aligned last List.mem_cons_self symbol (by simp) (by omega) overlaps
            exact ⟨last, by simp, rfl, ends, by omega⟩
        have wholeSized : whole.Sized := by
          rcases List.mem_pair.mp isWhole with rfl | rfl
          · exact lastSized
          · exact symbolSized
        have size : (symbol.stop - last.start).toNat = whole.size := by
          simp only [start, stop] at *
          omega
        obtain ⟨typ, inferred⟩ := inferTypeFromSize_isSome.mpr wholeSized
        have same : SameBytes (last.resizedTo whole.size typ) whole := by
          simp only [SameBytes, resizedTo, start, stop] at *
          omega
        have sub : whole :: rest ⊆ last :: symbol :: rest := by
          rcases List.mem_pair.mp isWhole with rfl | rfl
          · simp
          · exact List.subset_cons_self _ _
        have wholeBefore : ∀ b ∈ rest, Before whole b := by
          intro b inside
          rcases List.mem_pair.mp isWhole with rfl | rfl
          · exact first b (List.mem_cons_of_mem _ inside)
          · exact (List.pairwise_cons.mp others).1 b inside
        obtain ⟨out, merged, covered⟩ := hypothesis
          (List.pairwise_cons.mpr ⟨fun b inside => before_of_sameBytes same (wholeBefore b inside),
            (List.pairwise_cons.mp others).2⟩)
          (fun a inside => by
            rcases List.mem_cons.mp inside with rfl | inside
            · exact wholeSized
            · exact sized a (by simp [inside]))
          ((aligned.subset sub).congr same)
        rw [← size] at inferred same merged covered
        refine ⟨out, (mergeInto_overlap overlaps later).mpr ⟨typ, inferred, merged⟩, ?_⟩
        obtain ⟨b, isOut, within⟩ := covered _ List.mem_cons_self
        obtain ⟨sameStart, sameStop⟩ := same
        intro a inside
        rcases List.mem_cons.mp inside with rfl | inside
        · exact ⟨b, isOut, by unfold Inside at *; omega⟩
        · rcases List.mem_cons.mp inside with rfl | inside
          · exact ⟨b, isOut, by unfold Inside at *; omega⟩
          · exact covered a (List.mem_cons_of_mem _ inside)
      · obtain ⟨out, merged, covered⟩ := hypothesis others
          (fun a inside => sized a (List.mem_cons_of_mem _ inside))
          (aligned.subset (List.subset_cons_self _ _))
        refine ⟨last :: out, (mergeInto_apart (Int.not_lt.mp overlaps)).mpr ⟨out, merged, rfl⟩, ?_⟩
        intro a inside
        rcases List.mem_cons.mp inside with rfl | inside
        · exact ⟨a, List.mem_cons_self, Int.le_refl _, Int.le_refl _⟩
        · obtain ⟨b, isOut, within⟩ := covered a inside
          exact ⟨b, List.mem_cons_of_mem _ isOut, within⟩

/-- A symbol with the bytes of the last one, or of one that starts with it and reaches further,
leaves nothing to align but the two. -/
theorem Aligned.cons_of_together (together : last.start = symbol.start)
    (reaches : last.stop ≤ symbol.stop) (sized : ∀ a ∈ last :: symbol :: rest, a.Sized)
    (ascending : Ascending (last :: symbol :: rest)) (aligned : Aligned (symbol :: rest)) :
    Aligned (last :: symbol :: rest) := by
  have lastSized := sized last List.mem_cons_self
  have symbolSized := sized symbol (by simp)
  intro a isA b isB less inside
  rcases List.mem_cons.mp isB with rfl | isB'
  · rcases List.mem_cons.mp isA with rfl | isA'
    · omega
    · have := ascending.head_le isA'
      omega
  · rcases List.mem_cons.mp isA with rfl | isA'
    · have ends := aligned symbol List.mem_cons_self b isB' (by omega) (by omega)
      have bSized := sized b isB
      simp only [Sized, start, stop] at *
      omega
    · exact aligned a isA' b isB' less inside

theorem Aligned.cons_of_nested (nested : last.start < symbol.start) (ends : last.stop = symbol.stop)
    (ascending : Ascending (last :: symbol :: rest)) (aligned : Aligned (last :: rest)) :
    Aligned (last :: symbol :: rest) := by
  have others := (List.pairwise_cons.mp ascending).2
  have outer : ∀ c ∈ last :: symbol :: rest, c = symbol ∨ c ∈ last :: rest := by
    intro c inside
    simp only [List.mem_cons] at inside ⊢
    tauto
  intro a isA b isB less inside
  rcases outer a isA with rfl | isA'
  · rcases outer b isB with rfl | isB'
    · omega
    · rw [← ends]
      exact aligned last List.mem_cons_self b isB' (by omega) (by omega)
  · rcases outer b isB with rfl | isB'
    · rcases List.mem_cons.mp isA' with rfl | isA'
      · exact ends
      · have := Ascending.head_le others isA'
        omega
    · exact aligned a isA' b isB' less inside

/-- Only aligned symbols merge into symbols that cover them. -/
theorem aligned_of_covered {out : List SymbolDef} (sorted : (last :: rest).Pairwise Before)
    (sized : ∀ a ∈ last :: rest, a.Sized) (merged : mergeInto last rest = some out)
    (covered : ∀ a ∈ last :: rest, ∃ b ∈ out, Inside a b) : Aligned (last :: rest) := by
  induction rest generalizing last out with
  | nil =>
      intro a isA b isB
      rw [List.mem_singleton.mp isA, List.mem_singleton.mp isB]
      omega
  | cons symbol rest hypothesis =>
      obtain ⟨first, others⟩ := List.pairwise_cons.mp sorted
      have ascending : Ascending (last :: symbol :: rest) := sorted.imp start_le_of_before
      have before := first symbol List.mem_cons_self
      have later := start_le_of_before before
      have lastSized := sized last List.mem_cons_self
      have symbolSized := sized symbol (List.mem_cons_of_mem _ List.mem_cons_self)
      have restSized : ∀ a ∈ rest, a.Sized := fun a inside => sized a (by simp [inside])
      by_cases overlaps : symbol.start < last.stop
      · obtain ⟨typ, inferred, remaining⟩ := (mergeInto_overlap overlaps later).mp merged
        have size := inferTypeFromSize_isSome.mp ⟨typ, inferred⟩
        obtain ⟨resized, isResized⟩ : ∃ resized, resized =
            last.resizedTo (symbol.stop - last.start).toNat typ := ⟨_, rfl⟩
        rw [← isResized] at remaining
        have bytes : resized.start = last.start ∧ resized.stop = symbol.stop := by
          refine ⟨by rw [isResized]; rfl, ?_⟩
          rw [isResized]
          simp only [resizedTo, start, stop] at later size ⊢
          omega
        -- a symbol with the bytes of the resized one stands for it
        have stands : ∀ whole ∈ [last, symbol], SameBytes resized whole →
            (∀ b ∈ rest, Before whole b) → Aligned (whole :: rest) := by
          intro whole isWhole same wholeBefore
          have wholeSized : whole.Sized := by
            rcases List.mem_pair.mp isWhole with rfl | rfl
            · exact lastSized
            · exact symbolSized
          have aligned : Aligned (resized :: rest) := by
            apply hypothesis ?_ ?_ remaining ?_
            · exact List.pairwise_cons.mpr ⟨fun b inside =>
                before_of_sameBytes same (wholeBefore b inside), (List.pairwise_cons.mp others).2⟩
            · intro a inside
              rcases List.mem_cons.mp inside with rfl | inside
              · simp only [SameBytes, Sized, start, stop] at same wholeSized ⊢
                omega
              · exact restSized a inside
            · intro a inside
              rcases List.mem_cons.mp inside with rfl | inside
              · obtain ⟨b, isOut, within⟩ := covered whole (by
                  rcases List.mem_pair.mp isWhole with rfl | rfl <;> simp)
                exact ⟨b, isOut, by unfold Inside SameBytes at *; omega⟩
              · exact covered a (by simp [inside])
          exact aligned.congr ⟨same.1.symm, same.2.symm⟩
        by_cases together : last.start = symbol.start
        · have aligned := stands symbol (by simp) ⟨bytes.1.trans together, bytes.2⟩
            (List.pairwise_cons.mp others).1
          refine aligned.cons_of_together together ?_ sized ascending
          simp only [Before, start, stop] at *
          omega
        · have nested : last.start < symbol.start := by omega
          by_cases ends : last.stop = symbol.stop
          · have aligned := stands last (by simp) ⟨bytes.1, bytes.2.trans ends.symm⟩
              (fun b inside => first b (List.mem_cons_of_mem _ inside))
            exact aligned.cons_of_nested nested ends ascending
          · -- the resized symbol is a pair of bytes, and the last one had four
            exfalso
            have pair : resized.size = 2 ∧ last.stop = last.start + 4 := by
              simp only [Sized, start, stop] at *
              omega
            obtain ⟨b, isOut, within⟩ := covered last List.mem_cons_self
            have short := mergeInto_pair pair.1 (by rw [isResized]; exact ascending.skip.resizedTo _ typ)
              (fun a inside => by
                have := Ascending.head_le (List.pairwise_cons.mp ascending).2 inside
                omega) restSized remaining b isOut
            unfold Inside at within
            omega
      · obtain ⟨out', remaining, rfl⟩ := (mergeInto_apart (Int.not_lt.mp overlaps)).mp merged
        have above : ∀ a ∈ symbol :: rest, last.stop ≤ a.start := by
          intro a inside
          rcases List.mem_cons.mp inside with rfl | inside
          · omega
          · have := Ascending.head_le (List.pairwise_cons.mp ascending).2 inside
            omega
        have aligned := hypothesis others
          (fun a inside => sized a (List.mem_cons_of_mem _ inside)) remaining (by
            intro a inside
            obtain ⟨b, isOut, within⟩ := covered a (List.mem_cons_of_mem _ inside)
            rcases List.mem_cons.mp isOut with rfl | isOut
            · have positive := sized a (List.mem_cons_of_mem _ inside)
              have low := above a inside
              simp only [Inside, Sized, start, stop] at *
              omega
            · exact ⟨b, isOut, within⟩)
        intro a isA b isB less inside
        rcases List.mem_cons.mp isB with rfl | isB'
        · rcases List.mem_cons.mp isA with rfl | isA'
          · omega
          · have := ascending.head_le isA'
            omega
        · rcases List.mem_cons.mp isA with rfl | isA'
          · have := above b isB'
            omega
          · exact aligned a isA' b isB' less inside

end Merging

variable {symbols out : List SymbolDef}

/-- A coalesced table covers its symbols if and only if they are aligned. -/
theorem coalesce_covers_iff (sized : ∀ a ∈ symbols, a.Sized) :
    (∃ out, coalesce symbols = some out ∧ ∀ a ∈ symbols, ∃ b ∈ out, Inside a b) ↔
      Aligned symbols := by
  have sorted := List.pairwise_insertionSort Before symbols
  have same := List.perm_insertionSort Before symbols
  have members : ∀ a, a ∈ sort symbols ↔ a ∈ symbols := fun a => same.mem_iff
  have aligned : Aligned symbols ↔ Aligned (sort symbols) :=
    ⟨fun aligned => aligned.subset fun a => (members a).mp,
      fun aligned => aligned.subset fun a => (members a).mpr⟩
  have sortedSized : ∀ a ∈ sort symbols, a.Sized := fun a inside => sized a ((members a).mp inside)
  simp only [aligned, ← members]
  change (sort symbols).Pairwise Before at sorted
  unfold coalesce
  cases isSorted : sort symbols with
  | nil => simp [Aligned]
  | cons first rest =>
      rw [isSorted] at sorted sortedSized
      constructor
      · rintro ⟨out, merged, covered⟩
        exact aligned_of_covered sorted sortedSized merged covered
      · exact mergeInto_covers sorted sortedSized

/-- A coalesced table is in order, and its symbols are apart. -/
theorem coalesce_apart (coalesced : coalesce symbols = some out) : Apart out := by
  have sorted := List.pairwise_insertionSort Before symbols
  change (sort symbols).Pairwise Before at sorted
  unfold coalesce at coalesced
  split at coalesced
  · obtain rfl := Option.some.inj coalesced
    exact .nil
  · rename_i first rest isSorted
    rw [isSorted] at sorted
    exact (mergeInto_order (sorted.imp start_le_of_before) coalesced).2

end SymbolDef

end Dis86
