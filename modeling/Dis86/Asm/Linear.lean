import Dis86.Asm.Decodable

namespace Dis86.Asm
open Lib (Outcome Run Cursor)
open RegionIter (cursor)

/-- A decoder is called until the end of its region or until it fails. The result is what it decoded
and, when it failed, why and where; the fuel is the number of calls. -/
def decodeLoop {E : Type} :
    Nat → RegionIter → Outcome E (List (Instr × Bytes) × Option (DecodeError × SegOff))
  | 0, _ => .panic
  | fuel + 1, bin =>
      match decodeOne bin with
      | (.ok (some next), bin') => do
          let (later, failure) ← decodeLoop fuel bin'
          return (next :: later, failure)
      | (.ok none, _) => return ([], none)
      | (.err e, bin') =>
          match bin'.addr with
          | .ok addr => return ([], some (e, addr))
          | _ => .panic
      | (.panic, _) => .panic

/-- The instructions of a region from its start on. -/
def linearDecode {E : Type} (binary : Binary) (start stop : SegOff) :
    Outcome E (List (Instr × Bytes) × Option (DecodeError × SegOff)) := do
  let bin ← binary.regionIter start stop
  decodeLoop (bin.mem.length + 1) bin

/-- The rest of a region is a sequence of instructions. -/
inductive Decodes : RegionIter → List (Instr × Bytes) → Prop where
  | done {bin : RegionIter} (ended : bin.rest = []) : Decodes bin []
  | next {bin : RegionIter} {instr : Instr} {raw : Bytes} {later : List (Instr × Bytes)}
      (ran : decodeOne bin = (.ok (some (instr, raw)), bin.advanceBy instr.nBytes.toNat))
      (rest : Decodes (bin.advanceBy instr.nBytes.toNat) later) : Decodes bin ((instr, raw) :: later)

/-- What an instruction that was decoded says about its place. -/
structure Stands (bin : RegionIter) (instr : Instr) (raw : Bytes) : Prop where
  addr : bin.addr = .ok instr.addr
  used_pos : 1 ≤ instr.nBytes.toNat
  inside : instr.nBytes.toNat ≤ bin.rest.length
  raw_eq : raw = bin.rest.take instr.nBytes.toNat
  reads : ∃ p fmt operands nBytes,
    instr = ⟨p.rep, fmt.op, operands, instr.addr, nBytes, fmt.hidden⟩ ∧
      cursor.Reads (decodeParts instr.addr) bin (p, fmt, operands) nBytes.toNat nBytes.toNat

theorem decodeOne_stands {bin stop : RegionIter} (fits : bin.Fits) {instr : Instr} {raw : Bytes}
    (ran : decodeOne bin = (.ok (some (instr, raw)), stop)) :
    Stands bin instr raw ∧ stop = bin.advanceBy instr.nBytes.toNat := by
  have more : bin.rest ≠ [] := by
    intro ended
    rw [decodeOne_ended fits ended] at ran
    cases ran
  obtain ⟨startAddr, start, _⟩ := RegionIter.addr_eq fits
  rcases decodeOne_cases fits more start with
    ⟨p, fmt, operands, used, used_pos, reads, nBytes, rfl, decoded⟩ | ⟨e, failed⟩ | ⟨_, panics⟩
  · rw [decoded] at ran
    simp only [Prod.mk.injEq, Outcome.ok.injEq, Option.some.injEq] at ran
    obtain ⟨⟨rfl, rfl⟩, rfl⟩ := ran
    exact ⟨⟨start, used_pos, reads.inside, rfl, p, fmt, operands, nBytes, rfl, reads⟩, rfl⟩
  · rw [failed] at ran
    cases ran
  · rw [ran] at panics
    cases panics

/-- The same bytes at the same address are the same instruction. -/
theorem Stands.decodeOne_eq {bin other : RegionIter} {instr : Instr} {raw : Bytes}
    (stands : Stands bin instr raw) (fits : other.Fits) (place : other.addr = .ok instr.addr)
    (starts : bin.rest.take instr.nBytes.toNat <+: other.rest) :
    decodeOne other = (.ok (some (instr, raw)), other.advanceBy instr.nBytes.toNat) := by
  obtain ⟨p, fmt, operands, nBytes, shape, reads⟩ := stands.reads
  have count : instr.nBytes = nBytes := by rw [shape]
  rw [count] at starts
  have moved := reads.transfer starts
  have used_pos := stands.used_pos
  have inside : nBytes.toNat ≤ other.rest.length := moved.inside
  have more : other.rest ≠ [] := List.ne_nil_of_length_pos (by rw [count] at used_pos; omega)
  obtain ⟨nBytes', same, decoded⟩ := decodeOneImpl_ok fits more place moved
  obtain rfl := BitVec.eq_of_toNat_eq same
  have taken : other.rest.take nBytes'.toNat = raw := by
    obtain ⟨tail, whole⟩ := starts
    have length : (bin.rest.take nBytes'.toNat).length = nBytes'.toNat := by
      have bound : nBytes'.toNat ≤ bin.rest.length := reads.inside
      rw [List.length_take, Nat.min_eq_left bound]
    rw [stands.raw_eq, count, ← whole, List.take_append_of_le_length length.ge,
      List.take_of_length_le length.le]
  rw [Asm.decodeOne_eq place, decoded, taken, ← shape, count]

theorem Stands.fits {bin : RegionIter} {instr : Instr} {raw : Bytes} (stands : Stands bin instr raw)
    (fits : bin.Fits) : (bin.advanceBy instr.nBytes.toNat).Fits :=
  cursor.valid_advance bin _ fits stands.inside

theorem rest_advanceBy (bin : RegionIter) (n : Nat) : (bin.advanceBy n).rest = bin.rest.drop n :=
  cursor.rest_advance bin n

theorem rest_of_decodeOne_none {bin stop : RegionIter} (fits : bin.Fits)
    (ran : decodeOne bin = (.ok none, stop)) : bin.rest = [] := by
  by_contra more
  obtain ⟨startAddr, start, _⟩ := RegionIter.addr_eq fits
  rcases decodeOne_cases fits more start with
    ⟨_, _, _, _, _, _, _, _, decoded⟩ | ⟨e, failed⟩ | ⟨_, panics⟩
  · rw [decoded] at ran
    cases ran
  · rw [failed] at ran
    cases ran
  · rw [ran] at panics
    cases panics

/-- A loop that did not fail has decoded the whole rest, and the fuel was enough. -/
theorem decodeLoop_iff {E : Type} {fuel : Nat} {bin : RegionIter} (fits : bin.Fits)
    (enough : bin.rest.length < fuel) (l : List (Instr × Bytes)) :
    (decodeLoop fuel bin : Outcome E _) = .ok (l, none) ↔ Decodes bin l := by
  induction fuel generalizing bin l with
  | zero => omega
  | succ fuel hypothesis =>
      rw [decodeLoop]
      cases ran : decodeOne bin with
      | mk outcome stop =>
          have stuck : (∀ found, outcome ≠ .ok found) → ¬ Decodes bin l := by
            intro failed decodes
            cases decodes with
            | done ended =>
                rw [decodeOne_ended fits ended] at ran
                exact failed none (Prod.mk.inj ran).1.symm
            | next ran' =>
                rw [ran'] at ran
                exact failed _ (Prod.mk.inj ran).1.symm
          cases outcome with
          | panic => exact iff_of_false (by simp) (stuck (by simp))
          | err e =>
              refine iff_of_false (fun same => ?_) (stuck (by simp))
              simp only at same
              split at same
              · have pairs := Outcome.ok.inj same
                cases (Prod.mk.inj pairs).2
              · cases same
          | ok found =>
              cases found with
              | none =>
                  have ended := rest_of_decodeOne_none fits ran
                  constructor
                  · intro same
                    obtain rfl := (Prod.mk.inj (Outcome.ok.inj same)).1
                    exact .done ended
                  · intro decodes
                    cases decodes with
                    | done => rfl
                    | next ran' => simp [ran'] at ran
              | some pair =>
                  obtain ⟨instr, raw⟩ := pair
                  obtain ⟨stands, rfl⟩ := decodeOne_stands fits ran
                  have used_pos := stands.used_pos
                  have inside := stands.inside
                  have next := @hypothesis (bin.advanceBy instr.nBytes.toNat) (stands.fits fits) (by
                    rw [rest_advanceBy, List.length_drop]
                    omega)
                  constructor
                  · intro same
                    obtain ⟨⟨later, failure⟩, looped, same⟩ := Outcome.bind_eq_ok.mp same
                    obtain ⟨rfl, rfl⟩ := Prod.mk.inj (Outcome.ok.inj same)
                    exact .next ran ((next later).mp looped)
                  · intro decodes
                    cases decodes with
                    | done ended => simp [decodeOne_ended fits ended] at ran
                    | next ran' rest =>
                        rw [ran'] at ran
                        simp only [Prod.mk.injEq, Outcome.ok.injEq, Option.some.injEq] at ran
                        obtain ⟨⟨rfl, rfl⟩, _⟩ := ran
                        exact Outcome.bind_eq_ok.mpr ⟨(_, none), (next _).mpr rest, rfl⟩

theorem Decodes.unique {bin : RegionIter} {l l' : List (Instr × Bytes)} (first : Decodes bin l)
    (second : Decodes bin l') (fits : bin.Fits) : l = l' := by
  have enough : bin.rest.length < bin.rest.length + 1 := Nat.lt_succ_self _
  have one := (decodeLoop_iff (E := Unit) fits enough l).mpr first
  have two := (decodeLoop_iff (E := Unit) fits enough l').mpr second
  rw [one] at two
  exact (Prod.mk.inj (Outcome.ok.inj two)).1

/-- The bytes of the instructions. -/
def usedBytes (l : List (Instr × Bytes)) : Nat := (l.map fun pair => pair.1.nBytes.toNat).sum

theorem addr_advanceBy {bin other : RegionIter} {n : Nat} (fits : bin.Fits) (other_fits : other.Fits)
    (inside : n ≤ bin.rest.length) (other_inside : n ≤ other.rest.length)
    (place : bin.addr = other.addr) : (bin.advanceBy n).addr = (other.advanceBy n).addr := by
  obtain ⟨a, a_eq, a_seg, a_off⟩ := RegionIter.addr_eq fits
  obtain ⟨b, b_eq, b_seg, b_off⟩ := RegionIter.addr_eq other_fits
  obtain ⟨c, c_eq, c_seg, c_off⟩ := RegionIter.addr_eq (cursor.valid_advance bin n fits inside)
  obtain ⟨d, d_eq, d_seg, d_off⟩ :=
    RegionIter.addr_eq (cursor.valid_advance other n other_fits other_inside)
  rw [a_eq, b_eq] at place
  obtain rfl := Outcome.ok.inj place
  have same : c = d := by
    refine SegOff.ext_toNat ?_ ?_
    · exact c_seg.trans (a_seg.symm.trans (b_seg.trans d_seg.symm))
    · change c.off.toNat = bin.baseOff.toNat + (bin.off + n) at c_off
      change d.off.toNat = other.baseOff.toNat + (other.off + n) at d_off
      omega
  exact c_eq.trans (same ▸ d_eq.symm)

/-- What a cut-off region decodes to is the beginning of what the whole region decodes to. -/
theorem Decodes.of_part {bin part : RegionIter} {l l₁ : List (Instr × Bytes)} {k : Nat}
    (whole : Decodes bin l) (beginning : Decodes part l₁) (fits : bin.Fits) (part_fits : part.Fits)
    (place : bin.addr = part.addr) (k_le : k ≤ bin.rest.length) (rest : part.rest = bin.rest.take k) :
    ∃ l₂, l = l₁ ++ l₂ ∧ Decodes (bin.advanceBy k) l₂ := by
  induction beginning generalizing bin l k with
  | done ended =>
      have length : k = 0 := by
        have short := congrArg List.length rest
        rw [ended, List.length_take, List.length_nil] at short
        omega
      subst length
      exact ⟨l, rfl, whole⟩
  | next ran later hypothesis =>
      rename_i part instr raw l₁
      obtain ⟨stands, _⟩ := decodeOne_stands part_fits ran
      have used_pos := stands.used_pos
      have inside := stands.inside
      have length : part.rest.length = k := by
        rw [rest, List.length_take, Nat.min_eq_left k_le]
      have starts : part.rest.take instr.nBytes.toNat <+: bin.rest := by
        rw [rest, List.take_take]
        exact List.take_prefix _ _
      have ran' := stands.decodeOne_eq fits (place.trans stands.addr) starts
      cases whole with
      | done ended => simp [decodeOne_ended fits ended] at ran'
      | next ran'' tail =>
          rw [ran'] at ran''
          simp only [Prod.mk.injEq, Outcome.ok.injEq, Option.some.injEq] at ran''
          obtain ⟨⟨rfl, rfl⟩, _⟩ := ran''
          obtain ⟨l₂, rfl, final⟩ := hypothesis tail
            (cursor.valid_advance bin _ fits (inside.trans (by rw [length]; exact k_le)))
            (stands.fits part_fits)
            (addr_advanceBy fits part_fits (by omega) inside place)
            (k := k - instr.nBytes.toNat)
            (by rw [rest_advanceBy, List.length_drop]; omega)
            (by rw [rest_advanceBy, rest_advanceBy, rest, List.drop_take])
          refine ⟨l₂, rfl, ?_⟩
          have sum : instr.nBytes.toNat + (k - instr.nBytes.toNat) = k := by omega
          have moved : (bin.advanceBy instr.nBytes.toNat).advanceBy (k - instr.nBytes.toNat) =
              bin.advanceBy (instr.nBytes.toNat + (k - instr.nBytes.toNat)) :=
            cursor.advance_add bin _ _
          rwa [moved, sum] at final

/-- An instruction begins at the position that is reached by the instructions before it. -/
theorem Decodes.split {bin : RegionIter} {l₁ l₂ : List (Instr × Bytes)}
    (whole : Decodes bin (l₁ ++ l₂)) (fits : bin.Fits) :
    usedBytes l₁ ≤ bin.rest.length ∧ Decodes (bin.advanceBy (usedBytes l₁)) l₂ ∧
      ∀ part : RegionIter, part.Fits → bin.addr = part.addr →
        part.rest = bin.rest.take (usedBytes l₁) → Decodes part l₁ := by
  induction l₁ generalizing bin with
  | nil =>
      refine ⟨Nat.zero_le _, whole, fun part _ _ rest => .done ?_⟩
      rw [rest]
      rfl
  | cons pair l₁ hypothesis =>
      cases whole with
      | next ran tail =>
          rename_i instr raw
          obtain ⟨stands, _⟩ := decodeOne_stands fits ran
          have inside := stands.inside
          obtain ⟨used_le, final, parts⟩ := hypothesis tail (stands.fits fits)
          have total : usedBytes ((instr, raw) :: l₁) = instr.nBytes.toNat + usedBytes l₁ := by
            simp [usedBytes]
          rw [rest_advanceBy, List.length_drop] at used_le
          have moved : (bin.advanceBy instr.nBytes.toNat).advanceBy (usedBytes l₁) =
              bin.advanceBy (instr.nBytes.toNat + usedBytes l₁) := cursor.advance_add bin _ _
          rw [moved] at final
          rw [total]
          refine ⟨by omega, final, fun part part_fits place rest => ?_⟩
          have length : part.rest.length = instr.nBytes.toNat + usedBytes l₁ := by
            rw [rest, List.length_take]
            omega
          have taken : bin.rest.take instr.nBytes.toNat <+: part.rest := by
            rw [rest]
            exact List.take_prefix_take_left (by omega)
          have ran' := stands.decodeOne_eq part_fits (place.symm.trans stands.addr) taken
          refine .next ran' (parts _ ?_ ?_ ?_)
          · exact cursor.valid_advance part _ part_fits (by
              show _ ≤ part.rest.length
              omega)
          · exact addr_advanceBy fits part_fits inside (by omega) place
          · rw [rest_advanceBy, rest_advanceBy, rest, List.drop_take, Nat.add_sub_cancel_left]

/-- The same rest at the same address decodes to the same instructions. -/
theorem Decodes.moved {bin other : RegionIter} {l : List (Instr × Bytes)} (decodes : Decodes bin l)
    (fits : bin.Fits) (other_fits : other.Fits) (place : bin.addr = other.addr)
    (rest : other.rest = bin.rest) : Decodes other l := by
  have whole : Decodes bin (l ++ []) := by rwa [List.append_nil]
  obtain ⟨used_le, final, parts⟩ := whole.split fits
  refine parts other other_fits place ?_
  cases final with
  | done ended =>
      rw [rest_advanceBy, List.drop_eq_nil_iff] at ended
      rw [rest, List.take_of_length_le ended]

theorem Decodes.stands_head {bin : RegionIter} {pair : Instr × Bytes} {l : List (Instr × Bytes)}
    (decodes : Decodes bin (pair :: l)) (fits : bin.Fits) : bin.addr = .ok pair.1.addr := by
  cases decodes with
  | next ran _ => exact (decodeOne_stands fits ran).1.addr

end Dis86.Asm
