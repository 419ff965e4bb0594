import Dis86.Asm.Linear

namespace Dis86.Asm
open Lib (Outcome)
open RegionIter (cursor)

/-- The instructions from the position on come to an address. -/
inductive RegionIter.Reaches : RegionIter → SegOff → Prop where
  | here {bin : RegionIter} {addr : SegOff} (place : bin.addr = .ok addr) : Reaches bin addr
  | next {bin : RegionIter} {instr : Instr} {raw : Bytes} {addr : SegOff}
      (ran : decodeOne bin = (.ok (some (instr, raw)), bin.advanceBy instr.nBytes.toNat))
      (rest : Reaches (bin.advanceBy instr.nBytes.toNat) addr) : Reaches bin addr

@[simp] theorem usedBytes_cons (pair : Instr × Bytes) (l : List (Instr × Bytes)) :
    usedBytes (pair :: l) = pair.1.nBytes.toNat + usedBytes l := rfl

/-- The positions of a region have different addresses. -/
theorem advanceBy_addr_inj {bin : RegionIter} {m n : Nat} (fits : bin.Fits)
    (m_le : m ≤ bin.rest.length) (n_le : n ≤ bin.rest.length)
    (same : (bin.advanceBy m).addr = (bin.advanceBy n).addr) : m = n := by
  obtain ⟨a, a_eq, _, a_off⟩ := RegionIter.addr_eq (cursor.valid_advance bin m fits m_le)
  obtain ⟨b, b_eq, _, b_off⟩ := RegionIter.addr_eq (cursor.valid_advance bin n fits n_le)
  have equal : a = b := Outcome.ok.inj (a_eq.symm.trans (same.trans b_eq))
  change a.off.toNat = bin.baseOff.toNat + (bin.off + m) at a_off
  change b.off.toNat = bin.baseOff.toNat + (bin.off + n) at b_off
  rw [equal] at a_off
  omega

theorem Decodes.of_reaches {bin : RegionIter} {l : List (Instr × Bytes)} {addr : SegOff}
    (whole : Decodes bin l) (fits : bin.Fits) (reaches : bin.Reaches addr) :
    ∃ l₁ l₂, l = l₁ ++ l₂ ∧ (bin.advanceBy (usedBytes l₁)).addr = .ok addr := by
  induction reaches generalizing l with
  | here place => exact ⟨[], l, rfl, place⟩
  | next ran rest hypothesis =>
      cases whole with
      | done ended => simp [decodeOne_ended fits ended] at ran
      | next ran' tail =>
          rw [ran'] at ran
          simp only [Prod.mk.injEq, Outcome.ok.injEq, Option.some.injEq] at ran
          obtain ⟨⟨rfl, rfl⟩, _⟩ := ran
          obtain ⟨stands, _⟩ := decodeOne_stands fits ran'
          obtain ⟨l₁, l₂, rfl, place⟩ := hypothesis tail (stands.fits fits)
          refine ⟨_ :: l₁, l₂, rfl, ?_⟩
          rw [← place, usedBytes_cons]
          exact congrArg RegionIter.addr (cursor.advance_add _ _ _).symm

theorem Decodes.reaches {bin : RegionIter} {l₁ l₂ : List (Instr × Bytes)} {addr : SegOff}
    (whole : Decodes bin (l₁ ++ l₂)) (place : (bin.advanceBy (usedBytes l₁)).addr = .ok addr) :
    bin.Reaches addr := by
  induction l₁ generalizing bin with
  | nil => exact .here place
  | cons pair l₁ hypothesis =>
      cases whole with
      | next ran tail =>
          refine .next ran (hypothesis tail ?_)
          rw [← place, usedBytes_cons]
          exact congrArg RegionIter.addr (cursor.advance_add _ _ _)

/-- A region is cut at an address into a part before it and the rest. -/
structure Cut (bin part tail : RegionIter) (k : Nat) : Prop where
  fits : bin.Fits
  part_fits : part.Fits
  tail_fits : tail.Fits
  k_le : k ≤ bin.rest.length
  part_place : bin.addr = part.addr
  part_rest : part.rest = bin.rest.take k
  tail_place : (bin.advanceBy k).addr = tail.addr
  tail_rest : tail.rest = bin.rest.drop k

namespace Cut

variable {bin part tail : RegionIter} {k : Nat} {l l₁ : List (Instr × Bytes)}

/-- When the part before the cut decodes, the rest decodes to the later instructions of the region. -/
theorem decodes_tail (cut : Cut bin part tail k) (whole : Decodes bin l)
    (beginning : Decodes part l₁) : ∃ l₂, Decodes tail l₂ ∧ l = l₁ ++ l₂ := by
  obtain ⟨l₂, same, final⟩ := whole.of_part beginning cut.fits cut.part_fits cut.part_place cut.k_le
    cut.part_rest
  refine ⟨l₂, final.moved (cursor.valid_advance bin k cut.fits cut.k_le) cut.tail_fits
    cut.tail_place ?_, same⟩
  rw [cut.tail_rest, rest_advanceBy]

/-- The part before the cut decodes just when the instructions of the region come to the cut. -/
theorem decodes_part_iff (cut : Cut bin part tail k) (whole : Decodes bin l) {addr : SegOff}
    (place : tail.addr = .ok addr) : (∃ l₁, Decodes part l₁) ↔ bin.Reaches addr := by
  have fits := cut.fits
  have k_le := cut.k_le
  constructor
  · rintro ⟨l₁, beginning⟩
    obtain ⟨l₂, _, rfl⟩ := cut.decodes_tail whole beginning
    have short : Decodes part (l₁ ++ []) := by rwa [List.append_nil]
    obtain ⟨part_le, ended, _⟩ := short.split cut.part_fits
    have used : usedBytes l₁ = k := by
      have part_length := congrArg List.length cut.part_rest
      rw [List.length_take, Nat.min_eq_left k_le] at part_length
      cases ended with
      | done ended =>
          rw [rest_advanceBy, List.drop_eq_nil_iff] at ended
          omega
    refine whole.reaches ?_
    rw [used, cut.tail_place]
    exact place
  · intro reaches
    obtain ⟨l₁, l₂, rfl, reached⟩ := whole.of_reaches fits reaches
    obtain ⟨used_le, _, parts⟩ := whole.split fits
    have used : usedBytes l₁ = k :=
      advanceBy_addr_inj fits used_le k_le (reached.trans (place.symm.trans cut.tail_place.symm))
    rw [used] at parts
    exact ⟨l₁, parts part cut.part_fits cut.part_place cut.part_rest⟩

end Cut

variable {E : Type}

theorem subslice_eq_ok {data part : Bytes} {start stop : Nat} :
    Binary.subslice data start stop = (.ok part : Outcome E _) ↔
      start ≤ stop ∧ stop ≤ data.length ∧ (data.drop start).take (stop - start) = part := by
  simp only [Binary.subslice, Outcome.bind_eq_ok, Outcome.require_eq_ok]
  constructor
  · rintro ⟨_, ordered, _, inside, same⟩
    exact ⟨ordered, inside, Outcome.ok.inj same⟩
  · rintro ⟨ordered, inside, same⟩
    exact ⟨(), ordered, (), inside, congrArg _ same⟩

/-- A region does not depend on the errors around it. -/
theorem regionIter_transfer {F : Type} {binary : Binary} {start stop : SegOff} {bin : RegionIter}
    (made : binary.regionIter start stop = (.ok bin : Outcome E _)) :
    binary.regionIter start stop = (.ok bin : Outcome F _) := by
  obtain ⟨mem, region, same⟩ := Outcome.bind_eq_ok.mp made
  obtain ⟨_, seg, sliced⟩ := Outcome.bind_eq_ok.mp region
  have seg := Outcome.require_eq_ok.mp seg
  have region' : binary.region start stop = (.ok mem : Outcome F _) := by
    rw [Binary.region, Outcome.require_pos seg, Outcome.ok_bind]
    cases kind : start.seg with
    | normal n =>
        rw [kind] at sliced
        exact subslice_eq_ok.mpr (subslice_eq_ok.mp sliced)
    | overlay n =>
        rw [kind] at sliced
        obtain ⟨data, known, sliced⟩ := Outcome.bind_eq_ok.mp sliced
        refine Outcome.bind_eq_ok.mpr ⟨data, ?_, subslice_eq_ok.mpr (subslice_eq_ok.mp sliced)⟩
        exact Outcome.unwrap_eq_ok.mpr (Outcome.unwrap_eq_ok.mp known)
  exact Outcome.bind_eq_ok.mpr ⟨mem, region', congrArg _ (Outcome.ok.inj same)⟩

theorem subslice_cut {data part : Bytes} {start mid stop : Nat}
    (sliced : Binary.subslice data start stop = (.ok part : Outcome E _)) (low : start ≤ mid)
    (high : mid ≤ stop) :
    Binary.subslice data start mid = (.ok (part.take (mid - start)) : Outcome E _) ∧
      Binary.subslice data mid stop = (.ok (part.drop (mid - start)) : Outcome E _) := by
  obtain ⟨ordered, inside, rfl⟩ := subslice_eq_ok.mp sliced
  constructor
  · refine subslice_eq_ok.mpr ⟨low, high.trans inside, ?_⟩
    rw [List.take_take, Nat.min_eq_left (by omega)]
  · refine subslice_eq_ok.mpr ⟨high, inside, ?_⟩
    rw [List.drop_take, List.drop_drop]
    congr 1
    · omega
    · congr 1
      omega

theorem region_cut {binary : Binary} {start mid stop : SegOff} {mem : Bytes}
    (made : binary.region start stop = (.ok mem : Outcome E _)) (seg : mid.seg = start.seg)
    (low : start.off.toNat ≤ mid.off.toNat) (high : mid.off.toNat ≤ stop.off.toNat) :
    binary.region start mid = (.ok (mem.take (mid.off.toNat - start.off.toNat)) : Outcome E _) ∧
      binary.region mid stop = (.ok (mem.drop (mid.off.toNat - start.off.toNat)) : Outcome E _) := by
  obtain ⟨_, same, sliced⟩ := Outcome.bind_eq_ok.mp made
  rw [Outcome.require_eq_ok] at same
  unfold Binary.region
  rw [Outcome.require_pos seg.symm, Outcome.require_pos (seg.trans same), Outcome.ok_bind,
    Outcome.ok_bind, seg]
  cases kind : start.seg with
  | normal n =>
      rw [kind] at sliced
      have shift : Binary.absNormal n mid.off - Binary.absNormal n start.off =
          mid.off.toNat - start.off.toNat := by
        simp only [Binary.absNormal]
        omega
      rw [← shift]
      exact subslice_cut sliced (by simp only [Binary.absNormal]; omega)
        (by simp only [Binary.absNormal]; omega)
  | overlay n =>
      rw [kind] at sliced
      obtain ⟨data, known, sliced⟩ := Outcome.bind_eq_ok.mp sliced
      simp only [known, Outcome.ok_bind]
      exact subslice_cut sliced low high

/-- A region is cut at each of its addresses. -/
theorem regionIter_cut {binary : Binary} {start mid stop : SegOff} {bin : RegionIter}
    (made : binary.regionIter start stop = (.ok bin : Outcome E _)) (seg : mid.seg = start.seg)
    (low : start.off.toNat ≤ mid.off.toNat) (high : mid.off.toNat ≤ stop.off.toNat) :
    ∃ part tail, binary.regionIter start mid = (.ok part : Outcome E _) ∧
      binary.regionIter mid stop = (.ok tail : Outcome E _) ∧
      Cut bin part tail (mid.off.toNat - start.off.toNat) ∧ tail.addr = .ok mid := by
  have fits := regionIter_fits made
  obtain ⟨mem, region, same⟩ := Outcome.bind_eq_ok.mp made
  obtain rfl := Outcome.ok.inj same
  obtain ⟨before, after⟩ := region_cut region seg low high
  have part_made : binary.regionIter start mid = (.ok (.new _ start) : Outcome E _) :=
    Outcome.bind_eq_ok.mpr ⟨_, before, rfl⟩
  have tail_made : binary.regionIter mid stop = (.ok (.new _ mid) : Outcome E _) :=
    Outcome.bind_eq_ok.mpr ⟨_, after, rfl⟩
  have length := region_length region
  have mid_lt := mid.off.isLt
  have k_le : mid.off.toNat - start.off.toNat ≤ mem.length := by omega
  have new_addr : ∀ bytes base, (RegionIter.new bytes base).addr = .ok base := by
    intro bytes base
    obtain ⟨seg, off⟩ := base
    simp [RegionIter.new, RegionIter.addr, RegionIter.baseAddr, SegOff.addOffset, Outcome.require,
      Outcome.ok_bind, pure]
  refine ⟨_, _, part_made, tail_made, ?_, new_addr _ _⟩
  refine ⟨fits, regionIter_fits part_made, regionIter_fits tail_made, k_le, ?_, rfl, ?_, rfl⟩
  · rw [new_addr, new_addr]
  · obtain ⟨addr, addr_eq, addr_seg, addr_off⟩ :=
      RegionIter.addr_eq (cursor.valid_advance _ _ fits k_le)
    refine addr_eq.trans ((congrArg Outcome.ok ?_).trans (new_addr _ _).symm)
    refine SegOff.ext_toNat (addr_seg.trans seg.symm) ?_
    change addr.off.toNat = start.off.toNat + (0 + (mid.off.toNat - start.off.toNat)) at addr_off
    omega

end Dis86.Asm
