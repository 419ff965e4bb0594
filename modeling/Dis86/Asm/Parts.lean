import Dis86.Asm.Exact

namespace Dis86.Asm
open Lib (Outcome Run Cursor)
open RegionIter (peekChecked advance fetch cursor fetch_total)

theorem lookup_ok {opcode1 : BitVec 8} {opcode2 : Option (BitVec 8)} {fmt : InstrFmt}
    (found : lookup opcode1 opcode2 = .ok fmt) :
    fmt ∈ instrTbl ∧ fmt.op1 = opcode1.toNat ∧ (opcode2.isSome → fmt.op2 ≠ -1) := by
  simp only [lookup] at found
  split at found
  · rename_i row row_found
    obtain rfl := Except.ok.inj found
    have matched := List.find?_some row_found
    simp only [decide_eq_true_eq] at matched
    refine ⟨List.mem_of_find?_eq_some row_found, matched.1, fun given => ?_⟩
    obtain ⟨b, rfl⟩ := Option.isSome_iff_exists.mp given
    rw [matched.2, Option.map_some, Option.getD_some]
    omega
  · split at found
    · split at found <;> cases found
    · cases found

theorem lookup_needOpcode2 {opcode1 : BitVec 8} {opcode2 : Option (BitVec 8)}
    (missing : lookup opcode1 opcode2 = .error .needOpcode2) : (opcode1.toNat : Int) ≠ 0x0f := by
  simp only [lookup] at missing
  split at missing
  · cases missing
  · split at missing
    · split at missing
      · assumption
      · cases missing
    · cases missing

theorem op2_requiresModrm : ∀ fmt ∈ instrTbl, fmt.op2 ≠ -1 → fmt.op1 ≠ 0x0f →
    fmt.requiresModrm = true := by
  decide +kernel

theorem sreg_op1 : ∀ fmt ∈ instrTbl, Oper.SREG ∈ fmt.opers →
    fmt.op1 = 0x8c ∨ fmt.op1 = 0x8e := by
  decide +kernel

/-- The bytes that the loop over the prefixes accepts. -/
def isPrefix (b : BitVec 8) : Bool := ((⟨none, none, false⟩ : Prefixes).take? b).isSome

namespace Prefixes

theorem isSome_take? (p : Prefixes) (b : BitVec 8) : (p.take? b).isSome = isPrefix b := by
  unfold isPrefix Prefixes.take?
  split <;> rfl

theorem take?_lock {p p' : Prefixes} {b : BitVec 8} (taken : p.take? b = some p') :
    p'.lock = (p.lock || b = 0xf0) := by
  have value : b = 0xf0 ↔ b.toNat = 0xf0 := BitVec.toNat_inj.symm
  unfold Prefixes.take? at taken
  split at taken <;> first
    | (obtain rfl := Option.some.inj taken
       simp_all)
    | cases taken

/-- What the prefixes say when the bytes have been taken in their order. -/
def takeAll (p : Prefixes) (bytes : Bytes) : Prefixes :=
  bytes.foldl (fun p b => (p.take? b).getD p) p

@[simp] theorem takeAll_nil (p : Prefixes) : p.takeAll [] = p := rfl

theorem takeAll_cons {p p' : Prefixes} {b : BitVec 8} (taken : p.take? b = some p')
    (bytes : Bytes) : p.takeAll (b :: bytes) = p'.takeAll bytes := by
  rw [takeAll, List.foldl_cons, taken]
  rfl

theorem takeAll_lock (p : Prefixes) {bytes : Bytes} (all : ∀ b ∈ bytes, isPrefix b = true) :
    (p.takeAll bytes).lock = (p.lock || bytes.contains 0xf0) := by
  induction bytes generalizing p with
  | nil => simp
  | cons b bytes hypothesis =>
      have accepted := all b List.mem_cons_self
      rw [← p.isSome_take?, Option.isSome_iff_exists] at accepted
      obtain ⟨p', taken⟩ := accepted
      rw [takeAll_cons taken, hypothesis p' fun b' member => all b' (List.mem_cons_of_mem b member),
        take?_lock taken, List.contains_cons, Bool.or_assoc]
      congr 2
      exact decide_eq_decide.mpr eq_comm

end Prefixes

/-- The loop stops at the first byte that is not a prefix, or fails at the end of the region. -/
theorem prefixLoop_eq {fuel : Nat} (p : Prefixes) {bin : RegionIter} (fits : bin.Fits)
    (enough : bin.rest.length < fuel) :
    prefixLoop fuel p bin =
      (if bin.rest.dropWhile isPrefix = [] then .err .beyondRegion
        else .ok (p.takeAll (bin.rest.takeWhile isPrefix)),
        bin.advanceBy (bin.rest.takeWhile isPrefix).length) := by
  induction fuel generalizing p bin with
  | zero => omega
  | succ fuel hypothesis =>
      cases rest : bin.rest with
      | nil =>
          show Run.bind peekChecked _ bin = _
          rw [Run.bind, RegionIter.peekChecked_nil fits rest]
          rfl
      | cons b tail =>
          rw [prefixLoop, Run.bind_ok (RegionIter.peekChecked_cons fits rest)]
          have accepted := p.isSome_take? b
          cases taken : p.take? b with
          | none =>
              rw [taken] at accepted
              simp only [Option.isSome_none] at accepted
              simp only [List.dropWhile_cons, List.takeWhile_cons, ← accepted]
              rfl
          | some p' =>
              rw [taken] at accepted
              simp only [Option.isSome_some] at accepted
              have length : bin.rest.length = tail.length + 1 := by rw [rest, List.length_cons]
              have moved : (bin.advanceBy 1).rest = tail := RegionIter.rest_advance_one rest
              have fits' : (bin.advanceBy 1).Fits := cursor.valid_advance bin 1 fits (by
                show 1 ≤ bin.rest.length
                omega)
              have next := hypothesis p' fits' (by
                rw [moved]
                omega)
              simp only [Run.bind_ok (x := advance) (s := bin) rfl, next, moved,
                List.dropWhile_cons, List.takeWhile_cons, ← accepted, if_true,
                Prefixes.takeAll_cons taken, List.length_cons]
              refine congrArg (Prod.mk _) ?_
              exact (cursor.advance_add bin 1 _).trans (congrArg _ (Nat.add_comm 1 _))

theorem takeWhile_of_prefix {A : Type} {test : A → Bool} {l l' : List A} {b : A} {tail : List A}
    (found : l.dropWhile test = b :: tail)
    (starts : l.take ((l.takeWhile test).length + 1) <+: l') :
    l'.takeWhile test = l.takeWhile test ∧ ∃ more, l'.dropWhile test = b :: more := by
  have parts : l.takeWhile test ++ b :: tail = l := by rw [← found, List.takeWhile_append_dropWhile]
  have stops : test b = false := by
    have head := List.head?_dropWhile_not test l
    rwa [found] at head
  have taken : l.take ((l.takeWhile test).length + 1) = l.takeWhile test ++ [b] := by
    generalize l.takeWhile test = taken at parts ⊢
    subst parts
    exact List.take_length_add_append 1
  obtain ⟨more, rfl⟩ := starts
  have all : ∀ a ∈ l.takeWhile test, test a = true := List.all_eq_true.mp List.all_takeWhile
  rw [taken, List.append_assoc]
  refine ⟨?_, more, ?_⟩
  · rw [List.takeWhile_append_of_pos all]
    simp [stops]
  · rw [List.dropWhile_append_of_pos all]
    simp [stops]

theorem decodePrefixes_eq {bin : RegionIter} (fits : bin.Fits) :
    decodePrefixes bin =
      (if bin.rest.dropWhile isPrefix = [] then .err .beyondRegion
        else .ok ((⟨none, none, false⟩ : Prefixes).takeAll (bin.rest.takeWhile isPrefix)),
        bin.advanceBy (bin.rest.takeWhile isPrefix).length) :=
  prefixLoop_eq _ fits (by rw [RegionIter.length_rest]; omega)

/-- The loop looks at one byte more than the prefixes that it moves over. -/
theorem decodePrefixes_reads {bin : RegionIter} {b : BitVec 8} {tail : Bytes}
    (found : bin.rest.dropWhile isPrefix = b :: tail) :
    cursor.Reads decodePrefixes bin
      ((⟨none, none, false⟩ : Prefixes).takeAll (bin.rest.takeWhile isPrefix))
      (bin.rest.takeWhile isPrefix).length ((bin.rest.takeWhile isPrefix).length + 1) where
  used_le := Nat.le_succ _
  inside := by
    have parts := congrArg List.length (bin.rest.takeWhile_append_dropWhile (p := isPrefix))
    rw [found, List.length_append, List.length_cons] at parts
    show _ ≤ bin.rest.length
    omega
  same t fits starts := by
    obtain ⟨same, more, found'⟩ := takeWhile_of_prefix found starts
    rw [decodePrefixes_eq fits]
    show (if t.rest.dropWhile isPrefix = [] then _ else _, _) = _
    rw [if_neg (by rw [show t.rest.dropWhile isPrefix = b :: more from found']; simp)]
    show (Outcome.ok (Prefixes.takeAll _ (t.rest.takeWhile isPrefix)),
      t.advanceBy (t.rest.takeWhile isPrefix).length) = _
    rw [show t.rest.takeWhile isPrefix = _ from same]
    rfl

theorem peekChecked_peeks : cursor.Peeks peekChecked DecodeError.beyondRegion where
  cons _ _ _ fits rest := RegionIter.peekChecked_cons fits rest
  nil _ fits rest := RegionIter.peekChecked_nil fits rest

theorem checkFmt_total (fmt : InstrFmt) (lock : Bool) (startAddr : SegOff) :
    cursor.Total (checkFmt fmt lock startAddr) :=
  (Cursor.Total.check _ _).bind fun _ => .check _ _

theorem fetchModrm_total (fmt : InstrFmt) : cursor.Total (fetchModrm fmt) := by
  unfold fetchModrm
  split
  · exact fetch_total
  · exact .pure _

theorem decodeFmt_exact (startAddr : SegOff) (p : Prefixes) (fmt : InstrFmt) :
    cursor.Exact (decodeFmt startAddr p fmt) :=
  (checkFmt_total _ _ _).toExact.bind fun _ =>
    (fetchModrm_total fmt).toExact.bind fun _ =>
      (decodeOperands_exact _ _ _ _).bind fun _ => .pure _

theorem decodeFmt_total (startAddr : SegOff) (p : Prefixes) {fmt : InstrFmt}
    (other : Oper.SREG ∉ fmt.opers) : cursor.Total (decodeFmt startAddr p fmt) :=
  (checkFmt_total _ _ _).bind fun _ =>
    (fetchModrm_total fmt).bind fun _ =>
      (decodeOperands_total _ _ (le_refl 3) other).bind fun _ => .pure _

/-- A row with a ModRM byte needs that byte. -/
theorem decodeFmt_needsMore (startAddr : SegOff) (p : Prefixes) {fmt : InstrFmt}
    (modrm : fmt.requiresModrm = true) : cursor.NeedsMore (decodeFmt startAddr p fmt) := by
  intro s parts s' fits ended ran
  obtain ⟨_, middle, checked, ran⟩ := Run.bind_eq_ok.mp ran
  obtain ⟨_, _, fetched, _⟩ := Run.bind_eq_ok.mp ran
  obtain ⟨used, reads⟩ := (checkFmt_total fmt p.lock startAddr).reads s _ middle fits checked
  have same := reads.run_eq fits
  rw [checked, Prod.mk.injEq] at same
  have valid : middle.Fits := same.2 ▸ reads.valid fits
  have rest : middle.rest = [] := by
    have moved : cursor.rest (cursor.advance s used) = [] := by
      rw [cursor.rest_advance, ended, List.drop_nil]
    exact same.2 ▸ moved
  rw [fetchModrm, if_pos modrm, RegionIter.fetch_nil valid rest] at fetched
  cases fetched

end Dis86.Asm
