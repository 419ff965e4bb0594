import Dis86.IR.Flow
import Dis86.Lib.Lists
import Dis86.Opt.FuseLoads
import Mathlib.Data.List.TakeWhile

namespace Dis86.Opt
open IR Lib

variable {ir cur next : IR} {b : BlockRef} {make32Ref highRef lowRef seg highOff lowOff r : Ref}
  {highK lowK : BitVec 16}

section Scanning

/-- The scan reaches the Make32, stops at an operation on memory, or runs out of instructions. -/
theorem scan_cases (make32Ref highRef lowRef : Ref) {l : List Ref} (present : ∀ s ∈ l, ∃ instr, ir.instr? s = some instr) :
    (scan ir make32Ref highRef lowRef l = some true ∧ ∃ between back, l = between ++ make32Ref :: back ∧
        ∀ s ∈ between, s ≠ highRef → s ≠ lowRef → ∀ instr, ir.instr? s = some instr →
          instr.opcode.isMemOp = false) ∨
      (scan ir make32Ref highRef lowRef l = some false ∧ ∃ between s back, l = between ++ s :: back ∧
        make32Ref ∉ between ∧ s ≠ make32Ref ∧ s ≠ highRef ∧ s ≠ lowRef ∧
        ∃ instr, ir.instr? s = some instr ∧ instr.opcode.isMemOp = true) ∨
      scan ir make32Ref highRef lowRef l = none ∧ make32Ref ∉ l ∧
        ∀ s ∈ l, s ≠ highRef → s ≠ lowRef → ∀ instr, ir.instr? s = some instr →
          instr.opcode.isMemOp = false := by
  induction l with
  | nil => exact .inr (.inr ⟨rfl, List.not_mem_nil, fun s inside => absurd inside List.not_mem_nil⟩)
  | cons c l hypothesis =>
      obtain ⟨instr, here⟩ := present c List.mem_cons_self
      have rest := hypothesis fun s inside => present s (List.mem_cons_of_mem c inside)
      by_cases reached : c = make32Ref
      · left
        subst reached
        exact ⟨by rw [scan, if_pos rfl], [], l, rfl, fun s inside => absurd inside List.not_mem_nil⟩
      · by_cases harmless : (c = highRef ∨ c = lowRef) ∨ instr.opcode.isMemOp = false
        · have goes : scan ir make32Ref highRef lowRef (c :: l) = scan ir make32Ref highRef lowRef l := by
            rw [scan, if_neg reached]
            rcases harmless with isLoad | quiet
            · rw [if_pos isLoad]
            · simp only [here, quiet, Bool.false_eq_true, if_false, ite_self]
          have quiet : c ≠ highRef → c ≠ lowRef → ∀ i, ir.instr? c = some i →
              i.opcode.isMemOp = false := by
            intro notHigh notLow i isHere
            obtain rfl := Option.some.inj (here.symm.trans isHere)
            rcases harmless with (isHigh | isLow) | quiet
            · exact absurd isHigh notHigh
            · exact absurd isLow notLow
            · exact quiet
          rw [goes]
          rcases rest with ⟨ends, between, back, rfl, all⟩ | ⟨ends, between, s, back, rfl, fresh, others⟩ |
            ⟨ends, fresh, all⟩
          · refine .inl ⟨ends, c :: between, back, rfl, fun s inside => ?_⟩
            rcases List.mem_cons.mp inside with rfl | inside
            · exact quiet
            · exact all s inside
          · refine .inr (.inl ⟨ends, c :: between, s, back, rfl, ?_, others⟩)
            exact fun inside => (List.mem_cons.mp inside).elim (fun same => reached same.symm) fresh
          · refine .inr (.inr ⟨ends, ?_, fun s inside => ?_⟩)
            · exact fun inside => (List.mem_cons.mp inside).elim (fun same => reached same.symm) fresh
            · rcases List.mem_cons.mp inside with rfl | inside
              · exact quiet
              · exact all s inside
        · obtain ⟨notLoad, memory⟩ := not_or.mp harmless
          obtain ⟨notHigh, notLow⟩ := not_or.mp notLoad
          have isMemory : instr.opcode.isMemOp = true := by simpa using memory
          right
          left
          refine ⟨?_, [], c, l, rfl, List.not_mem_nil, reached, notHigh, notLow, instr, here, isMemory⟩
          rw [scan, if_neg reached, if_neg notLoad]
          simp only [here, isMemory, if_true]

/-- Erased instructions do not matter to the scan. -/
theorem scan_filter {make32 : Instr} (isMake32 : ir.instr? make32Ref = some make32)
    (effective : make32.opcode ≠ .nop) {l : List Ref} (present : ∀ s ∈ l, ∃ instr, ir.instr? s = some instr) :
    scan ir make32Ref highRef lowRef
        (l.filter fun s => (ir.instr? s).any fun instr => instr.opcode ≠ .nop) =
      scan ir make32Ref highRef lowRef l := by
  induction l with
  | nil => rfl
  | cons c l hypothesis =>
      obtain ⟨instr, here⟩ := present c List.mem_cons_self
      have rest := hypothesis fun s inside => present s (List.mem_cons_of_mem c inside)
      rw [List.filter_cons, here, Option.any_some]
      by_cases erased : instr.opcode = .nop
      · have other : c ≠ make32Ref := by
          rintro rfl
          obtain rfl := Option.some.inj (here.symm.trans isMake32)
          exact effective erased
        have harmless : instr.opcode.isMemOp = false := by rw [erased]; rfl
        rw [if_neg (by simpa using erased), rest, scan, if_neg other]
        simp only [here, harmless, Bool.false_eq_true, if_false, ite_self]
      · rw [if_pos (by simpa using erased), scan, rest, scan]

theorem instrsAfter_eq {front after : List Ref} {x : Ref} (order : ir.iterInstrs b = front ++ x :: after) :
    instrsAfter ir b x =
      after.filter fun s => (ir.instr? s).any fun instr => instr.opcode ≠ .nop := by
  have distinct := iterInstrs_nodup ir b
  rw [order] at distinct
  have fresh : x ∉ front := by
    intro inside
    exact (List.nodup_append.mp distinct).2.2 x inside x List.mem_cons_self rfl
  have skipped : (front ++ x :: after).dropWhile (fun s => decide (s ≠ x)) = x :: after := by
    rw [List.dropWhile_append_of_pos, List.dropWhile_cons_of_neg]
    · simp
    · intro s inside
      apply decide_eq_true
      rintro rfl
      exact fresh inside
  rw [instrsAfter, order, skipped]
  rfl

theorem instrsAfter_unlisted {x : Ref} (unlisted : x ∉ ir.iterInstrs b) : instrsAfter ir b x = [] := by
  have skipped : (ir.iterInstrs b).dropWhile (fun s => decide (s ≠ x)) = [] := by
    apply List.dropWhile_eq_nil_iff.mpr
    intro s inside
    apply decide_eq_true
    rintro rfl
    exact unlisted inside
  rw [instrsAfter, skipped]
  rfl

end Scanning

section Offsets

/-- A sum of a base and a constant. -/
structure IsSum (ir : IR) (r base : Ref) (k : BitVec 16) : Prop where
  sum : ∃ instr c rest, ir.instr? r = some instr ∧ instr.opcode = .add ∧
    instr.operands = base :: c :: rest ∧ ir.constLookup c = some k

theorem IsSum.holds {base : Ref} {k : BitVec 16} (isSum : IsSum ir r base k) {value : Ref → Nat}
    (holds : SumHolds ir value r) :
    BitVec.ofNat 16 (value r) = BitVec.ofNat 16 (value base + k.toNat) := by
  obtain ⟨instr, c, rest, present, isAdd, operands, known⟩ := isSum.sum
  exact holds instr base c rest k present isAdd operands known

/-- Two offsets that pass stand over one base. -/
theorem wordOffsets?_eq_some (found : wordOffsets? ir highOff lowOff = some (some (highK, lowK))) :
    (IsSum ir highOff lowOff highK ∧ lowK = 0) ∨
      ∃ base, IsSum ir highOff base highK ∧ IsSum ir lowOff base lowK := by
  unfold wordOffsets? at found
  split at found
  · obtain ⟨high, isHigh, found⟩ := Option.bind_eq_some_iff.mp found
    obtain ⟨low, isLow, found⟩ := Option.bind_eq_some_iff.mp found
    split at found
    · cases found
    rename_i highAdd
    obtain ⟨base, isBase, found⟩ := Option.bind_eq_some_iff.mp found
    obtain ⟨c, isC, found⟩ := Option.bind_eq_some_iff.mp found
    obtain ⟨rest, operands⟩ := eq_cons_cons isBase isC
    rw [operands] at found
    split at found
    · rename_i direct
      obtain ⟨_, same, found⟩ := Option.bind_eq_some_iff.mp found
      cases same
      obtain ⟨k, known, found⟩ := Option.bind_eq_some_iff.mp found
      cases found
      obtain rfl := of_decide_eq_true (Bool.and_eq_true_iff.mp direct).1
      exact .inl ⟨⟨high, c, rest, isHigh, not_not.mp highAdd, operands, known⟩, rfl⟩
    · split at found
      · cases found
      rename_i lowAdd
      obtain ⟨lowBase, isLowBase, found⟩ := Option.bind_eq_some_iff.mp found
      split at found
      · cases found
      rename_i sameBase
      obtain ⟨_, same, found⟩ := Option.bind_eq_some_iff.mp found
      cases same
      split at found
      · cases found
      obtain ⟨d, isD, found⟩ := Option.bind_eq_some_iff.mp found
      obtain ⟨lowRest, lowOperands⟩ := eq_cons_cons isLowBase isD
      rw [lowOperands] at found
      split at found
      · cases found
      obtain ⟨_, same, found⟩ := Option.bind_eq_some_iff.mp found
      cases same
      obtain ⟨k, known, found⟩ := Option.bind_eq_some_iff.mp found
      obtain ⟨_, same, found⟩ := Option.bind_eq_some_iff.mp found
      cases same
      obtain ⟨l, lowKnown, found⟩ := Option.bind_eq_some_iff.mp found
      cases found
      obtain rfl := not_not.mp sameBase
      exact .inr ⟨base, ⟨high, c, rest, isHigh, not_not.mp highAdd, operands, known⟩,
        ⟨low, d, lowRest, isLow, not_not.mp lowAdd, lowOperands, lowKnown⟩⟩
  · cases found

theorem exists_bind {α β : Type} {o : Option α} {x : α} {f : α → Option β} (isSome : o = some x)
    (rest : ∃ y, f x = some y) : ∃ y, (o >>= f) = some y := by
  rw [isSome]
  exact rest

/-- The test of the offsets never fails. -/
theorem wordOffsets?_isSome (filled : WordsFilled ir)
    (high : ∀ b i, highOff = .instr b i → ∃ instr, ir.instr? highOff = some instr)
    (low : ∀ b i, lowOff = .instr b i → ∃ instr, ir.instr? lowOff = some instr) :
    ∃ found, wordOffsets? ir highOff lowOff = some found := by
  unfold wordOffsets?
  split
  · obtain ⟨highInstr, isHigh⟩ := high _ _ rfl
    obtain ⟨lowInstr, isLow⟩ := low _ _ rfl
    apply exists_bind isHigh
    apply exists_bind isLow
    by_cases highAdd : highInstr.opcode ≠ .add
    · exact ⟨none, if_pos highAdd⟩
    rw [if_neg highAdd]
    have highKind : highInstr.opcode = .add := not_not.mp highAdd
    obtain ⟨base, c, rest, operands⟩ := exists_pair (filled.pairs _ _ isHigh (.inr (.inr highKind)))
    have highKnown : c.isConst = true → ∃ k, ir.constLookup c = some k :=
      filled.consts _ _ isHigh highKind c (by rw [operands]; simp)
    rw [operands]
    apply exists_bind (x := base) rfl
    apply exists_bind (x := c) rfl
    split
    · rename_i direct
      obtain ⟨k, known⟩ := highKnown (Bool.and_eq_true_iff.mp direct).2
      exact exists_bind (x := c) rfl (exists_bind known ⟨_, rfl⟩)
    by_cases lowAdd : lowInstr.opcode ≠ .add
    · exact ⟨none, if_pos lowAdd⟩
    rw [if_neg lowAdd]
    have lowKind : lowInstr.opcode = .add := not_not.mp lowAdd
    obtain ⟨lowBase, d, lowRest, lowOperands⟩ := exists_pair (filled.pairs _ _ isLow (.inr (.inr lowKind)))
    have lowKnown : d.isConst = true → ∃ k, ir.constLookup d = some k :=
      filled.consts _ _ isLow lowKind d (by rw [lowOperands]; simp)
    rw [lowOperands]
    apply exists_bind (x := lowBase) rfl
    split
    · exact ⟨none, rfl⟩
    apply exists_bind (x := c) rfl
    split
    · exact ⟨none, rfl⟩
    apply exists_bind (x := d) rfl
    split
    · exact ⟨none, rfl⟩
    rename_i highConst lowConst
    obtain ⟨k, known⟩ := highKnown (by simpa using highConst)
    obtain ⟨l, alsoKnown⟩ := lowKnown (by simpa using lowConst)
    apply exists_bind (x := c) rfl
    apply exists_bind known
    apply exists_bind (x := d) rfl
    exact exists_bind alsoKnown ⟨_, rfl⟩
  · exact ⟨none, rfl⟩

/-- The offsets of adjacent words. -/
theorem adjacent_of_offsets (found : wordOffsets? ir highOff lowOff = some (some (highK, lowK)))
    (next : highK = lowK + 2) {value : Ref → Nat} (high : SumHolds ir value highOff)
    (low : SumHolds ir value lowOff) :
    BitVec.ofNat 16 (value highOff) = BitVec.ofNat 16 (value lowOff + 2) := by
  rcases wordOffsets?_eq_some found with ⟨isSum, rfl⟩ | ⟨base, isHigh, isLow⟩
  · rw [isSum.holds high, next]
    rfl
  · rw [isHigh.holds high, next, BitVec.ofNat_add, BitVec.ofNat_add, isLow.holds low, BitVec.ofNat_add]
    simp only [BitVec.ofNat_toNat, BitVec.setWidth_eq]
    rw [BitVec.add_assoc]
    rfl

theorem JoinsLoads.unique {make32Ref highRef' lowRef' seg' highOff' lowOff' : Ref}
    {highK' lowK' : BitVec 16}
    (joins : JoinsLoads ir make32Ref highRef lowRef seg highOff lowOff highK lowK)
    (joins' : JoinsLoads ir make32Ref highRef' lowRef' seg' highOff' lowOff' highK' lowK') :
    highRef' = highRef ∧ lowRef' = lowRef ∧ seg' = seg ∧ highOff' = highOff ∧ lowOff' = lowOff ∧
      highK' = highK ∧ lowK' = lowK := by
  obtain ⟨_, _, present, _, operands⟩ := joins.make32
  obtain ⟨_, _, present', _, operands'⟩ := joins'.make32
  obtain rfl := Option.some.inj (present.symm.trans present')
  obtain ⟨rfl, sameRest⟩ := List.cons.inj (operands.symm.trans operands')
  obtain ⟨rfl, _⟩ := List.cons.inj sameRest
  obtain ⟨_, _, isHigh, _, highOperands⟩ := joins.high
  obtain ⟨_, _, isHigh', _, highOperands'⟩ := joins'.high
  obtain rfl := Option.some.inj (isHigh.symm.trans isHigh')
  obtain ⟨rfl, sameRest⟩ := List.cons.inj (highOperands.symm.trans highOperands')
  obtain ⟨rfl, _⟩ := List.cons.inj sameRest
  obtain ⟨_, _, isLow, _, lowOperands⟩ := joins.low
  obtain ⟨_, _, isLow', _, lowOperands'⟩ := joins'.low
  obtain rfl := Option.some.inj (isLow.symm.trans isLow')
  obtain ⟨_, sameRest⟩ := List.cons.inj (lowOperands.symm.trans lowOperands')
  obtain ⟨rfl, _⟩ := List.cons.inj sameRest
  have offsets := joins.offsets.symm.trans joins'.offsets
  simp only [Option.some.injEq, Prod.mk.injEq] at offsets
  obtain ⟨rfl, rfl⟩ := offsets
  exact ⟨rfl, rfl, rfl, rfl, rfl, rfl, rfl⟩

/-- The test of two loads that are joined adds to the low constant. -/
theorem JoinsLoads.isFusable (joins : JoinsLoads ir make32Ref highRef lowRef seg highOff lowOff highK lowK) :
    isFusableLoad16ToLoad32 ir highRef lowRef =
      (fitsI16 (lowK.toInt + 2)).map fun sum => decide (highK.toInt = sum) := by
  obtain ⟨highInstr, _, isHigh, highKind, highOperands⟩ := joins.high
  obtain ⟨lowInstr, _, isLow, lowKind, lowOperands⟩ := joins.low
  unfold isFusableLoad16ToLoad32
  simp only [isHigh, isLow, highKind, lowKind, highOperands, lowOperands, joins.offsets, ne_eq,
    not_true_eq_false, if_false, List.getElem?_cons_zero, List.getElem?_cons_succ, Option.bind_eq_bind,
    Option.bind_some, Option.pure_def]
  rw [Option.map_eq_bind]
  rfl

/-- The test passes or fails at once where the loads are not joined. -/
theorem isFusable_cases (filled : WordsFilled ir) {instr : Instr} {rest : List Ref}
    (present : ir.instr? make32Ref = some instr) (kind : instr.opcode = .make32)
    (operands : instr.operands = highRef :: lowRef :: rest) :
    (∃ seg highOff lowOff highK lowK,
      JoinsLoads ir make32Ref highRef lowRef seg highOff lowOff highK lowK) ∨
      isFusableLoad16ToLoad32 ir highRef lowRef = some false := by
  unfold isFusableLoad16ToLoad32
  cases isHigh : ir.instr? highRef with
  | none => exact .inr rfl
  | some highInstr =>
      cases isLow : ir.instr? lowRef with
      | none => exact .inr rfl
      | some lowInstr =>
          by_cases highOther : highInstr.opcode ≠ .load16
          · exact .inr (if_pos highOther)
          by_cases lowOther : lowInstr.opcode ≠ .load16
          · exact .inr ((if_neg highOther).trans (if_pos lowOther))
          have highKind := not_not.mp highOther
          have lowKind := not_not.mp lowOther
          obtain ⟨seg, highOff, highRest, highOperands⟩ :=
            exists_pair (filled.pairs _ _ isHigh (.inr (.inl highKind)))
          obtain ⟨lowSeg, lowOff, lowRest, lowOperands⟩ :=
            exists_pair (filled.pairs _ _ isLow (.inr (.inl lowKind)))
          simp only [highKind, lowKind, highOperands, lowOperands, ne_eq, not_true_eq_false, if_false,
            List.getElem?_cons_zero, List.getElem?_cons_succ, Option.bind_eq_bind, Option.bind_some,
            Option.pure_def]
          by_cases same : seg = lowSeg
          · subst same
            have highPresent : ∀ b i, highOff = .instr b i → ∃ source, ir.instr? highOff = some source := by
              rintro b i rfl
              exact filled.present highRef highInstr isHigh highKind b i (by rw [highOperands]; rfl)
            have lowPresent : ∀ b i, lowOff = .instr b i → ∃ source, ir.instr? lowOff = some source := by
              rintro b i rfl
              exact filled.present lowRef lowInstr isLow lowKind b i (by rw [lowOperands]; rfl)
            obtain ⟨found, offsets⟩ := wordOffsets?_isSome filled highPresent lowPresent
            rw [offsets]
            match found with
            | none => exact .inr (if_neg (by simp))
            | some (highK, lowK) =>
                exact .inl ⟨seg, highOff, lowOff, highK, lowK, ⟨instr, rest, present, kind, operands⟩,
                  ⟨highInstr, highRest, isHigh, highKind, highOperands⟩,
                  ⟨lowInstr, lowRest, isLow, lowKind, lowOperands⟩, offsets⟩
          · exact .inr (if_pos same)

theorem toInt_add_two_fits : (fitsI16 (lowK.toInt + 2)).isSome ↔ lowK.toInt ≤ 32765 := by
  have bounds := lowK.toInt_lt
  have least := lowK.le_toInt
  unfold fitsI16
  split <;> simp <;> omega

/-- A sum that fits is the sum of sixteen bits. -/
theorem toInt_add_two (fits : lowK.toInt ≤ 32765) :
    (fitsI16 (lowK.toInt + 2)).map (fun sum => decide (highK.toInt = sum)) =
      some (decide (highK = lowK + 2)) := by
  have least := lowK.le_toInt
  have sum : (lowK + 2).toInt = lowK.toInt + 2 := by
    rw [BitVec.toInt_add]
    apply Int.bmod_eq_of_le <;> simp <;> omega
  rw [fitsI16_eq_some.mpr ⟨by omega, by omega, rfl⟩, Option.map_some, ← sum]
  simp only [BitVec.toInt_inj]

end Offsets

section Reading

/-- Where nothing between two positions may write memory, it is the same. -/
theorem Quiet.memory (quiet : Quiet ir b r make32Ref) {instr : Instr} (present : ir.instr? r = some instr)
    (reads : instr.opcode.writesMemory = false) (run : BlockRun ir b) {p m : Nat}
    (first : (ir.iterInstrs b)[p]? = some r) (last : (ir.iterInstrs b)[m]? = some make32Ref) :
    run.memory m = run.memory p := by
  obtain ⟨between, ⟨front, back, order⟩, none⟩ := quiet
  have distinct := iterInstrs_nodup ir b
  have positions : p = front.length ∧ m = front.length + 1 + between.length := by
    have isFirst : (ir.iterInstrs b)[front.length]? = some r := by rw [order]; simp
    have isLast : (ir.iterInstrs b)[front.length + 1 + between.length]? = some make32Ref := by
      rw [order, List.getElem?_append_right (by omega),
        show front.length + 1 + between.length - front.length = between.length + 1 by omega,
        List.getElem?_cons_succ, List.getElem?_append_right (Nat.le_refl _), Nat.sub_self,
        List.getElem?_cons_zero]
    exact ⟨(List.getElem?_inj (List.getElem?_eq_some_iff.mp first).1 distinct).mp (first.trans isFirst.symm),
      (List.getElem?_inj (List.getElem?_eq_some_iff.mp last).1 distinct).mp (last.trans isLast.symm)⟩
  obtain ⟨rfl, rfl⟩ := positions
  have stays : ∀ n ≤ between.length, run.memory (front.length + 1 + n) = run.memory (front.length) := by
    intro n
    induction n with
    | zero =>
        intro _
        exact (run.step _ r instr first present).quiet reads
    | succ n hypothesis =>
        intro inside
        have listed : (ir.iterInstrs b)[front.length + 1 + n]? = some between[n] := by
          rw [order, List.getElem?_append_right (by omega),
            show front.length + 1 + n - front.length = n + 1 by omega, List.getElem?_cons_succ,
            List.getElem?_append_left (by omega), List.getElem?_eq_getElem]
        obtain ⟨i, isHere⟩ := Option.isSome_iff_exists.mp
          (mem_iterInstrs_instr? (List.mem_of_getElem? listed))
        rw [← Nat.add_assoc, (run.step _ _ i listed isHere).quiet (none _ (List.getElem_mem _) i isHere)]
        exact hypothesis (by omega)
  exact stays between.length (Nat.le_refl _)

theorem windowAt_congr {segment off off' : Nat} (same : BitVec.ofNat 16 off = BitVec.ofNat 16 off') (j : Nat) :
    windowAt segment off j = windowAt segment off' j := by
  rw [windowAt, windowAt, BitVec.ofNat_add, BitVec.ofNat_add, same]

theorem readsSame_of_quiet (joins : JoinsLoads ir make32Ref highRef lowRef seg highOff lowOff highK lowK)
    (next : highK = lowK + 2) (high : Quiet ir b highRef make32Ref) (low : Quiet ir b lowRef make32Ref) :
    ReadsSame ir b make32Ref highRef lowRef seg highOff lowOff where
  high := high
  low := low
  adjacent value highHolds lowHolds := adjacent_of_offsets joins.offsets next highHolds lowHolds
  same run p q m isHigh isLow isMake32 highHolds lowHolds := by
    obtain ⟨highInstr, _, highPresent, highKind, _⟩ := joins.high
    obtain ⟨lowInstr, _, lowPresent, lowKind, _⟩ := joins.low
    have adjacent := adjacent_of_offsets joins.offsets next highHolds lowHolds
    have windows : (fun j => windowAt (run.value seg) (run.value lowOff) (2 + j)) =
        windowAt (run.value seg) (run.value highOff) := by
      funext j
      rw [← windowAt_add, windowAt_congr adjacent]
    rw [← high.memory highPresent (by rw [highKind]; rfl) run isHigh isMake32,
      ← low.memory lowPresent (by rw [lowKind]; rfl) run isLow isMake32,
      show (4 : Nat) = 2 + 2 from rfl, ByteMemory.read_add, windows]
    rfl

end Reading

section Ordering

variable {front between back : List Ref} {x y first other : Ref}

theorem nodup_after (order : ir.iterInstrs b = front ++ x :: back) : back.Nodup := by
  have distinct := iterInstrs_nodup ir b
  rw [order] at distinct
  exact (List.nodup_cons.mp (List.nodup_append.mp distinct).2.1).2

/-- There is one list of instructions between two of a block. -/
theorem Spans.unique {between' : List Ref} (spans : Spans ir b x y between) (spans' : Spans ir b x y between') :
    between' = between := by
  obtain ⟨front, back, order⟩ := spans
  obtain ⟨front', back', order'⟩ := spans'
  obtain ⟨_, same⟩ := split_unique (iterInstrs_nodup ir b) order' order
  exact (split_unique (nodup_after order') rfl same).1

theorem Quiet.of_split (quiet : Quiet ir b x y) (spans : Spans ir b x y between) :
    NoneIs ir Opcode.writesMemory between := by
  obtain ⟨between', spans', none⟩ := quiet
  rw [← spans.unique spans']
  exact none

theorem writesMemory_eq_hiddenWrite {op : Opcode} (known : op = .load16 ∨ op.isMemOp = false) :
    op.writesMemory = hiddenWrite op := by
  cases op <;> first | rfl | simp_all [Opcode.isMemOp]

/-- Two loads have nothing between them and the Make32 that may write memory if and only if the scan
overlooks nothing. -/
theorem quiet_iff_scanSuffices (spans : Spans ir b first y between)
    (isFirst : ∃ instr, ir.instr? first = some instr ∧ instr.opcode = .load16)
    (isOther : ∃ instr, ir.instr? other = some instr ∧ instr.opcode = .load16)
    (isLast : ∃ instr, ir.instr? y = some instr ∧ instr.opcode = .make32)
    (scanned : ∀ s ∈ between, s ≠ first → s ≠ other → ∀ instr, ir.instr? s = some instr →
      instr.opcode.isMemOp = false) :
    Quiet ir b first y ∧ Quiet ir b other y ↔ ScanSuffices ir b y first other between := by
  have isLoad : ∀ s, s = first ∨ s = other → ∀ instr, ir.instr? s = some instr →
      instr.opcode = .load16 := by
    rintro s (rfl | rfl) instr present
    · obtain ⟨_, here, kind⟩ := isFirst
      obtain rfl := Option.some.inj (here.symm.trans present)
      exact kind
    · obtain ⟨_, here, kind⟩ := isOther
      obtain rfl := Option.some.inj (here.symm.trans present)
      exact kind
  have hidden : NoneIs ir Opcode.writesMemory between ↔ NoneIs ir hiddenWrite between := by
    refine forall₄_congr fun s inside instr present => ?_
    rw [writesMemory_eq_hiddenWrite]
    by_cases load : s = first ∨ s = other
    · exact .inl (isLoad s load instr present)
    · obtain ⟨notFirst, notOther⟩ := not_or.mp load
      exact .inr (scanned s inside notFirst notOther instr present)
  obtain ⟨front, back, order⟩ := id spans
  have distinct := iterInstrs_nodup ir b
  constructor
  · rintro ⟨quiet, between', ⟨front', back', order'⟩, none⟩
    refine ⟨hidden.mp (quiet.of_split spans), ?_⟩
    have inside : other ∈ front ++ first :: (between ++ y :: back) := by
      rw [← order, order']
      simp
    rcases List.mem_append.mp inside with before | inside
    · obtain ⟨start, earlier, rfl⟩ := List.append_of_mem before
      have split : ir.iterInstrs b = start ++ other :: (earlier ++ first :: (between ++ y :: back)) := by
        rw [order, List.append_assoc, List.cons_append]
      refine .inr (.inr ⟨earlier, ⟨start, _, split⟩, fun s among => none s ?_⟩)
      have same : between' = earlier ++ first :: between := by
        apply Spans.unique ⟨start, back, ?_⟩ ⟨front', back', order'⟩
        rw [split, List.append_assoc, List.cons_append]
      rw [same]
      exact List.mem_append_left _ among
    rcases List.mem_cons.mp inside with same | inside
    · exact .inl same
    rcases List.mem_append.mp inside with among | inside
    · exact .inr (.inl among)
    rcases List.mem_cons.mp inside with rfl | after
    · obtain ⟨_, here, kind⟩ := isLast
      have load := isLoad other (.inr rfl) _ here
      rw [kind] at load
      cases load
    · obtain ⟨middle, rest, rfl⟩ := List.append_of_mem after
      have split : ir.iterInstrs b = (front ++ first :: between ++ y :: middle) ++ other :: rest := by
        rw [order]
        simp
      have later : y ∈ rest := by
        rw [(split_unique distinct split order').2]
        simp
      have once := (List.nodup_cons.mp (List.nodup_append.mp (nodup_after order)).2.1).1
      exact absurd (List.mem_append_right middle (List.mem_cons_of_mem other later)) once
  · rintro ⟨none, listed⟩
    have silent := hidden.mpr none
    have quiet : Quiet ir b first y := ⟨between, spans, silent⟩
    refine ⟨quiet, ?_⟩
    rcases listed with rfl | inside | ⟨earlier, ⟨front', back', order'⟩, none'⟩
    · exact quiet
    · obtain ⟨start, rest, rfl⟩ := List.append_of_mem inside
      refine ⟨rest, ⟨front ++ first :: start, back, ?_⟩, fun s among => silent s ?_⟩
      · rw [order]
        simp
      · exact List.mem_append_right start (List.mem_cons_of_mem other among)
    · obtain ⟨rfl, _⟩ := split_unique distinct order ((order'.trans (by simp)) :
        ir.iterInstrs b = (front' ++ other :: earlier) ++ first :: back')
      refine ⟨earlier ++ first :: between, ⟨front', back, ?_⟩, ?_⟩
      · rw [order]
        simp
      · intro s among instr present
        rcases List.mem_append.mp among with before | among
        · exact none' s before instr present
        rcases List.mem_cons.mp among with same | after
        · rw [isLoad s (.inl same) instr present]
          rfl
        · exact silent s after instr present

end Ordering

section Turns

variable {i highI lowI : Nat}

/-- The instruction that a Make32 of two loads turns into. -/
def loadBoth (seg off : Ref) : Instr := ⟨.u32, none, Attribute.MAY_ESCAPE, .load32, [seg, off]⟩

/-- A turn leaves an instruction that is no Make32. -/
theorem fuseMake32_other {instr : Instr} (present : ir.instr? r = some instr)
    (other : instr.opcode ≠ .make32) : fuseMake32 ir r = some ir := by
  unfold fuseMake32
  rw [present, Option.bind_eq_bind, Option.bind_some, if_pos other]
  rfl

/-- A turn leaves a Make32 that does not pass the test, and ends only if the test does. -/
theorem fuseMake32_untested {instr : Instr} {rest : List Ref} (present : ir.instr? r = some instr)
    (kind : instr.opcode = .make32) (operands : instr.operands = highRef :: lowRef :: rest) :
    (isFusableLoad16ToLoad32 ir highRef lowRef = some false → fuseMake32 ir r = some ir) ∧
      (isFusableLoad16ToLoad32 ir highRef lowRef = none → fuseMake32 ir r = none) := by
  unfold fuseMake32
  simp only [present, kind, operands, Option.bind_eq_bind, Option.bind_some, ne_eq, not_true_eq_false,
    if_false, List.getElem?_cons_zero, List.getElem?_cons_succ]
  constructor
  · intro failed
    rw [failed]
    rfl
  · intro panics
    rw [panics]
    rfl

theorem fuseMake32_apart
    (joins : JoinsLoads ir (.instr b i) highRef lowRef seg highOff lowOff highK lowK)
    (tested : isFusableLoad16ToLoad32 ir highRef lowRef = some true) {highB lowB : BlockRef}
    (isHigh : highRef = .instr highB highI) (isLow : lowRef = .instr lowB lowI)
    (apart : b ≠ highB ∨ b ≠ lowB) : fuseMake32 ir (.instr b i) = some ir := by
  obtain ⟨instr, rest, present, kind, operands⟩ := joins.make32
  subst isHigh isLow
  unfold fuseMake32
  simp only [present, kind, operands, tested, Option.bind_eq_bind, Option.bind_some, ne_eq,
    not_true_eq_false, if_false, List.getElem?_cons_zero, List.getElem?_cons_succ, Bool.not_true,
    Bool.false_eq_true]
  by_cases first : b ≠ highB
  · exact if_pos first
  · rw [if_neg first, if_pos (apart.resolve_left first)]
    rfl

/-- A turn at a Make32 that passes the test turns it into a load where the scan reaches it. -/
theorem fuseMake32_scanned
    (joins : JoinsLoads ir (.instr b i) (.instr b highI) (.instr b lowI) seg highOff lowOff highK lowK)
    (tested : isFusableLoad16ToLoad32 ir (.instr b highI) (.instr b lowI) = some true) :
    fuseMake32 ir (.instr b i) =
      (scan ir (.instr b i) (.instr b highI) (.instr b lowI)
        (instrsAfter ir b (.instr b (min highI lowI)))).map fun reached =>
          if reached then ir.modifyInstr (.instr b i) fun _ => loadBoth seg lowOff else ir := by
  obtain ⟨instr, rest, present, kind, operands⟩ := joins.make32
  obtain ⟨low, lowRest, isLow, lowKind, lowOperands⟩ := joins.low
  unfold fuseMake32
  simp only [present, kind, operands, tested, isLow, lowOperands, Option.bind_eq_bind, Option.bind_some,
    ne_eq, not_true_eq_false, if_false, List.getElem?_cons_zero, List.getElem?_cons_succ, Bool.not_true,
    Bool.false_eq_true, Option.map_eq_bind]
  congr 1
  funext reached
  cases reached <;> rfl

theorem first_other (b : BlockRef) (highI lowI : Nat) :
    (Ref.instr b (min highI lowI) = .instr b highI ∧ Ref.instr b (max highI lowI) = .instr b lowI) ∨
      (Ref.instr b (min highI lowI) = .instr b lowI ∧ Ref.instr b (max highI lowI) = .instr b highI) := by
  rcases Nat.le_total highI lowI with less | more
  · rw [Nat.min_eq_left less, Nat.max_eq_right less]
    exact .inl ⟨rfl, rfl⟩
  · rw [Nat.min_eq_right more, Nat.max_eq_left more]
    exact .inr ⟨rfl, rfl⟩

/-- A turn that turns a Make32 into a load is sound if and only if its two loads are quiet. -/
theorem fusesSoundly_iff_quiet
    (joins : JoinsLoads ir (.instr b i) highRef lowRef seg highOff lowOff highK lowK)
    (adjacent : highK = lowK + 2)
    (turns : fuseMake32 ir (.instr b i) = some (ir.modifyInstr (.instr b i) fun _ => loadBoth seg lowOff)) :
    FusesSoundly ir (.instr b i) ↔ Quiet ir b highRef (.instr b i) ∧ Quiet ir b lowRef (.instr b i) := by
  constructor
  · intro sound
    obtain ⟨make32, _, isMake32, kind, _⟩ := joins.make32
    have changed : (ir.modifyInstr (.instr b i) fun _ => loadBoth seg lowOff).instr? (.instr b i) ≠
        ir.instr? (.instr b i) := by
      rw [instr?_modifyInstr, if_pos rfl, isMake32, Option.map_some]
      intro same
      have opcodes := congrArg Instr.opcode (Option.some.inj same)
      rw [kind] at opcodes
      cases opcodes
    obtain ⟨b', _, _, _, _, _, _, _, joins', reads⟩ := sound.sound _ turns changed
    obtain ⟨rfl, rfl, _⟩ := joins.unique joins'
    obtain ⟨between, ⟨front, back, order⟩, none⟩ := reads.high
    have listed : Ref.instr b i ∈ ir.iterInstrs b' := by
      rw [order]
      simp
    obtain rfl : b = b' := Option.some.inj (mem_iterInstrs listed)
    exact ⟨reads.high, reads.low⟩
  · rintro ⟨high, low⟩
    exact ⟨⟨_, turns⟩, fun _ _ _ => ⟨b, highRef, lowRef, seg, highOff, lowOff, highK, lowK, joins,
      readsSame_of_quiet joins adjacent high low⟩⟩

/-- A turn that changes nothing is sound. -/
theorem fusesSoundly_of_same (same : fuseMake32 ir r = some ir) : FusesSoundly ir r where
  ends := ⟨ir, same⟩
  sound next ran changed := by
    rw [same] at ran
    obtain rfl := Option.some.inj ran
    exact absurd rfl changed

theorem not_fusesSoundly_of_none (panics : fuseMake32 ir r = none) : ¬ FusesSoundly ir r := by
  intro sound
  obtain ⟨next, ran⟩ := sound.ends
  rw [panics] at ran
  cases ran

/-- At a Make32 that passes the test, a turn is sound if and only if the scan suffices. -/
theorem fusesSoundly_iff_scan
    (joins : JoinsLoads ir (.instr b i) (.instr b highI) (.instr b lowI) seg highOff lowOff highK lowK)
    (adjacent : highK = lowK + 2) (fits : lowK.toInt ≤ 32765) :
    FusesSoundly ir (.instr b i) ↔
      Stops ir b (.instr b i) (.instr b (min highI lowI)) (.instr b highI) (.instr b lowI) ∨
        ∃ between, Spans ir b (.instr b (min highI lowI)) (.instr b i) between ∧
          ScanSuffices ir b (.instr b i) (.instr b (min highI lowI)) (.instr b (max highI lowI))
            between := by
  have tested : isFusableLoad16ToLoad32 ir (.instr b highI) (.instr b lowI) = some true := by
    rw [joins.isFusable, toInt_add_two fits, decide_eq_true adjacent]
  have turn := fuseMake32_scanned joins tested
  obtain ⟨make32, _, isMake32, kind, _⟩ := joins.make32
  have effective : make32.opcode ≠ .nop := by
    rw [kind]
    exact Opcode.noConfusion
  obtain ⟨highInstr, _, isHigh, highKind, _⟩ := joins.high
  obtain ⟨lowInstr, _, isLow, lowKind, _⟩ := joins.low
  by_cases listed : Ref.instr b (min highI lowI) ∈ ir.iterInstrs b
  · obtain ⟨front, after, order⟩ := List.append_of_mem listed
    have inside : ∀ s ∈ after, ∃ instr, ir.instr? s = some instr := by
      intro s among
      apply Option.isSome_iff_exists.mp
      apply mem_iterInstrs_instr? (b := b)
      rw [order]
      exact List.mem_append_right front (List.mem_cons_of_mem _ among)
    rw [instrsAfter_eq order, scan_filter isMake32 effective inside] at turn
    rcases scan_cases (.instr b i) (.instr b highI) (.instr b lowI) inside with
      ⟨reaches, between, back, rfl, scanned⟩ | ⟨stops, between, s, back, rfl, fresh, others⟩ | ⟨runs, fresh, scanned⟩
    · rw [reaches] at turn
      have spans : Spans ir b (.instr b (min highI lowI)) (.instr b i) between := ⟨front, back, order⟩
      rw [fusesSoundly_iff_quiet joins adjacent turn]
      have suffices' : Quiet ir b (.instr b highI) (.instr b i) ∧ Quiet ir b (.instr b lowI) (.instr b i) ↔
          ScanSuffices ir b (.instr b i) (.instr b (min highI lowI)) (.instr b (max highI lowI))
            between := by
        rcases first_other b highI lowI with ⟨first, other⟩ | ⟨first, other⟩
        · rw [first, other]
          rw [first] at spans
          exact quiet_iff_scanSuffices spans ⟨highInstr, isHigh, highKind⟩ ⟨lowInstr, isLow, lowKind⟩
            ⟨make32, isMake32, kind⟩ scanned
        · rw [first, other, and_comm]
          rw [first] at spans
          exact quiet_iff_scanSuffices spans ⟨lowInstr, isLow, lowKind⟩ ⟨highInstr, isHigh, highKind⟩
            ⟨make32, isMake32, kind⟩ (fun s among notLow notHigh => scanned s among notHigh notLow)
      rw [suffices']
      constructor
      · exact fun sufficient => .inr ⟨between, spans, sufficient⟩
      · rintro (⟨between', s, back', ⟨front', order'⟩, fresh, differs, notHigh, notLow, memory⟩ |
          ⟨between', spans', sufficient⟩)
        · obtain ⟨instr, isHere, isMemory⟩ := memory
          have after := (split_unique (iterInstrs_nodup ir b) order order').2
          have among := mem_of_split after fresh differs
          rw [scanned s among notHigh notLow instr isHere] at isMemory
          cases isMemory
        · rw [← spans.unique spans']
          exact sufficient
    · rw [stops] at turn
      constructor
      · exact fun _ => .inl ⟨between, s, back, ⟨front, order⟩, fresh, others⟩
      · exact fun _ => fusesSoundly_of_same turn
    · rw [runs] at turn
      constructor
      · exact fun sound => absurd sound (not_fusesSoundly_of_none turn)
      · rintro (⟨between, s, back, ⟨front', order'⟩, _, _, notHigh, notLow, instr, isHere, isMemory⟩ |
          ⟨between, ⟨front', back, order'⟩, _⟩)
        · have among : s ∈ after := by
            rw [(split_unique (iterInstrs_nodup ir b) order order').2]
            simp
          rw [scanned s among notHigh notLow instr isHere] at isMemory
          cases isMemory
        · exfalso
          apply fresh
          rw [(split_unique (iterInstrs_nodup ir b) order order').2]
          simp
  · rw [instrsAfter_unlisted listed] at turn
    constructor
    · exact fun sound => absurd sound (not_fusesSoundly_of_none turn)
    · intro conditions
      exfalso
      apply listed
      rcases conditions with ⟨between, s, back, ⟨front, order⟩, _⟩ | ⟨between, ⟨front, back, order⟩, _⟩
      · rw [order]
        simp
      · rw [order]
        simp

/-- The test of the pass is passed by adjacent words of one segment alone, and panics for a low constant
near the largest one. -/
theorem tested_cases (filled : WordsFilled ir) {instr : Instr} {rest : List Ref}
    (present : ir.instr? r = some instr) (kind : instr.opcode = .make32)
    (operands : instr.operands = highRef :: lowRef :: rest) :
    isFusableLoad16ToLoad32 ir highRef lowRef = some false ∨
      ∃ seg highOff lowOff highK lowK, JoinsLoads ir r highRef lowRef seg highOff lowOff highK lowK ∧
        (lowK.toInt ≤ 32765 ∧ highK = lowK + 2 ∧ isFusableLoad16ToLoad32 ir highRef lowRef = some true ∨
          ¬ lowK.toInt ≤ 32765 ∧ isFusableLoad16ToLoad32 ir highRef lowRef = none) := by
  rcases isFusable_cases filled present kind operands with ⟨seg, highOff, lowOff, highK, lowK, joins⟩ | failed
  · by_cases fits : lowK.toInt ≤ 32765
    · by_cases adjacent : highK = lowK + 2
      · refine .inr ⟨seg, highOff, lowOff, highK, lowK, joins, .inl ⟨fits, adjacent, ?_⟩⟩
        rw [joins.isFusable, toInt_add_two fits, decide_eq_true adjacent]
      · left
        rw [joins.isFusable, toInt_add_two fits, decide_eq_false adjacent]
    · refine .inr ⟨seg, highOff, lowOff, highK, lowK, joins, .inr ⟨fits, ?_⟩⟩
      have overflows := mt toInt_add_two_fits.mp fits
      rw [joins.isFusable, Option.not_isSome_iff_eq_none.mp overflows]
      rfl
  · exact .inl failed

theorem exists_instr {instr : Instr} (present : ir.instr? r = some instr) : ∃ b i, r = .instr b i := by
  cases r with
  | instr b i => exact ⟨b, i, rfl⟩
  | _ => cases present

/-- A turn is sound if and only if what it needs is there. -/
theorem fusesSoundly_iff (filled : WordsFilled ir) (listed : r ∈ ir.refs) :
    FusesSoundly ir r ↔ Fusable ir r := by
  obtain ⟨instr, present⟩ := mem_refs_instr? listed
  by_cases kind : instr.opcode = .make32
  · obtain ⟨highRef, lowRef, rest, operands⟩ := exists_pair (filled.pairs r instr present (.inl kind))
    obtain ⟨leaves, panics⟩ := fuseMake32_untested present kind operands
    rcases tested_cases filled present kind operands with failed |
      ⟨seg, highOff, lowOff, highK, lowK, joins, ⟨fits, adjacent, passed⟩ | ⟨overflows, failed⟩⟩
    · constructor
      · intro _ high low _ _ _ highK lowK joins
        obtain ⟨_, _, present', _, operands'⟩ := joins.make32
        obtain rfl := Option.some.inj (present.symm.trans present')
        obtain ⟨rfl, sameRest⟩ := List.cons.inj (operands.symm.trans operands')
        obtain ⟨rfl, _⟩ := List.cons.inj sameRest
        rw [joins.isFusable] at failed
        have fits : lowK.toInt ≤ 32765 := by
          apply toInt_add_two_fits.mp
          cases sum : fitsI16 (lowK.toInt + 2) with
          | none =>
              rw [sum] at failed
              cases failed
          | some _ => rfl
        refine ⟨fits, fun _ _ _ _ _ _ _ adjacent => ?_⟩
        rw [toInt_add_two fits, decide_eq_true adjacent] at failed
        cases failed
      · exact fun _ => fusesSoundly_of_same (leaves failed)
    · obtain ⟨_, _, isHigh, _, _⟩ := joins.high
      obtain ⟨_, _, isLow, _, _⟩ := joins.low
      obtain ⟨b, i, rfl⟩ := exists_instr present
      obtain ⟨highB, highI, rfl⟩ := exists_instr isHigh
      obtain ⟨lowB, lowI, rfl⟩ := exists_instr isLow
      by_cases together : b = highB ∧ b = lowB
      · obtain ⟨rfl, rfl⟩ := together
        rw [fusesSoundly_iff_scan joins adjacent fits]
        constructor
        · intro scans _ _ _ _ _ _ _ joins'
          obtain ⟨rfl, rfl, rfl, rfl, rfl, rfl, rfl⟩ := joins.unique joins'
          refine ⟨fits, fun _ _ _ _ isHere isHigh isLow _ => ?_⟩
          cases isHere
          cases isHigh
          cases isLow
          exact scans
        · exact fun fusable => (fusable _ _ _ _ _ _ _ joins).2 b i highI lowI rfl rfl rfl adjacent
      · constructor
        · intro _ _ _ _ _ _ _ _ joins'
          obtain ⟨rfl, rfl, rfl, rfl, rfl, rfl, rfl⟩ := joins.unique joins'
          refine ⟨fits, fun _ _ _ _ isHere isHigh isLow _ => ?_⟩
          cases isHere
          cases isHigh
          cases isLow
          exact absurd ⟨rfl, rfl⟩ together
        · exact fun _ => fusesSoundly_of_same
            (fuseMake32_apart joins passed rfl rfl (not_and_or.mp together))
    · constructor
      · exact fun sound => absurd sound (not_fusesSoundly_of_none (panics failed))
      · intro fusable
        exact absurd (fusable _ _ _ _ _ _ _ joins).1 overflows
  · constructor
    · rintro _ _ _ _ _ _ _ _ joins
      obtain ⟨_, _, present', kind', _⟩ := joins.make32
      obtain rfl := Option.some.inj (present.symm.trans present')
      exact absurd kind' kind
    · exact fun _ => fusesSoundly_of_same (fuseMake32_other present kind)

end Turns

section Runs

/-- A turn changes at most its own instruction. -/
theorem fuseMake32_eq (ran : fuseMake32 ir r = some next) :
    next = ir ∨ ∃ seg off, next = ir.modifyInstr r fun _ => loadBoth seg off := by
  obtain ⟨make32, _, ran⟩ := Option.bind_eq_some_iff.mp ran
  split at ran
  · exact .inl (Option.some.inj ran).symm
  obtain ⟨highRef, _, ran⟩ := Option.bind_eq_some_iff.mp ran
  obtain ⟨lowRef, _, ran⟩ := Option.bind_eq_some_iff.mp ran
  obtain ⟨tested, _, ran⟩ := Option.bind_eq_some_iff.mp ran
  split at ran
  · exact .inl (Option.some.inj ran).symm
  split at ran
  · split at ran
    · exact .inl (Option.some.inj ran).symm
    split at ran
    · exact .inl (Option.some.inj ran).symm
    obtain ⟨scanned, _, ran⟩ := Option.bind_eq_some_iff.mp ran
    split at ran
    · exact .inl (Option.some.inj ran).symm
    obtain ⟨low, _, ran⟩ := Option.bind_eq_some_iff.mp ran
    obtain ⟨seg, _, ran⟩ := Option.bind_eq_some_iff.mp ran
    obtain ⟨off, _, ran⟩ := Option.bind_eq_some_iff.mp ran
    exact .inr ⟨seg, off, (Option.some.inj ran).symm⟩
  · cases ran

theorem fuseMake32_keepsOrder : KeepsOrder fuseMake32 := by
  intro ir r next ran
  rcases fuseMake32_eq ran with rfl | ⟨seg, off, rfl⟩
  · exact .refl next
  · exact .modifyInstr ir r _

/-- An instruction of the new function is the load, or was there before. -/
theorem instr?_loadBoth {s : Ref} {instr : Instr}
    (present : (ir.modifyInstr r fun _ => loadBoth seg lowOff).instr? s = some instr) :
    instr = loadBoth seg lowOff ∨ ir.instr? s = some instr := by
  rw [instr?_modifyInstr] at present
  split at present
  · obtain ⟨_, _, same⟩ := Option.map_eq_some_iff.mp present
    exact .inl same.symm
  · exact .inr present

theorem WordsFilled.fuseMake32 (filled : WordsFilled ir) (ran : fuseMake32 ir r = some next) :
    WordsFilled next := by
  rcases fuseMake32_eq ran with rfl | ⟨seg, off, rfl⟩
  · exact filled
  · constructor
    · intro s instr present kind
      rcases instr?_loadBoth present with rfl | before
      · exact Nat.le_refl 2
      · exact filled.pairs s instr before kind
    · intro s instr present isStore
      rcases instr?_loadBoth present with rfl | before
      · cases isStore
      · exact filled.stores s instr before isStore
    · intro s instr present kind c inside isConst
      rw [constLookup_modifyInstr]
      rcases instr?_loadBoth present with rfl | before
      · cases kind
      · exact filled.consts s instr before kind c inside isConst
    · intro s instr present kind b i operand
      rcases instr?_loadBoth present with rfl | before
      · cases kind
      · obtain ⟨source, isThere⟩ := filled.present s instr before kind b i operand
        rw [instr?_modifyInstr]
        split
        · rename_i same
          rw [← same, isThere]
          exact ⟨_, rfl⟩
        · exact ⟨source, isThere⟩

theorem BeforeTurn.filled (before : BeforeTurn ir r cur) (filled : WordsFilled ir) : WordsFilled cur := by
  obtain ⟨front, back, _, ran⟩ := before
  exact foldlM_keeps WordsFilled (fun _ _ _ _ filled ran => filled.fuseMake32 ran) filled ran

theorem BeforeTurn.listed (before : BeforeTurn ir r cur) : r ∈ cur.refs := by
  obtain ⟨front, back, split, ran⟩ := before
  rw [(foldlM_sameOrder fuseMake32_keepsOrder ran).refs, split]
  simp

/-- The pass ends if every turn ends. -/
theorem fuseLoads_isSome (ends : ∀ r cur, BeforeTurn ir r cur → ∃ next, fuseMake32 cur r = some next) :
    ∃ next, fuseMake32Load16ToLoad32 ir = some next := by
  rw [fuseMake32Load16ToLoad32, forEachInstr_eq fuseMake32_keepsOrder]
  have all : ∀ (back front : List Ref) (cur : IR), ir.refs = front ++ back →
      front.foldlM fuseMake32 ir = some cur → ∃ next, back.foldlM fuseMake32 cur = some next := by
    intro back
    induction back with
    | nil => exact fun _ cur _ _ => ⟨cur, rfl⟩
    | cons r back hypothesis =>
        intro front cur split ran
        obtain ⟨middle, turn⟩ := ends r cur ⟨front, back, split, ran⟩
        obtain ⟨next, rest⟩ := hypothesis (front ++ [r]) middle (by rw [split]; simp) (by
          rw [List.foldlM_append, ran, Option.bind_eq_bind, Option.bind_some, List.foldlM_cons, turn]
          rfl)
        exact ⟨next, by rw [List.foldlM_cons, turn]; exact rest⟩
  exact all ir.refs [] ir rfl rfl

/-- The pass ends and every load that it makes reads what the two loads read if and only if every turn
has what it needs. -/
theorem fuseMake32Load16ToLoad32_exact_iff (filled : WordsFilled ir) :
    ((∃ next, fuseMake32Load16ToLoad32 ir = some next) ∧
      ∀ r cur, BeforeTurn ir r cur → FusesSoundly cur r) ↔
      ∀ r cur, BeforeTurn ir r cur → Fusable cur r := by
  constructor
  · rintro ⟨_, sound⟩ r cur before
    exact (fusesSoundly_iff (before.filled filled) before.listed).mp (sound r cur before)
  · intro fusable
    have sound : ∀ r cur, BeforeTurn ir r cur → FusesSoundly cur r := fun r cur before =>
      (fusesSoundly_iff (before.filled filled) before.listed).mpr (fusable r cur before)
    exact ⟨fuseLoads_isSome fun r cur before => (sound r cur before).ends, sound⟩

end Runs

section Calls

def wordOp (opcode : Opcode) (operands : List Ref) : Instr := ⟨.u16, none, Attribute.NONE, opcode, operands⟩

/-- Two loads of adjacent words, a call and the Make32 of the loads. -/
def callBetween : IR :=
  { IR.new with
    consts := [4, 2]
    blocks := [some ⟨"block", fun _ => none, [],
      ⟨[wordOp .add [.init .BX, .const 0], wordOp .add [.instr 0 0, .const 1],
        wordOp .load16 [.init .DS, .instr 0 1], wordOp .load16 [.init .DS, .instr 0 0],
        wordOp .callFar [.const 0, .const 1], wordOp .make32 [.instr 0 2, .instr 0 3]],
        [0, 1, 2, 3, 4, 5], by decide, by decide⟩, true, []⟩] }

def callValue : Ref → Nat
  | .instr 0 0 => 4
  | .instr 0 1 => 6
  | .const 0 => 4
  | .const 1 => 2
  | _ => 0

/-- The call sets every byte. -/
def callRun : BlockRun callBetween 0 where
  value := callValue
  memory p := if p < 5 then fun _ => 0 else fun _ => 1
  step p r instr listed present := by
    match p with
    | 0 | 1 | 2 | 3 | 5 =>
        obtain rfl := Option.some.inj listed
        obtain rfl := Option.some.inj present
        exact ⟨fun n seg off v rest width => (by cases width), fun _ => rfl⟩
    | 4 =>
        obtain rfl := Option.some.inj listed
        obtain rfl := Option.some.inj present
        exact ⟨fun n seg off v rest width => (by cases width), fun quiet => (by cases quiet)⟩
    | p + 6 => cases listed

theorem callBetween_filled : WordsFilled callBetween := by
  have checked : ∀ r ∈ callBetween.allInstrs, ∀ instr ∈ callBetween.instr? r,
      (instr.opcode = .make32 ∨ instr.opcode = .load16 ∨ instr.opcode = .add → 2 ≤ instr.operands.length) ∧
        (instr.opcode.isStore = true → 3 ≤ instr.operands.length) ∧
        (instr.opcode = .add → ∀ c ∈ instr.operands, c.isConst = true →
          (callBetween.constLookup c).isSome) ∧
        (instr.opcode = .load16 → ∀ c ∈ instr.operands[1]?, (callBetween.instr? c).isSome) := by decide
  constructor
  · exact fun r instr present => (checked r (mem_allInstrs present) instr present).1
  · exact fun r instr present => (checked r (mem_allInstrs present) instr present).2.1
  · intro r instr present kind c inside isConst
    exact Option.isSome_iff_exists.mp
      ((checked r (mem_allInstrs present) instr present).2.2.1 kind c inside isConst)
  · intro r instr present kind b i operand
    exact Option.isSome_iff_exists.mp
      ((checked r (mem_allInstrs present) instr present).2.2.2 kind (.instr b i) operand)

theorem callBetween_beforeTurn : BeforeTurn callBetween (.instr 0 5) callBetween :=
  ⟨[.instr 0 0, .instr 0 1, .instr 0 2, .instr 0 3, .instr 0 4], [], by decide +kernel, rfl⟩

theorem callBetween_joins : JoinsLoads callBetween (.instr 0 5) (.instr 0 2) (.instr 0 3) (.init .DS)
    (.instr 0 1) (.instr 0 0) 2 0 where
  make32 := ⟨_, [], rfl, rfl, rfl⟩
  high := ⟨_, [], rfl, rfl, rfl⟩
  low := ⟨_, [], rfl, rfl, rfl⟩
  offsets := by decide +kernel

theorem callRun_sums : SumHolds callBetween callRun.value (.instr 0 1) ∧
    SumHolds callBetween callRun.value (.instr 0 0) := by
  constructor
  · intro instr base c rest k present _ operands known
    obtain rfl := Option.some.inj present
    obtain ⟨rfl, rfl, _⟩ := operands
    obtain rfl := Option.some.inj known
    rfl
  · intro instr base c rest k present _ operands known
    obtain rfl := Option.some.inj present
    obtain ⟨rfl, rfl, _⟩ := operands
    obtain rfl := Option.some.inj known
    rfl

/-- The load at the Make32 reads what the call wrote. -/
theorem callBetween_unsound : ¬ FusesSoundly callBetween (.instr 0 5) := by
  intro sound
  have turned : (fuseMake32 callBetween (.instr 0 5)).bind (fun next => next.instr? (.instr 0 5)) =
      some (loadBoth (.init .DS) (.instr 0 0)) := by decide +kernel
  obtain ⟨next, ran⟩ := sound.ends
  rw [ran, Option.bind_some] at turned
  have changed : next.instr? (.instr 0 5) ≠ callBetween.instr? (.instr 0 5) := by
    rw [turned]
    decide
  obtain ⟨b, highRef, lowRef, seg, highOff, lowOff, highK, lowK, joins, reads⟩ := sound.sound next ran changed
  obtain ⟨rfl, rfl, rfl, rfl, rfl, rfl, rfl⟩ := callBetween_joins.unique joins
  obtain ⟨between, ⟨front, back, order⟩, _⟩ := reads.high
  obtain rfl : b = 0 := by
    have listed : Ref.instr 0 2 ∈ callBetween.iterInstrs b := by
      rw [order]
      simp
    exact (Option.some.inj (mem_iterInstrs listed)).symm
  have wrong := reads.same callRun 2 3 5 rfl rfl rfl callRun_sums.1 callRun_sums.2
  revert wrong
  decide +kernel

theorem callBetween_not_fusable :
    ¬ ∀ r cur, BeforeTurn callBetween r cur → Fusable cur r := by
  intro fusable
  have sound := (fuseMake32Load16ToLoad32_exact_iff callBetween_filled).mpr fusable
  exact callBetween_unsound (sound.2 _ _ callBetween_beforeTurn)

theorem callBetween_reads_stale : (∃ next, fuseMake32Load16ToLoad32 callBetween = some next) ∧
    ¬ ∀ r cur, BeforeTurn callBetween r cur → FusesSoundly cur r := by
  constructor
  · exact Option.isSome_iff_exists.mp (by decide +kernel)
  · exact fun sound => callBetween_unsound (sound _ _ callBetween_beforeTurn)

end Calls

end Dis86.Opt
