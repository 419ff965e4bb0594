import Dis86.Asm.Atomic

namespace Dis86.Asm
open Lib (Outcome Run Cursor)
open RegionIter (peekChecked advance fetch cursor)

/-- After prefixes without LOCK, the instruction moves a segment register that does not exist. -/
def MovesNoSegment (bytes : Bytes) : Prop :=
  (bytes.takeWhile isPrefix).contains 0xf0 = false ∧
    ∃ opcode1 tail, bytes.dropWhile isPrefix = opcode1 :: tail ∧ NamesNoSegment opcode1 tail

/-- What the prefixes of the bytes say. -/
def prefixesOf (bytes : Bytes) : Prefixes :=
  (⟨none, none, false⟩ : Prefixes).takeAll (bytes.takeWhile isPrefix)

theorem prefixesOf_lock (bytes : Bytes) :
    (prefixesOf bytes).lock = (bytes.takeWhile isPrefix).contains 0xf0 := by
  rw [prefixesOf, Prefixes.takeAll_lock _ (List.all_eq_true.mp List.all_takeWhile), Bool.false_or]

theorem decodeParts_ended (startAddr : SegOff) {bin : RegionIter} (fits : bin.Fits)
    (ended : bin.rest.dropWhile isPrefix = []) :
    decodeParts startAddr bin =
      (.err .beyondRegion, bin.advanceBy (bin.rest.takeWhile isPrefix).length) := by
  show Run.bind decodePrefixes _ bin = _
  rw [Run.bind, decodePrefixes_eq fits, if_pos ended]

/-- The prefixes and the opcode have been read. -/
theorem opcode_reads {bin : RegionIter} {opcode1 : BitVec 8} {tail : Bytes}
    (found : bin.rest.dropWhile isPrefix = opcode1 :: tail) :
    (bin.advanceBy (bin.rest.takeWhile isPrefix).length).rest = opcode1 :: tail := by
  have moved : (bin.advanceBy (bin.rest.takeWhile isPrefix).length).rest =
      bin.rest.drop (bin.rest.takeWhile isPrefix).length := cursor.rest_advance bin _
  have parts : bin.rest.takeWhile isPrefix ++ opcode1 :: tail = bin.rest := by
    rw [← found, List.takeWhile_append_dropWhile]
  rw [moved]
  generalize bin.rest.takeWhile isPrefix = before at parts ⊢
  rw [← parts]
  exact List.drop_left

theorem decodeParts_found (startAddr : SegOff) {bin : RegionIter} (fits : bin.Fits)
    {opcode1 : BitVec 8} {tail : Bytes}
    (found : bin.rest.dropWhile isPrefix = opcode1 :: tail) :
    decodeParts startAddr bin =
      (decodeOpcode startAddr (prefixesOf bin.rest) opcode1 >>= fun parts =>
        (return (prefixesOf bin.rest, parts) : Decode _))
        ((bin.advanceBy (bin.rest.takeWhile isPrefix).length).advanceBy 1) := by
  have reads := decodePrefixes_reads found
  rw [decodeParts, Run.bind_ok (reads.run_eq fits)]
  exact Run.bind_ok (RegionIter.fetch_cons (reads.valid fits) (opcode_reads found)) _

theorem decodeParts_reads (startAddr : SegOff) {bin stop : RegionIter} (fits : bin.Fits)
    {parts : Prefixes × InstrFmt × List Operand}
    (ran : decodeParts startAddr bin = (.ok parts, stop)) :
    ∃ used, 1 ≤ used ∧ cursor.Reads (decodeParts startAddr) bin parts used used := by
  cases found : bin.rest.dropWhile isPrefix with
  | nil => simp [decodeParts_ended startAddr fits found] at ran
  | cons opcode1 tail =>
      rw [decodeParts_found startAddr fits found] at ran
      obtain ⟨rest, middle, decoded, ran⟩ := Run.bind_eq_ok.mp ran
      have before := decodePrefixes_reads found
      have opcode := RegionIter.fetch_reads (opcode_reads found)
      have fits' := opcode.valid (before.valid fits)
      have exact := (decodeOpcode_exact startAddr (prefixesOf bin.rest) opcode1).bind
        fun parts => Cursor.Exact.pure (prefixesOf bin.rest, parts)
      obtain ⟨used, reads⟩ :=
        exact.reads _ parts stop fits' (Run.bind_eq_ok.mpr ⟨rest, middle, decoded, ran⟩)
      generalize (bin.rest.takeWhile isPrefix).length = count at before opcode reads
      have seen : max (count + 1) (count + max 1 (1 + used)) = count + (1 + used) := by omega
      have whole : cursor.Reads (decodeParts startAddr) bin parts _ _ :=
        before.bind (opcode.bind reads)
      rw [seen] at whole
      exact ⟨count + (1 + used), by omega, whole⟩

theorem decodePrefixes_moves (bin : RegionIter) (p : Prefixes) (stop : RegionIter)
    (fits : bin.Fits) (ran : decodePrefixes bin = (.ok p, stop)) :
    ∃ used seen, cursor.Reads decodePrefixes bin p used seen := by
  cases found : bin.rest.dropWhile isPrefix with
  | nil => simp [decodePrefixes_eq fits, found] at ran
  | cons b tail =>
      have reads := decodePrefixes_reads found
      have same := reads.run_eq fits
      rw [ran, Prod.mk.injEq, Outcome.ok.injEq] at same
      exact ⟨_, _, same.1 ▸ reads⟩

theorem decodePrefixes_fails : cursor.FailsInside decodePrefixes := by
  intro bin e stop fits ran
  rw [decodePrefixes_eq fits, Prod.mk.injEq] at ran
  exact ⟨_, (bin.rest.takeWhile_prefix isPrefix).length_le, ran.2.symm⟩

theorem decodeParts_fails (startAddr : SegOff) : cursor.FailsInside (decodeParts startAddr) :=
  decodePrefixes_fails.bind decodePrefixes_moves fun p =>
    (RegionIter.fetch_total.toExact.bind fun opcode1 =>
      (decodeOpcode_exact startAddr p opcode1).bind fun _ => .pure _).fails

theorem decodeParts_panics_iff (startAddr : SegOff) {bin : RegionIter} (fits : bin.Fits) :
    (decodeParts startAddr bin).1 = .panic ↔ MovesNoSegment bin.rest := by
  rw [MovesNoSegment, ← prefixesOf_lock]
  cases found : bin.rest.dropWhile isPrefix with
  | nil => simp [decodeParts_ended startAddr fits found]
  | cons opcode1 tail =>
      have before := decodePrefixes_reads found
      have opcode := RegionIter.fetch_reads (opcode_reads found)
      have fits' := opcode.valid (before.valid fits)
      have rest := RegionIter.rest_advance_one (opcode_reads found)
      have panics := decodeOpcode_panics_iff startAddr (prefixesOf bin.rest) opcode1 fits'
      rw [decodeParts_found startAddr fits found, Run.bind_panics]
      constructor
      · rintro (panicked | ⟨parts, middle, _, panicked⟩)
        · have both := panics.mp panicked
          exact ⟨both.1, opcode1, tail, rfl, rest ▸ both.2⟩
        · cases panicked
      · rintro ⟨unlocked, opcode1', tail', same, names⟩
        obtain ⟨rfl, rfl⟩ := List.cons.inj same
        exact .inl (panics.mpr ⟨unlocked, rest.symm ▸ names⟩)

/-- The bytes between two positions of a region are at the distance of their addresses. -/
theorem offsetTo_eq {bin : RegionIter} {used : Nat} {startAddr curAddr : SegOff} (fits : bin.Fits)
    (inside : used ≤ bin.rest.length) (start : bin.addr = .ok startAddr)
    (current : (bin.advanceBy used).addr = .ok curAddr) :
    ∃ nBytes, startAddr.offsetTo curAddr = (.ok nBytes : Outcome DecodeError _) ∧
      nBytes.toNat = used ∧ (bin.advanceBy used).slice startAddr nBytes = .ok (bin.rest.take used) := by
  obtain ⟨startAddr', start', seg, off⟩ := RegionIter.addr_eq fits
  obtain ⟨curAddr', current', seg', off'⟩ :=
    RegionIter.addr_eq (cursor.valid_advance bin used fits inside)
  obtain rfl := Outcome.ok.inj (start'.symm.trans start)
  obtain rfl := Outcome.ok.inj (current'.symm.trans current)
  have segment := fits.segment
  rw [RegionIter.length_rest, RegionIter.bytesRemaining] at inside
  change curAddr'.off.toNat = bin.baseOff.toNat + (bin.off + used) at off'
  have small := curAddr'.off.isLt
  have count : (curAddr'.off - startAddr'.off).toNat = used := by
    rw [BitVec.toNat_sub]
    omega
  have ordered : startAddr'.off ≤ curAddr'.off := by
    rw [BitVec.le_def]
    omega
  refine ⟨curAddr'.off - startAddr'.off, ?_, count, ?_⟩
  · rw [SegOff.offsetTo, Outcome.require_pos (seg.trans seg'.symm), Outcome.require_pos ordered]
    rfl
  · have position := fits.position
    have same : startAddr'.seg = (bin.advanceBy used).baseSeg := seg
    have below : (bin.advanceBy used).baseOff.toNat ≤ startAddr'.off.toNat := by
      show bin.baseOff.toNat ≤ _
      omega
    have above : startAddr'.off.toNat + (curAddr'.off - startAddr'.off).toNat ≤
        (bin.advanceBy used).baseOff.toNat + (bin.advanceBy used).mem.length := by
      show _ ≤ bin.baseOff.toNat + bin.mem.length
      omega
    have moved : startAddr'.off.toNat - (bin.advanceBy used).baseOff.toNat = bin.off := by
      show startAddr'.off.toNat - bin.baseOff.toNat = _
      omega
    rw [RegionIter.slice, Outcome.require_pos same, Outcome.require_pos below,
      Outcome.require_pos above, moved, count]
    rfl

theorem decodeOneImpl_ended {bin : RegionIter} (fits : bin.Fits) (ended : bin.rest = []) :
    decodeOneImpl bin = (.ok none, bin) := by
  obtain ⟨startAddr, start, seg, off⟩ := RegionIter.addr_eq fits
  obtain ⟨endAddr, stop, seg', off'⟩ := RegionIter.endAddr_eq fits
  have length : bin.rest.length = 0 := by rw [ended, List.length_nil]
  rw [RegionIter.length_rest, RegionIter.bytesRemaining] at length
  have position := fits.position
  have same : startAddr = endAddr := SegOff.ext_toNat (seg.trans seg'.symm) (by omega)
  rw [decodeOneImpl, Run.ask_bind start, Run.ask_bind stop,
    if_pos same]
  rfl

theorem decodeOneImpl_more {bin : RegionIter} (fits : bin.Fits) (more : bin.rest ≠ [])
    {startAddr : SegOff} (start : bin.addr = .ok startAddr) :
    decodeOneImpl bin = (decodeParts startAddr >>= fun parts => do
      let curAddr ← .ask RegionIter.addr
      let nBytes ← .ask fun _ => startAddr.offsetTo curAddr
      let raw ← .ask fun bin => bin.slice startAddr nBytes
      return some (⟨parts.1.rep, parts.2.1.op, parts.2.2, startAddr, nBytes, parts.2.1.hidden⟩, raw)
        : Decode _) bin := by
  obtain ⟨startAddr', start', seg, off⟩ := RegionIter.addr_eq fits
  obtain ⟨endAddr, stop, seg', off'⟩ := RegionIter.endAddr_eq fits
  obtain rfl := Outcome.ok.inj (start'.symm.trans start)
  have length := List.length_pos_iff.mpr more
  rw [RegionIter.length_rest, RegionIter.bytesRemaining] at length
  have different : startAddr' ≠ endAddr := by
    rintro rfl
    omega
  rw [decodeOneImpl, Run.ask_bind start, Run.ask_bind stop,
    if_neg different]

theorem decodeOneImpl_ok {bin : RegionIter} (fits : bin.Fits) (more : bin.rest ≠ [])
    {startAddr : SegOff} (start : bin.addr = .ok startAddr) {p : Prefixes} {fmt : InstrFmt}
    {operands : List Operand} {used : Nat}
    (reads : cursor.Reads (decodeParts startAddr) bin (p, fmt, operands) used used) :
    ∃ nBytes : BitVec 16, nBytes.toNat = used ∧ decodeOneImpl bin =
      (.ok (some (⟨p.rep, fmt.op, operands, startAddr, nBytes, fmt.hidden⟩, bin.rest.take used)),
        bin.advanceBy used) := by
  obtain ⟨curAddr, current, _⟩ := RegionIter.addr_eq (reads.valid fits)
  obtain ⟨nBytes, offset, count, raw⟩ := offsetTo_eq fits reads.inside start current
  refine ⟨nBytes, count, ?_⟩
  rw [decodeOneImpl_more fits more start, Run.bind_ok (reads.run_eq fits), Run.ask_bind current,
    Run.ask_bind (f := fun _ => startAddr.offsetTo curAddr) offset]
  exact Run.ask_bind (f := fun stop : RegionIter => stop.slice startAddr nBytes) raw _

theorem decodeOneImpl_err {bin stop : RegionIter} (fits : bin.Fits) (more : bin.rest ≠ [])
    {startAddr : SegOff} (start : bin.addr = .ok startAddr) {e : DecodeError}
    (failed : decodeParts startAddr bin = (.err e, stop)) : decodeOneImpl bin = (.err e, stop) := by
  rw [decodeOneImpl_more fits more start]
  exact Run.bind_eq_err.mpr (.inl failed)

theorem decodeOneImpl_panic {bin : RegionIter} (fits : bin.Fits) (more : bin.rest ≠ [])
    {startAddr : SegOff} (start : bin.addr = .ok startAddr)
    (panics : (decodeParts startAddr bin).1 = .panic) : (decodeOneImpl bin).1 = .panic := by
  rw [decodeOneImpl_more fits more start]
  exact Run.bind_panics.mpr (.inl panics)

/-- The position before an instruction is inside the region, so that the iterator can go back. -/
theorem resetAddr_eq {bin : RegionIter} (fits : bin.Fits) (more : bin.rest ≠ [])
    {startAddr : SegOff} (start : bin.addr = .ok startAddr) (used : Nat) :
    (bin.advanceBy used).resetAddr startAddr = .ok bin := by
  obtain ⟨startAddr', start', seg, off⟩ := RegionIter.addr_eq fits
  obtain ⟨endAddr, stop, seg', off'⟩ := RegionIter.endAddr_eq fits
  obtain rfl := Outcome.ok.inj (start'.symm.trans start)
  have length := List.length_pos_iff.mpr more
  rw [RegionIter.length_rest, RegionIter.bytesRemaining] at length
  have stop' : (bin.advanceBy used).endAddr = .ok endAddr := stop
  have ordered : (bin.advanceBy used).baseOff ≤ startAddr'.off := by
    show bin.baseOff ≤ _
    rw [BitVec.le_def]
    omega
  have above : (bin.advanceBy used).baseAddr.le startAddr' := by
    show bin.baseAddr.le startAddr' = true
    rw [SegOff.le, SegOff.lt, Bool.or_eq_true, Bool.or_eq_true, Bool.and_eq_true]
    by_cases first : bin.off = 0
    · exact .inr (decide_eq_true (SegOff.ext_toNat seg.symm (by show bin.baseOff.toNat = _; omega)))
    · refine .inl (.inr ⟨decide_eq_true seg.symm, decide_eq_true ?_⟩)
      show bin.baseOff.toNat < startAddr'.off.toNat
      omega
  have below : startAddr'.lt endAddr := by
    rw [SegOff.lt, Bool.or_eq_true, Bool.and_eq_true]
    refine .inr ⟨decide_eq_true (seg.trans seg'.symm), decide_eq_true ?_⟩
    show startAddr'.off.toNat < endAddr.off.toNat
    omega
  have moved : (startAddr'.off - (bin.advanceBy used).baseOff).toNat = bin.off := by
    show (startAddr'.off - bin.baseOff).toNat = _
    rw [BitVec.toNat_sub]
    have := startAddr'.off.isLt
    omega
  rw [RegionIter.resetAddr, Outcome.require_pos above, Outcome.ok_bind, stop', Outcome.ok_bind,
    Outcome.require_pos below, Outcome.require_pos ordered, moved]
  rfl

/-- Decoding at a position is total, takes whole instructions, and goes back when it fails. -/
structure Atomic (bin : RegionIter) : Prop where
  safe : (decodeOne bin).1 ≠ .panic
  ended : (decodeOne bin).1 = .ok none ↔ bin.off = bin.mem.length
  rollback : ∀ e stop, decodeOne bin = (.err e, stop) → stop = bin
  consumes : ∀ instr raw stop, decodeOne bin = (.ok (some (instr, raw)), stop) →
    1 ≤ instr.nBytes.toNat ∧ bin.off + instr.nBytes.toNat ≤ bin.mem.length ∧
      stop = bin.advanceBy instr.nBytes.toNat ∧ raw = bin.rest.take instr.nBytes.toNat
  alone : ∀ instr raw stop, decodeOne bin = (.ok (some (instr, raw)), stop) →
    ∀ following, instr.addr.off.toNat + (raw ++ following).length < 65536 →
      (decodeOne (.new (raw ++ following) instr.addr)).1 = .ok (some (instr, raw))

theorem decodeOne_eq {bin : RegionIter} {startAddr : SegOff} (start : bin.addr = .ok startAddr) :
    decodeOne bin =
      match decodeOneImpl bin with
      | (.err e, stop) =>
          match stop.resetAddr startAddr with
          | .ok back => (.err e, back)
          | _ => (.panic, stop)
      | ret => ret := Run.ask_bind start _

theorem decodeOne_ended {bin : RegionIter} (fits : bin.Fits) (ended : bin.rest = []) :
    decodeOne bin = (.ok none, bin) := by
  obtain ⟨startAddr, start, _⟩ := RegionIter.addr_eq fits
  rw [decodeOne_eq start, decodeOneImpl_ended fits ended]

/-- The three ways of a call before the end of a region. -/
theorem decodeOne_cases {bin : RegionIter} (fits : bin.Fits) (more : bin.rest ≠ [])
    {startAddr : SegOff} (start : bin.addr = .ok startAddr) :
    (∃ p fmt operands used, 1 ≤ used ∧
      cursor.Reads (decodeParts startAddr) bin (p, fmt, operands) used used ∧
      ∃ nBytes : BitVec 16, nBytes.toNat = used ∧ decodeOne bin =
        (.ok (some (⟨p.rep, fmt.op, operands, startAddr, nBytes, fmt.hidden⟩, bin.rest.take used)),
          bin.advanceBy used)) ∨
    (∃ e, decodeOne bin = (.err e, bin)) ∨
    (MovesNoSegment bin.rest ∧ (decodeOne bin).1 = .panic) := by
  cases ran : decodeParts startAddr bin with
  | mk outcome stop =>
      cases outcome with
      | ok parts =>
          obtain ⟨p, fmt, operands⟩ := parts
          obtain ⟨used, used_pos, reads⟩ := decodeParts_reads startAddr fits ran
          obtain ⟨nBytes, count, decoded⟩ := decodeOneImpl_ok fits more start reads
          refine .inl ⟨p, fmt, operands, used, used_pos, reads, nBytes, count, ?_⟩
          rw [decodeOne_eq start, decoded]
      | err e =>
          obtain ⟨used, _, rfl⟩ := decodeParts_fails startAddr bin e stop fits ran
          refine .inr (.inl ⟨e, ?_⟩)
          rw [decodeOne_eq start, decodeOneImpl_err fits more start ran]
          show (match (bin.advanceBy used).resetAddr startAddr with
            | .ok back => (Outcome.err e, back)
            | _ => (.panic, _)) = _
          rw [resetAddr_eq fits more start]
      | panic =>
          have panics : (decodeParts startAddr bin).1 = .panic := by rw [ran]
          refine .inr (.inr ⟨(decodeParts_panics_iff startAddr fits).mp panics, ?_⟩)
          have stopped := decodeOneImpl_panic fits more start panics
          rw [decodeOne_eq start]
          cases impl : decodeOneImpl bin with
          | mk outcome stop =>
              rw [impl] at stopped
              obtain rfl : outcome = .panic := stopped
              rfl

/-- An instruction that has been decoded is decoded again from its own bytes. -/
theorem decodeOne_alone {bin : RegionIter} {startAddr : SegOff} {used : Nat} {nBytes : BitVec 16}
    {p : Prefixes} {fmt : InstrFmt} {operands : List Operand} (used_pos : 1 ≤ used)
    (reads : cursor.Reads (decodeParts startAddr) bin (p, fmt, operands) used used)
    (count : nBytes.toNat = used) (following : Bytes)
    (segment : startAddr.off.toNat + (bin.rest.take used ++ following).length < 65536) :
    (decodeOne (.new (bin.rest.take used ++ following) startAddr)).1 =
      .ok (some (⟨p.rep, fmt.op, operands, startAddr, nBytes, fmt.hidden⟩, bin.rest.take used)) := by
  have inside : used ≤ bin.rest.length := reads.inside
  have length : (bin.rest.take used).length = used := by
    rw [List.length_take, Nat.min_eq_left inside]
  let alone := RegionIter.new (bin.rest.take used ++ following) startAddr
  have fits : alone.Fits := ⟨segment, Nat.zero_le _⟩
  have rest : alone.rest = bin.rest.take used ++ following := rfl
  have taken : alone.rest.take used = bin.rest.take used := by
    rw [rest, List.take_append_of_le_length length.ge, List.take_of_length_le length.le]
  have more : alone.rest ≠ [] := by
    apply List.ne_nil_of_length_pos
    rw [rest, List.length_append, length]
    omega
  obtain ⟨startAddr', start, seg, off⟩ := RegionIter.addr_eq fits
  have same : startAddr' = startAddr := SegOff.ext_toNat seg off
  rw [same] at start
  have ran := reads.same alone fits ⟨following, rfl⟩
  have reads' : cursor.Reads (decodeParts startAddr) alone (p, fmt, operands) used used := by
    refine ⟨le_refl used, ?_, fun t fits' starts => reads.same t fits' ?_⟩
    · show used ≤ alone.rest.length
      rw [rest, List.length_append, length]
      omega
    · exact (show alone.rest.take used = _ from taken) ▸ starts
  obtain ⟨nBytes', count', decoded⟩ := decodeOneImpl_ok fits more start reads'
  have bytes : nBytes' = nBytes := BitVec.eq_of_toNat_eq (count'.trans count.symm)
  rw [decodeOne_eq start, decoded, taken, bytes]

theorem atomic_iff {bin : RegionIter} (fits : bin.Fits) :
    Atomic bin ↔ ¬MovesNoSegment bin.rest := by
  have position := fits.position
  have at_end : bin.rest = [] ↔ bin.off = bin.mem.length := by
    rw [RegionIter.rest, List.drop_eq_nil_iff]
    omega
  by_cases ended : bin.rest = []
  · have decoded := decodeOne_ended fits ended
    refine iff_of_true ?_ ?_
    · exact {
        safe := by simp [decoded]
        ended := by simp [decoded, at_end.mp ended]
        rollback := fun e stop ran => by simp [decoded] at ran
        consumes := fun instr raw stop ran => by simp [decoded] at ran
        alone := fun instr raw stop ran => by simp [decoded] at ran }
    · rintro ⟨_, opcode1, tail, found, _⟩
      simp [ended] at found
  · obtain ⟨startAddr, start, _⟩ := RegionIter.addr_eq fits
    have inner : bin.off ≠ bin.mem.length := fun same => ended (at_end.mpr same)
    obtain ⟨p, fmt, operands, used, used_pos, reads, nBytes, count, decoded⟩ | ⟨e, decoded⟩ |
      ⟨moves, panics⟩ := decodeOne_cases fits ended start
    · refine iff_of_true ?_ fun moves => ?_
      · have inside : used ≤ bin.rest.length := reads.inside
        rw [RegionIter.length_rest, RegionIter.bytesRemaining] at inside
        refine ⟨by simp [decoded], by simp [decoded, inner], fun e stop ran => ?_,
          fun instr raw stop ran => ?_, fun instr raw stop ran following segment => ?_⟩
        · simp [decoded] at ran
        · simp only [decoded, Prod.mk.injEq, Outcome.ok.injEq, Option.some.injEq] at ran
          obtain ⟨⟨rfl, rfl⟩, rfl⟩ := ran
          rw [count]
          exact ⟨used_pos, by omega, rfl, rfl⟩
        · simp only [decoded, Prod.mk.injEq, Outcome.ok.injEq, Option.some.injEq] at ran
          obtain ⟨⟨rfl, rfl⟩, rfl⟩ := ran
          exact decodeOne_alone used_pos reads count following segment
      · have panics := (decodeParts_panics_iff startAddr fits).mpr moves
        simp [reads.run_eq fits] at panics
    · refine iff_of_true ?_ fun moves => ?_
      · refine ⟨by simp [decoded], by simp [decoded, inner], fun e' stop ran => ?_,
          fun instr raw stop ran => ?_, fun instr raw stop ran => ?_⟩
        · rw [decoded, Prod.mk.injEq] at ran
          exact ran.2.symm
        · simp [decoded] at ran
        · simp [decoded] at ran
      · have panics := decodeOneImpl_panic fits ended start
          ((decodeParts_panics_iff startAddr fits).mpr moves)
        rw [decodeOne_eq start] at decoded
        cases impl : decodeOneImpl bin with
        | mk outcome stop =>
            rw [impl] at panics decoded
            obtain rfl : outcome = .panic := panics
            simp at decoded
    · exact iff_of_false (fun atomic => atomic.safe panics) (not_not_intro moves)

theorem subslice_length {data part : Bytes} {start stop : Nat} {E : Type}
    (sliced : Binary.subslice data start stop = (.ok part : Outcome E _)) :
    part.length = stop - start := by
  simp only [Binary.subslice, Outcome.bind_eq_ok, Outcome.require_eq_ok] at sliced
  obtain ⟨_, ordered, _, inside, same⟩ := sliced
  obtain rfl := Outcome.ok.inj same
  rw [List.length_take, List.length_drop]
  omega

theorem region_length {bin : Binary} {start stop : SegOff} {mem : Bytes} {E : Type}
    (made : bin.region start stop = (.ok mem : Outcome E _)) :
    mem.length = stop.off.toNat - start.off.toNat := by
  obtain ⟨_, _, sliced⟩ := Outcome.bind_eq_ok.mp made
  cases seg : start.seg with
  | normal seg =>
      rw [seg] at sliced
      rw [subslice_length sliced, Binary.absNormal, Binary.absNormal]
      omega
  | overlay num =>
      rw [seg] at sliced
      obtain ⟨data, _, sliced⟩ := Outcome.bind_eq_ok.mp sliced
      exact subslice_length sliced

/-- A region ends at an address of the segment in which it starts. -/
theorem regionIter_fits {bin : Binary} {start stop : SegOff} {iter : RegionIter} {E : Type}
    (made : bin.regionIter start stop = (.ok iter : Outcome E _)) : iter.Fits := by
  obtain ⟨mem, region, same⟩ := Outcome.bind_eq_ok.mp made
  obtain rfl := Outcome.ok.inj same
  have length := region_length region
  have stop_lt := stop.off.isLt
  have start_lt := start.off.isLt
  refine ⟨?_, Nat.zero_le _⟩
  show start.off.toNat + mem.length < 65536
  omega

/-- At every position of a region, decoding is total and atomic just when the bytes there do not
move a segment register that does not exist. -/
theorem decodeOne_atomic_iff (bin : Binary) (start stop : SegOff) (iter : RegionIter)
    (made : bin.regionIter start stop = (.ok iter : Outcome DecodeError _)) (pos : Nat)
    (inside : pos ≤ iter.mem.length) :
    Atomic { iter with off := pos } ↔ ¬MovesNoSegment (iter.mem.drop pos) :=
  atomic_iff ⟨(regionIter_fits made).segment, inside⟩

/-- At the two bytes of MOV AX,BX. -/
theorem decodeOne_move_atomic :
    Atomic ⟨[0x8b, 0xc3], .normal 0, 0, 0⟩ ↔ ¬MovesNoSegment [0x8b, 0xc3] :=
  decodeOne_atomic_iff ⟨[0x8b, 0xc3], []⟩ ⟨.normal 0, 0⟩ ⟨.normal 0, 2⟩
    ⟨[0x8b, 0xc3], .normal 0, 0, 0⟩ (by decide) 0 (by decide)

/-- The bytes of a MOV of AX to a fifth segment register panic in the decoder. -/
theorem decodeOne_fifth_segment_panics :
    ∃ iter, (⟨[0x8e, 0xe0], []⟩ : Binary).regionIter ⟨.normal 0, 0⟩ ⟨.normal 0, 2⟩ =
        (.ok iter : Outcome DecodeError _) ∧
      (decodeOne iter).1 = .panic ∧ ¬Atomic iter :=
  ⟨⟨[0x8e, 0xe0], .normal 0, 0, 0⟩, by decide, by decide, fun atomic => atomic.safe (by decide)⟩

end Dis86.Asm
