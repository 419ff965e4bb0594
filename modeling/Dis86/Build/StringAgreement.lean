import Dis86.Build.StringExact

namespace Dis86.Build
open Asm (Reg)
open Hydra (Hardware Arg Locals)
open Lib (countdown countdown_never countdown_simulates countdown_le)

variable {M : Type}

namespace StringInstr

variable {i : StringInstr} {hw : Hardware M} {pinAll : Bool} {entryFlags : BitVec 16}
  {addr : Asm.SegOff} {nBytes : BitVec 16}

theorem movs_runs (op : i.op = .movs) (s : Variables M) :
    (running hw true pinAll entryFlags).appendRepInstr (i.instr addr nBytes) s =
      let off := (s.vars .CX).val * i.element.size
      let mem := Hydra.repMovs i.element hw (s.vars i.seg).text (s.vars .SI).text (s.vars .ES).text
        (s.vars .DI).text (s.vars .CX).text s.mem
      some ((), ((({ s with mem := mem }).write pinAll .SI (.known ((s.vars .SI).val + off))).write
        pinAll .DI (.known ((s.vars .DI).val + off))).write pinAll .CX (.known 0)) := by
  obtain ⟨_, element, _, _, _⟩ := i
  cases op
  cases element <;> cases pinAll <;> rfl

theorem stos_runs (op : i.op = .stos) (s : Variables M) :
    (running hw true pinAll entryFlags).appendRepInstr (i.instr addr nBytes) s =
      let off := (s.vars .CX).val * i.element.size
      let mem := Hydra.repStos i.element hw (s.vars .ES).text (s.vars .DI).text (s.vars .CX).text
        (s.vars i.accumulator).text s.mem
      some ((), (({ s with mem := mem }).write pinAll .DI (.known ((s.vars .DI).val + off))).write
        pinAll .CX (.known 0)) := by
  obtain ⟨_, element, _, _, _⟩ := i
  cases op
  cases element <;> cases pinAll <;> rfl

theorem lods_runs (op : i.op = .lods) (s : Variables M) :
    (running hw true pinAll entryFlags).appendRepInstr (i.instr addr nBytes) s =
      let off := (s.vars .CX).val * i.element.size
      let val := Hydra.repLods i.element hw (s.vars i.seg).text (s.vars .SI).text (s.vars .CX).text
        (s.vars i.accumulator).text s.mem
      some ((), ((s.write pinAll i.accumulator (.known val)).write pinAll .SI
        (.known ((s.vars .SI).val + off))).write pinAll .CX (.known 0)) := by
  obtain ⟨_, element, _, _, _⟩ := i
  cases op
  cases element <;> cases pinAll <;> rfl

theorem cmps_runs (op : i.op = .cmps) (s : Variables M) :
    (running hw true pinAll entryFlags).appendRepInstr (i.instr addr nBytes) s =
      let ret := Hydra.repCmps i.element hw i.stopsAt (s.vars i.seg).text (s.vars .SI).text
        (s.vars .ES).text (s.vars .DI).text (s.vars .CX).text s.mem
      let off := ((s.vars .CX).val - ret) * i.element.size
      some ((), (((s.write pinAll .SI (.known ((s.vars .SI).val + off))).write pinAll .DI
        (.known ((s.vars .DI).val + off))).write pinAll .CX (.known ret)).set .FLAGS
          (.known entryFlags)) := by
  obtain ⟨_, element, _, _, rep⟩ := i
  cases op
  cases element <;> cases pinAll <;> cases rep <;> rfl

theorem scas_runs (op : i.op = .scas) (s : Variables M) :
    (running hw true pinAll entryFlags).appendRepInstr (i.instr addr nBytes) s =
      let ret := Hydra.repScas i.element hw i.stopsAt (s.vars .ES).text (s.vars .DI).text
        (s.vars .CX).text (s.vars i.accumulator).text s.mem
      let off := ((s.vars .CX).val - ret) * i.element.size
      some ((), ((s.write pinAll .DI (.known ((s.vars .DI).val + off))).write pinAll .CX
        (.known ret)).set .FLAGS (.known entryFlags)) := by
  obtain ⟨_, element, _, _, rep⟩ := i
  cases op
  cases element <;> cases pinAll <;> cases rep <;> rfl

/-- The memory that the macro leaves; its segments are evaluated again at each element. -/
def emittedMemory (i : StringInstr) (hw : Hardware M) {g : Guest M} (segs : Segments g) (n : Nat) : M :=
  ((walk (fun l => i.storeElement hw (fun seg => segs.text seg l.mem)
    (readRegister g.regs i.accumulator) l) i.siStep i.diStep)^[n] g.locals).mem

theorem start_segment {g : Guest M} (segs : Segments g) (cx : BitVec 16) {seg : Reg}
    (inside : seg ∈ segmentRegs) : (startVariables segs cx).vars seg = ⟨g.regs seg, segs.text seg⟩ :=
  if_pos inside

theorem start_source {g : Guest M} (segs : Segments g) (cx : BitVec 16) :
    ((startVariables segs cx).vars i.seg).text = segs.text i.seg := by
  rw [start_segment segs cx i.isSegment]

theorem start_accumulator {g : Guest M} (segs : Segments g) (cx : BitVec 16) :
    (startVariables segs cx).vars i.accumulator = .known (readRegister g.regs i.accumulator) := by
  obtain ⟨_, element, _, _, _⟩ := i
  cases element <;> rfl

theorem natCast_toNat (cx : BitVec 16) : (cx.toNat : BitVec 16) = cx := by simp

/-- The closed forms of the pointers and of the count are the registers after the elements. -/
theorem represents_advance {s : Variables M} {regs : Reg → BitVec 16} {n : Nat}
    (same : Represents s (Function.update (Function.update (Function.update regs .SI
      (regs .SI + n * i.siStep)) .DI (regs .DI + n * i.diStep)) .CX (regs .CX - n))) :
    Represents s (i.advance n regs) := by
  have equal : Function.update (Function.update (Function.update regs .SI
      (regs .SI + n * i.siStep)) .DI (regs .DI + n * i.diStep)) .CX (regs .CX - n) =
        i.advance n regs := by
    funext reg
    cases reg <;> rfl
  exact equal ▸ same

/-- A storing operation leaves the memory of its macro and the registers after all elements. -/
theorem storing_runs (storing : i.op = .movs ∨ i.op = .stos) {g : Guest M} (segs : Segments g)
    (cx : BitVec 16) : ∃ after,
      (running hw true pinAll entryFlags).appendRepInstr (i.instr addr nBytes)
        (startVariables segs cx) = some ((), after) ∧
      after.mem = i.emittedMemory hw segs cx.toNat ∧
      Represents after (i.advance cx.toNat (g.withCount cx).regs) := by
  have start := represents_start segs cx
  have empty : (g.withCount cx).regs .CX - cx = 0 := sub_self cx
  rcases storing with op | op
  · refine ⟨_, movs_runs op _, ?_, ?_⟩
    · simp only [write_mem, emittedMemory, start_source, storeElement, op, siStep, diStep]
      rfl
    · apply represents_advance
      simp only [natCast_toNat, empty, siStep, diStep, op]
      exact (((start.remember _).write pinAll .SI _).write pinAll .DI _).write pinAll .CX _
  · refine ⟨_, stos_runs op _, ?_, ?_⟩
    · have body (write : Locals M → M) (d : BitVec 16) :
          (fun l : Locals M => ⟨write l, l.si, l.di + d⟩) = walk write 0 d := by
        funext l
        rw [walk, add_zero]
      simp only [write_mem, emittedMemory, storeElement, op, siStep, diStep, start_accumulator,
        Hydra.repStos, Value.known_text, Hydra.Hardware.store_truncate, body]
      exact walk_forget (fun _ _ => rfl) i.element.size cx.toNat g.locals 0
    · apply represents_advance
      simp only [natCast_toNat, empty, siStep, diStep, op, mul_zero, add_zero,
        Function.update_eq_self]
      exact ((start.remember _).write pinAll .DI _).write pinAll .CX _

/-- Operations that only read keep the memory. -/
theorem mem_iterate (reads : i.op ≠ .movs ∧ i.op ≠ .stos) (g : Guest M) (n : Nat) :
    ((i.step hw)^[n] g).mem = g.mem := by
  induction n with
  | zero => rfl
  | succ n hypothesis =>
      rw [Function.iterate_succ_apply', step]
      unfold storeElement
      split
      next op => exact absurd op reads.1
      next op => exact absurd op reads.2
      all_goals exact hypothesis

theorem writeRegister_advance (n : Nat) (regs : Reg → BitVec 16) (v : BitVec 16) :
    writeRegister (i.advance n regs) i.accumulator v =
      i.advance n (writeRegister regs i.accumulator v) := by
  obtain ⟨op, element, _, _, _⟩ := i
  funext reg
  cases element <;> cases reg <;> rfl

theorem writeRegister_other (regs : Reg → BitVec 16) (v : BitVec 16) {reg : Reg} (apart : reg ≠ .AX) :
    writeRegister regs i.accumulator v reg = regs reg := by
  obtain ⟨_, element, _, _, _⟩ := i
  cases element <;> cases reg <;> first | rfl | exact absurd rfl apart

theorem writeRegister_again (regs : Reg → BitVec 16) (v w : BitVec 16) :
    writeRegister (writeRegister regs i.accumulator v) i.accumulator w =
      writeRegister regs i.accumulator w := by
  obtain ⟨_, element, _, _, _⟩ := i
  cases element with
  | byte =>
      have high : (regs .AX >>> 8 <<< 8 ||| v &&& 255#16) >>> 8 = regs .AX >>> 8 :=
        (high_of_word (regs .AX >>> 8) v).trans (high_byte (regs .AX))
      simp [writeRegister, accumulator, parent?, isHigh, high]
  | word => simp [writeRegister, accumulator, parent?]

theorem writeRegister_same (regs : Reg → BitVec 16) :
    writeRegister regs i.accumulator (i.element.truncate (readRegister regs i.accumulator)) = regs := by
  obtain ⟨_, element, _, _, _⟩ := i
  cases element with
  | byte =>
      have whole : regs .AX >>> 8 <<< 8 ||| ((regs .AX).setWidth 8).setWidth 16 &&& 255#16 &&& 255#16 =
          regs .AX := by
        apply BitVec.eq_of_getLsbD_eq
        intro k bound
        simp [getLsbD_byteMask]
        grind
      simp [writeRegister, accumulator, parent?, isHigh, readRegister, initStorageParent, regView,
        Hydra.Element.truncate, whole]
  | word => simp [writeRegister, accumulator, parent?, readRegister, initStorageParent, regView,
      Hydra.Element.truncate]

/-- The accumulator behind some elements has the last one. -/
def loaded (i : StringInstr) (hw : Hardware M) (g : Guest M) : Nat → Reg → BitVec 16
  | 0 => g.regs
  | n + 1 => writeRegister g.regs i.accumulator
      (hw.load i.element (g.regs i.seg) (g.regs .SI + n * i.siStep) g.mem)

theorem loaded_other (g : Guest M) (n : Nat) {reg : Reg} (apart : reg ≠ .AX) :
    i.loaded hw g n reg = g.regs reg := by
  cases n with
  | zero => rfl
  | succ n => exact writeRegister_other _ _ apart

theorem segment_ne {reg : Reg} (inside : reg ∈ segmentRegs) : reg ≠ .AX := by
  rintro rfl
  exact absurd inside (by decide)

theorem withCount_segment (g : Guest M) (cx : BitVec 16) :
    ∀ r ∈ segmentRegs, (g.withCount cx).regs r = g.regs r := by
  intro r inside
  cases r <;> first | rfl | exact absurd inside (by decide)

theorem loaded_iterate (reads : i.op = .lods) (g : Guest M) (n : Nat) :
    ((i.step hw)^[n] g).regs = i.advance n (i.loaded hw g n) := by
  induction n with
  | zero => exact (i.advance_zero g.regs).symm
  | succ n hypothesis =>
      have mem := @mem_iterate M i hw (by simp [reads]) g n
      have again (v : BitVec 16) : writeRegister (i.loaded hw g n) i.accumulator v =
          writeRegister g.regs i.accumulator v := by
        cases n with
        | zero => rfl
        | succ n => exact writeRegister_again _ _ _
      have pointer : i.advance n (i.loaded hw g n) .SI = g.regs .SI + n * i.siStep := by
        show i.loaded hw g n .SI + n * i.siStep = _
        rw [loaded_other g n (by decide)]
      rw [Function.iterate_succ_apply', step, accumulate, reads]
      simp only [hypothesis, mem, i.segment_advance n _ i.seg i.isSegment, pointer,
        loaded_other g n (segment_ne i.isSegment), writeRegister_advance, again]
      exact i.advance_succ n _

/-- Operations that do not compare run for the whole count. -/
theorem run_counted (counted : i.searches = false) (g : Guest M) :
    i.run hw g = (i.step hw)^[(g.regs .CX).toNat] g := by
  have never : ∀ g : Guest M, (i.step hw g, i.stops hw g).2 = false := by
    intro g
    obtain ⟨op, _, _, _, _⟩ := i
    cases op <;> first | rfl | cases counted
  rw [run_eq_iterate, remaining, countdown_never never, Nat.sub_zero]

/-- The value of the macro is what the last element has loaded. -/
theorem loaded_last (reads : i.op = .lods) {g : Guest M} (segs : Segments g) (cx : BitVec 16) :
    writeRegister (g.withCount cx).regs i.accumulator (Hydra.repLods i.element hw
      (segs.text i.seg) (fun _ => g.regs .SI) (fun _ => cx)
      (fun _ => readRegister g.regs i.accumulator) g.mem) =
        i.loaded hw (g.withCount cx) cx.toNat := by
  have text : segs.text i.seg g.mem = g.regs i.seg := segs.exact i.seg i.isSegment
  have source := withCount_segment g cx i.seg i.isSegment
  cases count : cx.toNat with
  | zero =>
      have zero : cx = 0 := BitVec.eq_of_toNat_eq count
      have same : readRegister g.regs i.accumulator =
          readRegister (g.withCount cx).regs i.accumulator := by
        obtain ⟨_, element, _, _, _⟩ := i
        cases element <;> rfl
      rw [Hydra.repLods, if_neg (not_not_intro zero), same, writeRegister_same, loaded]
  | succ n =>
      have nonzero : cx ≠ 0 := by
        intro zero
        rw [zero] at count
        cases count
      have before : (n : BitVec 16) = cx - 1 := by
        rw [← natCast_toNat cx, count, Nat.cast_succ]
        exact (add_sub_cancel_right (n : BitVec 16) 1).symm
      rw [Hydra.repLods, if_pos nonzero, text, loaded, source, siStep, reads, before]
      rfl

/-- The loads of the macro leave the registers of the instruction. -/
theorem loading_runs (reads : i.op = .lods) {g : Guest M} (segs : Segments g) (cx : BitVec 16) :
    ∃ after, (running hw true pinAll entryFlags).appendRepInstr (i.instr addr nBytes)
        (startVariables segs cx) = some ((), after) ∧ after.mem = g.mem ∧
      Represents after (i.advance cx.toNat (i.loaded hw (g.withCount cx) cx.toNat)) := by
  have start := represents_start segs cx
  refine ⟨_, lods_runs reads _, by simp only [write_mem]; rfl, ?_⟩
  have written := ((start.write pinAll i.accumulator (.known (Hydra.repLods i.element hw
    (segs.text i.seg) (fun _ => g.regs .SI) (fun _ => cx)
    (fun _ => readRegister g.regs i.accumulator) g.mem))).write pinAll .SI
    (.known (g.regs .SI + cx * i.element.size))).write pinAll .CX (.known 0)
  simp only [Value.known_val, loaded_last reads] at written
  have closed : writeRegister (writeRegister (i.loaded hw (g.withCount cx) cx.toNat) .SI
      (g.regs .SI + cx * i.element.size)) .CX 0 =
        i.advance cx.toNat (i.loaded hw (g.withCount cx) cx.toNat) := by
    have other {reg : Reg} (apart : reg ≠ .AX) :=
      @loaded_other M i hw (g.withCount cx) cx.toNat reg apart
    funext reg
    cases reg with
    | SI =>
        show g.regs .SI + cx * i.element.size = _
        rw [advance, other (by decide), natCast_toNat, siStep, reads]
        rfl
    | CX =>
        rw [advance, other (by decide), natCast_toNat]
        exact (sub_self cx).symm
    | DI =>
        rw [advance, diStep, reads, mul_zero, add_zero]
        rfl
    | _ => rfl
  rw [← closed]
  simp only [start_source, start_accumulator]
  exact written

theorem loads_agrees (reads : i.op = .lods) {g : Guest M} (segs : Segments g) (cx : BitVec 16) :
    i.Agrees hw addr nBytes pinAll entryFlags segs cx := by
  have counted : i.searches = false := by rw [searches, reads]
  have ended : i.run hw (g.withCount cx) = (i.step hw)^[cx.toNat] (g.withCount cx) :=
    run_counted counted (g.withCount cx)
  obtain ⟨after, ran, mem, registers⟩ :=
    @loading_runs M i hw pinAll entryFlags addr nBytes reads g segs cx
  refine ⟨after, ran, ?_, fun reg _ => ?_⟩
  · rw [mem, ended]
    exact (mem_iterate (by simp [reads]) (g.withCount cx) cx.toNat).symm
  · rw [registers reg, ended, loaded_iterate reads]

/-- The local copies of a search follow the guest registers. -/
structure Follows (i : StringInstr) (g : Guest M) (l : Locals M) (at' : Guest M) : Prop where
  kept : l.mem = g.mem ∧ at'.mem = g.mem
  source : i.op = .cmps → l.si = at'.regs .SI
  destination : l.di = at'.regs .DI
  advanced : ∃ n, at'.regs = i.advance n g.regs

theorem Follows.step {g at' : Guest M} {l : Locals M} (follows : i.Follows g l at')
    (searching : i.searches = true) :
    i.Follows g ⟨l.mem, l.si + i.siStep, l.di + i.element.size⟩ (i.step hw at') := by
  have fixed : i.op ≠ .lods := by
    intro op
    rw [searches, op] at searching
    cases searching
  have reads : i.op ≠ .movs ∧ i.op ≠ .stos := by
    constructor <;> intro op <;> (rw [searches, op] at searching; cases searching)
  have moves : i.diStep = i.element.size := by
    cases op : i.op <;> first | exact absurd op fixed | simp only [diStep, op]
  obtain ⟨n, regs⟩ := follows.advanced
  have regs' : (i.step hw at').regs = i.advance 1 at'.regs := by
    rw [StringInstr.step, i.accumulate_of_fixed hw fixed]
  refine ⟨⟨follows.kept.1, ?_⟩, ?_, ?_, n + 1, ?_⟩
  · exact (mem_iterate reads at' 1).trans follows.kept.2
  · intro op
    rw [regs', advance, Nat.cast_one, one_mul, ← follows.source op]
  · rw [regs', advance, Nat.cast_one, one_mul, ← follows.destination, moves]
  · rw [regs', regs, i.advance_succ]

theorem Follows.segment {g at' : Guest M} {l : Locals M} {cx : BitVec 16} (segs : Segments g)
    (follows : i.Follows (g.withCount cx) l at') {reg : Reg} (inside : reg ∈ segmentRegs) :
    segs.text reg (g.withCount cx).mem = at'.regs reg := by
  obtain ⟨n, regs⟩ := follows.advanced
  rw [regs, i.segment_advance n _ reg inside, withCount_segment g cx reg inside]
  exact segs.exact reg inside

/-- A repeated comparison leaves the count that its macro returns. -/
theorem cmps_remaining (op : i.op = .cmps) {g : Guest M} (segs : Segments g) (cx : BitVec 16) :
    let vars := (startVariables segs cx).vars
    Hydra.repCmps i.element hw i.stopsAt (vars i.seg).text (vars .SI).text (vars .ES).text
      (vars .DI).text (vars .CX).text (startVariables segs cx).mem =
        .ofNat 16 (i.remaining hw (g.withCount cx)) := by
  have searching : i.searches = true := by rw [searches, op]
  simp only [Hydra.repCmps, remaining, start_source]
  apply congrArg
  apply countdown_simulates (R := i.Follows (g.withCount cx))
  · intro l at' follows
    have source : i.siStep = i.element.size := by rw [siStep, op]
    refine ⟨source ▸ follows.step searching, ?_⟩
    have ds := follows.segment segs i.isSegment
    have es : ((startVariables segs cx).vars .ES).text (g.withCount cx).mem = at'.regs .ES :=
      follows.segment segs (by decide)
    simp only [stops, op, follows.source op, follows.destination, follows.kept.1, follows.kept.2, ds, es]
  · exact ⟨⟨rfl, rfl⟩, fun _ => rfl, rfl, 0, (i.advance_zero _).symm⟩

/-- A repeated scan leaves the count that its macro returns. -/
theorem scas_remaining (op : i.op = .scas) {g : Guest M} (segs : Segments g) (cx : BitVec 16) :
    let vars := (startVariables segs cx).vars
    Hydra.repScas i.element hw i.stopsAt (vars .ES).text (vars .DI).text (vars .CX).text
      (vars i.accumulator).text (startVariables segs cx).mem =
        .ofNat 16 (i.remaining hw (g.withCount cx)) := by
  have searching : i.searches = true := by rw [searches, op]
  have masked : i.element.truncate (readRegister g.regs i.accumulator) =
      readRegister (g.withCount cx).regs i.accumulator := by
    obtain ⟨_, element, _, _, _⟩ := i
    cases element with
    | byte =>
        apply BitVec.eq_of_getLsbD_eq
        intro k bound
        simp [readRegister, accumulator, initStorageParent, parent?, regView, isHigh,
          Hydra.Element.truncate, Guest.withCount, getLsbD_byteMask]
        grind
    | word => rfl
  simp only [Hydra.repScas, remaining, start_accumulator, Value.known_text]
  apply congrArg
  apply countdown_simulates (R := i.Follows (g.withCount cx))
  · intro l at' follows
    have acc : readRegister at'.regs i.accumulator =
        readRegister (g.withCount cx).regs i.accumulator := by
      obtain ⟨n, regs⟩ := follows.advanced
      rw [regs, i.accumulator_advance]
    have es : ((startVariables segs cx).vars .ES).text (g.withCount cx).mem = at'.regs .ES :=
      follows.segment segs (by decide)
    have still : i.siStep = 0 := by rw [siStep, op]
    have moved : i.Follows (g.withCount cx) ⟨l.mem, l.si + i.siStep, l.di + i.element.size⟩
        (i.step hw at') := follows.step searching
    rw [still, add_zero] at moved
    refine ⟨moved, ?_⟩
    simp only [stops, op, follows.destination, follows.kept.1, follows.kept.2, masked, acc, es]
  · exact ⟨⟨rfl, rfl⟩, fun cmps => absurd (op.symm.trans cmps) (by decide), rfl, 0,
      (i.advance_zero _).symm⟩

theorem remaining_le (g : Guest M) : i.remaining hw g ≤ (g.regs .CX).toNat := countdown_le _ _ _

/-- The elements that a search has passed are the difference of the counts. -/
theorem passed_eq {g : Guest M} (cx : BitVec 16) :
    ((cx.toNat - i.remaining hw (g.withCount cx) : Nat) : BitVec 16) =
      cx - .ofNat 16 (i.remaining hw (g.withCount cx)) := by
  have within : i.remaining hw (g.withCount cx) ≤ cx.toNat := i.remaining_le (g.withCount cx)
  rw [Nat.cast_sub within, natCast_toNat, BitVec.natCast_eq_ofNat]

theorem searches_agrees (searching : i.searches = true) {g : Guest M} (segs : Segments g)
    (cx : BitVec 16) : i.Agrees hw addr nBytes pinAll entryFlags segs cx := by
  have start := represents_start segs cx
  have fixed : i.op ≠ .lods ∧ i.op ≠ .movs ∧ i.op ≠ .stos := by
    refine ⟨?_, ?_, ?_⟩ <;> intro op <;> (rw [searches, op] at searching; cases searching)
  have ended : i.run hw (g.withCount cx) =
      (i.step hw)^[cx.toNat - i.remaining hw (g.withCount cx)] (g.withCount cx) :=
    i.run_eq_iterate hw (g.withCount cx)
  have mem : (i.run hw (g.withCount cx)).mem = g.mem := by
    rw [ended]
    exact mem_iterate fixed.2 (g.withCount cx) _
  have passed := @passed_eq M i hw g cx
  have left : cx - (cx - .ofNat 16 (i.remaining hw (g.withCount cx))) =
      .ofNat 16 (i.remaining hw (g.withCount cx)) := sub_sub_cancel cx _
  have registers {s : Variables M} (written : Represents s
      (i.advance (cx.toNat - i.remaining hw (g.withCount cx)) (g.withCount cx).regs)) {reg : Reg}
      (allowed : reg = .FLAGS → i.searches = false) :
      ((s.set .FLAGS (.known entryFlags)).vars reg).val =
        readRegister (i.run hw (g.withCount cx)).regs reg := by
    have apart : reg ≠ .FLAGS := by
      intro flags
      rw [allowed flags] at searching
      cases searching
    rw [Variables.set_of_ne _ apart, written reg, ended, i.regs_iterate hw fixed.1]
  cases op : i.op with
  | cmps =>
      refine ⟨_, cmps_runs op _, ?_, fun reg allowed => ?_⟩
      · rw [mem]
        simp only [Variables.set_mem, write_mem]
        rfl
      · refine registers ?_ allowed
        apply represents_advance
        have count := @cmps_remaining M i hw op g segs cx
        have empty : (g.withCount cx).regs .CX - (cx - .ofNat 16 (i.remaining hw (g.withCount cx))) =
            .ofNat 16 (i.remaining hw (g.withCount cx)) := left
        simp only at count
        simp only [count, passed, empty, siStep, diStep, op]
        exact ((start.write pinAll .SI _).write pinAll .DI _).write pinAll .CX _
  | scas =>
      refine ⟨_, scas_runs op _, ?_, fun reg allowed => ?_⟩
      · rw [mem]
        simp only [Variables.set_mem, write_mem]
        rfl
      · refine registers ?_ allowed
        apply represents_advance
        have count := @scas_remaining M i hw op g segs cx
        have empty : (g.withCount cx).regs .CX - (cx - .ofNat 16 (i.remaining hw (g.withCount cx))) =
            .ofNat 16 (i.remaining hw (g.withCount cx)) := left
        simp only at count
        simp only [count, passed, empty, siStep, diStep, op, mul_zero, add_zero,
          Function.update_eq_self]
        exact (start.write pinAll .DI _).write pinAll .CX _
  | movs => exact absurd op fixed.2.1
  | stos => exact absurd op fixed.2.2
  | lods => exact absurd op fixed.1

theorem accumulator_withCount (g : Guest M) (cx : BitVec 16) :
    readRegister (g.withCount cx).regs i.accumulator = readRegister g.regs i.accumulator := by
  obtain ⟨_, element, _, _, _⟩ := i
  cases element <;> rfl

/-- The memory of a storing operation is that of a walk with the segment registers. -/
theorem run_storing (storing : i.op = .movs ∨ i.op = .stos) (g : Guest M) (cx : BitVec 16) :
    (i.run hw (g.withCount cx)).mem =
      ((walk (i.storeElement hw g.regs (readRegister g.regs i.accumulator)) i.siStep i.diStep)^[cx.toNat]
        g.locals).mem := by
  have fixed : i.op ≠ .lods := by
    rintro op
    simp [op] at storing
  have counted : i.searches = false := by
    rcases storing with op | op <;> rw [searches, op]
  have sameStore : i.storeElement hw (g.withCount cx).regs
      (readRegister (g.withCount cx).regs i.accumulator) =
        i.storeElement hw g.regs (readRegister g.regs i.accumulator) := by
    funext l
    rw [accumulator_withCount]
    exact i.storeElement_congr hw (withCount_segment g cx) _ l
  have walked := i.locals_iterate hw fixed (g := g.withCount cx) cx.toNat
  rw [sameStore] at walked
  rw [run_counted counted]
  exact congrArg Locals.mem walked

/-- A storing operation agrees for a count just when its macro leaves the same memory. -/
theorem storing_agrees_iff (storing : i.op = .movs ∨ i.op = .stos) {g : Guest M} (segs : Segments g)
    (cx : BitVec 16) : i.Agrees hw addr nBytes pinAll entryFlags segs cx ↔
      i.emittedMemory hw segs cx.toNat =
        ((walk (i.storeElement hw g.regs (readRegister g.regs i.accumulator)) i.siStep
          i.diStep)^[cx.toNat] g.locals).mem := by
  have fixed : i.op ≠ .lods := by
    rintro op
    simp [op] at storing
  have counted : i.searches = false := by
    rcases storing with op | op <;> rw [searches, op]
  obtain ⟨after, ran, mem, registers⟩ :=
    @storing_runs M i hw pinAll entryFlags addr nBytes storing g segs cx
  rw [← run_storing storing, ← mem]
  constructor
  · rintro ⟨after', ran', mem', _⟩
    obtain rfl : after = after' := by
      rw [ran] at ran'
      exact (Prod.mk.inj (Option.some.inj ran')).2
    exact mem'
  · intro same
    refine ⟨after, ran, same, fun reg _ => ?_⟩
    rw [registers reg, run_counted counted, i.regs_iterate hw fixed]
    rfl

/-- A store agrees at an element just when the walks write alike there. -/
theorem storesAgree_iff (storing : i.op = .movs ∨ i.op = .stos) {g : Guest M} (segs : Segments g)
    (k : Nat) : i.StoresAgree hw segs ((i.step hw)^[k] g) ↔
      let l := (walk (i.storeElement hw g.regs (readRegister g.regs i.accumulator)) i.siStep
        i.diStep)^[k] g.locals
      i.storeElement hw (fun seg => segs.text seg l.mem) (readRegister g.regs i.accumulator) l =
        i.storeElement hw g.regs (readRegister g.regs i.accumulator) l := by
  have fixed : i.op ≠ .lods := by
    rintro op
    simp [op] at storing
  have mem : ((i.step hw)^[k] g).mem = ((i.step hw)^[k] g).locals.mem := rfl
  rw [StoresAgree, mem, i.locals_iterate hw fixed, i.regs_iterate hw fixed, i.accumulator_advance,
    i.storeElement_congr hw (i.segment_advance k g.regs)]

theorem forall_count {P : Nat → Prop} : (∀ cx : BitVec 16, P cx.toNat) ↔ ∀ n ≤ 65535, P n := by
  constructor
  · intro all n within
    have count : (BitVec.ofNat 16 n).toNat = n := by
      rw [BitVec.toNat_ofNat, Nat.mod_eq_of_lt (by omega)]
    exact count ▸ all (.ofNat 16 n)
  · intro all cx
    have bound := cx.isLt
    exact all cx.toNat (by omega)

/-- The lowered code is the instruction for every count just when the segment texts, evaluated again
at an element, lead to the same store as the segment registers. Operations that do not store always
agree. -/
theorem lowered_agrees_iff (i : StringInstr) (hw : Hardware M) (addr : Asm.SegOff)
    (nBytes : BitVec 16) (pinAll : Bool) (entryFlags : BitVec 16) (g : Guest M) (segs : Segments g) :
    (∀ cx, i.Agrees hw addr nBytes pinAll entryFlags segs cx) ↔
      ∀ k < 65535, i.StoresAgree hw segs ((i.step hw)^[k] g) := by
  by_cases storing : i.op = .movs ∨ i.op = .stos
  · simp only [storing_agrees_iff storing, storesAgree_iff storing, emittedMemory]
    rw [forall_count (P := fun n => ((walk _ _ _)^[n] g.locals).mem = ((walk _ _ _)^[n] g.locals).mem),
      walk_agree_iff]
  · have always : ∀ k < 65535, i.StoresAgree hw segs ((i.step hw)^[k] g) := by
      intro k _
      rw [not_or] at storing
      unfold StoresAgree storeElement
      split
      next op => exact absurd op storing.1
      next op => exact absurd op storing.2
      all_goals rfl
    refine iff_of_true (fun cx => ?_) always
    cases searching : i.searches with
    | true => exact searches_agrees searching segs cx
    | false =>
        have reads : i.op = .lods := by
          cases op : i.op <;> simp_all [searches]
        exact loads_agrees reads segs cx

end StringInstr

end Dis86.Build
