import Dis86.Build.RegisterViews
import Mathlib.Tactic.Ring

namespace Dis86.Build
open Asm (Reg)
open Hydra (Hardware Arg Locals)
open Lib (countdown countdown_state countdown_never countdown_simulates countdown_le
  iterates_agree_iff)

variable {M : Type}

/-- A loop that writes at two pointers and moves them. -/
def walk (write : Locals M → M) (si di : BitVec 16) (l : Locals M) : Locals M :=
  ⟨write l, l.si + si, l.di + di⟩

theorem walk_pointers (write : Locals M → M) (si di : BitVec 16) (l : Locals M) (n : Nat) :
    ((walk write si di)^[n] l).si = l.si + n * si ∧ ((walk write si di)^[n] l).di = l.di + n * di := by
  induction n with
  | zero => simp
  | succ n hypothesis =>
      rw [Function.iterate_succ_apply', walk, hypothesis.1, hypothesis.2]
      rw [Nat.cast_succ, add_mul, one_mul, add_mul, one_mul]
      exact ⟨add_assoc _ _ _, add_assoc _ _ _⟩

/-- A pointer that a walk neither reads nor moves does not matter. -/
theorem walk_forget {write : Locals M → M} (ignores : ∀ l si, write { l with si := si } = write l)
    (di : BitVec 16) (n : Nat) (l : Locals M) (si : BitVec 16) :
    ((walk write 0 di)^[n] { l with si := si }).mem = ((walk write 0 di)^[n] l).mem := by
  have replaced : Function.Semiconj (fun l : Locals M => { l with si := si }) (walk write 0 di)
      (walk write 0 di) := by
    intro l
    simp [walk, ignores]
  rw [← (replaced.iterate_right n).eq l]

/-- Two walks leave the same memory for every count just when each write of the first one acts as
that of the second one. -/
theorem walk_agree_iff {write write' : Locals M → M} {si di : BitVec 16} {l : Locals M} {bound : Nat} :
    (∀ n ≤ bound, ((walk write si di)^[n] l).mem = ((walk write' si di)^[n] l).mem) ↔
      ∀ n < bound, write ((walk write' si di)^[n] l) = write' ((walk write' si di)^[n] l) := by
  have whole (n : Nat) : ((walk write si di)^[n] l).mem = ((walk write' si di)^[n] l).mem ↔
      (walk write si di)^[n] l = (walk write' si di)^[n] l := by
    have pointers := walk_pointers write si di l n
    have pointers' := walk_pointers write' si di l n
    constructor
    · intro same
      generalize (walk write si di)^[n] l = a at *
      generalize (walk write' si di)^[n] l = b at *
      cases a
      cases b
      simp_all
    · intro same
      rw [same]
  simp only [whole, iterates_agree_iff]
  apply forall₂_congr
  intro n _
  simp [walk]

namespace StringInstr

variable (i : StringInstr) (hw : Hardware M)

/-- An element reads its segments from the segment registers only. -/
theorem storeElement_congr {seg seg' : Reg → BitVec 16} (same : ∀ r ∈ segmentRegs, seg r = seg' r)
    (acc : BitVec 16) (l : Locals M) :
    i.storeElement hw seg acc l = i.storeElement hw seg' acc l := by
  have es := same .ES (by decide)
  have source := same i.seg i.isSegment
  simp only [storeElement, es, source]

theorem advance_zero (regs : Reg → BitVec 16) : i.advance 0 regs = regs := by
  funext reg
  cases reg <;> simp [advance]

theorem advance_succ (n : Nat) (regs : Reg → BitVec 16) :
    i.advance 1 (i.advance n regs) = i.advance (n + 1) regs := by
  funext reg
  cases reg with
  | CX | SI | DI =>
      simp only [advance]
      push_cast
      ring
  | _ => rfl

/-- A register outside the counter and the pointers stays. -/
theorem readRegister_advance (n : Nat) (regs : Reg → BitVec 16) {reg : Reg}
    (apart : initStorageParent reg ∉ [Reg.CX, .SI, .DI]) :
    readRegister (i.advance n regs) reg = readRegister regs reg := by
  rw [readRegister, readRegister]
  cases same : initStorageParent reg <;> first | rfl | (rw [same] at apart; simp at apart)

theorem segment_advance (n : Nat) (regs : Reg → BitVec 16) :
    ∀ r ∈ segmentRegs, i.advance n regs r = regs r := by
  intro r inside
  cases r <;> first | rfl | exact absurd inside (by decide)

theorem accumulator_advance (n : Nat) (regs : Reg → BitVec 16) :
    readRegister (i.advance n regs) i.accumulator = readRegister regs i.accumulator := by
  apply i.readRegister_advance
  unfold accumulator
  split <;> decide

section
variable {i} {g : Guest M} (fixed : i.op ≠ .lods)
include fixed

theorem accumulate_of_fixed (g : Guest M) : i.accumulate hw g = g.regs := by
  unfold accumulate
  split
  next lods => exact absurd lods fixed
  all_goals rfl

theorem regs_iterate (n : Nat) : ((i.step hw)^[n] g).regs = i.advance n g.regs := by
  induction n with
  | zero => exact (i.advance_zero g.regs).symm
  | succ n hypothesis =>
      rw [Function.iterate_succ_apply', step, accumulate_of_fixed hw fixed, hypothesis]
      exact i.advance_succ n g.regs

/-- The elements walk over the memory with the segments and the accumulator of the start. -/
theorem locals_iterate (n : Nat) : ((i.step hw)^[n] g).locals =
    (walk (i.storeElement hw g.regs (readRegister g.regs i.accumulator)) i.siStep i.diStep)^[n]
      g.locals := by
  induction n with
  | zero => rfl
  | succ n hypothesis =>
      have regs := regs_iterate hw fixed (g := g) n
      rw [Function.iterate_succ_apply', Function.iterate_succ_apply', ← hypothesis]
      simp only [walk, step, Guest.locals, accumulate_of_fixed hw fixed, regs,
        i.accumulator_advance n, Locals.mk.injEq]
      refine ⟨i.storeElement_congr hw (i.segment_advance n g.regs) _ _, ?_, ?_⟩ <;>
        simp [advance]

end

theorem accumulate_counter (g : Guest M) : i.accumulate hw g .CX = g.regs .CX := by
  obtain ⟨op, element, _, _, _⟩ := i
  cases op <;> cases element <;> rfl

/-- The count that the loop leaves. -/
def remaining (g : Guest M) : Nat :=
  (countdown (fun g => (i.step hw g, i.stops hw g)) (g.regs .CX).toNat g).1

theorem run_eq_iterate (g : Guest M) :
    i.run hw g = (i.step hw)^[(g.regs .CX).toNat - i.remaining hw g] g :=
  countdown_state (fun g => (i.step hw g, i.stops hw g)) (g.regs .CX).toNat g

/-- The repetition unrolled: it ends at a zero count, or behind an element that stops it. -/
theorem run_unroll (g : Guest M) :
    i.run hw g =
      if g.regs .CX = 0 then g
      else if i.stops hw g then i.step hw g else i.run hw (i.step hw g) := by
  have next : ((i.step hw g).regs .CX) = g.regs .CX - 1 := by
    show i.accumulate hw g .CX - ((1 : Nat) : BitVec 16) = _
    rw [i.accumulate_counter]
    rfl
  have bound := (g.regs .CX).isLt
  unfold run
  cases count : (g.regs .CX).toNat with
  | zero => rw [if_pos (BitVec.eq_of_toNat_eq (by simpa using count)), countdown]
  | succ n =>
      have nonzero : g.regs .CX ≠ 0 := by
        intro zero
        rw [zero] at count
        cases count
      have left : (g.regs .CX - 1).toNat = n := by
        rw [BitVec.toNat_sub_of_le]
        · simp [count]
        · rw [BitVec.le_def]
          simp [count]
      rw [if_neg nonzero, next, left, countdown]
      split <;> rfl

end StringInstr

end Dis86.Build
