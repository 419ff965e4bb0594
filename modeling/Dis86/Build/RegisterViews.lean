import Dis86.Build.StringLoop

namespace Dis86.Build
open Asm (Reg Operand OperandMem)
open Hydra (Hardware Arg Locals)

variable {M : Type}

theorem getLsbD_byteMask (k : Nat) : (255#16).getLsbD k = decide (k < 8) := by
  by_cases bound : k < 16
  · have all : ∀ k : Fin 16, (255#16).getLsbD k = decide ((k : Nat) < 8) := by decide
    exact all ⟨k, bound⟩
  · rw [BitVec.getLsbD_of_ge _ _ (by omega)]
    exact (decide_eq_false (by omega)).symm

theorem high_byte (v : BitVec 16) : (v >>> 8) &&& (0xFF : BitVec 16) = v >>> 8 := by
  apply BitVec.eq_of_getLsbD_eq
  intro k bound
  simp [getLsbD_byteMask]
  grind

theorem low_of_word (h l : BitVec 16) :
    (h <<< 8 ||| l &&& (0xFF : BitVec 16)) &&& (0xFF : BitVec 16) = l &&& (0xFF : BitVec 16) := by
  apply BitVec.eq_of_getLsbD_eq
  intro k bound
  simp [getLsbD_byteMask]
  grind

theorem high_of_word (h l : BitVec 16) :
    (h <<< 8 ||| l &&& (0xFF : BitVec 16)) >>> 8 = h &&& (0xFF : BitVec 16) := by
  apply BitVec.eq_of_getLsbD_eq
  intro k bound
  simp [getLsbD_byteMask]
  grind

/-- The variables have the values of the register views. -/
def Represents (s : Variables M) (regs : Reg → BitVec 16) : Prop :=
  ∀ reg, (s.vars reg).val = readRegister regs reg

theorem represents_start {g : Guest M} (segs : Segments g) (cx : BitVec 16) :
    Represents (startVariables segs cx) (g.withCount cx).regs := by
  intro reg
  cases reg <;> rfl

theorem Represents.remember {s : Variables M} {regs : Reg → BitVec 16} (same : Represents s regs)
    (mem : M) : Represents { s with mem := mem } regs := same

@[simp] theorem write_mem (s : Variables M) (pinAll : Bool) (reg : Reg) (v : Value M) :
    (s.write pinAll reg v).mem = s.mem := by
  cases reg <;> rfl

theorem readRegister_update (regs : Reg → BitVec 16) (full other : Reg) (v : BitVec 16) :
    readRegister (Function.update regs full v) other =
      if initStorageParent other = full then regView other v else readRegister regs other := by
  unfold readRegister
  split
  next same => rw [same, Function.update_self]
  next apart => rw [Function.update_of_ne apart]

/-- The three views of a register of two bytes. -/
structure Views (full lo hi : Reg) : Prop where
  split : fragments? full = some (lo, hi)
  whole : parent? full = none
  low : parent? lo = some full ∧ isHigh lo = false ∧ fragments? lo = none
  high : parent? hi = some full ∧ isHigh hi = true ∧ fragments? hi = none
  apart : lo ≠ full ∧ hi ≠ full ∧ lo ≠ hi
  only : ∀ other, initStorageParent other = full → other = full ∨ other = lo ∨ other = hi

theorem views_of_fragments {full lo hi : Reg} (split : fragments? full = some (lo, hi)) :
    Views full lo hi := by
  cases full <;> cases split <;>
    exact ⟨rfl, rfl, ⟨rfl, rfl, rfl⟩, ⟨rfl, rfl, rfl⟩, by decide, by intro other; cases other <;> decide⟩

theorem views_of_parent {reg full : Reg} (part : parent? reg = some full) :
    ∃ lo hi, Views full lo hi ∧ (reg = lo ∨ reg = hi) := by
  cases reg <;> cases part <;> exact ⟨_, _, views_of_fragments rfl, by decide⟩

/-- A register without bytes is the only view of itself. -/
theorem eq_of_plain {reg other : Reg} (split : fragments? reg = none)
    (inside : initStorageParent other = reg) : other = reg := by
  subst inside
  cases other <;> first | rfl | cases split

section
variable {s : Variables M} {regs : Reg → BitVec 16} {full lo hi : Reg}

/-- Three views that fit together represent their register. -/
theorem Represents.views (same : Represents s regs) (views : Views full lo hi) {s' : Variables M}
    {word : BitVec 16} (whole : (s'.vars full).val = word) (low : (s'.vars lo).val = word &&& 0xFF)
    (high : (s'.vars hi).val = word >>> 8)
    (others : ∀ other, other ≠ full → other ≠ lo → other ≠ hi → s'.vars other = s.vars other) :
    Represents s' (Function.update regs full word) := by
  intro other
  rw [readRegister_update]
  split
  next inside =>
    rcases views.only other inside with rfl | rfl | rfl
    · rw [whole, regView, if_pos views.whole]
    · simp [low, regView, views.low.1, views.low.2.1]
    · simp [high, regView, views.high.1, views.high.2.1]
  next outside =>
    have storage : initStorageParent full = full := by simp [initStorageParent, views.whole]
    have lowStorage : initStorageParent lo = full := by simp [initStorageParent, views.low.1]
    have highStorage : initStorageParent hi = full := by simp [initStorageParent, views.high.1]
    rw [others other (fun equal => outside (equal ▸ storage)) (fun equal => outside (equal ▸ lowStorage))
      (fun equal => outside (equal ▸ highStorage))]
    exact same other

/-- A register is written with all its views, and a byte with the register that it is part of. -/
theorem Represents.write (same : Represents s regs) (pinAll : Bool) (reg : Reg) (v : Value M) :
    Represents (s.write pinAll reg v) (writeRegister regs reg v.val) := by
  generalize pinned : (if pinAll then Value.known v.val else v) = w
  have value : w.val = v.val := by
    subst pinned
    cases pinAll <;> rfl
  cases split : fragments? reg with
  | some pair =>
      obtain ⟨lo, hi⟩ := pair
      have views := views_of_fragments split
      obtain ⟨lowApart, highApart, apart⟩ := views.apart
      have written : s.write pinAll reg v = ((s.set reg w).set lo (.known (w.val &&& 0xFF))).set hi
          (.known ((w.val >>> 8) &&& 0xFF)) := by
        simp only [Variables.write, split, pinned]
      rw [writeRegister, views.whole, written, value]
      apply same.views views
      · rw [Variables.set_of_ne _ highApart.symm, Variables.set_of_ne _ lowApart.symm,
          Variables.set_self, value]
      · rw [Variables.set_of_ne _ apart, Variables.set_self, Value.known_val]
      · rw [Variables.set_self, Value.known_val, high_byte]
      · intro other notFull notLow notHigh
        rw [Variables.set_of_ne _ notHigh, Variables.set_of_ne _ notLow,
          Variables.set_of_ne _ notFull]
  | none =>
      cases part : parent? reg with
      | none =>
          have written : s.write pinAll reg v = s.set reg w := by
            simp only [Variables.write, split, part, pinned]
          rw [writeRegister, part, written]
          intro other
          rw [readRegister_update]
          split
          next inside =>
            rw [eq_of_plain split inside, Variables.set_self, value, regView, if_pos part]
          next outside =>
            have apart : other ≠ reg := by
              intro equal
              exact outside (by rw [equal, initStorageParent, part, Option.getD_none])
            rw [Variables.set_of_ne _ apart]
            exact same other
      | some full =>
          obtain ⟨lo, hi, views, half⟩ := views_of_parent part
          obtain ⟨lowApart, highApart, apart⟩ := views.apart
          have word := same full
          rw [readRegister, initStorageParent, views.whole, Option.getD_none, regView,
            if_pos views.whole] at word
          rw [writeRegister, part]
          rcases half with rfl | rfl
          · have high : (s.vars hi).val = regs full >>> 8 := by
              rw [same hi, readRegister, initStorageParent, views.high.1, Option.getD_some, regView,
                if_neg (by simp [views.high.1]), if_pos views.high.2.1]
            have written : s.write pinAll reg v = ((s.set reg w).set reg (.known (v.val &&& 0xFF))).set full
                (.known (regs full >>> 8 <<< 8 ||| v.val &&& 0xFF)) := by
              simp only [Variables.write, split, part, pinned, views.split, Variables.set_self,
                Value.known_val, value, Variables.set_of_ne _ apart.symm, high]
            rw [written]
            simp only [views.low.2.1]
            apply same.views views
            · rw [Variables.set_self, Value.known_val, if_neg Bool.false_ne_true]
            · rw [Variables.set_of_ne _ lowApart, Variables.set_self, Value.known_val,
                if_neg Bool.false_ne_true, low_of_word]
            · rw [Variables.set_of_ne _ highApart, Variables.set_of_ne _ apart.symm,
                Variables.set_of_ne _ apart.symm, high, if_neg Bool.false_ne_true, high_of_word,
                high_byte]
            · intro other notFull notLow notHigh
              rw [Variables.set_of_ne _ notFull, Variables.set_of_ne _ notLow,
                Variables.set_of_ne _ notLow]
          · have low : (s.vars lo).val = regs full &&& 0xFF := by
              rw [same lo, readRegister, initStorageParent, views.low.1, Option.getD_some, regView,
                if_neg (by simp [views.low.1]), if_neg (by simp [views.low.2.1])]
            have written : s.write pinAll reg v = ((s.set reg w).set reg (.known (v.val &&& 0xFF))).set full
                (.known ((v.val &&& 0xFF) <<< 8 ||| regs full &&& 0xFF)) := by
              simp only [Variables.write, split, part, pinned, views.split, Variables.set_self,
                Value.known_val, value, Variables.set_of_ne _ apart, low]
            rw [written]
            simp only [views.high.2.1]
            apply same.views views
            · rw [Variables.set_self, Value.known_val, if_pos trivial]
            · rw [Variables.set_of_ne _ lowApart, Variables.set_of_ne _ apart,
                Variables.set_of_ne _ apart, low, if_pos trivial, low_of_word]
            · rw [Variables.set_of_ne _ highApart, Variables.set_self, Value.known_val, if_pos trivial,
                high_of_word, BitVec.and_assoc, BitVec.and_self]
            · intro other notFull notLow notHigh
              rw [Variables.set_of_ne _ notFull, Variables.set_of_ne _ notHigh,
                Variables.set_of_ne _ notHigh]

end

end Dis86.Build
