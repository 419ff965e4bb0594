import Mathlib.Logic.Function.Basic
import Mathlib.Data.Nat.Basic
import Mathlib.Tactic.Common
import Mathlib.Tactic.Ring

namespace Dis86.Lib

/-- A memory holds a byte at each address. -/
abbrev ByteMemory (A : Type) := A → BitVec 8

/-- A byte of a number, from the lowest one on. -/
def byteOf (v j : Nat) : BitVec 8 := BitVec.ofNat 8 (v / 256 ^ j)

theorem byteOf_zero (v : Nat) : byteOf v 0 = BitVec.ofNat 8 v := by
  rw [byteOf, Nat.pow_zero, Nat.div_one]

theorem byteOf_succ (v j : Nat) : byteOf v (j + 1) = byteOf (v / 256) j := by
  rw [byteOf, byteOf, Nat.div_div_eq_div_mul, Nat.pow_succ']

namespace ByteMemory

variable {A : Type}

/-- The number in the bytes of a window, the lowest byte first. -/
def read (m : ByteMemory A) (window : Nat → A) : Nat → Nat
  | 0 => 0
  | n + 1 => (m (window 0)).toNat + 256 * m.read (fun j => window (j + 1)) n

/-- A read gives a number if and only if the number fits and each of its bytes is there. -/
theorem read_eq_iff (m : ByteMemory A) (window : Nat → A) (n v : Nat) :
    m.read window n = v ↔ v < 256 ^ n ∧ ∀ j < n, m (window j) = byteOf v j := by
  induction n generalizing window v with
  | zero =>
      rw [read, Nat.pow_zero, Nat.lt_one_iff]
      constructor
      · rintro rfl
        exact ⟨rfl, fun j before => absurd before (Nat.not_lt_zero j)⟩
      · rintro ⟨rfl, _⟩
        rfl
  | succ n hypothesis =>
      have low := (m (window 0)).isLt
      have bound : v < 256 ^ (n + 1) ↔ v / 256 < 256 ^ n := by
        rw [Nat.pow_succ, Nat.div_lt_iff_lt_mul (by decide)]
      have bytes : (∀ j < n + 1, m (window j) = byteOf v j) ↔
          m (window 0) = BitVec.ofNat 8 v ∧ ∀ j < n, m (window (j + 1)) = byteOf (v / 256) j := by
        constructor
        · intro all
          refine ⟨by rw [all 0 (Nat.zero_lt_succ n), byteOf_zero], fun j before => ?_⟩
          rw [all (j + 1) (Nat.succ_lt_succ before), byteOf_succ]
        · rintro ⟨first, rest⟩ j before
          cases j with
          | zero => rw [first, byteOf_zero]
          | succ j => rw [rest j (Nat.lt_of_succ_lt_succ before), byteOf_succ]
      have first : m (window 0) = BitVec.ofNat 8 v ↔ (m (window 0)).toNat = v % 256 := by
        rw [← BitVec.toNat_inj, BitVec.toNat_ofNat]
      have split : m.read window (n + 1) = v ↔
          (m (window 0)).toNat = v % 256 ∧ m.read (fun j => window (j + 1)) n = v / 256 := by
        rw [read]
        omega
      rw [split, hypothesis, bound, bytes, first]
      tauto

/-- Two reads of adjacent windows make one. -/
theorem read_add (m : ByteMemory A) (window : Nat → A) (n k : Nat) :
    m.read window (n + k) = m.read window n + 256 ^ n * m.read (fun j => window (n + j)) k := by
  induction n generalizing window with
  | zero => simp [read]
  | succ n hypothesis =>
      have shifted : (fun j => window (n + j + 1)) = fun j => window (n + 1 + j) := by
        funext j
        rw [Nat.add_right_comm]
      rw [Nat.add_right_comm, read, read, hypothesis, shifted]
      ring

/-- A read depends on its window only. -/
theorem read_congr {m m' : ByteMemory A} {window : Nat → A} {n : Nat}
    (same : ∀ j < n, m (window j) = m' (window j)) : m.read window n = m'.read window n := by
  have bytes := (m'.read_eq_iff window n (m'.read window n)).mp rfl
  apply (m.read_eq_iff window n _).mpr
  refine ⟨bytes.1, fun j before => ?_⟩
  rw [same j before, bytes.2 j before]

variable [DecidableEq A]

/-- The bytes of a number in a window. -/
def write (m : ByteMemory A) (window : Nat → A) : Nat → Nat → ByteMemory A
  | 0, _ => m
  | n + 1, v => write (Function.update m (window 0) (BitVec.ofNat 8 v)) (fun j => window (j + 1)) n (v / 256)

theorem write_away {window : Nat → A} {n : Nat} {a : A} (away : ∀ j < n, window j ≠ a)
    (m : ByteMemory A) (v : Nat) : m.write window n v a = m a := by
  induction n generalizing m window v with
  | zero => rfl
  | succ n hypothesis =>
      rw [write, hypothesis fun j before => away (j + 1) (Nat.succ_lt_succ before),
        Function.update_of_ne (away 0 (Nat.zero_lt_succ n)).symm]

/-- A write to distinct addresses leaves each byte of the number at its place. -/
theorem write_at {window : Nat → A} {n : Nat}
    (distinct : ∀ i < n, ∀ j < n, window i = window j → i = j) (m : ByteMemory A) (v : Nat) {j : Nat}
    (before : j < n) : m.write window n v (window j) = byteOf v j := by
  induction n generalizing m window v j with
  | zero => exact absurd before (Nat.not_lt_zero j)
  | succ n hypothesis =>
      rw [write]
      cases j with
      | zero =>
          rw [write_away, Function.update_self, byteOf_zero]
          intro j before same
          have := distinct (j + 1) (Nat.succ_lt_succ before) 0 (Nat.zero_lt_succ n) same
          omega
      | succ j =>
          rw [byteOf_succ]
          apply hypothesis ?_ _ _ (Nat.lt_of_succ_lt_succ before)
          intro i below k under same
          have := distinct (i + 1) (Nat.succ_lt_succ below) (k + 1) (Nat.succ_lt_succ under) same
          omega

/-- A memory is known by the bytes of the number and by what has been left. -/
theorem eq_write {window : Nat → A} {n : Nat} (distinct : ∀ i < n, ∀ j < n, window i = window j → i = j)
    {m m' : ByteMemory A} {v : Nat} (bytes : ∀ j < n, m' (window j) = byteOf v j)
    (away : ∀ a, (∀ j < n, window j ≠ a) → m' a = m a) : m' = m.write window n v := by
  funext a
  by_cases inside : ∃ j < n, window j = a
  · obtain ⟨j, before, rfl⟩ := inside
    rw [bytes j before, write_at distinct m v before]
  · have outside : ∀ j < n, window j ≠ a := fun j before same => inside ⟨j, before, same⟩
    rw [away a outside, write_away outside]

/-- Two writes to adjacent windows make one, in either order. -/
theorem write_halves {window : Nat → A} {n k : Nat}
    (distinct : ∀ i < n + k, ∀ j < n + k, window i = window j → i = j) (m : ByteMemory A) {a b v : Nat}
    (low : ∀ j < n, byteOf v j = byteOf a j) (high : ∀ j < k, byteOf v (n + j) = byteOf b j) :
    (m.write window n a).write (fun j => window (n + j)) k b = m.write window (n + k) v ∧
      (m.write (fun j => window (n + j)) k b).write window n a = m.write window (n + k) v := by
  have lows : ∀ i < n, ∀ j < n, window i = window j → i = j := fun i below j under =>
    distinct i (by omega) j (by omega)
  have highs : ∀ i < k, ∀ j < k, window (n + i) = window (n + j) → i = j := fun i below j under same => by
    have := distinct (n + i) (by omega) (n + j) (by omega) same
    omega
  have apart : ∀ i < n, ∀ j < k, window (n + j) ≠ window i := fun i below j under same => by
    have := distinct (n + j) (by omega) i (by omega) same
    omega
  constructor
  · apply eq_write distinct
    · intro j before
      by_cases isLow : j < n
      · rw [write_away (apart j isLow), write_at lows m a isLow, low j isLow]
      · obtain ⟨i, rfl⟩ := Nat.exists_eq_add_of_le (Nat.le_of_not_lt isLow)
        have inside : i < k := by omega
        have there := write_at highs (m.write window n a) b inside
        rw [there, high i inside]
    · intro c outside
      rw [write_away fun j before => outside (n + j) (by omega), write_away fun j before => outside j (by omega)]
  · apply eq_write distinct
    · intro j before
      by_cases isLow : j < n
      · rw [write_at lows _ a isLow, low j isLow]
      · obtain ⟨i, rfl⟩ := Nat.exists_eq_add_of_le (Nat.le_of_not_lt isLow)
        have inside : i < k := by omega
        have there := write_at highs m b inside
        rw [write_away fun j below => (apart j below i inside).symm, there, high i inside]
    · intro c outside
      rw [write_away fun j before => outside j (by omega), write_away fun j before => outside (n + j) (by omega)]

end ByteMemory

end Dis86.Lib
