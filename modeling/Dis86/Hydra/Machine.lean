import Mathlib.Data.BitVec
import Mathlib.Logic.Function.Basic
import Mathlib.Tactic.Common

namespace Dis86.Hydra

abbrev U8 := BitVec 8
abbrev U16 := BitVec 16
abbrev U32 := BitVec 32

/-- The runtime stops at a failed assertion, at a fatal message or after a capture. -/
inductive Stop where
  | overlayNumber (overlay : U16)
  | overlayUnmapped (overlay : U16)
  | relativeSegment (expected got : U16)
  | triggerEnter
  | callstackRet
  | callstackOverflow
  | contextId (id : U16)
  | callerSegment (cs : U16)
  | returnSegment (cs saved : U16)
  | contextState
  | maxExec
  | overlayTracking
  | expectedJumpFar (found : U8)
  | captured
deriving DecidableEq, Repr

abbrev Fallible := Except Stop

/-- An assertion stops the process when it fails. -/
def require (c : Prop) [Decidable c] (stop : Stop) : Fallible Unit :=
  if c then .ok () else .error stop

@[simp] theorem require_eq_ok {c : Prop} [Decidable c] {stop : Stop} {u : Unit} :
    require c stop = .ok u ↔ c := by
  simp [require]

theorem bind_eq_ok {A B : Type} {x : Fallible A} {f : A → Fallible B} {b : B} :
    x >>= f = .ok b ↔ ∃ a, x = .ok a ∧ f a = .ok b := by
  cases x with
  | ok a => exact ⟨fun same => ⟨a, rfl, same⟩, fun ⟨_, same, ran⟩ => Except.ok.inj same ▸ ran⟩
  | error e => exact ⟨nofun, nofun⟩

def stopOf {A : Type} : Fallible A → Option Stop
  | .ok _ => none
  | .error stop => some stop

theorem stopOf_eq_some {A : Type} {x : Fallible A} {stop : Stop} :
    stopOf x = some stop ↔ x = .error stop := by
  cases x <;> simp [stopOf]

/-- A value that is returned has the property, and a stop is one of the allowed ones. -/
def Ends {A : Type} (x : Fallible A) (post : A → Prop) (stops : Stop → Prop) : Prop :=
  match x with
  | .ok a => post a
  | .error stop => stops stop

section
variable {A B : Type} {post : A → Prop} {stops : Stop → Prop}

@[simp] theorem ends_ok {a : A} : Ends (.ok a) post stops ↔ post a := Iff.rfl

@[simp] theorem ends_pure {a : A} : Ends (pure a) post stops ↔ post a := Iff.rfl

@[simp] theorem ends_error {stop : Stop} : Ends (.error stop) post stops ↔ stops stop := Iff.rfl

@[simp] theorem ends_require {c : Prop} [Decidable c] {stop : Stop} {post : Unit → Prop} :
    Ends (require c stop) post stops ↔ (c → post ()) ∧ (¬ c → stops stop) := by
  unfold require
  split <;> simp [*]

@[simp] theorem ends_bind {x : Fallible A} {f : A → Fallible B} {post : B → Prop} :
    Ends (x >>= f) post stops ↔ Ends x (fun a => Ends (f a) post stops) stops := by
  cases x <;> exact Iff.rfl

@[simp] theorem ends_map {x : Fallible A} {f : A → B} {post : B → Prop} :
    Ends (f <$> x) post stops ↔ Ends x (fun a => post (f a)) stops := by
  cases x <;> exact Iff.rfl

@[simp] theorem ends_discard {x : Fallible A} {post : PUnit → Prop} :
    Ends (discard x) post stops ↔ Ends x (fun _ => post ()) stops := by
  cases x <;> exact Iff.rfl

theorem Ends.bind {x : Fallible A} {f : A → Fallible B} {post' : B → Prop}
    (first : Ends x post stops) (next : ∀ a, post a → Ends (f a) post' stops) :
    Ends (x >>= f) post' stops := by
  cases x with
  | ok a => exact next a first
  | error stop => exact first

theorem Ends.imp {x : Fallible A} {post' : A → Prop} (ends : Ends x post stops)
    (weaker : ∀ a, post a → post' a) : Ends x post' stops := by
  cases x with
  | ok a => exact weaker a ends
  | error stop => exact ends

end

/-- An address has an overlay number in its segment field or an ordinary segment. -/
structure Addr where
  overlay : U16
  seg : U16
  off : U16
deriving DecidableEq, Repr

namespace Addr

def make (seg off : U16) : Addr := ⟨0, seg, off⟩

def makeExt (overlay seg off : U16) : Addr := ⟨overlay, seg, off⟩

def isOverlay (addr : Addr) : Bool := addr.overlay ≠ 0

/-- The segment is subtracted in place, and a smaller one is a fatal error. -/
def relativeToSegment (addr : Addr) (seg : U16) : Fallible Addr := do
  require (seg ≤ addr.seg) (.relativeSegment seg addr.seg)
  return { addr with seg := addr.seg - seg }

@[simp] theorem make_seg (seg off : U16) : (make seg off).seg = seg := rfl
@[simp] theorem make_off (seg off : U16) : (make seg off).off = off := rfl
@[simp] theorem make_isOverlay (seg off : U16) : (make seg off).isOverlay = false := rfl

@[simp] theorem make_inj {seg seg' off off' : U16} :
    make seg off = make seg' off' ↔ seg = seg' ∧ off = off' := by
  simp [make]

end Addr

/-- The linear address is computed with 32 bits. -/
def linear (seg off : U16) : U32 := seg.setWidth 32 * 16 + off.setWidth 32

theorem linear_toNat (seg off : U16) : (linear seg off).toNat = 16 * seg.toNat + off.toNat := by
  have segBound := seg.isLt
  have offBound := off.isLt
  simp [linear]
  omega

structure Registers where
  ax : U16
  bx : U16
  cx : U16
  dx : U16
  si : U16
  di : U16
  bp : U16
  sp : U16
  ip : U16
  cs : U16
  ds : U16
  es : U16
  ss : U16
  flags : U16
deriving DecidableEq, Repr

def Registers.zero : Registers := ⟨0, 0, 0, 0, 0, 0, 0, 0, 0, 0, 0, 0, 0, 0⟩

/-- The guest memory is a window at the bottom of the address space. -/
structure Lowmem where
  size : Nat
  fits : size < 2 ^ 32
  byte : Nat → U8

namespace Lowmem

def empty : Lowmem := ⟨0, by decide, fun _ => 0⟩

/-- Reads beyond the window return zero. -/
def read8 (mem : Lowmem) (addr : U32) : U8 :=
  if addr.toNat < mem.size then mem.byte addr.toNat else 0

def read16 (mem : Lowmem) (addr : U32) : U16 :=
  if addr.toNat + 2 ≤ mem.size then
    (mem.byte (addr.toNat + 1) ++ mem.byte addr.toNat : BitVec 16)
  else 0

/-- Writes beyond the window are ignored. -/
def write16 (mem : Lowmem) (addr : U32) (value : U16) : Lowmem :=
  if addr.toNat + 2 ≤ mem.size then
    let low := Function.update mem.byte addr.toNat (value.setWidth 8)
    { mem with byte := Function.update low (addr.toNat + 1) ((value >>> 8).setWidth 8) }
  else mem

@[simp] theorem write16_size (mem : Lowmem) (addr : U32) (value : U16) :
    (mem.write16 addr value).size = mem.size := by
  unfold write16
  split <;> rfl

theorem read16_write16 {mem : Lowmem} {addr : U32} (value : U16)
    (inside : addr.toNat + 2 ≤ mem.size) : (mem.write16 addr value).read16 addr = value := by
  unfold read16 write16
  simp only [inside, if_true, Function.update_self, Function.update_of_ne (Nat.ne_of_lt
    (Nat.lt_succ_self addr.toNat))]
  ext i bound
  simp only [BitVec.getElem_append, BitVec.getElem_setWidth, BitVec.getLsbD_ushiftRight]
  split
  · exact BitVec.getLsbD_eq_getElem bound
  · rw [Nat.add_sub_cancel' (by omega)]
    exact BitVec.getLsbD_eq_getElem bound

theorem read16_write16_apart {mem : Lowmem} {addr other : U32} (value : U16)
    (apart : addr.toNat + 2 ≤ other.toNat ∨ other.toNat + 2 ≤ addr.toNat) :
    (mem.write16 other value).read16 addr = mem.read16 addr := by
  unfold read16
  rw [write16_size]
  by_cases inside : other.toNat + 2 ≤ mem.size
  · have low : (mem.write16 other value).byte addr.toNat = mem.byte addr.toNat := by
      simp only [write16, inside, if_true]
      rw [Function.update_of_ne (by omega), Function.update_of_ne (by omega)]
    have high : (mem.write16 other value).byte (addr.toNat + 1) = mem.byte (addr.toNat + 1) := by
      simp only [write16, inside, if_true]
      rw [Function.update_of_ne (by omega), Function.update_of_ne (by omega)]
    rw [low, high]
  · rw [write16, if_neg inside]

end Lowmem

end Dis86.Hydra
