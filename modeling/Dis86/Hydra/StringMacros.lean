import Dis86.Hydra.Machine
import Dis86.Lib.CounterLoop

namespace Dis86.Hydra
open Lib (countdown)

/-- The memory interface of the machine, by linear addresses. -/
structure Hardware (M : Type) where
  memRead8 : M → U32 → U8
  memRead16 : M → U32 → U16
  memWrite8 : M → U32 → U8 → M
  memWrite16 : M → U32 → U16 → M

/-- A string instruction moves bytes or words. -/
inductive Element where
  | byte | word
deriving DecidableEq, Repr

def Element.size : Element → U16
  | .byte => 1
  | .word => 2

/-- The conversion to the type of the element. -/
def Element.truncate : Element → U16 → U16
  | .byte, v => (v.setWidth 8).setWidth 16
  | .word, v => v

namespace Hardware

variable {M : Type} (hw : Hardware M)

/-- `LOAD_8` and `LOAD_16` -/
def load (e : Element) (seg off : U16) (m : M) : U16 :=
  match e with
  | .byte => (hw.memRead8 m (linear seg off)).setWidth 16
  | .word => hw.memRead16 m (linear seg off)

/-- `STORE_8` and `STORE_16` -/
def store (e : Element) (seg off val : U16) (m : M) : M :=
  match e with
  | .byte => hw.memWrite8 m (linear seg off) (val.setWidth 8)
  | .word => hw.memWrite16 m (linear seg off) val

end Hardware

theorem Element.truncate_truncate (e : Element) (v : U16) :
    e.truncate (e.truncate v) = e.truncate v := by
  cases e with
  | byte => simp [truncate]
  | word => rfl

theorem Hardware.store_truncate {M : Type} (hw : Hardware M) (e : Element) (seg off val : U16) (m : M) :
    hw.store e seg off (e.truncate val) m = hw.store e seg off val m := by
  cases e with
  | byte => simp [store, Element.truncate]
  | word => rfl

/-- The text of a macro argument is evaluated again wherever the macro mentions it. -/
abbrev Arg (M : Type) := M → U16

/-- The memory and the local copies of the two pointers. -/
structure Locals (M : Type) where
  mem : M
  si : U16
  di : U16

section
variable {M : Type} (e : Element) (hw : Hardware M)

def repMovs (ds si es di cx : Arg M) (m : M) : M :=
  let body (l : Locals M) : Locals M :=
    ⟨hw.store e (es l.mem) l.di (hw.load e (ds l.mem) l.si l.mem) l.mem,
      l.si + e.size, l.di + e.size⟩
  (body^[(cx m).toNat] ⟨m, si m, di m⟩).mem

def repStos (es di cx val : Arg M) (m : M) : M :=
  let v := e.truncate (val m)
  let body (l : Locals M) : Locals M := ⟨hw.store e (es l.mem) l.di v l.mem, l.si, l.di + e.size⟩
  (body^[(cx m).toNat] ⟨m, 0, di m⟩).mem

/-- Only the last element is loaded. -/
def repLods (ds si cx cur : Arg M) (m : M) : U16 :=
  if cx m ≠ 0 then hw.load e (ds m) (si m + (cx m - 1) * e.size) m else e.truncate (cur m)

def repCmps (breaks : U16 → U16 → Bool) (ds si es di cx : Arg M) (m : M) : U16 :=
  let body (l : Locals M) : Locals M × Bool :=
    (⟨l.mem, l.si + e.size, l.di + e.size⟩,
      breaks (hw.load e (ds l.mem) l.si l.mem) (hw.load e (es l.mem) l.di l.mem))
  .ofNat 16 (countdown body (cx m).toNat ⟨m, si m, di m⟩).1

def repScas (breaks : U16 → U16 → Bool) (es di cx val : Arg M) (m : M) : U16 :=
  let v := e.truncate (val m)
  let body (l : Locals M) : Locals M × Bool :=
    (⟨l.mem, l.si, l.di + e.size⟩, breaks v (hw.load e (es l.mem) l.di l.mem))
  .ofNat 16 (countdown body (cx m).toNat ⟨m, 0, di m⟩).1

end

section
variable {M : Type}

def repMovsb : Hardware M → Arg M → Arg M → Arg M → Arg M → Arg M → M → M := repMovs .byte
def repMovsw : Hardware M → Arg M → Arg M → Arg M → Arg M → Arg M → M → M := repMovs .word
def repStosb : Hardware M → Arg M → Arg M → Arg M → Arg M → M → M := repStos .byte
def repStosw : Hardware M → Arg M → Arg M → Arg M → Arg M → M → M := repStos .word
def repLodsb : Hardware M → Arg M → Arg M → Arg M → Arg M → M → U16 := repLods .byte
def repLodsw : Hardware M → Arg M → Arg M → Arg M → Arg M → M → U16 := repLods .word

def repeCmpsb (hw : Hardware M) : Arg M → Arg M → Arg M → Arg M → Arg M → M → U16 :=
  repCmps .byte hw (· != ·)
def repneCmpsb (hw : Hardware M) : Arg M → Arg M → Arg M → Arg M → Arg M → M → U16 :=
  repCmps .byte hw (· == ·)
def repeCmpsw (hw : Hardware M) : Arg M → Arg M → Arg M → Arg M → Arg M → M → U16 :=
  repCmps .word hw (· != ·)
def repneCmpsw (hw : Hardware M) : Arg M → Arg M → Arg M → Arg M → Arg M → M → U16 :=
  repCmps .word hw (· == ·)

def repeScasb (hw : Hardware M) : Arg M → Arg M → Arg M → Arg M → M → U16 :=
  repScas .byte hw (· != ·)
def repneScasb (hw : Hardware M) : Arg M → Arg M → Arg M → Arg M → M → U16 :=
  repScas .byte hw (· == ·)
def repeScasw (hw : Hardware M) : Arg M → Arg M → Arg M → Arg M → M → U16 :=
  repScas .word hw (· != ·)
def repneScasw (hw : Hardware M) : Arg M → Arg M → Arg M → Arg M → M → U16 :=
  repScas .word hw (· == ·)

end

end Dis86.Hydra
