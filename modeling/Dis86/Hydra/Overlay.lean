import Dis86.Hydra.Machine
import Mathlib.Data.List.FinRange

namespace Dis86.Hydra

/-- An overlay that is not paged in has no physical segment. -/
structure Overlays where
  segments : Fin 64 → Option U16

namespace Overlays

def empty : Overlays := ⟨fun _ => none⟩

def put (overlays : Overlays) (n : Fin 64) (segment : Option U16) : Overlays :=
  ⟨Function.update overlays.segments n segment⟩

/-- The tables have 64 entries, and each access asserts its index. -/
def index (overlayNum : U16) : Fallible (Fin 64) :=
  if bound : overlayNum.toNat < 64 then .ok ⟨overlayNum.toNat, bound⟩
  else .error (.overlayNumber overlayNum)

def segmentSet (overlays : Overlays) (overlayNum segment : U16) : Fallible Overlays := do
  return overlays.put (← index overlayNum) (some segment)

def segmentClear (overlays : Overlays) (overlayNum : U16) : Fallible Overlays := do
  return overlays.put (← index overlayNum) none

def segmentLookup (overlays : Overlays) (overlayNum : U16) : Fallible U16 := do
  let n ← index overlayNum
  match overlays.segments n with
  | some segment => .ok segment
  | none => .error (.overlayUnmapped overlayNum)

/-- The first overlay that is mapped at the segment wins. -/
def mappedAt (overlays : Overlays) (segment : U16) : Option (Fin 64) :=
  Fin.find? fun n => decide (overlays.segments n = some segment)

def segmentRemapFromPhysical (overlays : Overlays) (addr : Addr) : Addr :=
  if addr.isOverlay then addr
  else
    match overlays.mappedAt addr.seg with
    | some n => .makeExt 1 (.ofNat 16 n) addr.off
    | none => addr

@[simp] theorem put_segments_self (overlays : Overlays) (n : Fin 64) (segment : Option U16) :
    (overlays.put n segment).segments n = segment := by
  simp [put]

theorem put_segments_other {overlays : Overlays} {n m : Fin 64} (segment : Option U16)
    (other : m ≠ n) : (overlays.put n segment).segments m = overlays.segments m := by
  simp [put, other]

theorem index_ofNat (n : Fin 64) : index (.ofNat 16 n) = .ok n := by
  have small : (BitVec.ofNat 16 n).toNat = n := by
    rw [BitVec.toNat_ofNat, Nat.mod_eq_of_lt (by omega)]
  unfold index
  split
  · congr
  · omega

theorem segmentLookup_ofNat {overlays : Overlays} {n : Fin 64} {segment : U16}
    (mapped : overlays.segments n = some segment) :
    overlays.segmentLookup (.ofNat 16 n) = .ok segment := by
  simp [segmentLookup, index_ofNat, mapped, bind, Except.bind]

theorem mappedAt_eq_some {overlays : Overlays} {segment : U16} {n : Fin 64} :
    overlays.mappedAt segment = some n ↔
      overlays.segments n = some segment ∧ ∀ m < n, overlays.segments m ≠ some segment := by
  simp [mappedAt]

theorem mappedAt_eq_none {overlays : Overlays} {segment : U16} :
    overlays.mappedAt segment = none ↔ ∀ n, overlays.segments n ≠ some segment := by
  simp [mappedAt]

end Overlays

/-- A hook is registered for an ordinary or for an overlay address. -/
structure Hook where
  name : Option String
  addr : Addr
  overlay : Bool
deriving DecidableEq, Repr

/-- A guest position becomes image-relative, and then an overlay address where one is mapped. -/
def currentAddr (load : U16) (overlays : Overlays) (addr : Addr) : Option Addr :=
  if addr.seg < load then none
  else some (overlays.segmentRemapFromPhysical (.make (addr.seg - load) addr.off))

def hookFind (load : U16) (overlays : Overlays) (hooks : List Hook) (addr : Addr) : Option Hook :=
  (currentAddr load overlays addr).bind fun addr => hooks.find? fun hook => hook.addr = addr

/-- The entry stub of an overlay function. -/
structure OverlayStub where
  physSeg : U16
  off : U16
  overlayNum : U16
  bodyOff : U16
deriving DecidableEq, Repr

inductive StubState where
  | unpaged
  | paged (mappedSeg : U16)
deriving DecidableEq, Repr

/-- A stub is an interrupt until the pager has made it a far jump to the body. -/
def overlayClassify (mem : Lowmem) (os : OverlayStub) : Option StubState :=
  let lin := linear os.physSeg os.off
  if mem.read8 lin = 0xcd ∧ mem.read8 (lin + 1) = 0x3f then some .unpaged
  else if mem.read8 lin = 0xea then
    if mem.read16 (lin + 1) = os.bodyOff then some (.paged (mem.read16 (lin + 3))) else none
  else none

/-- The stubs of one overlay have to agree on its segment. -/
def collectSegments (mem : Lowmem) :
    List OverlayStub → (Fin 64 → Option U16) → Option (Fin 64 → Option U16)
  | [], seen => some seen
  | os :: rest, seen =>
      match overlayClassify mem os with
      | none => none
      | some .unpaged => collectSegments mem rest seen
      | some (.paged segment) =>
          match Overlays.index os.overlayNum with
          | .error _ => none
          | .ok n =>
              if seen n = none ∨ seen n = some segment then
                collectSegments mem rest (Function.update seen n (some segment))
              else none

/-- Each overlay with a stub is set or cleared. -/
def registerSegments (seen : Fin 64 → Option U16) :
    List OverlayStub → Overlays → Fallible Overlays
  | [], overlays => .ok overlays
  | os :: rest, overlays => do
      let n ← Overlays.index os.overlayNum
      registerSegments seen rest (overlays.put n (seen n))

def overlayReconcileAll (mem : Lowmem) (stubs : List OverlayStub) (overlays : Overlays) :
    Option (Fallible Overlays) :=
  (collectSegments mem stubs fun _ => none).map fun seen => registerSegments seen stubs overlays

/-- The stub is a far jump into the overlay at the segment. -/
def JumpsTo (mem : Lowmem) (n : Fin 64) (segment : U16) (os : OverlayStub) : Prop :=
  Overlays.index os.overlayNum = .ok n ∧ overlayClassify mem os = some (.paged segment)

theorem collectSegments_jumps {mem : Lowmem} {stubs : List OverlayStub}
    {seen seen' : Fin 64 → Option U16} {n : Fin 64} {segment : U16}
    (collected : collectSegments mem stubs seen = some seen') (here : seen' n = some segment) :
    seen n = some segment ∨ ∃ os ∈ stubs, JumpsTo mem n segment os := by
  induction stubs generalizing seen with
  | nil => exact .inl (Option.some.inj collected ▸ here)
  | cons os rest ih =>
      rw [collectSegments] at collected
      split at collected
      · cases collected
      · obtain earlier | ⟨os', member, jumps⟩ := ih collected
        · exact .inl earlier
        · exact .inr ⟨os', .tail _ member, jumps⟩
      · rename_i paged classified
        split at collected
        · cases collected
        · rename_i m indexed
          split at collected
          · obtain earlier | ⟨os', member, jumps⟩ := ih collected
            · by_cases same : n = m
              · subst same
                rw [Function.update_self] at earlier
                obtain rfl := Option.some.inj earlier
                exact .inr ⟨os, .head _, indexed, classified⟩
              · rw [Function.update_of_ne same] at earlier
                exact .inl earlier
            · exact .inr ⟨os', .tail _ member, jumps⟩
          · cases collected

theorem registerSegments_segments {seen : Fin 64 → Option U16} {stubs : List OverlayStub}
    {overlays overlays' : Overlays} (n : Fin 64)
    (registered : registerSegments seen stubs overlays = .ok overlays') :
    overlays'.segments n =
      if ∃ os ∈ stubs, Overlays.index os.overlayNum = .ok n then seen n
      else overlays.segments n := by
  induction stubs generalizing overlays with
  | nil => simp [Except.ok.inj registered]
  | cons os rest ih =>
      obtain ⟨m, indexed, registered⟩ := bind_eq_ok.mp registered
      rw [ih registered]
      by_cases later : ∃ os ∈ rest, Overlays.index os.overlayNum = .ok n
      · rw [if_pos later, if_pos (later.imp fun _ found => ⟨.tail _ found.1, found.2⟩)]
      · rw [if_neg later]
        by_cases same : n = m
        · subst same
          rw [if_pos ⟨os, .head _, indexed⟩, Overlays.put_segments_self]
        · rw [Overlays.put_segments_other _ same, if_neg]
          rintro ⟨other, member, found⟩
          cases member with
          | head => exact same (Except.ok.inj (found.symm.trans indexed))
          | tail _ member => exact later ⟨other, member, found⟩

/-- The host registers the absolute segments to which the entry stubs jump. -/
theorem overlayReconcileAll_jumps {mem : Lowmem} {stubs : List OverlayStub}
    {overlays overlays' : Overlays} {os : OverlayStub} {n : Fin 64} {segment : U16}
    (reconciled : overlayReconcileAll mem stubs overlays = some (.ok overlays'))
    (member : os ∈ stubs) (indexed : Overlays.index os.overlayNum = .ok n)
    (mapped : overlays'.segments n = some segment) : ∃ os ∈ stubs, JumpsTo mem n segment os := by
  obtain ⟨seen, collected, registered⟩ := Option.map_eq_some_iff.mp reconciled
  rw [registerSegments_segments n registered, if_pos ⟨os, member, indexed⟩] at mapped
  obtain earlier | jumps := collectSegments_jumps collected mapped
  · cases earlier
  · exact jumps

end Dis86.Hydra
