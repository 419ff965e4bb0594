import Dis86.Hydra.Exec

namespace Dis86.Hydra
open Dis86.Hydra.Runtime

/-- A call stub looks the segment of an overlay function up. A near call gets its linear address. -/
def nativeCall (s : Runtime) (regs : Registers) (addr : Addr) (near : Bool) : Fallible Action := do
  let seg ← if addr.isOverlay then s.overlays.segmentLookup addr.seg else .ok addr.seg
  if near then
    let abs := (linear seg addr.off).setWidth 16
    return .callNearOff (abs - 16 * (regs.cs - s.load)) false
  else return .callFar seg addr.off

/-- The trace records the absolute address of a callee. -/
def traceAbsAddr (s : Runtime) (addr : Addr) : Fallible (U16 × U16) :=
  if addr.isOverlay then do return (← s.overlays.segmentLookup addr.seg, addr.off)
  else .ok (s.load + addr.seg, addr.off)

/-- The guest position to which a hook calls from its registers. -/
def Action.target (load : U16) (regs : Registers) : Action → Option (U16 × U16)
  | .callFar seg off => some (seg + load, off)
  | .callNearOff off _ => some (regs.cs, off)
  | .finish _ => none

/-- The host redirects the guest to the target of the call. -/
theorem redirect_target {s t : Runtime} {id : ExecId} {ctx after : Context} {mem mem' : Lowmem}
    {move : Move} {regs : Registers} {answer : ExecReturn} {position : U16 × U16}
    (ran : thread s.load id ctx mem move = .ok (after, mem'))
    (calls : (move ctx.machine mem).2.2.target s.load (move ctx.machine mem).1 = some position)
    (moved : s.redirect after.machine after.result = .ok (t, regs, answer)) :
    (regs.cs, regs.ip) = position := by
  unfold thread at ran
  split at ran
  rename_i acted mem'' action same
  rw [same] at calls
  cases action with
  | callFar seg off =>
      obtain ⟨rfl, rfl⟩ := Prod.mk.inj (Except.ok.inj ran)
      simp only [redirect, bind_eq_ok, pure, Except.pure, Except.ok.injEq,
        Prod.mk.injEq] at moved
      obtain ⟨_, _, _, rfl, _⟩ := moved
      exact Option.some.inj calls
  | callNearOff off maybeReloc =>
      simp only [callNearOff, bind_eq_ok, pure, Except.pure, Except.ok.injEq,
        Prod.mk.injEq] at ran
      obtain ⟨_, _, _, _, rfl, _⟩ := ran
      simp only [redirect, bind_eq_ok, pure, Except.pure, Except.ok.injEq,
        Prod.mk.injEq] at moved
      obtain ⟨_, _, _, rfl, _⟩ := moved
      exact Option.some.inj calls
  | finish result => cases calls

/-- The guest position that a call stub reaches. -/
def nativeTarget (s : Runtime) (regs : Registers) (addr : Addr) (near : Bool) :
    Fallible (Option (U16 × U16)) := do
  return (← nativeCall s regs addr near).target s.load regs

/-- The address of a location in an overlay. -/
def overlayAddr (n : Fin 64) (off : U16) : Addr := .makeExt 1 (.ofNat 16 n) off

/-- A code segment can reach a location with a near call when its window contains it. -/
def InWindow (cs seg off : U16) : Prop :=
  (linear cs 0).toNat ≤ (linear seg off).toNat ∧
    (linear seg off).toNat < (linear cs 0).toNat + 65536

/-- Every path between an overlay location and the guest agrees on the position `seg:off`. -/
structure OverlayAgrees (s : Runtime) (n : Fin 64) (seg off : U16) : Prop where
  farCall : ∀ regs, nativeTarget s regs (overlayAddr n off) false = .ok (some (seg, off))
  nearCall : ∀ regs : Registers, InWindow regs.cs seg off → ∃ ip,
    nativeTarget s regs (overlayAddr n off) true = .ok (some (regs.cs, ip)) ∧
      linear regs.cs ip = linear seg off
  hook : ∀ hooks : List Hook, (∃ hook ∈ hooks, hook.addr = overlayAddr n off) → ∀ cs ip,
    (∃ hook, hookFind s.load s.overlays hooks (.make cs ip) = some hook ∧
      hook.addr = overlayAddr n off) ↔ cs = seg ∧ ip = off
  trace : traceAbsAddr s (overlayAddr n off) = .ok (seg, off)
  position : currentAddr s.load s.overlays (.make seg off) = some (overlayAddr n off)

/-- The host registers a segment for an overlay. -/
def Runtime.mapOverlay (s : Runtime) (n : Fin 64) (seg : U16) : Runtime :=
  { s with overlays := s.overlays.put n (some seg) }

section
variable {s : Runtime} {n : Fin 64} {seg : U16}

theorem nativeTarget_far (mapped : s.overlays.segments n = some seg) (regs : Registers)
    (off : U16) :
    nativeTarget s regs (overlayAddr n off) false = .ok (some (seg + s.load, off)) := by
  simp [nativeTarget, nativeCall, overlayAddr, Addr.makeExt, Addr.isOverlay,
    Overlays.segmentLookup_ofNat mapped, Action.target, bind, Except.bind, pure, Except.pure]

theorem nativeTarget_near (mapped : s.overlays.segments n = some seg) (regs : Registers)
    (off : U16) :
    nativeTarget s regs (overlayAddr n off) true =
      .ok (some (regs.cs, (linear seg off).setWidth 16 - 16 * (regs.cs - s.load))) := by
  simp [nativeTarget, nativeCall, overlayAddr, Addr.makeExt, Addr.isOverlay,
    Overlays.segmentLookup_ofNat mapped, Action.target, bind, Except.bind, pure, Except.pure]

theorem traceAbsAddr_mapped (mapped : s.overlays.segments n = some seg) (off : U16) :
    traceAbsAddr s (overlayAddr n off) = .ok (seg, off) := by
  simp [traceAbsAddr, overlayAddr, Addr.makeExt, Addr.isOverlay,
    Overlays.segmentLookup_ofNat mapped, bind, Except.bind, pure, Except.pure]

/-- In its window a near offset wraps around to the location itself. -/
theorem near_linear {cs off : U16} (inside : InWindow cs seg off) :
    linear cs ((linear seg off).setWidth 16 - 16 * cs) = linear seg off := by
  unfold InWindow at inside
  apply BitVec.eq_of_toNat_eq
  simp only [linear_toNat, BitVec.toNat_sub, BitVec.toNat_mul, BitVec.toNat_setWidth] at *
  have csBound := cs.isLt
  simp at *
  omega

theorem currentAddr_eq_overlayAddr {load : U16} {overlays : Overlays} {cs ip off : U16} :
    currentAddr load overlays (.make cs ip) = some (overlayAddr n off) ↔
      load ≤ cs ∧ overlays.mappedAt (cs - load) = some n ∧ ip = off := by
  unfold currentAddr Overlays.segmentRemapFromPhysical
  simp only [Addr.make_seg, Addr.make_off, Addr.make_isOverlay]
  by_cases below : cs < load
  · simp [below]
  · cases found : overlays.mappedAt (cs - load) with
    | none =>
        simp [below, overlayAddr, Addr.makeExt, Addr.make]
    | some m =>
        have same : (BitVec.ofNat 16 m.val = BitVec.ofNat 16 n.val) ↔ m = n := by
          simp only [← BitVec.toNat_inj, BitVec.toNat_ofNat]
          omega
        have above : load ≤ cs := BitVec.not_lt.mp below
        simp [below, above, overlayAddr, Addr.makeExt, same]

theorem hookFind_overlay {s : Runtime} {off : U16} {hooks : List Hook}
    (registered : ∃ hook ∈ hooks, hook.addr = overlayAddr n off) (cs ip : U16) :
    (∃ hook, hookFind s.load s.overlays hooks (.make cs ip) = some hook ∧
      hook.addr = overlayAddr n off) ↔
      currentAddr s.load s.overlays (.make cs ip) = some (overlayAddr n off) := by
  unfold hookFind
  constructor
  · rintro ⟨hook, found, same⟩
    obtain ⟨addr, current, found⟩ := Option.bind_eq_some_iff.mp found
    have matched := List.find?_some found
    rw [current, ← same, ← of_decide_eq_true matched]
  · intro current
    obtain ⟨hook, member, same⟩ := registered
    rw [current, Option.bind_some]
    cases found : hooks.find? fun hook => decide (hook.addr = overlayAddr n off) with
    | none =>
        have absent := List.find?_eq_none.mp found hook member
        exact absurd (decide_eq_true same) absent
    | some other =>
        have matched := List.find?_some found
        exact ⟨other, rfl, of_decide_eq_true matched⟩

/-- At load segment zero the first overlay that is mapped at a segment has one address. -/
theorem overlayAgrees_of_zero (zero : s.load = 0#16) (mapped : s.overlays.segments n = some seg)
    (first : ∀ m < n, s.overlays.segments m ≠ some seg) (off : U16) :
    OverlayAgrees s n seg off where
  farCall regs := by rw [nativeTarget_far mapped, zero, BitVec.add_zero]
  nearCall regs inside :=
    ⟨_, nativeTarget_near mapped regs off, by rw [zero, BitVec.sub_zero, near_linear inside]⟩
  hook hooks registered cs ip := by
    rw [hookFind_overlay registered, currentAddr_eq_overlayAddr, zero, BitVec.sub_zero,
      Overlays.mappedAt_eq_some]
    constructor
    · rintro ⟨_, ⟨here, _⟩, rfl⟩
      exact ⟨Option.some.inj (here.symm.trans mapped), rfl⟩
    · rintro ⟨rfl, rfl⟩
      exact ⟨Nat.zero_le _, ⟨mapped, first⟩, rfl⟩
  trace := traceAbsAddr_mapped mapped off
  position := by
    rw [currentAddr_eq_overlayAddr, zero, BitVec.sub_zero, Overlays.mappedAt_eq_some]
    exact ⟨Nat.zero_le _, ⟨mapped, first⟩, rfl⟩

end

/-- The paths agree on an overlay that the host maps exactly at load segment zero, when no overlay
with a smaller number is mapped at the same segment. -/
theorem overlay_addresses_iff (s : Runtime) (n : Fin 64) (seg off : U16) :
    OverlayAgrees (s.mapOverlay n seg) n seg off ↔
      s.load = 0 ∧ ∀ m < n, s.overlays.segments m ≠ some seg := by
  have mapped : (s.mapOverlay n seg).overlays.segments n = some seg :=
    s.overlays.put_segments_self n (some seg)
  have smaller : ∀ m < n, (s.mapOverlay n seg).overlays.segments m = s.overlays.segments m :=
    fun m below => s.overlays.put_segments_other (some seg) (Fin.ne_of_lt below)
  constructor
  · intro agrees
    have far := agrees.farCall .zero
    rw [nativeTarget_far mapped] at far
    simp only [Except.ok.injEq, Option.some.injEq, Prod.mk.injEq, and_true] at far
    have zero : s.load = 0#16 := BitVec.self_eq_add_right.mp far.symm
    have position := agrees.position
    rw [currentAddr_eq_overlayAddr] at position
    obtain ⟨_, first, _⟩ := position
    rw [show (s.mapOverlay n seg).load = 0#16 from zero, BitVec.sub_zero,
      Overlays.mappedAt_eq_some] at first
    exact ⟨zero, fun m below => smaller m below ▸ first.2 m below⟩
  · rintro ⟨zero, first⟩
    exact overlayAgrees_of_zero (s := s.mapOverlay n seg) zero mapped (fun m below => smaller m below ▸ first m below) off

/-- At load segment 0080 the native call and the trace name different places. -/
theorem overlay_addresses_disagree :
    ¬ OverlayAgrees ((Runtime.init 0x80 [] [] .empty).mapOverlay 0 0x1a00) 0 0x1a00 0x10 := by
  intro agrees
  have far := agrees.farCall .zero
  rw [nativeTarget_far (Overlays.put_segments_self _ _ _)] at far
  revert far
  decide

end Dis86.Hydra
