import Dis86.Build.GuestOrder

namespace Dis86.Build
open Asm (Reg)
open Lib

variable {ir ir₁ ir₂ : IR} {b : BlockRef} {pending : List (Reg × Ref)}

/-- Nothing is kept in a temporary before a batch. -/
def Machine.entry (live : Reg → BitVec 16) : Machine := ⟨live, fun _ => none⟩

/-- The code that a batch has added to a block leaves each register with its pending value, as it
was before the batch. -/
def Evaluation.KeepsValues (E : Evaluation ir) (ir' : IR) (b : BlockRef) (pending : List (Reg × Ref))
    (live : Reg → BitVec 16) : Prop :=
  ∀ write ∈ pending, (E.run ir' (ir.emitted ir' b) (.entry live)).live write.1 =
    E.word (.entry live) write.2

theorem nodup_eraseDups {A : Type} [DecidableEq A] (l : List A) : l.eraseDups.Nodup := by
  induction length : l.length using Nat.strongRecOn generalizing l with
  | ind n hypothesis =>
      cases l with
      | nil => exact List.nodup_nil
      | cons x l =>
          rw [List.eraseDups_cons]
          have shorter : (l.filter fun y => !(y == x)).length < n := by
            have := List.length_filter_le (fun y => !(y == x)) l
            rw [List.length_cons] at length
            omega
          apply List.nodup_cons.mpr
          refine ⟨?_, hypothesis _ shorter _ rfl⟩
          simp [List.mem_eraseDups]

/-- The batches of registers that are written before other code may read them. -/
inductive SyncBatch : List Reg → Prop
  | handler : SyncBatch intRegs
  | callee (regargs : List Reg) : SyncBatch (declaredRegs regargs)

theorem SyncBatch.nodup {regs : List Reg} (batch : SyncBatch regs) : regs.Nodup := by
  cases batch with
  | handler => decide
  | callee regargs => exact nodup_eraseDups _

theorem pendingWrites_regs {regs : List Reg}
    (read : pendingWrites b regs ir = some (pending, ir₁)) : (pending.map Prod.fst).Sublist regs := by
  induction regs generalizing ir pending with
  | nil =>
      obtain ⟨rfl, rfl⟩ := Prod.mk.inj (Option.some.inj read)
      exact List.Sublist.refl []
  | cons reg regs hypothesis =>
      obtain ⟨⟨vref, ir'⟩, _, read⟩ := Option.bind_eq_some_iff.mp read
      obtain ⟨⟨rest, ir''⟩, later, same⟩ := Option.bind_eq_some_iff.mp read
      obtain ⟨rfl, rfl⟩ := Prod.mk.inj (Option.some.inj same)
      have inside := hypothesis later
      by_cases entry : vref = .init reg
      · rw [if_pos entry]
        exact inside.cons reg
      · rw [if_neg entry]
        exact inside.cons_cons reg

theorem inParallel_iff_writes (E : Evaluation ir) (live : Reg → BitVec 16) {writes : List (Reg × Ref)}
    {temps : Ref → Option (BitVec 16)} : InParallel live (writes.map (E.move temps)) ↔
      ∀ write ∈ writes, sequence live (writes.map (E.move temps)) write.1 =
        E.word ⟨live, temps⟩ write.2 := by
  constructor
  · intro parallel write inside
    exact parallel (E.move temps write) (List.mem_map_of_mem inside)
  · intro kept move inside
    obtain ⟨write, held, rfl⟩ := List.mem_map.mp inside
    exact kept write held

/-- The writes of a batch stand at the end of the block. -/
theorem placed_emitGuestWrites (emitted : emitGuestWrites b pending ir = some ir₁) :
    ∃ refs, ir.emitted ir₁ b = refs ∧
      Writes ir₁ (fun _ => Attribute.PIN) refs (orderGuestWrites ir pending) := by
  have split : ir.iterInstrs b = ir.iterInstrs b ++ [] := (List.append_nil _).symm
  have placed : ∃ refs instrs, Placed ir ir₁ b [] refs instrs ∧
      Writes ir₁ (fun _ => Attribute.PIN) refs (orderGuestWrites ir pending) := by
    apply placed_writes _ (.inl ⟨rfl, rfl⟩) split emitted
    intro ir write ir' one
    obtain ⟨symref, found, one⟩ := Option.bind_eq_some_iff.mp one
    obtain ⟨⟨r, ir''⟩, inserted, same⟩ := Option.bind_eq_some_iff.mp one
    obtain rfl := Option.some.inj same
    exact ⟨symref, r, found, inserted⟩
  obtain ⟨refs, instrs, placed, written⟩ := placed
  exact ⟨refs, placed.emitted, written⟩

/-- The writes of a batch run as moves. -/
theorem run_writes {attrs : BitVec 8} (E : Evaluation ir) {refs : List Ref} {writes : List (Reg × Ref)}
    (none_deferred : attrs &&& Attribute.POST_FRAME = 0)
    (written : Writes ir₁ (fun _ => attrs) refs writes) (live : Reg → BitVec 16) :
    (E.run ir₁ refs (.entry live)).live = sequence live (writes.map (E.move fun _ => none)) := by
  have now : ∀ r ∈ refs, deferred ir₁ r = false := by
    intro r inside
    obtain ⟨write, _, symref, _, found⟩ := exists_partner written inside
    simp [deferred, found, guestWrite, none_deferred]
  have first : refs.filter (fun r => !deferred ir₁ r) = refs := by
    apply List.filter_eq_self.mpr
    intro r inside
    rw [now r inside]
    rfl
  have last : refs.filter (deferred ir₁) = [] := by
    apply List.filter_eq_nil_iff.mpr
    intro r inside
    rw [now r inside]
    exact Bool.false_ne_true
  rw [Evaluation.run, first, last, List.append_nil, E.foldl_writes written]
  rfl

/-- A batch keeps every pending value just when the values do not read each other in a cycle. -/
theorem keepsValues_iff (distinct : (pending.map Prod.fst).Nodup)
    (emitted : emitGuestWrites b pending ir = some ir₁) :
    (∀ (E : Evaluation ir) (live : Reg → BitVec 16), E.KeepsValues ir₁ b pending live) ↔
      Acyclic (mustPrecede ir) pending := by
  obtain ⟨refs, listed, written⟩ := placed_emitGuestWrites emitted
  have parallel : ∀ (E : Evaluation ir) (live : Reg → BitVec 16), E.KeepsValues ir₁ b pending live ↔
      InParallel live ((orderGuestWrites ir pending).map (E.move fun _ => none)) := by
    intro E live
    rw [inParallel_iff_writes, Evaluation.KeepsValues, listed, run_writes E (by decide) written]
    constructor
    · exact fun kept write inside => kept write ((perm_orderGuestWrites ir pending).mem_iff.mp inside)
    · exact fun kept write inside => kept write ((perm_orderGuestWrites ir pending).mem_iff.mpr inside)
  constructor
  · intro kept
    by_contra cyclic
    obtain ⟨E, live, wrong⟩ := not_inParallel_of_cyclic distinct cyclic
    exact wrong ((parallel E live).mp (kept E live))
  · intro acyclic E live
    exact (parallel E live).mpr (E.inParallel_order _ distinct acyclic live)

end Dis86.Build
