import Dis86.Build.ExitCode

namespace Dis86.Build
open Asm (Reg)
open Lib

variable {ir ir' : IR} {exit : RetExit} {b : BlockRef} {before : Nat} {seg v v' : Ref}
  {pending : List (Reg × Ref)} {snaps refs : List Ref} {live live' : Reg → BitVec 16}
  {temps : Ref → Option (BitVec 16)}

/-- The temporaries after the snapshots hold the words from before the batch. -/
structure Evaluation.Kept (E : Evaluation ir) (ir' : IR) (ret : Ref) (snaps : List Ref)
    (live : Reg → BitVec 16) (temps : Ref → Option (BitVec 16)) : Prop where
  known : ∀ v, Known ir ret v → temps v = none
  snaps : ∀ r ∈ snaps, ∀ v, ir'.instr? r = some (snapshot v) →
    temps r = some (E.word (.entry live) v)

/-- A frozen value keeps its word while only the pending registers change. -/
theorem Evaluation.Kept.word_frozen {E : Evaluation ir} {ret : Ref}
    (kept : E.Kept ir' ret snaps live temps) (known : Known ir ret v)
    (frozen : FrozenAs ir ir' pending snaps v v')
    (same : ∀ reg, reg ∉ pending.map Prod.fst → live' reg = live reg) :
    E.word ⟨live', temps⟩ v' = E.word (.entry live) v := by
  rcases frozen with ⟨rfl, unread⟩ | ⟨inside, found⟩
  · have computed : E.eval live' v' = E.eval live v' := by
      apply E.confined
      intro reg reads
      apply same
      intro pended
      obtain ⟨write, held, rfl⟩ := List.mem_map.mp pended
      rw [readsPending, List.any_eq_false] at unread
      exact unread write held reads
    simp only [Evaluation.word, kept.known v' known, Machine.entry, computed]
  · simp only [Evaluation.word, kept.snaps v' inside v found, Option.getD_some]

theorem Evaluation.Kept.word_known {E : Evaluation ir} {ret : Ref}
    (kept : E.Kept ir' ret snaps live temps) (known : Known ir ret v) :
    E.word ⟨live, temps⟩ v = E.word (.entry live) v := by
  simp only [Evaluation.word, kept.known v known, Machine.entry]

/-- The writes of a return in the order in which they run. -/
def exitWrites (ir : IR) (pending : List (Reg × Ref)) (seg : Ref) : List (Reg × Ref) :=
  exitOrder ((orderGuestWrites ir pending).map (redirect seg))

theorem perm_exitWrites : (exitWrites ir pending seg).Perm (pending.map (redirect seg)) :=
  (perm_exitOrder _).trans ((perm_orderGuestWrites ir pending).map _)

theorem exitWrites_regs : ((exitWrites ir pending seg).map Prod.fst).Perm (pending.map Prod.fst) := by
  have regs : (pending.map (redirect seg)).map Prod.fst = pending.map Prod.fst := by
    rw [List.map_map]
    apply List.map_congr_left
    exact fun write _ => redirect_fst seg write
  rw [← regs]
  exact perm_exitWrites.map Prod.fst

theorem exitWrites_nodup (distinct : (pending.map Prod.fst).Nodup) :
    ((exitWrites ir pending seg).map Prod.fst).Nodup := exitWrites_regs.nodup_iff.mpr distinct

theorem ExitCode.runs (code : ExitCode ir ir' b before pending snaps refs seg) (E : Evaluation ir)
    (live : Reg → BitVec 16) : ∃ temps, E.Kept ir' (.instr b before) snaps live temps ∧
      E.run ir' (ir.emitted ir' b) (.entry live) =
        ⟨sequence live ((exitWrites ir pending seg).map (E.move temps)), temps⟩ := by
  obtain ⟨frozen, held, apart⟩ := code.held
  obtain ⟨temps, ran, others, kept⟩ := E.run_exit held apart code.written live
  refine ⟨temps, ⟨fun v known => others v (code.fresh v known), kept⟩, ?_⟩
  rw [code.emitted]
  exact ran

/-- Registers that are not pending keep their values. -/
theorem sequence_exitWrites (E : Evaluation ir) {reg : Reg} (away : reg ∉ pending.map Prod.fst) :
    sequence live ((exitWrites ir pending seg).map (E.move temps)) reg = live reg := by
  apply sequence_untouched
  rw [E.move_targets]
  exact fun inside => away (exitWrites_regs.mem_iff.mp inside)

/-- The deferred write comes last. -/
theorem exitWrites_split {write : Reg × Ref} (distinct : (pending.map Prod.fst).Nodup)
    (inside : write ∈ pending) (stack : write.1 = .SS) : ∃ first last,
      exitWrites ir pending seg = first ++ (.SS, seg) :: last ∧
        ∀ other ∈ first, other.1 ∈ (pending.filter fun write => write.1 ≠ .SS).map Prod.fst := by
  have held : (.SS, seg) ∈ exitWrites ir pending seg := by
    apply perm_exitWrites.mem_iff.mpr
    exact List.mem_map.mpr ⟨write, inside, by rw [redirect, if_pos stack]⟩
  obtain ⟨first, last, split⟩ := List.append_of_mem held
  refine ⟨first, last, split, fun other early => ?_⟩
  have apart : ((exitWrites ir pending seg).map Prod.fst).Nodup := exitWrites_nodup distinct
  have placed : other ∈ exitWrites ir pending seg := split ▸ List.mem_append_left _ early
  have regs := exitWrites_regs.subset (List.mem_map_of_mem placed)
  rw [split, List.map_append, List.nodup_append] at apart
  obtain ⟨source, listed, same⟩ := List.mem_map.mp regs
  have other_segment : source.1 ≠ .SS := fun segment =>
    apart.2.2 other.1 (List.mem_map_of_mem early) .SS (by simp) (same ▸ segment)
  rw [← same]
  exact List.mem_map_of_mem (List.mem_filter.mpr ⟨listed, decide_eq_true other_segment⟩)

theorem filter_redirect (writes : List (Reg × Ref)) :
    (writes.map (redirect seg)).filter (fun write => write.1 ≠ .SS) =
      writes.filter fun write => write.1 ≠ .SS := by
  have same : ((fun write : Reg × Ref => decide (write.1 ≠ .SS)) ∘ redirect seg) =
      fun write => decide (write.1 ≠ .SS) := by
    funext write
    simp only [Function.comp_apply, redirect_fst]
  rw [List.filter_map, same]
  exact map_redirect_of_ne fun write inside => of_decide_eq_true (List.mem_filter.mp inside).2

theorem segment_write {writes : List (Reg × Ref)} {write : Reg × Ref}
    (inside : write ∈ (writes.map (redirect seg)).filter fun write => write.1 = .SS) :
    write = (.SS, seg) ∧ ∃ source ∈ writes, source.1 = .SS := by
  obtain ⟨listed, segment⟩ := List.mem_filter.mp inside
  obtain ⟨source, held, rfl⟩ := List.mem_map.mp listed
  rw [redirect_fst, decide_eq_true_eq] at segment
  exact ⟨if_pos segment, source, held, segment⟩

/-- Without a cycle the writes of a return act as one parallel assignment. -/
theorem inParallel_exitWrites (E : Evaluation ir) (distinct : (pending.map Prod.fst).Nodup)
    (acyclic : Acyclic (mustPrecede ir) pending)
    (unread : ∀ write ∈ pending, write.1 = .SS → temps seg = none →
      ∀ other ∈ pending, other.1 ≠ .SS → refReadsInit ir seg other.1 = false) :
    InParallel live ((exitWrites ir pending seg).map (E.move temps)) := by
  have listed : ∀ write, write ∈ orderGuestWrites ir pending ↔ write ∈ pending :=
    fun write => (perm_orderGuestWrites ir pending).mem_iff
  have apart : ((exitWrites ir pending seg).map Prod.fst).Nodup := exitWrites_nodup distinct
  apply inParallel_of_reads
  · rw [E.move_targets]
    exact apart
  apply List.pairwise_map.mpr
  rw [exitWrites, exitOrder, List.map_append, List.nodup_append] at apart
  apply List.pairwise_append.mpr
  refine ⟨?_, ?_, ?_⟩
  · rw [filter_redirect]
    apply ((order_pairwise distinct acyclic).sublist List.filter_sublist).imp
    intro earlier later free reads
    have read : refReadsInit ir later.2 earlier.1 = true := reads.2
    rw [free] at read
    cases read
  · apply (List.pairwise_map.mp apart.2.1).imp_of_mem
    intro earlier later early late other
    rw [(segment_write early).1, (segment_write late).1] at other
    exact absurd rfl other
  · intro earlier early later late reads
    rw [filter_redirect] at early
    obtain ⟨held, other⟩ := List.mem_filter.mp early
    obtain ⟨rfl, write, pended, segment⟩ := segment_write late
    have read : refReadsInit ir seg earlier.1 = true := reads.2
    rw [unread write ((listed write).mp pended) segment reads.1 earlier ((listed earlier).mp held)
      (of_decide_eq_true other)] at read
    cases read

/-- At the end the returned values have the words from before the batch. -/
def Evaluation.KeepsReturned (E : Evaluation ir) (ir' : IR) (b : BlockRef) (ret : Ref)
    (live : Reg → BitVec 16) : Prop :=
  List.Forall₂ (fun v v' => E.word (E.run ir' (ir.emitted ir' b) (.entry live)) v' =
    E.word (.entry live) v) (ir.valueOperands ret) (ir'.valueOperands ret)

theorem emitted_self (ir : IR) (b : BlockRef) : ir.emitted ir b = [] := by
  apply List.filter_eq_nil_iff.mpr
  intro r inside
  rw [decide_eq_true_eq]
  exact not_not_intro inside

theorem writeBackExit_nil (state : ExitState ir exit b before) (idle : exitPending ir exit = [])
    (done : writeBackExit exit ir = some ir') : ir' = ir := by
  rw [writeBackExit, state.ret] at done
  change (if exitPending ir exit = [] then _ else _) = _ at done
  rw [if_pos idle] at done
  exact (Option.some.inj done).symm

namespace ExitState

variable (state : ExitState ir exit b before) (done : writeBackExit exit ir = some ir')
  (E : Evaluation ir)
include state done

theorem keepsReturned (live : Reg → BitVec 16) : E.KeepsReturned ir' b (.instr b before) live := by
  by_cases idle : exitPending ir exit = []
  · obtain rfl := writeBackExit_nil state idle done
    rw [Evaluation.KeepsReturned, emitted_self]
    exact List.forall₂_same.mpr fun _ _ => rfl
  · obtain ⟨snaps, refs, seg, code⟩ := state.exitCode idle done
    obtain ⟨temps, kept, ran⟩ := code.runs E live
    rw [Evaluation.KeepsReturned, ran]
    apply forall₂_imp_mem code.returned
    intro v inside v' _ frozen
    apply kept.word_frozen (state.returned v inside) frozen
    exact fun reg away => sequence_exitWrites E away

/-- The deferred write gets the value from before the batch. -/
theorem keepsSegment (live : Reg → BitVec 16) {write : Reg × Ref}
    (inside : write ∈ exitPending ir exit) (stack : write.1 = .SS) :
    (E.run ir' (ir.emitted ir' b) (.entry live)).live write.1 = E.word (.entry live) write.2 := by
  obtain ⟨snaps, refs, seg, code⟩ := state.exitCode (List.ne_nil_of_mem inside) done
  obtain ⟨temps, kept, ran⟩ := code.runs E live
  obtain ⟨first, last, split, early⟩ := exitWrites_split state.pending_distinct inside stack
  have distinct : ((exitWrites ir (exitPending ir exit) seg).map Prod.fst).Nodup :=
    exitWrites_nodup state.pending_distinct
  rw [← E.move_targets temps, split, List.map_append, List.map_cons] at distinct
  rw [ran, split, List.map_append, List.map_cons, stack]
  apply (sequence_settled distinct).trans
  apply kept.word_frozen (state.pending_known write inside) (code.segment write inside stack)
  intro reg away
  apply sequence_untouched
  rw [E.move_targets]
  intro written
  obtain ⟨other, held, rfl⟩ := List.mem_map.mp written
  exact away (early other held)

theorem keepsValues (acyclic : Acyclic (mustPrecede ir) (exitPending ir exit))
    (live : Reg → BitVec 16) : E.KeepsValues ir' b (exitPending ir exit) live := by
  intro write inside
  obtain ⟨snaps, refs, seg, code⟩ := state.exitCode (List.ne_nil_of_mem inside) done
  obtain ⟨temps, kept, ran⟩ := code.runs E live
  have parallel : InParallel live ((exitWrites ir (exitPending ir exit) seg).map (E.move temps)) := by
    apply inParallel_exitWrites E state.pending_distinct acyclic
    intro segment pended stack missing other held apart
    rcases code.segment segment pended stack with ⟨rfl, unread⟩ | ⟨placed, found⟩
    · rw [readsPending, List.any_eq_false] at unread
      apply Bool.eq_false_iff.mpr
      exact unread other (List.mem_filter.mpr ⟨held, decide_eq_true apart⟩)
    · rw [kept.snaps seg placed segment.2 found] at missing
      cases missing
  have placed : redirect seg write ∈ exitWrites ir (exitPending ir exit) seg :=
    perm_exitWrites.mem_iff.mpr (List.mem_map_of_mem inside)
  have final := (inParallel_iff_writes E live).mp parallel _ placed
  rw [ran]
  rw [redirect_fst] at final
  apply final.trans
  by_cases stack : write.1 = .SS
  · rw [redirect, if_pos stack]
    exact kept.word_frozen (state.pending_known write inside) (code.segment write inside stack)
      fun _ _ => rfl
  · rw [redirect_of_ne stack]
    exact kept.word_known (state.pending_known write inside)

end ExitState

theorem move_congr (E : Evaluation ir) {temps' : Ref → Option (BitVec 16)} {write : Reg × Ref}
    (same : temps write.2 = temps' write.2) : E.move temps write = E.move temps' write := by
  simp only [Evaluation.move, Evaluation.word, same]

/-- Without a deferred write every batch that is written back in parallel has no cycle. -/
theorem ExitState.acyclic_of_keepsValues (state : ExitState ir exit b before)
    (done : writeBackExit exit ir = some ir')
    (apart : ∀ write ∈ exitPending ir exit, write.1 ≠ .SS)
    (keeps : ∀ (E : Evaluation ir) (live : Reg → BitVec 16),
      E.KeepsValues ir' b (exitPending ir exit) live) :
    Acyclic (mustPrecede ir) (exitPending ir exit) := by
  by_contra cyclic
  obtain ⟨E, live, wrong⟩ := not_inParallel_of_cyclic state.pending_distinct cyclic
  have more : exitPending ir exit ≠ [] := by
    intro idle
    apply cyclic
    intro part inside _
    exact List.subset_nil.mp (idle ▸ inside)
  obtain ⟨snaps, refs, seg, code⟩ := state.exitCode more done
  obtain ⟨temps, kept, ran⟩ := code.runs E live
  have listed : ∀ write, write ∈ orderGuestWrites ir (exitPending ir exit) ↔
      write ∈ exitPending ir exit := fun write => (perm_orderGuestWrites ir _).mem_iff
  have plain : exitWrites ir (exitPending ir exit) seg = orderGuestWrites ir (exitPending ir exit) := by
    have others : ∀ write ∈ orderGuestWrites ir (exitPending ir exit), write.1 ≠ .SS :=
      fun write inside => apart write ((listed write).mp inside)
    rw [exitWrites, map_redirect_of_ne others, exitOrder]
    rw [List.filter_eq_self.mpr fun write inside => decide_eq_true (others write inside),
      List.filter_eq_nil_iff.mpr fun write inside => by simp [others write inside], List.append_nil]
  have moves : (orderGuestWrites ir (exitPending ir exit)).map (E.move temps) =
      (orderGuestWrites ir (exitPending ir exit)).map (E.move fun _ => none) := by
    apply List.map_congr_left
    intro write inside
    apply move_congr
    exact kept.known write.2 (state.pending_known write ((listed write).mp inside))
  apply wrong
  apply (inParallel_iff_writes E live).mpr
  intro write inside
  have final := keeps E live write ((listed write).mp inside)
  rw [ran, plain, moves] at final
  exact final

end Dis86.Build
