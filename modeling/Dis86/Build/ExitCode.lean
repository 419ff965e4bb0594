import Dis86.Build.ExitWrites

namespace Dis86.Build
open Asm (Reg)
open Lib

variable {ir ir₁ ir' : IR} {exit : RetExit} {b : BlockRef} {before : Nat} {seg : Ref}
  {pending : List (Reg × Ref)}

/-- The pending registers of a return that no longer hold their entry value. -/
def exitPending (ir : IR) (exit : RetExit) : List (Reg × Ref) :=
  exit.pending.filter fun write => !isEntryValue ir write.2 write.1

theorem mapM_getReg {regs : List Reg} {s s' : IRBuilder}
    (ran : (regs.mapM fun reg => do return (reg, ← getReg reg) : Lowering _) s = some (pending, s')) :
    pending.map Prod.fst = regs := by
  induction regs generalizing pending s s' with
  | nil =>
      obtain ⟨rfl, _⟩ := Prod.mk.inj (Option.some.inj ran)
      rfl
  | cons reg regs hypothesis =>
      rw [List.mapM_cons] at ran
      obtain ⟨⟨write, s₁⟩, first, ran⟩ := Option.bind_eq_some_iff.mp ran
      obtain ⟨⟨rest, s₂⟩, later, same⟩ := Option.bind_eq_some_iff.mp ran
      obtain ⟨⟨vref, s₃⟩, _, first⟩ := Option.bind_eq_some_iff.mp first
      obtain ⟨rfl, _⟩ := Prod.mk.inj (Option.some.inj same)
      obtain ⟨rfl, _⟩ := Prod.mk.inj (Option.some.inj first)
      rw [List.map_cons, hypothesis later]

/-- A return waits for each register once. -/
theorem exitRegisterValues_nodup {dxIsReturn : Bool} {s s' : IRBuilder}
    (ran : exitRegisterValues dxIsReturn s = some (pending, s')) :
    (pending.map Prod.fst).Nodup := by
  rw [mapM_getReg ran]
  apply List.Nodup.filter
  decide

/-- A return in a block, and the values that are live at it. -/
structure ExitState (ir : IR) (exit : RetExit) (b : BlockRef) (before : Nat) : Prop where
  ret : exit.retRef = .instr b before
  listed : Ref.instr b before ∈ ir.iterInstrs b
  distinct : (exit.pending.map Prod.fst).Nodup
  known : ∀ write ∈ exit.pending, Known ir (.instr b before) write.2
  returned : ∀ v ∈ ir.valueOperands (.instr b before), Known ir (.instr b before) v

namespace ExitState

variable (state : ExitState ir exit b before)
include state

theorem pending_distinct : ((exitPending ir exit).map Prod.fst).Nodup :=
  state.distinct.sublist (List.filter_sublist.map Prod.fst)

theorem pending_known : ∀ write ∈ exitPending ir exit, Known ir (.instr b before) write.2 :=
  fun write inside => state.known write (List.mem_filter.mp inside).1

end ExitState

/-- What is placed before a return: snapshots, then the writes in their order. -/
structure ExitCode (ir ir' : IR) (b : BlockRef) (before : Nat) (pending : List (Reg × Ref))
    (snaps refs : List Ref) (seg : Ref) : Prop where
  emitted : ir.emitted ir' b = snaps ++ refs
  held : ∃ frozen, List.Forall₂ (fun r v => ir'.instr? r = some (snapshot v)) snaps frozen ∧
    ∀ v ∈ frozen, v ∉ snaps
  fresh : ∀ v, Known ir (.instr b before) v → v ∉ snaps
  written : Writes ir' exitAttrs refs ((orderGuestWrites ir pending).map (redirect seg))
  returned : List.Forall₂ (FrozenAs ir ir' pending snaps) (ir.valueOperands (.instr b before))
    (ir'.valueOperands (.instr b before))
  segment : ∀ write ∈ pending, write.1 = .SS →
    FrozenAs ir ir' (pending.filter fun write => write.1 ≠ .SS) snaps write.2 seg

/-- A deferred write with a frozen value blocks what it blocked before. -/
theorem mustPrecede_redirect {write other : Reg × Ref}
    (stable : ∀ reg, refReadsInit ir' other.2 reg = refReadsInit ir other.2 reg)
    (frozen : other.1 = .SS → seg = other.2 ∨ ir'.instr? seg = some (snapshot other.2)) :
    mustPrecede ir' (redirect seg other) (redirect seg write) = mustPrecede ir other write := by
  have reads : refReadsInit ir' (redirect seg other).2 write.1 = refReadsInit ir other.2 write.1 := by
    by_cases segment : other.1 = .SS
    · rcases frozen segment with rfl | found
      · rw [redirect_self, stable]
      · rw [redirect, if_pos segment, refReadsInit_snapshot found, stable]
    · rw [redirect_of_ne segment, stable]
  simp only [mustPrecede, redirect_fst, reads]

/-- The redirected writes have the order of the old ones. -/
theorem orderGuestWrites_redirect
    (same : ∀ other ∈ pending, ∀ write ∈ pending,
      mustPrecede ir' (redirect seg other) (redirect seg write) = mustPrecede ir other write) :
    orderGuestWrites ir' (pending.map (redirect seg)) =
      (orderGuestWrites ir pending).map (redirect seg) := by
  unfold orderGuestWrites
  rw [Schedule.schedule_map, List.length_map, Schedule.schedule_congr same]

/-- The writes of the exit state stand before the return. -/
theorem placed_exitWrites {writes : List (Reg × Ref)} {pre post : List Ref}
    (split : ir.iterInstrs b = pre ++ .instr b before :: post)
    (done : writes.foldlM (writeGuestRegisterBefore b before) ir = some ir') :
    ∃ refs instrs, Placed ir ir' b (.instr b before :: post) refs instrs ∧
      Writes ir' exitAttrs refs writes := by
  apply placed_writes _ (.inr ⟨before, post, rfl, rfl⟩) split done
  intro ir write ir' one
  obtain ⟨symref, found, one⟩ := Option.bind_eq_some_iff.mp one
  obtain ⟨⟨r, ir''⟩, inserted, same⟩ := Option.bind_eq_some_iff.mp one
  obtain rfl := Option.some.inj same
  exact ⟨symref, r, found, inserted⟩

/-- Code that is placed in two parts, between which only the return changes. -/
theorem emitted_twice {ir₂ : IR} {post refs refs' : List Ref} {instrs instrs' : List Instr}
    (first : Placed ir ir₁ b post refs instrs) (same : ir₂.iterInstrs b = ir₁.iterInstrs b)
    (kept : ∀ r, (ir₁.instr? r).isSome → (ir₂.instr? r).isSome)
    (second : Placed ir₂ ir' b post refs' instrs') : ir.emitted ir' b = refs ++ refs' := by
  obtain ⟨pre, old, middle⟩ := first.order
  obtain ⟨pre', middle', new⟩ := second.order
  have joined : pre ++ refs = pre' := by
    apply (List.append_left_inj post).mp
    rw [List.append_assoc, ← middle, ← same, middle']
  apply IR.emitted_of_order old
  · rw [new, ← joined, List.append_assoc, List.append_assoc]
  · intro r inside listed
    have present := IR.mem_iterInstrs_instr? listed
    obtain ⟨instr, found⟩ := Option.isSome_iff_exists.mp present
    rcases List.mem_append.mp inside with early | late
    · rw [first.fresh r early] at found
      cases found
    · have later := kept r (by rw [first.present found]; rfl)
      rw [second.fresh r late] at later
      cases later

/-- The return takes the frozen operands. -/
theorem instr?_return {instr : Instr} {operands : List Ref} {ret : Ref}
    (found : ir.instr? ret = some instr) :
    (ir.modifyInstr ret fun instr => { instr with operands }).instr? ret =
      some { instr with operands } := by
  rw [IR.instr?_modifyInstr, if_pos rfl, found]
  rfl

theorem isSome_modifyInstr (ret r : Ref) (f : Instr → Instr) (found : (ir.instr? r).isSome) :
    ((ir.modifyInstr ret f).instr? r).isSome := by
  rw [IR.instr?_modifyInstr]
  split
  · rename_i here
    rw [Option.isSome_map, ← here]
    exact found
  · exact found

theorem ExitState.exitCode (state : ExitState ir exit b before)
    (more : exitPending ir exit ≠ []) (done : writeBackExit exit ir = some ir') :
    ∃ snaps refs seg, ExitCode ir ir' b before (exitPending ir exit) snaps refs seg := by
  set pending := exitPending ir exit with named
  set ret := Ref.instr b before with ret_named
  have pending_known : ∀ write ∈ pending, Known ir ret write.2 := state.pending_known
  rw [writeBackExit, state.ret] at done
  simp only at done
  rw [← ret_named] at done
  change (if pending = [] then _ else _) = _ at done
  rw [if_neg more] at done
  obtain ⟨instr, ret_found, done⟩ := Option.bind_eq_some_iff.mp done
  obtain ⟨⟨operands, ir₁⟩, taken₁, done⟩ := Option.bind_eq_some_iff.mp done
  obtain ⟨⟨pending', ir₃⟩, taken₂, done⟩ := Option.bind_eq_some_iff.mp done
  have old_operands : ir.valueOperands ret = instr.operands := by
    rw [IR.valueOperands, ret_found]
    rfl
  obtain ⟨pre, post, split⟩ := List.append_of_mem state.listed
  -- The operands of the return are frozen first.
  obtain ⟨refs₁, frozen₁, placed₁, inside₁, returned⟩ :=
    placed_snapshotOperands (.refl ret ir) split (old_operands ▸ state.returned) taken₁
  set ir₂ := ir₁.modifyInstr ret fun instr => { instr with operands } with ir₂_named
  have same_order : ir₂.iterInstrs b = ir₁.iterInstrs b := IR.iterInstrs_modifyInstr ir₁ ret _ b
  have grown₂ : Grown ret ir ir₂ :=
    (Grown.of_placed ret placed₁).trans (Grown.modifyInstr ir₁ ret _)
  -- Then the deferred value, and the writes.
  obtain ⟨pre₁, _, order₁⟩ := placed₁.order
  have split₂ : ir₂.iterInstrs b = (pre₁ ++ refs₁) ++ ret :: post := by
    rw [same_order, order₁, List.append_assoc]
  obtain ⟨seg, refs₂, frozen₂, placed₂, inside₂, renamed, segment⟩ :=
    placed_snapshotStackSegment split₂ state.pending_distinct taken₂
  subst renamed
  obtain ⟨pre₂, _, order₂⟩ := placed₂.order
  rw [← List.append_assoc] at order₂
  obtain ⟨refs, instrs, placed₃, written⟩ := placed_exitWrites order₂ done
  have grown₃ : Grown ret ir ir₃ := grown₂.trans (.of_placed ret placed₂)
  have kept₁ : ∀ r ∈ refs₁, ∀ instr, ir₁.instr? r = some instr → ir'.instr? r = some instr := by
    intro r inside instr found
    have other : r ≠ ret := by
      rintro rfl
      rw [placed₁.fresh _ inside] at ret_found
      cases ret_found
    apply placed₃.present
    apply placed₂.present
    rw [ir₂_named, IR.instr?_modifyInstr, if_neg other]
    exact found
  have fresh : ∀ v, Known ir ret v → v ∉ refs₁ ++ refs₂ := by
    intro v known inside
    rcases List.mem_append.mp inside with early | late
    · obtain ⟨_, _, found⟩ := placed₁.instr?_of_mem early
      exact known.not_fresh (placed₁.fresh v early) found rfl
    · obtain ⟨_, _, found⟩ := placed₂.instr?_of_mem late
      exact (known.of_grown grown₂).not_fresh (placed₂.fresh v late) found rfl
  refine ⟨refs₁ ++ refs₂, refs, seg, ?_, ⟨frozen₁ ++ frozen₂, ?_, ?_⟩, fresh, ?_, ?_, ?_⟩
  · rw [List.append_assoc]
    exact emitted_twice placed₁ same_order (fun r => isSome_modifyInstr ret r _) (placed₂.trans placed₃)
  · apply List.rel_append
    · exact forall₂_imp_mem (List.forall₂_map_right_iff.mp placed₁.holds)
        fun r inside v _ found => kept₁ r inside _ found
    · exact (List.forall₂_map_right_iff.mp placed₂.holds).imp fun r v found => placed₃.present found
  · intro v inside
    apply fresh
    rcases List.mem_append.mp inside with early | late
    · exact (old_operands ▸ state.returned) v (inside₁ early)
    · obtain ⟨write, held, rfl⟩ := List.mem_map.mp (inside₂ late)
      exact pending_known write held
  · rw [← orderGuestWrites_redirect]
    · exact written
    · intro other other_held write _
      apply mustPrecede_redirect
      · exact fun reg => (pending_known other other_held).refReadsInit grown₃ reg
      · intro stack
        rcases segment other other_held stack with ⟨same, _⟩ | ⟨_, found⟩
        · exact .inl same
        · exact .inr found
  · have new_operands : ir'.valueOperands ret = operands := by
      rw [IR.valueOperands, placed₃.present (placed₂.present (instr?_return (placed₁.present ret_found)))]
      rfl
    rw [old_operands, new_operands]
    apply returned.imp
    exact fun v v' frozen => frozen.mono (List.subset_append_left _ _) kept₁
  · intro write held stack
    have stable := (pending_known write held).readsPending grown₂
      (pending.filter fun write => write.1 ≠ .SS)
    rcases segment write held stack with ⟨same, unread⟩ | ⟨inside, found⟩
    · exact .inl ⟨same, stable ▸ unread⟩
    · exact .inr ⟨List.mem_append_right _ inside, placed₃.present found⟩

end Dis86.Build
