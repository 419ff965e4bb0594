import Dis86.Build.Synchronise

namespace Dis86.Build
open Asm (Reg)
open Lib

variable {ir ir₀ ir₁ ir' : IR} {b : BlockRef} {before : Nat} {ret v : Ref}
  {pending : List (Reg × Ref)} {pre post : List Ref}

/-- All that a value leads to exists, and the return is no part of it. -/
def Known (ir : IR) (ret v : Ref) : Prop :=
  ∀ x, Reaches ir.valueOperands [v] x → x ≠ ret ∧ ∀ b idx, x = .instr b idx → (ir.instr? x).isSome

/-- All instructions but the return are as before. -/
def Grown (ret : Ref) (ir ir' : IR) : Prop :=
  ∀ r instr, r ≠ ret → ir.instr? r = some instr → ir'.instr? r = some instr

theorem Grown.refl (ret : Ref) (ir : IR) : Grown ret ir ir := fun _ _ _ found => found

theorem Grown.trans (first : Grown ret ir₀ ir) (second : Grown ret ir ir') : Grown ret ir₀ ir' :=
  fun r instr other found => second r instr other (first r instr other found)

theorem Grown.of_placed {refs : List Ref} {instrs : List Instr} (ret : Ref)
    (placed : Placed ir ir' b post refs instrs) : Grown ret ir ir' :=
  fun _ _ _ found => placed.present found

theorem Grown.modifyInstr (ir : IR) (ret : Ref) (f : Instr → Instr) :
    Grown ret ir (ir.modifyInstr ret f) := by
  intro r instr other found
  rw [IR.instr?_modifyInstr, if_neg other]
  exact found

namespace Known

theorem valueOperands (known : Known ir ret v) (grown : Grown ret ir ir') {x : Ref}
    (reached : Reaches ir.valueOperands [v] x) : ir'.valueOperands x = ir.valueOperands x := by
  obtain ⟨other, present⟩ := known x reached
  cases x with
  | instr c idx =>
      obtain ⟨instr, found⟩ := Option.isSome_iff_exists.mp (present c idx rfl)
      rw [IR.valueOperands, IR.valueOperands, found, grown _ _ other found]
  | const | init | block | symbol | func => rfl

/-- A value reads the same registers after the function has grown. -/
theorem refReadsInit (known : Known ir ret v) (grown : Grown ret ir ir') (target : Reg) :
    refReadsInit ir' v target = refReadsInit ir v target := by
  apply Bool.eq_iff_iff.mpr
  rw [refReadsInit_iff, refReadsInit_iff]
  apply exists_congr
  intro reg
  rw [reaches_congr fun x reached => known.valueOperands grown reached]

theorem readsPending (known : Known ir ret v) (grown : Grown ret ir ir')
    (pending : List (Reg × Ref)) : readsPending ir' pending v = readsPending ir pending v := by
  simp only [Build.readsPending, known.refReadsInit grown]

theorem of_grown (known : Known ir ret v) (grown : Grown ret ir ir') : Known ir' ret v := by
  intro x reached
  have same := reaches_congr (fun x reached => known.valueOperands grown reached) x
  obtain ⟨other, present⟩ := known x (same.mp reached)
  refine ⟨other, fun c idx here => ?_⟩
  obtain ⟨instr, found⟩ := Option.isSome_iff_exists.mp (present c idx here)
  rw [grown x instr other found]
  rfl

/-- A value that exists is none of the instructions that are placed later. -/
theorem not_fresh (known : Known ir ret v) {r : Ref} {instr : Instr} (fresh : ir.instr? r = none)
    (later : ir'.instr? r = some instr) : v ≠ r := by
  rintro rfl
  cases v with
  | instr c idx =>
      have present := (known _ (.start (List.mem_singleton_self _))).2 c idx rfl
      rw [fresh] at present
      cases present
  | const | init | block | symbol | func => cases later

end Known

/-- A snapshot reads what its value reads. -/
theorem refReadsInit_snapshot {s : Ref} (found : ir.instr? s = some (snapshot v)) (target : Reg) :
    refReadsInit ir s target = refReadsInit ir v target := by
  have operands : ir.valueOperands s = [v] := by
    rw [IR.valueOperands, found]
    rfl
  apply Bool.eq_iff_iff.mpr
  rw [refReadsInit_iff, refReadsInit_iff]
  apply exists_congr
  intro reg
  rw [reaches_from, operands]
  have apart : Ref.init reg ≠ s := by
    rintro rfl
    cases found
  simp [apart]

/-- An operand stays as it is, or a snapshot stands for it. -/
def FrozenAs (ir ir' : IR) (pending : List (Reg × Ref)) (refs : List Ref) (v v' : Ref) : Prop :=
  v' = v ∧ readsPending ir pending v = false ∨ v' ∈ refs ∧ ir'.instr? v' = some (snapshot v)

theorem FrozenAs.mono {ir ir₁ ir' : IR} {refs refs' : List Ref} {v v' : Ref}
    (frozen : FrozenAs ir ir₁ pending refs v v') (more : refs ⊆ refs')
    (kept : ∀ r ∈ refs, ∀ instr, ir₁.instr? r = some instr → ir'.instr? r = some instr) :
    FrozenAs ir ir' pending refs' v v' := by
  rcases frozen with unread | ⟨inside, found⟩
  · exact .inl unread
  · exact .inr ⟨more inside, kept v' inside _ found⟩

/-- Snapshots are placed before the return. -/
theorem placed_snapshotOperands {vs vs' : List Ref} (grown : Grown (.instr b before) ir₀ ir)
    (split : ir.iterInstrs b = pre ++ .instr b before :: post)
    (known : ∀ v ∈ vs, Known ir₀ (.instr b before) v)
    (taken : snapshotOperands b before pending vs ir = some (vs', ir')) :
    ∃ refs frozen, Placed ir ir' b (.instr b before :: post) refs (frozen.map snapshot) ∧
      frozen ⊆ vs ∧ List.Forall₂ (FrozenAs ir₀ ir' pending refs) vs vs' := by
  induction vs generalizing ir pre vs' with
  | nil =>
      obtain ⟨rfl, rfl⟩ := Prod.mk.inj (Option.some.inj taken)
      exact ⟨[], [], .nil pre split, List.Subset.refl [], .nil⟩
  | cons v vs hypothesis =>
      have known_rest : ∀ w ∈ vs, Known ir₀ (.instr b before) w :=
        fun w inside => known w (List.mem_cons_of_mem v inside)
      have stable := (known v List.mem_cons_self).readsPending grown pending
      by_cases reads : readsPending ir₀ pending v = true
      · simp only [snapshotOperands, stable, reads, if_true] at taken
        obtain ⟨⟨v', ir₁⟩, here, taken⟩ := Option.bind_eq_some_iff.mp taken
        obtain ⟨⟨rest, ir₂⟩, later, same⟩ := Option.bind_eq_some_iff.mp taken
        obtain ⟨rfl, rfl⟩ := Prod.mk.inj (Option.some.inj same)
        have first := Placed.insert here split (.inr ⟨before, post, rfl, rfl⟩)
        obtain ⟨pre₁, _, order⟩ := first.order
        rw [← List.append_assoc] at order
        obtain ⟨refs, frozen, second, inside, kept⟩ :=
          hypothesis (grown.trans (.of_placed _ first)) order known_rest later
        refine ⟨[v'] ++ refs, v :: frozen, first.trans second,
          List.cons_subset_cons v inside, .cons (.inr ⟨by simp, ?_⟩) ?_⟩
        · exact second.present (List.forall₂_cons.mp first.holds).1
        · apply kept.imp
          exact fun w w' frozen => frozen.mono (List.subset_append_right _ _) fun _ _ _ found => found
      · simp only [snapshotOperands, stable, reads] at taken
        obtain ⟨⟨rest, ir₂⟩, later, same⟩ := Option.bind_eq_some_iff.mp taken
        obtain ⟨rfl, rfl⟩ := Prod.mk.inj (Option.some.inj same)
        obtain ⟨refs, frozen, placed, inside, kept⟩ := hypothesis grown split known_rest later
        refine ⟨refs, frozen, placed, fun w held => List.mem_cons_of_mem v (inside held), .cons (.inl ⟨rfl, ?_⟩) kept⟩
        exact Bool.eq_false_iff.mpr reads

/-- The deferred write gets another value. -/
def redirect (seg : Ref) (write : Reg × Ref) : Reg × Ref :=
  if write.1 = .SS then (.SS, seg) else write

@[simp] theorem redirect_fst (seg : Ref) (write : Reg × Ref) : (redirect seg write).1 = write.1 := by
  unfold redirect
  split
  · rename_i here
    exact here.symm
  · rfl

theorem redirect_of_ne {seg : Ref} {write : Reg × Ref} (other : write.1 ≠ .SS) :
    redirect seg write = write := if_neg other

theorem redirect_self (write : Reg × Ref) : redirect write.2 write = write := by
  unfold redirect
  split
  · rename_i here
    rw [← here]
  · rfl

theorem map_redirect_of_ne {seg : Ref} {writes : List (Reg × Ref)}
    (other : ∀ write ∈ writes, write.1 ≠ .SS) : writes.map (redirect seg) = writes := by
  have same : writes.map (redirect seg) = writes.map id :=
    List.map_congr_left fun write inside => redirect_of_ne (other write inside)
  rw [same, List.map_id]

/-- The deferred write gets a snapshot when its value reads another pending register. -/
theorem placed_snapshotStackSegment {all writes writes' : List (Reg × Ref)}
    (split : ir.iterInstrs b = pre ++ .instr b before :: post)
    (distinct : (writes.map Prod.fst).Nodup)
    (taken : snapshotStackSegment b before all writes ir = some (writes', ir')) :
    ∃ seg refs frozen, Placed ir ir' b (.instr b before :: post) refs (frozen.map snapshot) ∧
      frozen ⊆ writes.map Prod.snd ∧ writes' = writes.map (redirect seg) ∧
      ∀ write ∈ writes, write.1 = .SS →
        FrozenAs ir ir' (all.filter fun write => write.1 ≠ .SS) refs write.2 seg := by
  induction writes generalizing writes' with
  | nil =>
      obtain ⟨rfl, rfl⟩ := Prod.mk.inj (Option.some.inj taken)
      exact ⟨.block 0, [], [], .nil pre split, List.Subset.refl [], rfl, by simp⟩
  | cons write writes hypothesis =>
      obtain ⟨reg, vref⟩ := write
      rw [List.map_cons, List.nodup_cons] at distinct
      by_cases here : reg = .SS
      · subst here
        have other : ∀ write ∈ writes, write.1 ≠ .SS :=
          fun write inside same => distinct.1 (List.mem_map.mpr ⟨write, inside, same⟩)
        by_cases reads : readsPending ir (all.filter fun write => write.1 ≠ .SS) vref = true
        · simp only [snapshotStackSegment, reads, if_true] at taken
          obtain ⟨⟨s, ir₁⟩, inserted, same⟩ := Option.bind_eq_some_iff.mp taken
          obtain ⟨rfl, rfl⟩ := Prod.mk.inj (Option.some.inj same)
          have placed := Placed.insert inserted split (.inr ⟨before, post, rfl, rfl⟩)
          refine ⟨s, [s], [vref], placed, by simp, ?_, ?_⟩
          · rw [List.map_cons, map_redirect_of_ne other]
            rfl
          · intro write inside segment
            rcases List.mem_cons.mp inside with rfl | later
            · exact .inr ⟨by simp, (List.forall₂_cons.mp placed.holds).1⟩
            · exact absurd segment (other write later)
        · simp only [snapshotStackSegment, reads, if_true] at taken
          obtain ⟨rfl, rfl⟩ := Prod.mk.inj (Option.some.inj taken)
          refine ⟨vref, [], [], .nil pre split, by simp, ?_, ?_⟩
          · rw [List.map_cons, map_redirect_of_ne other]
            rfl
          · intro write inside segment
            rcases List.mem_cons.mp inside with rfl | later
            · exact .inl ⟨rfl, Bool.eq_false_iff.mpr reads⟩
            · exact absurd segment (other write later)
      · simp only [snapshotStackSegment, here, if_false] at taken
        obtain ⟨⟨rest, ir₁⟩, later, same⟩ := Option.bind_eq_some_iff.mp taken
        obtain ⟨rfl, rfl⟩ := Prod.mk.inj (Option.some.inj same)
        obtain ⟨seg, refs, frozen, placed, inside, renamed, kept⟩ := hypothesis distinct.2 later
        refine ⟨seg, refs, frozen, placed, fun v held => List.mem_cons_of_mem _ (inside held), ?_, ?_⟩
        · rw [List.map_cons, redirect_of_ne here, renamed]
        · intro write inside segment
          rcases List.mem_cons.mp inside with rfl | later
          · exact absurd segment here
          · exact kept write later segment

def exitAttrs (reg : Reg) : BitVec 8 :=
  Attribute.PIN ||| Attribute.EXIT_STATE ||| if reg = .SS then Attribute.POST_FRAME else Attribute.NONE

theorem deferred_exit {symref : SymbolRef} {r : Ref} {reg : Reg}
    (found : ir.instr? r = some (guestWrite symref v (exitAttrs reg))) :
    deferred ir r = decide (reg = .SS) := by
  by_cases segment : reg = .SS
  · simp [deferred, found, guestWrite, exitAttrs, segment, Attribute.PIN, Attribute.EXIT_STATE,
      Attribute.POST_FRAME]
  · simp [deferred, found, guestWrite, exitAttrs, segment, Attribute.PIN, Attribute.EXIT_STATE,
      Attribute.POST_FRAME, Attribute.NONE]

/-- The order in which the writes of the exit state run. -/
def exitOrder (writes : List (Reg × Ref)) : List (Reg × Ref) :=
  writes.filter (fun write => write.1 ≠ .SS) ++ writes.filter (fun write => write.1 = .SS)

theorem perm_exitOrder (writes : List (Reg × Ref)) : (exitOrder writes).Perm writes := by
  have split := List.filter_append_perm (fun write : Reg × Ref => decide (write.1 ≠ .SS)) writes
  simpa [exitOrder] using split

namespace Evaluation

variable (E : Evaluation ir₀)

theorem step_snapshot {r : Ref} (found : ir.instr? r = some (snapshot v)) (m : Machine) :
    E.step ir m r = ⟨m.live, Function.update m.temps r (some (E.word m v))⟩ := by
  have marked : ¬ Attribute.MATERIALISE &&& Attribute.MATERIALISE = 0 := by decide
  simp only [step, found, snapshot, if_neg marked]

/-- Snapshots keep the words of their values, and the live registers stay. -/
theorem foldl_snapshots {refs frozen : List Ref}
    (held : List.Forall₂ (fun r v => ir.instr? r = some (snapshot v)) refs frozen)
    (apart : ∀ v ∈ frozen, v ∉ refs) (m : Machine) : ∃ temps,
      refs.foldl (E.step ir) m = ⟨m.live, temps⟩ ∧ (∀ x, x ∉ refs → temps x = m.temps x) ∧
        ∀ r ∈ refs, ∀ v, ir.instr? r = some (snapshot v) → temps r = some (E.word m v) := by
  induction held generalizing m with
  | nil => exact ⟨m.temps, rfl, fun _ _ => rfl, fun r inside => absurd inside List.not_mem_nil⟩
  | @cons r v refs frozen found held hypothesis =>
      have later : ∀ w ∈ frozen, w ∉ refs := fun w inside reused =>
        apart w (List.mem_cons_of_mem v inside) (List.mem_cons_of_mem r reused)
      obtain ⟨temps, ran, others, kept⟩ := hypothesis later
        ⟨m.live, Function.update m.temps r (some (E.word m v))⟩
      -- No value of a snapshot is the first snapshot, so its word has not changed.
      have same : ∀ w, w ≠ r → E.word ⟨m.live, Function.update m.temps r (some (E.word m v))⟩ w =
          E.word m w := by
        intro w other
        simp only [word, Function.update_of_ne other]
      refine ⟨temps, ?_, ?_, ?_⟩
      · rw [List.foldl_cons, step_snapshot E found]
        exact ran
      · intro x away
        rw [List.mem_cons, not_or] at away
        exact (others x away.2).trans (Function.update_of_ne away.1 _ _)
      · intro s inside w here
        by_cases again : s ∈ refs
        · obtain ⟨w', listed, here'⟩ := exists_partner held again
          rw [here] at here'
          obtain rfl : w = w' := by simpa [snapshot] using here'
          rw [kept s again w here, same]
          rintro rfl
          exact apart w (List.mem_cons_of_mem v listed) List.mem_cons_self
        · obtain rfl := (List.mem_cons.mp inside).resolve_right again
          rw [found] at here
          obtain rfl : v = w := by simpa [snapshot] using here
          exact (others s again).trans (Function.update_self _ _ _)

/-- The exit code runs the snapshots, then the writes as moves with the deferred one last. -/
theorem run_exit {snaps frozen refs : List Ref} {writes : List (Reg × Ref)}
    (held : List.Forall₂ (fun r v => ir.instr? r = some (snapshot v)) snaps frozen)
    (apart : ∀ v ∈ frozen, v ∉ snaps) (written : Writes ir exitAttrs refs writes)
    (live : Reg → BitVec 16) : ∃ temps,
      E.run ir (snaps ++ refs) (.entry live) =
        ⟨sequence live ((exitOrder writes).map (E.move temps)), temps⟩ ∧
        (∀ x, x ∉ snaps → temps x = none) ∧
        ∀ r ∈ snaps, ∀ v, ir.instr? r = some (snapshot v) → temps r = some (E.word (.entry live) v) := by
  obtain ⟨temps, ran, others, kept⟩ := E.foldl_snapshots held apart (.entry live)
  refine ⟨temps, ?_, others, kept⟩
  have now : ∀ r ∈ snaps, deferred ir r = false := by
    intro r inside
    obtain ⟨v, _, found⟩ := exists_partner held inside
    have unmarked : ¬ Attribute.MATERIALISE &&& Attribute.POST_FRAME ≠ 0 := by decide
    simp only [deferred, found, snapshot, Option.any_some, decide_eq_false unmarked]
  have first : snaps.filter (fun r => !deferred ir r) = snaps := by
    apply List.filter_eq_self.mpr
    intro r inside
    rw [now r inside]
    rfl
  have last : snaps.filter (deferred ir) = [] := by
    apply List.filter_eq_nil_iff.mpr
    intro r inside
    rw [now r inside]
    exact Bool.false_ne_true
  have ordered : Writes ir exitAttrs
      (refs.filter (fun r => !deferred ir r) ++ refs.filter (deferred ir)) (exitOrder writes) := by
    apply List.rel_append
    · apply List.rel_filter _ written
      rintro r write ⟨symref, _, found⟩
      simp [deferred_exit found]
    · apply List.rel_filter _ written
      rintro r write ⟨symref, _, found⟩
      simp only [deferred_exit found]
  rw [run, List.filter_append, List.filter_append, first, last, List.nil_append, List.append_assoc,
    List.foldl_append, ran, E.foldl_writes ordered]
  rfl

end Evaluation

end Dis86.Build
