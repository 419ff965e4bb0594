import Dis86.Build.Execution

namespace Dis86

theorem SymbolMap.findRefByName_name {map : SymbolMap} {table : Table} {name other : String}
    {symref : SymbolRef} (found : map.findRefByName table name = some symref)
    (found' : map.findRefByName table other = some symref) : name = other := by
  have named : ∀ {name : String}, map.findRefByName table name = some symref →
      ∃ symbol, (map.getTable table)[symref.id.idx]? = some symbol ∧ symbol.name = name := by
    intro name found
    obtain ⟨idx, here, found⟩ := Option.bind_eq_some_iff.mp found
    obtain ⟨symbol, stored, same⟩ := Option.bind_eq_some_iff.mp found
    obtain ⟨bound, matched, _⟩ := List.findIdx?_eq_some_iff_getElem.mp here
    rw [List.getElem?_eq_getElem bound] at stored
    cases same
    refine ⟨symbol, ?_, ?_⟩
    · rw [List.getElem?_eq_getElem bound]
      exact stored
    · rw [← Option.some.inj stored]
      exact of_decide_eq_true matched
  obtain ⟨symbol, stored, rfl⟩ := named found
  obtain ⟨symbol', stored', rfl⟩ := named found'
  rw [stored] at stored'
  rw [Option.some.inj stored']

namespace Build
open Asm (Reg)
open Lib

theorem mem_allRegs (reg : Reg) : reg ∈ allRegs := by
  cases reg <;> decide

theorem name_injective {reg reg' : Reg} (same : reg.name = reg'.name) : reg = reg' := by
  revert same
  cases reg <;> cases reg' <;> decide

/-- The symbol that is found for a register stands for it. -/
theorem guestRegister?_of_find {map : SymbolMap} {reg : Reg} {symref : SymbolRef}
    (found : map.findRefByName .register reg.name = some symref) :
    guestRegister? map symref = some reg := by
  have known : (guestRegister? map symref).isSome := by
    apply List.find?_isSome.mpr
    exact ⟨reg, mem_allRegs reg, decide_eq_true found⟩
  obtain ⟨other, here⟩ := Option.isSome_iff_exists.mp known
  unfold guestRegister? at here ⊢
  have matched := List.find?_some here
  rw [decide_eq_true_eq] at matched
  rw [here, name_injective (SymbolMap.findRefByName_name matched found)]

/-- Instructions write the values to the registers. -/
def Writes (ir : IR) (attrs : Reg → BitVec 8) (refs : List Ref) (writes : List (Reg × Ref)) : Prop :=
  List.Forall₂ (fun r write => ∃ symref, guestRegister? ir.symbols symref = some write.1 ∧
    ir.instr? r = some (guestWrite symref write.2 (attrs write.1))) refs writes

/-- Guest writes that are inserted one after another stand together. -/
theorem placed_writes {b : BlockRef} {loc : Loc} {attrs : Reg → BitVec 8} {post : List Ref}
    {insert : IR → Reg × Ref → Option IR}
    (one : ∀ {ir write ir'}, insert ir write = some ir' → ∃ symref r,
      ir.symbols.findRefByName .register write.1.name = some symref ∧
        ir.blockInstrInsert b (guestWrite symref write.2 (attrs write.1)) loc = some (r, ir'))
    (spot : loc = .last ∧ post = [] ∨ ∃ idx rest, loc = .before idx ∧ post = .instr b idx :: rest)
    {writes : List (Reg × Ref)} {ir ir' : IR} {pre : List Ref} (split : ir.iterInstrs b = pre ++ post)
    (done : writes.foldlM insert ir = some ir') :
    ∃ refs instrs, Placed ir ir' b post refs instrs ∧ Writes ir' attrs refs writes := by
  induction writes generalizing ir pre with
  | nil =>
      obtain rfl := Option.some.inj done
      exact ⟨[], [], .nil pre split, .nil⟩
  | cons write writes hypothesis =>
      rw [List.foldlM_cons] at done
      obtain ⟨ir₁, inserted, done⟩ := Option.bind_eq_some_iff.mp done
      obtain ⟨symref, r, found, inserted⟩ := one inserted
      have first := Placed.insert inserted split spot
      obtain ⟨pre₁, _, order⟩ := first.order
      rw [← List.append_assoc] at order
      obtain ⟨refs, instrs, second, written⟩ := hypothesis order done
      refine ⟨[r] ++ refs, _, first.trans second, ?_⟩
      apply List.Forall₂.cons _ written
      refine ⟨symref, guestRegister?_of_find ?_, ?_⟩
      · rw [second.symbols, first.symbols]
        exact found
      · apply second.present
        exact (List.forall₂_cons.mp first.holds).1

namespace Evaluation

variable {ir₀ : IR} (E : Evaluation ir₀)

/-- A guest write is a move from the registers that its value reads. -/
def move (temps : Ref → Option (BitVec 16)) (write : Reg × Ref) : Move Reg (BitVec 16) where
  target := write.1
  source live := E.word ⟨live, temps⟩ write.2
  reads reg := temps write.2 = none ∧ refReadsInit ir₀ write.2 reg = true
  confined live live' same := by
    unfold word
    cases kept : temps write.2 with
    | some x => simp only [kept, Option.getD_some]
    | none =>
        simp only [kept, Option.getD_none]
        rw [E.confined live live' write.2 fun reg read => same reg ⟨kept, read⟩]

@[simp] theorem move_targets (temps : Ref → Option (BitVec 16)) (writes : List (Reg × Ref)) :
    (writes.map (E.move temps)).map Move.target = writes.map Prod.fst := by
  rw [List.map_map]
  rfl

/-- The guest writes run as moves. -/
theorem foldl_writes {ir : IR} {attrs : Reg → BitVec 8} {refs : List Ref} {writes : List (Reg × Ref)}
    (written : Writes ir attrs refs writes) (m : Machine) :
    refs.foldl (E.step ir) m = ⟨sequence m.live (writes.map (E.move m.temps)), m.temps⟩ := by
  induction written generalizing m with
  | nil => rfl
  | cons here _ hypothesis =>
      obtain ⟨symref, register, found⟩ := here
      rw [List.foldl_cons, hypothesis]
      simp only [step, found, guestWrite, register]
      rfl

end Evaluation

variable {ir : IR} {pending : List (Reg × Ref)}

theorem perm_orderGuestWrites (ir : IR) (pending : List (Reg × Ref)) :
    (orderGuestWrites ir pending).Perm pending := Schedule.perm_schedule le_rfl

theorem orderGuestWrites_nodup (distinct : (pending.map Prod.fst).Nodup) :
    ((orderGuestWrites ir pending).map Prod.fst).Nodup :=
  ((perm_orderGuestWrites ir pending).map Prod.fst).nodup_iff.mpr distinct

theorem mustPrecede_self (write : Reg × Ref) : mustPrecede ir write write = false := by
  simp [mustPrecede]

instance (ir : IR) (pending : List (Reg × Ref)) : Decidable (Acyclic (mustPrecede ir) pending) :=
  decidable_of_iff _ (Schedule.acyclic_iff mustPrecede_self).symm

/-- Without a cycle no write reads a register that was written before. -/
theorem order_pairwise (distinct : (pending.map Prod.fst).Nodup)
    (acyclic : Acyclic (mustPrecede ir) pending) : (orderGuestWrites ir pending).Pairwise
      fun earlier later => refReadsInit ir later.2 earlier.1 = false := by
  have free := Schedule.pairwise_of_acyclic (le_refl pending.length) acyclic
  have apart : (orderGuestWrites ir pending).Pairwise fun earlier later => earlier.1 ≠ later.1 :=
    List.pairwise_map.mp (orderGuestWrites_nodup distinct)
  apply (free.and apart).imp
  intro earlier later both
  have away : later.1 ≠ earlier.1 := fun same => both.2 same.symm
  simpa [mustPrecede, away] using both.1

/-- A batch without a cycle is written as one parallel assignment. -/
theorem Evaluation.inParallel_order (E : Evaluation ir) (temps : Ref → Option (BitVec 16))
    (distinct : (pending.map Prod.fst).Nodup) (acyclic : Acyclic (mustPrecede ir) pending)
    (live : Reg → BitVec 16) :
    InParallel live ((orderGuestWrites ir pending).map (E.move temps)) := by
  apply inParallel_of_reads
  · rw [E.move_targets]
    exact orderGuestWrites_nodup distinct
  · apply List.pairwise_map.mpr
    apply (order_pairwise distinct acyclic).imp
    intro earlier later unread read
    have reads : refReadsInit ir later.2 earlier.1 = true := read.2
    rw [unread] at reads
    cases reads

/-- One value depends on a register that it reads, and all others are zero. -/
def Evaluation.sensitive (v : Ref) (reg : Reg) (reads : refReadsInit ir v reg = true)
    (f : BitVec 16 → BitVec 16) : Evaluation ir where
  eval live r :=
    match r with
    | .init other => (regView other (live (initStorageParent other))).setWidth 32
    | r => if r = v then (f (live reg)).setWidth 32 else 0
  init _ _ := rfl
  confined live live' r same := by
    cases r with
    | init other =>
        simp only
        rw [same _ (refReadsInit_init ir other)]
    | const | instr | block | symbol | func =>
        simp only
        split
        · rename_i here
          rw [same reg (here ▸ reads)]
        · rfl

/-- The word of a value under the sensitive meaning. -/
theorem sensitive_word {v r : Ref} {reg : Reg} {reads : refReadsInit ir v reg = true}
    {f : BitVec 16 → BitVec 16} {live : Reg → BitVec 16} :
    (Evaluation.sensitive v reg reads f).word ⟨live, fun _ => none⟩ r =
      match r with
      | .init other => regView other (live (initStorageParent other))
      | r => if r = v then f (live reg) else 0 := by
  cases r with
  | init other => simp [Evaluation.word, Evaluation.sensitive]
  | const | instr | block | symbol | func =>
      simp only [Evaluation.word, Evaluation.sensitive, Option.getD_none]
      split <;> simp

theorem regView_zero (reg : Reg) : regView reg 0 = 0 := by
  unfold regView
  split_ifs <;> rfl

theorem regView_ones (reg : Reg) : regView reg 0xFFFF ≠ 0 := by
  unfold regView
  split_ifs <;> decide

/-- The value sees the register change. -/
theorem sensitive_word_ne {v : Ref} {reg : Reg} {reads : refReadsInit ir v reg = true}
    {f : BitVec 16 → BitVec 16} {live live' : Reg → BitVec 16} (differ : f 0 ≠ f 0xFFFF)
    (before : live reg = 0xFFFF) (after : live' reg = 0) :
    (Evaluation.sensitive v reg reads f).word ⟨live', fun _ => none⟩ v ≠
      (Evaluation.sensitive v reg reads f).word ⟨live, fun _ => none⟩ v := by
  rw [sensitive_word, sensitive_word]
  cases v with
  | init other =>
      have same := refReadsInit_init_iff.mp reads
      simp only [same, before, after, regView_zero]
      exact (regView_ones other).symm
  | const | instr | block | symbol | func =>
      simp only [if_true, before, after]
      exact differ

/-- A value that reads a register which is zero is zero. -/
theorem sensitive_word_zero {v w : Ref} {reg other : Reg} {reads : refReadsInit ir v reg = true}
    {f : BitVec 16 → BitVec 16} {live : Reg → BitVec 16} (also : refReadsInit ir w other = true)
    (zero : live other = 0) (cleared : w = v → f (live reg) = 0) :
    (Evaluation.sensitive v reg reads f).word ⟨live, fun _ => none⟩ w = 0 := by
  rw [sensitive_word]
  cases w with
  | init part =>
      have same := refReadsInit_init_iff.mp also
      simp only [same, zero, regView_zero]
  | const | instr | block | symbol | func =>
      simp only
      split
      · rename_i here
        exact cleared here
      · rfl

/-- In a cycle some meaning of the values lets a write see a register that was already written. -/
theorem not_inParallel_of_cyclic (distinct : (pending.map Prod.fst).Nodup)
    (cyclic : ¬ Acyclic (mustPrecede ir) pending) :
    ∃ (E : Evaluation ir) (live : Reg → BitVec 16),
      ¬ InParallel live ((orderGuestWrites ir pending).map (E.move fun _ => none)) := by
  obtain ⟨before, a, after, split, ⟨b, b_after, b_first⟩, c, c_after, c_later⟩ :=
    Schedule.blocked_of_cyclic (le_refl pending.length) mustPrecede_self cyclic
  have apart : ((orderGuestWrites ir pending).map Prod.fst).Nodup := orderGuestWrites_nodup distinct
  change orderGuestWrites ir pending = _ at split
  simp only [mustPrecede, Bool.and_eq_true, decide_eq_true_eq, ne_eq] at b_first c_later
  let f : BitVec 16 → BitVec 16 := if a.2 = b.2 then (~~~ ·) else id
  let E := Evaluation.sensitive b.2 a.1 b_first.2 f
  let live : Reg → BitVec 16 := fun reg => if reg = a.1 then 0xFFFF else 0
  refine ⟨E, live, fun parallel => ?_⟩
  obtain ⟨middle, last, rfl⟩ := List.append_of_mem b_after
  have moves_apart : (((orderGuestWrites ir pending).map (E.move fun _ => none)).map
      Move.target).Nodup := by
    rw [E.move_targets]
    exact apart
  -- The write of a happens while the register of c still holds its old value.
  have early : ∀ reg, reg ∉ before.map Prod.fst →
      sequence live (before.map (E.move fun _ => none)) reg = live reg := by
    intro reg away
    apply sequence_untouched
    rw [E.move_targets]
    exact away
  rw [split, List.map_append, List.nodup_append] at apart
  have a_away : a.1 ∉ before.map Prod.fst := fun inside =>
    apart.2.2 a.1 inside a.1 (by simp) rfl
  have c_away : c.1 ∉ before.map Prod.fst := fun inside =>
    apart.2.2 c.1 inside c.1 (List.mem_map_of_mem (List.mem_cons_of_mem _ c_after)) rfl
  have cleared : (E.move (fun _ => none) a).source
      (sequence live (before.map (E.move fun _ => none))) = 0 := by
    apply sensitive_word_zero c_later.2
    · rw [early c.1 c_away]
      exact if_neg (fun same => c_later.1 same.symm)
    · intro same
      rw [early a.1 a_away]
      simp [f, same, live]
  -- The write of b then sees the register of a changed.
  have unnoticed := (inParallel_iff moves_apart).mp parallel
    ((before ++ a :: middle).map (E.move fun _ => none)) (E.move (fun _ => none) b)
    (last.map (E.move fun _ => none)) (by rw [split]; simp)
  revert unnoticed
  apply sensitive_word_ne
  · by_cases same : a.2 = b.2
    · simp only [f, same, if_true]
      decide
    · simp only [f, same, if_false]
      decide
  · exact if_pos rfl
  · rw [List.map_append, List.map_cons]
    have settled := @sequence_settled _ _ _ live (before.map (E.move fun _ => none))
      (middle.map (E.move fun _ => none)) (E.move (fun _ => none) a) (by
        rw [split] at moves_apart
        rw [show before ++ a :: (middle ++ b :: last) = (before ++ a :: middle) ++ b :: last by simp,
          List.map_append, List.map_append, List.nodup_append] at moves_apart
        simpa using moves_apart.1)
    exact settled.trans cleared

end Build

end Dis86
