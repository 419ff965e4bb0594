import Dis86.IR.Flow

namespace Dis86.IR
open Lib

variable {ir next : IR} {store : Name → BlockRef → Option Ref} {owner : Ref → Option Name}
  {pending : List (Name × Ref)}

/-- A phi is complete when each operand resolves the predecessor at its own index. -/
structure Complete (ir : IR) (sym : Name) (b : BlockRef) (phi : Ref) : Prop where
  isSealed : (ir.flow sym).closed b = true
  operands : ∃ instr, ir.instr? phi = some instr ∧
    List.Forall₂ (ir.flow sym).Resolves ((ir.flow sym).preds b) instr.operands

/-- The invariant of the construction. The stores are the latest explicit definitions, each phi
has one owner, and every owned phi is pending in its block, queued, or complete. -/
structure SsaInv (ir : IR) (store : Name → BlockRef → Option Ref) (owner : Ref → Option Name)
    (pending : List (Name × Ref)) : Prop where
  stored : ∀ sym b r, store sym b = some r → (ir.flow sym).defined b = some r
  merged : ∀ sym b r, store sym b = none → (ir.flow sym).defined b = some r →
    owner r = some sym ∧ home r = some b
  phi : ∀ sym r, owner r = some sym → ∃ instr, ir.instr? r = some instr ∧ instr.opcode = .phi
  waiting : ∀ sym r b, (sym, r) ∈ ir.incompletePhis b →
    owner r = some sym ∧ home r = some b ∧ (ir.flow sym).closed b = false
  queued : ∀ sym r, (sym, r) ∈ pending → owner r = some sym
  covered : ∀ sym r b, owner r = some sym → home r = some b →
    (sym, r) ∈ ir.incompletePhis b ∨ (sym, r) ∈ pending ∨ ir.Complete sym b r

/-- A read keeps the edges, the owners, and every value that was already resolved.
Only the variable it reads can get its first phi, and new phis stand first in their blocks. -/
structure Evolves (read : Option Name) (ir : IR) (owner : Ref → Option Name) (next : IR)
    (owner' : Ref → Option Name) : Prop where
  shape : SameShape ir next
  kept : ∀ r instr, ir.instr? r = some instr → owner r = none →
    next.instr? r = some instr ∧ owner' r = none
  order : ∀ b, ∃ phis, next.iterInstrs b = phis ++ ir.iterInstrs b ∧
    ∀ r ∈ phis, (owner' r).isSome
  resolved : ∀ sym, (ir.flow sym).Extends (next.flow sym)
  preds : ∀ sym, (next.flow sym).preds = (ir.flow sym).preds
  closed : ∀ sym, (next.flow sym).closed = (ir.flow sym).closed
  owned : ∀ sym r, owner r = some sym → owner' r = some sym
  origin : ∀ sym r, owner' r = some sym → (∃ s, owner s = some sym) ∨ read = some sym

variable {read : Option Name}

theorem Evolves.refl (ir : IR) (owner : Ref → Option Name) : Evolves read ir owner ir owner where
  shape := .refl ir
  kept := fun _ _ found free => ⟨found, free⟩
  order := fun b => ⟨[], rfl, by simp⟩
  resolved := fun sym => VarFlow.Extends.refl (ir.flow sym)
  preds := fun _ => rfl
  closed := fun _ => rfl
  owned := fun _ _ h => h
  origin := fun _ r h => .inl ⟨r, h⟩

theorem Evolves.trans {third : IR} {owner' owner'' : Ref → Option Name}
    (first : Evolves read ir owner next owner') (second : Evolves read next owner' third owner'') :
    Evolves read ir owner third owner'' where
  shape := first.shape.trans second.shape
  kept := fun r instr found free => by
    obtain ⟨found', free'⟩ := first.kept r instr found free
    exact second.kept r instr found' free'
  order := fun b => by
    obtain ⟨phis, order, owned⟩ := first.order b
    obtain ⟨phis', order', owned'⟩ := second.order b
    refine ⟨phis' ++ phis, by rw [order', order, List.append_assoc], fun r inside => ?_⟩
    rcases List.mem_append.mp inside with inside | inside
    · exact owned' r inside
    · obtain ⟨sym, owns⟩ := Option.isSome_iff_exists.mp (owned r inside)
      rw [second.owned sym r owns]
      rfl
  resolved := fun sym => (first.resolved sym).trans (second.resolved sym)
  preds := fun sym => (second.preds sym).trans (first.preds sym)
  closed := fun sym => (second.closed sym).trans (first.closed sym)
  owned := fun sym r h => second.owned sym r (first.owned sym r h)
  origin := fun sym r h => by
    rcases second.origin sym r h with ⟨s, owned⟩ | same
    · exact first.origin sym s owned
    · exact .inr same

/-- A read of a variable that already owns a phi introduces no variable. -/
theorem Evolves.known {sym : Name} {r : Ref} {owner' : Ref → Option Name}
    (evolves : Evolves (some sym) ir owner next owner') (owned : owner r = some sym) :
    Evolves none ir owner next owner' where
  shape := evolves.shape
  kept := evolves.kept
  order := evolves.order
  resolved := evolves.resolved
  preds := evolves.preds
  closed := evolves.closed
  owned := evolves.owned
  origin := fun other s h => by
    rcases evolves.origin other s h with known | same
    · exact .inl known
    · simp only [Option.some.injEq] at same
      subst same
      exact .inl ⟨r, owned⟩

/-- A phi that keeps its instruction stays complete while values stay resolved. -/
theorem Complete.of_extends {sym : Name} {b : BlockRef} {phi : Ref} (complete : ir.Complete sym b phi)
    (resolved : (ir.flow sym).Extends (next.flow sym))
    (preds : (next.flow sym).preds = (ir.flow sym).preds)
    (closed : (next.flow sym).closed = (ir.flow sym).closed)
    (kept : next.instr? phi = ir.instr? phi) : next.Complete sym b phi := by
  obtain ⟨instr, found, operands⟩ := complete.operands
  refine ⟨by rw [closed]; exact complete.isSealed, instr, by rw [kept]; exact found, ?_⟩
  rw [preds]
  exact operands.imp fun pred r => resolved pred r

theorem home_isSome {r : Ref} {instr : Instr} (found : ir.instr? r = some instr) :
    ∃ b, home r = some b := by
  cases r with
  | instr b idx => exact ⟨b, rfl⟩
  | _ => simp [instr?] at found

theorem SsaInv.phi_home (inv : SsaInv ir store owner pending) {sym : Name} {r : Ref}
    (owned : owner r = some sym) : ∃ b, home r = some b := by
  obtain ⟨instr, found, _⟩ := inv.phi sym r owned
  exact home_isSome found

theorem PhiCreated.resolved {sym : Name} {b : BlockRef} {phi : Ref}
    (created : PhiCreated ir sym b phi next) (unresolved : ∀ r, ¬ (ir.flow sym).Resolves b r)
    (other : Name) : (ir.flow other).Extends (next.flow other) := by
  by_cases same : other = sym
  · subst same
    rw [created.flow]
    exact VarFlow.extends_define phi unresolved
  · rw [created.flowOther other same]
    exact VarFlow.Extends.refl _

theorem PhiCreated.preds {sym : Name} {b : BlockRef} {phi : Ref}
    (created : PhiCreated ir sym b phi next) (other : Name) :
    (next.flow other).preds = (ir.flow other).preds := by
  by_cases same : other = sym
  · subst same
    rw [created.flow]
    rfl
  · rw [created.flowOther other same]

theorem PhiCreated.closed {sym : Name} {b : BlockRef} {phi : Ref}
    (created : PhiCreated ir sym b phi next) (other : Name) :
    (next.flow other).closed = (ir.flow other).closed := by
  by_cases same : other = sym
  · subst same
    rw [created.flow]
    rfl
  · rw [created.flowOther other same]

/-- No owner knows a phi before it is created. -/
theorem SsaInv.fresh_unowned (inv : SsaInv ir store owner pending) {r : Ref}
    (fresh : ir.instr? r = none) : owner r = none := by
  cases owned : owner r with
  | none => rfl
  | some sym =>
      obtain ⟨instr, found, _⟩ := inv.phi sym r owned
      simp [fresh] at found

/-- A new phi evolves the function and gets its first owner. -/
theorem SsaInv.phiCreate_evolves (inv : SsaInv ir store owner pending) {sym : Name} {b : BlockRef}
    {phi : Ref} (created : PhiCreated ir sym b phi next)
    (unresolved : ∀ r, ¬ (ir.flow sym).Resolves b r) :
    Evolves (some sym) ir owner next (Function.update owner phi (some sym)) where
  shape := created.shape
  kept := by
    intro r instr found free
    have different : r ≠ phi := by
      rintro rfl
      simp [created.fresh] at found
    rw [created.instr?, if_neg different, Function.update_of_ne different]
    exact ⟨found, free⟩
  order := by
    intro c
    rw [created.order]
    split
    · exact ⟨[phi], rfl, by simp⟩
    · exact ⟨[], rfl, by simp⟩
  resolved := created.resolved unresolved
  preds := created.preds
  closed := created.closed
  owned := by
    intro other r owned
    have different : r ≠ phi := by
      rintro rfl
      simp [inv.fresh_unowned created.fresh] at owned
    rw [Function.update_of_ne different, owned]
  origin := by
    intro other r owned
    by_cases same : r = phi
    · subst same
      exact .inr (by simpa using owned)
    · rw [Function.update_of_ne same] at owned
      exact .inl ⟨r, owned⟩

/-- A new phi joins the queue of phis that need operands. -/
theorem SsaInv.phiCreate (inv : SsaInv ir store owner pending) {sym : Name} {b : BlockRef}
    {phi : Ref} (created : PhiCreated ir sym b phi next)
    (undefined : (ir.flow sym).defined b = none)
    (unresolved : ∀ r, ¬ (ir.flow sym).Resolves b r) :
    SsaInv next store (Function.update owner phi (some sym)) ((sym, phi) :: pending) := by
  have evolves := inv.phiCreate_evolves created unresolved
  have older : ∀ {r s}, owner r = some s → r ≠ phi := by
    intro r s owned
    rintro rfl
    simp [inv.fresh_unowned created.fresh] at owned
  refine ⟨?_, ?_, ?_, ?_, ?_, ?_⟩
  · intro other c r stored
    have found := inv.stored other c r stored
    by_cases same : other = sym
    · subst same
      have away : c ≠ b := by
        rintro rfl
        simp [undefined] at found
      simpa [created.flow, VarFlow.define, Function.update_of_ne away] using found
    · rwa [created.flowOther other same]
  · intro other c r free found
    by_cases same : other = sym
    · subst same
      by_cases here : c = b
      · subst here
        have isPhi : phi = r := by simpa [created.flow, VarFlow.define] using found
        subst isPhi
        exact ⟨by simp, created.home⟩
      · rw [created.flow] at found
        simp only [VarFlow.define, Function.update_of_ne here] at found
        obtain ⟨owned, place⟩ := inv.merged other c r free found
        exact ⟨evolves.owned other r owned, place⟩
    · rw [created.flowOther other same] at found
      obtain ⟨owned, place⟩ := inv.merged other c r free found
      exact ⟨evolves.owned other r owned, place⟩
  · intro other r owned
    rw [created.instr?]
    by_cases same : r = phi
    · simp [same, emptyPhi]
    · rw [Function.update_of_ne same] at owned
      simpa [same] using inv.phi other r owned
  · intro other r c present
    rw [created.incompletePhis] at present
    obtain ⟨owned, place, isOpen⟩ := inv.waiting other r c present
    exact ⟨evolves.owned other r owned, place, by rw [evolves.closed]; exact isOpen⟩
  · intro other r present
    rcases List.mem_cons.mp present with first | present
    · simp only [Prod.mk.injEq] at first
      simp [first]
    · exact evolves.owned other r (inv.queued other r present)
  · intro other r c owned place
    by_cases same : r = phi
    · subst same
      simp only [Function.update_self, Option.some.injEq] at owned
      subst owned
      exact .inr (.inl List.mem_cons_self)
    · rw [Function.update_of_ne same] at owned
      rcases inv.covered other r c owned place with present | present | complete
      · exact .inl (by rwa [created.incompletePhis])
      · exact .inr (.inl (List.mem_cons_of_mem _ present))
      · refine .inr (.inr (complete.of_extends (evolves.resolved other) (evolves.preds other)
          (evolves.closed other) ?_))
        rw [created.instr?, if_neg same]

theorem Evolves.pushIncompletePhi (ir : IR) (owner : Ref → Option Name) (sym : Name) (b : BlockRef)
    (phi : Ref) : Evolves read ir owner (ir.pushIncompletePhi sym b phi) owner where
  shape := .modifyBlock ir b _
  kept := fun r instr found free => by
    rw [instr?_pushIncompletePhi]
    exact ⟨found, free⟩
  order := fun c => ⟨[], by
    apply iterInstrs_modifyBlock_same
    exact fun _ => rfl, by simp⟩
  resolved := fun other => by
    rw [flow_pushIncompletePhi]
    exact VarFlow.Extends.refl _
  preds := fun other => by rw [flow_pushIncompletePhi]
  closed := fun other => by rw [flow_pushIncompletePhi]
  owned := fun _ _ h => h
  origin := fun _ r h => .inl ⟨r, h⟩

/-- An open block keeps a queued phi until it is sealed. -/
theorem SsaInv.pushIncompletePhi {sym : Name} {phi : Ref} {b : BlockRef}
    (inv : SsaInv ir store owner ((sym, phi) :: pending)) (present : (ir.block? b).isSome)
    (place : home phi = some b) (isOpen : (ir.flow sym).closed b = false) :
    SsaInv (ir.pushIncompletePhi sym b phi) store owner pending where
  stored := fun other c r => by
    rw [flow_pushIncompletePhi]
    exact inv.stored other c r
  merged := fun other c r => by
    rw [flow_pushIncompletePhi]
    exact inv.merged other c r
  phi := fun other r owned => by
    rw [instr?_pushIncompletePhi]
    exact inv.phi other r owned
  waiting := fun other r c entry => by
    rw [flow_pushIncompletePhi]
    rcases (mem_pushIncompletePhi present).mp entry with entry | ⟨rfl, same⟩
    · exact inv.waiting other r c entry
    · simp only [Prod.mk.injEq] at same
      obtain ⟨rfl, rfl⟩ := same
      exact ⟨inv.queued other r List.mem_cons_self, place, isOpen⟩
  queued := fun other r entry => inv.queued other r (List.mem_cons_of_mem _ entry)
  covered := fun other r c owned place' => by
    rw [mem_pushIncompletePhi present]
    rcases inv.covered other r c owned place' with entry | entry | complete
    · exact .inl (.inl entry)
    · rcases List.mem_cons.mp entry with same | entry
      · simp only [Prod.mk.injEq] at same
        obtain ⟨rfl, rfl⟩ := same
        have same := place.symm.trans place'
        simp only [Option.some.injEq] at same
        exact .inl (.inr ⟨same.symm, rfl⟩)
      · exact .inr (.inl entry)
    · refine .inr (.inr (complete.of_extends ?_ ?_ ?_ ?_))
      · rw [flow_pushIncompletePhi]
        exact VarFlow.Extends.refl _
      · rw [flow_pushIncompletePhi]
      · rw [flow_pushIncompletePhi]
      · rw [instr?_pushIncompletePhi]

/-- The operands of a queued phi resolve its predecessors, so the phi leaves the queue. -/
theorem SsaInv.fill {sym : Name} {phi : Ref} {b : BlockRef} {refs : List Ref}
    (inv : SsaInv ir store owner ((sym, phi) :: pending)) (place : home phi = some b)
    (isSealed : (ir.flow sym).closed b = true)
    (resolved : List.Forall₂ (ir.flow sym).Resolves ((ir.flow sym).preds b) refs) :
    SsaInv (ir.modifyInstr phi fun instr => { instr with operands := refs }) store owner pending where
  stored := fun other c r => by
    rw [flow_modifyInstr]
    exact inv.stored other c r
  merged := fun other c r => by
    rw [flow_modifyInstr]
    exact inv.merged other c r
  phi := fun other r owned => by
    obtain ⟨instr, found, isPhi⟩ := inv.phi other r owned
    rw [instr?_modifyInstr]
    split
    · subst r
      simp [found, isPhi]
    · exact ⟨instr, found, isPhi⟩
  waiting := fun other r c => by
    rw [flow_modifyInstr, incompletePhis_modifyInstr]
    exact inv.waiting other r c
  queued := fun other r entry => inv.queued other r (List.mem_cons_of_mem _ entry)
  covered := fun other r c owned place' => by
    rw [incompletePhis_modifyInstr]
    have owns := inv.queued sym phi List.mem_cons_self
    by_cases same : r = phi
    · subst same
      have sameName := owned.symm.trans owns
      simp only [Option.some.injEq] at sameName
      subst sameName
      have sameBlock := place.symm.trans place'
      simp only [Option.some.injEq] at sameBlock
      subst sameBlock
      obtain ⟨instr, found, _⟩ := inv.phi other r owns
      refine .inr (.inr ⟨?_, { instr with operands := refs }, ?_, ?_⟩)
      · rw [flow_modifyInstr]
        exact isSealed
      · rw [instr?_modifyInstr, if_pos rfl, found]
        rfl
      · rw [flow_modifyInstr]
        exact resolved
    · rcases inv.covered other r c owned place' with entry | entry | complete
      · exact .inl entry
      · rcases List.mem_cons.mp entry with first | entry
        · simp only [Prod.mk.injEq] at first
          exact absurd first.2 same
        · exact .inr (.inl entry)
      · refine .inr (.inr (complete.of_extends ?_ ?_ ?_ ?_))
        · rw [flow_modifyInstr]
          exact VarFlow.Extends.refl _
        · rw [flow_modifyInstr]
        · rw [flow_modifyInstr]
        · rw [instr?_modifyInstr, if_neg same]

/-- A change of an owned instruction leaves all other instructions alone. -/
theorem Evolves.modifyInstr (ir : IR) (owner : Ref → Option Name) (r : Ref) (f : Instr → Instr)
    (owns : owner r ≠ none) : Evolves read ir owner (ir.modifyInstr r f) owner where
  shape := .modifyInstr ir r f
  kept := fun s instr found free => by
    have different : s ≠ r := by
      rintro rfl
      exact owns free
    rw [instr?_modifyInstr, if_neg different]
    exact ⟨found, free⟩
  order := fun b => ⟨[], iterInstrs_modifyInstr ir r f b, by simp⟩
  resolved := fun other => by
    rw [flow_modifyInstr]
    exact VarFlow.Extends.refl _
  preds := fun other => by rw [flow_modifyInstr]
  closed := fun other => by rw [flow_modifyInstr]
  owned := fun _ _ h => h
  origin := fun _ r h => .inl ⟨r, h⟩

/-- A read keeps the invariant and its result resolves the block it asked about. -/
def ReadsSoundly (sym : Name) (get : IR → BlockRef → Option (Ref × IR)) : Prop :=
  ∀ (ir : IR) (store : Name → BlockRef → Option Ref) (owner : Ref → Option Name)
    (pending : List (Name × Ref)) (b : BlockRef) (r : Ref) (next : IR),
    SsaInv ir store owner pending → get ir b = some (r, next) →
    ∃ owner', SsaInv next store owner' pending ∧ Evolves (some sym) ir owner next owner' ∧
      (next.flow sym).Resolves b r

/-- Reading every predecessor resolves every predecessor. -/
theorem getVars_sound {sym : Name} {get : IR → BlockRef → Option (Ref × IR)}
    (reads : ReadsSoundly sym get) {preds : List BlockRef} {refs : List Ref}
    (inv : SsaInv ir store owner pending) (result : getVars get ir preds = some (refs, next)) :
    ∃ owner', SsaInv next store owner' pending ∧ Evolves (some sym) ir owner next owner' ∧
      List.Forall₂ (next.flow sym).Resolves preds refs := by
  induction preds generalizing ir owner refs with
  | nil =>
      simp only [getVars, Option.some.injEq, Prod.mk.injEq] at result
      obtain ⟨rfl, rfl⟩ := result
      exact ⟨owner, inv, .refl ir owner, .nil⟩
  | cons pred rest ih =>
      simp only [getVars, Option.bind_eq_bind, Option.bind_eq_some_iff, Option.pure_def,
        Option.some.injEq, Prod.mk.injEq, Prod.exists] at result
      obtain ⟨r, middle, first, later, last, others, rfl, rfl⟩ := result
      obtain ⟨owner', inv', evolves, resolved⟩ := reads ir store owner pending pred r middle inv first
      obtain ⟨owner'', inv'', evolves', resolves⟩ := ih inv' others
      exact ⟨owner'', inv'', evolves.trans evolves', .cons (evolves'.resolved sym pred r resolved) resolves⟩

/-- Populating a queued phi of a sealed block takes it off the queue. -/
theorem phiPopulateWith_sound {sym : Name} {get : IR → BlockRef → Option (Ref × IR)}
    (reads : ReadsSoundly sym get) {phi : Ref} {b : BlockRef}
    (inv : SsaInv ir store owner ((sym, phi) :: pending)) (place : home phi = some b)
    (isSealed : (ir.flow sym).closed b = true)
    (result : phiPopulateWith get ir phi = some next) :
    ∃ owner', SsaInv next store owner' pending ∧ Evolves (some sym) ir owner next owner' := by
  cases phi with
  | instr c idx =>
      simp only [home, Option.some.injEq] at place
      subst place
      simp only [phiPopulateWith, Option.bind_eq_bind, Option.bind_eq_some_iff, Option.pure_def,
        Option.some.injEq, Prod.exists] at result
      obtain ⟨block, present, _, _, _, _, refs, middle, read, rfl⟩ := result
      have preds : (ir.flow sym).preds c = block.preds := by simp [flow, present]
      obtain ⟨owner', inv', evolves, resolved⟩ := getVars_sound reads inv read
      have owns := inv'.queued sym _ List.mem_cons_self
      refine ⟨owner', ?_, evolves.trans (.modifyInstr middle owner' _ _ (by simp [owns]))⟩
      refine inv'.fill rfl (by rw [evolves.closed]; exact isSealed) ?_
      rw [evolves.preds, preds]
      exact resolved
  | _ => simp [home] at place

/-- The five ways in which one turn of the search can go on. -/
inductive SearchTurn (sym : Name) (fuel : Nat) (ir : IR) (visited : List BlockRef) (b : BlockRef)
    (r : Ref) (next : IR) : Prop where
  | found (here : (ir.flow sym).defined b = some r) (same : next = ir)
  | wait (middle : IR) (undefined : (ir.flow sym).defined b = none)
      (isOpen : (ir.flow sym).closed b = false) (present : (ir.block? b).isSome)
      (created : ir.phiCreate sym b = some (r, middle)) (pushed : next = middle.pushIncompletePhi sym b r)
  | merge (middle : IR) (undefined : (ir.flow sym).defined b = none)
      (isSealed : (ir.flow sym).closed b = true) (many : ∀ parent, (ir.flow sym).preds b ≠ [parent])
      (created : ir.phiCreate sym b = some (r, middle))
      (populated : phiPopulateWith (fun ir pred => getVarLoop sym fuel ir [] pred) middle r = some next)
  | revisit (middle : IR) (undefined : (ir.flow sym).defined b = none)
      (isSealed : (ir.flow sym).closed b = true) (seen : b ∈ visited)
      (created : ir.phiCreate sym b = some (r, middle))
      (populated : phiPopulateWith (fun ir pred => getVarLoop sym fuel ir [] pred) middle r = some next)
  | climb (parent : BlockRef) (step : (ir.flow sym).Climb b parent)
      (rest : getVarLoop sym fuel ir (b :: visited) parent = some (r, next))

theorem getVarLoop_turn {sym : Name} {fuel : Nat} {visited : List BlockRef} {b : BlockRef} {r : Ref}
    (result : getVarLoop sym (fuel + 1) ir visited b = some (r, next)) :
    SearchTurn sym fuel ir visited b r next := by
  rw [getVarLoop] at result
  simp only [Option.bind_eq_bind, Option.bind_eq_some_iff] at result
  obtain ⟨block, present, result⟩ := result
  have defined : (ir.flow sym).defined b = block.defs sym := by simp [flow, present]
  have closed : (ir.flow sym).closed b = block.sealed := by simp [flow, present]
  have preds : (ir.flow sym).preds b = block.preds := by simp [flow, present]
  cases undefined : block.defs sym with
  | some val =>
      simp only [undefined, Option.pure_def, Option.some.injEq, Prod.mk.injEq] at result
      obtain ⟨rfl, rfl⟩ := result
      exact .found (by rw [defined, undefined]) rfl
  | none =>
      simp only [undefined] at result
      cases isSealed : block.sealed with
      | false =>
          simp only [isSealed, Bool.false_eq_true, if_false, Option.bind_eq_some_iff, Option.pure_def,
            Option.some.injEq, Prod.mk.injEq, Prod.exists] at result
          obtain ⟨phi, middle, created, rfl, rfl⟩ := result
          exact .wait middle (by rw [defined, undefined]) (by rw [closed, isSealed]) (by simp [present])
            created rfl
      | true =>
          simp only [isSealed, if_true] at result
          split at result
          · rename_i parent single
            split at result
            · rename_i seen
              simp only [Option.bind_eq_some_iff, Option.pure_def, Option.some.injEq, Prod.mk.injEq,
                Prod.exists] at result
              obtain ⟨phi, middle, created, _, populated, rfl, rfl⟩ := result
              exact .revisit middle (by rw [defined, undefined]) (by rw [closed, isSealed]) seen created
                populated
            · exact .climb parent ⟨by rw [defined, undefined], by rw [closed, isSealed],
                by rw [preds, single]⟩ result
          · rename_i many
            simp only [Option.bind_eq_some_iff, Option.pure_def, Option.some.injEq, Prod.mk.injEq,
              Prod.exists] at result
            obtain ⟨phi, middle, created, _, populated, rfl, rfl⟩ := result
            exact .merge middle (by rw [defined, undefined]) (by rw [closed, isSealed])
              (fun parent => by rw [preds]; exact many parent) created populated

/-- A new phi that a search populates resolves every walk that reached its block. -/
theorem SsaInv.populate_sound (inv : SsaInv ir store owner pending) {sym : Name}
    {get : IR → BlockRef → Option (Ref × IR)} (reads : ReadsSoundly sym get) {b : BlockRef} {phi : Ref}
    {middle : IR} (undefined : (ir.flow sym).defined b = none)
    (isSealed : (ir.flow sym).closed b = true)
    (unresolved : ∀ r, ¬ (ir.flow sym).Resolves b r)
    (created : ir.phiCreate sym b = some (phi, middle))
    (populated : phiPopulateWith get middle phi = some next) :
    ∃ owner', SsaInv next store owner' pending ∧ Evolves (some sym) ir owner next owner' ∧
      ∀ start, Relation.ReflTransGen (ir.flow sym).Climb start b → (next.flow sym).Resolves start phi := by
  have made := phiCreate_created created
  have evolves := inv.phiCreate_evolves made unresolved
  obtain ⟨owner', inv', evolves'⟩ := phiPopulateWith_sound reads
    (inv.phiCreate made undefined unresolved) made.home (by rw [evolves.closed]; exact isSealed) populated
  refine ⟨owner', inv', evolves.trans evolves', fun start walk => ?_⟩
  apply evolves'.resolved sym start phi
  rw [made.flow]
  exact VarFlow.define_resolves phi walk

/-- The search keeps the invariant and resolves every block that it walked through. -/
theorem getVarLoop_sound (sym : Name) (fuel : Nat) {visited : List BlockRef} {b : BlockRef} {r : Ref}
    (inv : SsaInv ir store owner pending)
    (walked : ∀ c ∈ visited, Relation.TransGen (ir.flow sym).Climb c b)
    (result : getVarLoop sym fuel ir visited b = some (r, next)) :
    ∃ owner', SsaInv next store owner' pending ∧ Evolves (some sym) ir owner next owner' ∧
      ∀ start, Relation.ReflTransGen (ir.flow sym).Climb start b → (next.flow sym).Resolves start r := by
  induction fuel generalizing ir store owner pending visited b r next with
  | zero => simp [getVarLoop] at result
  | succ fuel ih =>
      have reads : ReadsSoundly sym fun ir pred => getVarLoop sym fuel ir [] pred := by
        intro ir store owner pending pred r next inv result
        obtain ⟨owner', inv', evolves, resolves⟩ := ih inv (by simp) result
        exact ⟨owner', inv', evolves, resolves pred .refl⟩
      cases getVarLoop_turn result with
      | found here same =>
          subst same
          exact ⟨owner, inv, .refl _ owner, fun start walk => (VarFlow.Resolves.here here).of_climbs walk⟩
      | wait middle undefined isOpen present created pushed =>
          subst pushed
          have unresolved := fun s => VarFlow.Resolves.not_open (r := s) undefined isOpen
          have made := phiCreate_created created
          have evolves := inv.phiCreate_evolves made unresolved
          have inv' := inv.phiCreate made undefined unresolved
          have present' : (middle.block? b).isSome := by
            have here : (middle.flow sym).defined b = some r := by rw [made.flow]; simp [VarFlow.define]
            simp only [flow, Option.bind_eq_some_iff] at here
            obtain ⟨block, found, _⟩ := here
            simp [found]
          refine ⟨_, inv'.pushIncompletePhi present' made.home (by rw [evolves.closed]; exact isOpen),
            evolves.trans (.pushIncompletePhi _ _ _ _ _), fun start walk => ?_⟩
          rw [flow_pushIncompletePhi, made.flow]
          exact VarFlow.define_resolves r walk
      | merge middle undefined isSealed many created populated =>
          exact inv.populate_sound reads undefined isSealed
            (fun s => VarFlow.Resolves.not_merge undefined many) created populated
      | revisit middle undefined isSealed seen created populated =>
          -- The block was walked before, so it lies on a cycle of single predecessors.
          exact inv.populate_sound reads undefined isSealed
            (fun s resolved => resolved.acyclic (walked b seen)) created populated
      | climb parent step rest =>
          obtain ⟨owner', inv', evolves, resolves⟩ := ih inv (by
            intro c seen
            rcases List.mem_cons.mp seen with rfl | seen
            · exact .single step
            · exact (walked c seen).tail step) rest
          exact ⟨owner', inv', evolves, fun start walk => resolves start (walk.tail step)⟩

theorem getVar_reads (sym : Name) : ReadsSoundly sym fun ir b => ir.getVar sym b := by
  intro ir store owner pending b r next inv result
  obtain ⟨owner', inv', evolves, resolves⟩ := getVarLoop_sound sym _ inv (by simp) result
  exact ⟨owner', inv', evolves, resolves b .refl⟩

/-- A read keeps the invariant and resolves its block. -/
theorem getVar_sound {sym : Name} {b : BlockRef} {r : Ref} (inv : SsaInv ir store owner pending)
    (result : ir.getVar sym b = some (r, next)) :
    ∃ owner', SsaInv next store owner' pending ∧ Evolves (some sym) ir owner next owner' ∧
      (next.flow sym).Resolves b r :=
  getVar_reads sym ir store owner pending b r next inv result

/-- Populating the queued phis of one block empties the queue. -/
theorem phiPopulates_sound {entries : List (Name × Ref)} {b : BlockRef}
    (inv : SsaInv ir store owner (entries ++ pending))
    (place : ∀ sym phi, (sym, phi) ∈ entries → home phi = some b)
    (isSealed : ∀ sym, (ir.flow sym).closed b = true)
    (result : phiPopulates ir entries = some next) :
    ∃ owner', SsaInv next store owner' pending ∧ Evolves none ir owner next owner' := by
  induction entries generalizing ir owner with
  | nil =>
      simp only [phiPopulates, Option.some.injEq] at result
      subst result
      exact ⟨owner, inv, .refl ir owner⟩
  | cons entry rest ih =>
      obtain ⟨sym, phi⟩ := entry
      simp only [phiPopulates, Option.bind_eq_bind, Option.bind_eq_some_iff] at result
      obtain ⟨middle, first, others⟩ := result
      obtain ⟨owner', inv', evolves⟩ := phiPopulateWith_sound (getVar_reads sym) inv
        (place sym phi List.mem_cons_self) (isSealed sym) first
      obtain ⟨owner'', inv'', evolves'⟩ := ih inv'
        (fun sym phi present => place sym phi (List.mem_cons_of_mem _ present))
        (fun sym => by rw [evolves.closed]; exact isSealed sym) others
      have known := evolves.known (inv.queued sym phi List.mem_cons_self)
      exact ⟨owner'', inv'', known.trans evolves'⟩

/-- Sealing a block queues its pending phis. -/
theorem SsaInv.close (inv : SsaInv ir store owner pending) {b : BlockRef} {block : Block}
    (present : ir.block? b = some block) :
    SsaInv (ir.closeBlock b) store owner (block.incompletePhis ++ pending) where
  stored := fun sym c r found => by
    rw [flow_closeBlock present]
    exact inv.stored sym c r found
  merged := fun sym c r free found => by
    rw [flow_closeBlock present] at found
    exact inv.merged sym c r free found
  phi := fun sym r owned => by
    rw [instr?_closeBlock]
    exact inv.phi sym r owned
  waiting := fun sym r c entry => by
    rw [incompletePhis_closeBlock] at entry
    split at entry
    · simp at entry
    · rename_i away
      obtain ⟨owned, place, isOpen⟩ := inv.waiting sym r c entry
      refine ⟨owned, place, ?_⟩
      rw [flow_closeBlock present]
      simpa [VarFlow.close, Function.update_of_ne away] using isOpen
  queued := fun sym r entry => by
    rcases List.mem_append.mp entry with entry | entry
    · refine (inv.waiting sym r b ?_).1
      simpa [incompletePhis, present] using entry
    · exact inv.queued sym r entry
  covered := fun sym r c owned place => by
    rw [incompletePhis_closeBlock]
    rcases inv.covered sym r c owned place with entry | entry | complete
    · by_cases same : c = b
      · subst same
        have entry' : (sym, r) ∈ block.incompletePhis := by simpa [incompletePhis, present] using entry
        exact .inr (.inl (List.mem_append_left _ entry'))
      · exact .inl (by rwa [if_neg same])
    · exact .inr (.inl (List.mem_append_right _ entry))
    · obtain ⟨instr, found, operands⟩ := complete.operands
      refine .inr (.inr ⟨?_, instr, by rw [instr?_closeBlock]; exact found, ?_⟩)
      · rw [flow_closeBlock present]
        by_cases same : c = b
        · simp [VarFlow.close, same]
        · simpa [VarFlow.close, Function.update_of_ne same] using complete.isSealed
      · rw [flow_closeBlock present]
        exact operands.imp fun pred r => VarFlow.extends_close _ b pred r

/-- Sealing closes one block and otherwise evolves the function like a read. -/
structure Seals (ir : IR) (owner : Ref → Option Name) (b : BlockRef) (next : IR)
    (owner' : Ref → Option Name) : Prop where
  shape : SameShape ir next
  kept : ∀ r instr, ir.instr? r = some instr → owner r = none →
    next.instr? r = some instr ∧ owner' r = none
  resolved : ∀ sym, (ir.flow sym).Extends (next.flow sym)
  preds : ∀ sym, (next.flow sym).preds = (ir.flow sym).preds
  closed : ∀ sym, (next.flow sym).closed = Function.update (ir.flow sym).closed b true
  owned : ∀ sym r, owner r = some sym → owner' r = some sym
  origin : ∀ sym r, owner' r = some sym → ∃ s, owner s = some sym

/-- Sealing a block completes the phis that waited for its predecessors. -/
theorem sealBlock_sound {b : BlockRef} (inv : SsaInv ir store owner [])
    (result : ir.sealBlock b = some next) :
    ∃ owner', SsaInv next store owner' [] ∧ Seals ir owner b next owner' := by
  simp only [sealBlock, Option.bind_eq_bind, Option.bind_eq_some_iff] at result
  obtain ⟨block, present, _, _, result⟩ := result
  have isClosed : ∀ sym, ((ir.closeBlock b).flow sym).closed b = true := by
    intro sym
    rw [flow_closeBlock present]
    simp [VarFlow.close]
  have place : ∀ sym phi, (sym, phi) ∈ block.incompletePhis → home phi = some b := by
    intro sym phi entry
    exact (inv.waiting sym phi b (by simpa [incompletePhis, present] using entry)).2.1
  obtain ⟨owner', inv', evolves⟩ := phiPopulates_sound (inv.close present) place isClosed result
  refine ⟨owner', inv', {
    shape := (SameShape.modifyBlock ir b _).trans evolves.shape
    kept := fun r instr found free =>
      evolves.kept r instr (by rw [instr?_closeBlock]; exact found) free
    resolved := fun sym => ?_
    preds := fun sym => ?_
    closed := fun sym => ?_
    owned := evolves.owned
    origin := fun sym r owned => (evolves.origin sym r owned).resolve_right (by simp) }⟩
  · refine VarFlow.Extends.trans ?_ (evolves.resolved sym)
    rw [flow_closeBlock present]
    exact VarFlow.extends_close _ b
  · rw [evolves.preds, flow_closeBlock present]
    rfl
  · rw [evolves.closed, flow_closeBlock present]
    rfl

/-- The invariant sees a function only through its flows, pending phis, and owned instructions. -/
theorem SsaInv.of_views (inv : SsaInv ir store owner pending)
    (flows : ∀ sym, next.flow sym = ir.flow sym) (waiting : next.incompletePhis = ir.incompletePhis)
    (instrs : ∀ r instr, ir.instr? r = some instr → owner r ≠ none → next.instr? r = some instr) :
    SsaInv next store owner pending where
  stored := fun sym b r found => by
    rw [flows]
    exact inv.stored sym b r found
  merged := fun sym b r free found => by
    rw [flows] at found
    exact inv.merged sym b r free found
  phi := fun sym r owned => by
    obtain ⟨instr, found, isPhi⟩ := inv.phi sym r owned
    exact ⟨instr, instrs r instr found (by simp [owned]), isPhi⟩
  waiting := fun sym r b entry => by
    rw [waiting] at entry
    rw [flows]
    exact inv.waiting sym r b entry
  queued := inv.queued
  covered := fun sym r b owned place => by
    rw [waiting]
    rcases inv.covered sym r b owned place with entry | entry | complete
    · exact .inl entry
    · exact .inr (.inl entry)
    · obtain ⟨instr, found, operands⟩ := complete.operands
      refine .inr (.inr ⟨?_, instr, instrs r instr found (by simp [owned]), ?_⟩)
      · rw [flows]
        exact complete.isSealed
      · rw [flows]
        exact operands

/-- New predecessors of an open block keep the invariant. -/
theorem SsaInv.reconnect (inv : SsaInv ir store owner pending) {b : BlockRef} {preds : List BlockRef}
    (isOpen : ∀ sym, (ir.flow sym).closed b = false)
    (flows : ∀ sym, next.flow sym = (ir.flow sym).reconnect b preds)
    (waiting : next.incompletePhis = ir.incompletePhis) (instrs : ∀ r, next.instr? r = ir.instr? r) :
    SsaInv next store owner pending where
  stored := fun sym c r found => by
    rw [flows]
    exact inv.stored sym c r found
  merged := fun sym c r free found => by
    rw [flows] at found
    exact inv.merged sym c r free found
  phi := fun sym r owned => by
    rw [instrs]
    exact inv.phi sym r owned
  waiting := fun sym r c entry => by
    rw [waiting] at entry
    rw [flows]
    exact inv.waiting sym r c entry
  queued := inv.queued
  covered := fun sym r c owned place => by
    rw [waiting]
    rcases inv.covered sym r c owned place with entry | entry | complete
    · exact .inl entry
    · exact .inr (.inl entry)
    · have different : c ≠ b := by
        intro same
        have isSealed := complete.isSealed
        simp [same, isOpen] at isSealed
      obtain ⟨instr, found, operands⟩ := complete.operands
      refine .inr (.inr ⟨?_, instr, by rw [instrs]; exact found, ?_⟩)
      · rw [flows]
        exact complete.isSealed
      · rw [flows]
        simp only [VarFlow.reconnect, Function.update_of_ne different]
        exact operands.imp fun pred r => VarFlow.extends_reconnect _ preds (isOpen sym) pred r

/-- A store in a block that no sealed block reads keeps the invariant, and so does the store of a
variable without phis. -/
theorem SsaInv.define (inv : SsaInv ir store owner pending) {sym : Name} {b : BlockRef} {s : Ref}
    {store' : Name → BlockRef → Option Ref}
    (apart : (∀ c, (ir.flow sym).closed c = true → b ∉ (ir.flow sym).preds c) ∨
      ∀ r, owner r ≠ some sym)
    (stores : ∀ other c, store' other c = if sym = other ∧ b = c then some s else store other c)
    (flow : next.flow sym = (ir.flow sym).define b s)
    (flowOther : ∀ other, other ≠ sym → next.flow other = ir.flow other)
    (waiting : next.incompletePhis = ir.incompletePhis) (instrs : ∀ r, next.instr? r = ir.instr? r) :
    SsaInv next store' owner pending where
  stored := fun other c r found => by
    rw [stores] at found
    by_cases same : other = sym
    · subst same
      by_cases here : c = b
      · subst here
        simpa [flow, VarFlow.define] using found
      · have away : b ≠ c := fun h => here h.symm
        simp only [away, and_false, if_false] at found
        simpa [flow, VarFlow.define, Function.update_of_ne here] using inv.stored other c r found
    · have away : sym ≠ other := fun h => same h.symm
      simp only [away, false_and, if_false] at found
      rw [flowOther other same]
      exact inv.stored other c r found
  merged := fun other c r free found => by
    rw [stores] at free
    split at free
    · simp at free
    · rename_i elsewhere
      refine inv.merged other c r free ?_
      by_cases same : other = sym
      · subst same
        have away : c ≠ b := fun h => elsewhere ⟨rfl, h.symm⟩
        simpa [flow, VarFlow.define, Function.update_of_ne away] using found
      · rwa [flowOther other same] at found
  phi := fun other r owned => by
    rw [instrs]
    exact inv.phi other r owned
  waiting := fun other r c entry => by
    rw [waiting] at entry
    obtain ⟨owned, place, isOpen⟩ := inv.waiting other r c entry
    refine ⟨owned, place, ?_⟩
    by_cases same : other = sym
    · subst same
      rw [flow]
      exact isOpen
    · rw [flowOther other same]
      exact isOpen
  queued := inv.queued
  covered := fun other r c owned place => by
    rw [waiting]
    rcases inv.covered other r c owned place with entry | entry | complete
    · exact .inl entry
    · exact .inr (.inl entry)
    · by_cases same : other = sym
      · subst same
        have apart := apart.resolve_right fun never => never r owned
        obtain ⟨instr, found, operands⟩ := complete.operands
        refine .inr (.inr ⟨by rw [flow]; exact complete.isSealed, instr, by rw [instrs]; exact found, ?_⟩)
        rw [flow]
        have named := apart c complete.isSealed
        have apartPreds : ∀ pred ∈ (ir.flow other).preds c, pred ≠ b := by
          intro pred inside same
          subst same
          exact named inside
        exact ((List.forall₂_and_left _ _).mpr ⟨apartPreds, operands⟩).imp
          fun pred r both => both.2.define_apart s apart both.1
      · refine .inr (.inr (complete.of_extends ?_ ?_ ?_ (instrs r)))
        · rw [flowOther other same]
          exact VarFlow.Extends.refl _
        · rw [flowOther other same]
        · rw [flowOther other same]

/-- The values of a function merge only in its phis. -/
def values (ir : IR) : Values BlockRef Ref where
  home := home
  operands r := (ir.instr? r).bind fun instr =>
    if instr.opcode = .phi then some instr.operands else none

/-- The program of one variable has the values of the function and the given stores. -/
def program (ir : IR) (store : Name → BlockRef → Option Ref) (sym : Name) :
    FlowProgram BlockRef Ref where
  toVarFlow := ir.flow sym
  toValues := ir.values
  store := store sym

/-- Every block of the function is sealed. -/
def AllSealed (ir : IR) : Prop := ∀ b block, ir.block? b = some block → block.sealed = true

/-- Once all blocks are sealed, the owned phis make the program of each variable sound. -/
theorem SsaInv.program_sound (inv : SsaInv ir store owner []) (allSealed : ir.AllSealed) (sym : Name) :
    (ir.program store sym).Sound fun b r => owner r = some sym ∧ home r = some b where
  stored := fun b r found => inv.stored sym b r found
  merged := fun b r free found => inv.merged sym b r free found
  placed := fun b r owns => owns.2
  complete := fun b r owns => by
    rcases inv.covered sym r b owns.1 owns.2 with entry | entry | complete
    · have isOpen := (inv.waiting sym r b entry).2.2
      cases present : ir.block? b with
      | none => simp [incompletePhis, present] at entry
      | some block => simp [flow, present, allSealed b block present] at isOpen
    · simp at entry
    · obtain ⟨instr, found, operands⟩ := complete.operands
      obtain ⟨same, foundPhi, isPhi⟩ := inv.phi sym r owns.1
      simp only [found, Option.some.injEq] at foundPhi
      subst foundPhi
      exact ⟨instr.operands, by simp [program, values, found, isPhi], operands⟩

theorem allSealed_of_all {ir : IR} (all : ir.blocks.all fun place => place.all fun block => block.sealed) :
    ir.AllSealed := by
  intro b block present
  rw [List.all_eq_true] at all
  simp only [block?, List.getD_eq_getElem?_getD] at present
  cases found : ir.blocks[b]? with
  | none => simp [found] at present
  | some place =>
      simp only [found, Option.getD_some] at present
      simpa [present] using all place (List.mem_of_getElem? found)

end Dis86.IR
