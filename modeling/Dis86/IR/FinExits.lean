import Dis86.IR.FinSplit

namespace Dis86.Fin
open IR

/-- What finalization is given: blocks with live exits, branches to several exits at the end of
their blocks, no stored instruction in a block without order, and a phi operand for each predecessor. -/
structure Terminated (ir : IR) : Prop where
  exits : ∀ b, (ir.block? b).isSome → ∃ exits, ir.blockExits b = some exits ∧
    ∀ c ∈ exits, (ir.block? c).isSome
  last : ∀ b exits, ir.blockExits b = some exits → 2 ≤ exits.length →
    ∃ r instr, ir.blockLast b = some r ∧ ir.instr? r = some instr ∧ branchExits instr = some exits
  listed : ∀ b block, ir.block? b = some block → block.data.order = [] → block.data.instrs = []
  preds : ∀ b, ∀ p ∈ ir.preds b, p < ir.blocks.length
  arity : ∀ b, ∀ phi ∈ ir.phisOf b, ∀ instr, ir.instr? phi = some instr →
    instr.operands.length = (ir.preds b).length

/-- A new block on an edge to a block with phis. -/
structure Intermediate (ir cur : IR) (p c n : BlockRef) : Prop where
  old : ir.blocks.length ≤ n
  bounded : n < cur.blocks.length
  source : p < ir.blocks.length
  live : (cur.block? n).isSome
  preds : cur.preds n = [p]
  order : cur.iterInstrs n = [.instr n 0]
  jump : cur.instr? (.instr n 0) = some (jumpTo c)
  edge : ∃ exits, ir.blockExits p = some exits ∧ 2 ≤ exits.length ∧ c ∈ exits
  merges : targetHasPhis ir c = true

/-- A function while its edges are split: the new block of each edge that has one, and how many
exits of each block have been settled. -/
structure Splits (ir cur : IR) (via : BlockRef → BlockRef → Option BlockRef) (done : BlockRef → Nat) :
    Prop where
  grown : ir.blocks.length ≤ cur.blocks.length
  live : ∀ x < ir.blocks.length, (cur.block? x).isSome = (ir.block? x).isSome
  order : ∀ x < ir.blocks.length, cur.iterInstrs x = ir.iterInstrs x
  code : ∀ x < ir.blocks.length, ∀ s, home s = some x → cur.instr? s = (ir.instr? s).map fun instr =>
    if ir.blockLast x = some s then redirect (via x) (done x) instr else instr
  preds : ∀ x < ir.blocks.length, cur.preds x = (ir.preds x).map fun p => (via p x).getD p
  fresh : ∀ n, ir.blocks.length ≤ n → n < cur.blocks.length → ∃ p c, via p c = some n
  made : ∀ p c n, via p c = some n → Intermediate ir cur p c n
  idle : ∀ x, done x = 0 → ∀ c, via x c = none

theorem Splits.refl (ir : IR) : Splits ir ir (fun _ _ => none) fun _ => 0 where
  grown := Nat.le_refl _
  live _ _ := rfl
  order _ _ := rfl
  code x inside s here := by simp only [redirect_zero, ite_self, Option.map_id']
  preds x inside := by simp only [Option.getD_none, List.map_id']
  fresh n old new := absurd new (Nat.not_lt.mpr old)
  made _ _ _ none := by cases none
  idle _ _ _ := rfl

section Views

variable {ir cur : IR} {via : BlockRef → BlockRef → Option BlockRef} {done : BlockRef → Nat}
  {b c x : BlockRef} {r : Ref}

theorem mem_iterInstrs_of_last (last : ir.blockLast b = some r) : r ∈ ir.iterInstrs b := by
  rw [blockLast_eq_getLast] at last
  exact List.mem_of_getLast? last

theorem home_of_last (last : ir.blockLast b = some r) : home r = some b :=
  mem_iterInstrs (mem_iterInstrs_of_last last)

/-- The phis stay where they are. -/
theorem Splits.isPhi (splits : Splits ir cur via done) (inside : x < ir.blocks.length)
    (here : home r = some x) : ((cur.instr? r).any fun instr => instr.opcode = .phi) =
      (ir.instr? r).any fun instr => instr.opcode = .phi := by
  rw [splits.code x inside r here]
  cases ir.instr? r with
  | none => rfl
  | some instr =>
      rw [Option.map_some, Option.any_some, Option.any_some]
      split <;> rfl

theorem Splits.targetHasPhis_eq (splits : Splits ir cur via done) (inside : x < ir.blocks.length) :
    targetHasPhis cur x = targetHasPhis ir x := by
  unfold targetHasPhis
  rw [splits.order x inside, Bool.eq_iff_iff, List.any_eq_true, List.any_eq_true]
  apply exists_congr
  intro r
  apply and_congr_right
  intro listed
  rw [splits.isPhi inside (mem_iterInstrs listed)]

theorem Splits.phisOf_eq (splits : Splits ir cur via done) (inside : x < ir.blocks.length) :
    cur.phisOf x = ir.phisOf x := by
  unfold phisOf
  rw [splits.order x inside]
  apply List.filter_congr
  intro r listed
  exact splits.isPhi inside (mem_iterInstrs listed)

/-- A block whose exits are not settled yet is as it was. -/
theorem Splits.instr?_of_idle (splits : Splits ir cur via done) (inside : b < ir.blocks.length)
    (idle : done b = 0) (here : home r = some b) : cur.instr? r = ir.instr? r := by
  rw [splits.code b inside r here, idle]
  simp only [redirect_zero, ite_self, Option.map_id']

theorem Splits.blockExits_of_idle (splits : Splits ir cur via done) (inside : b < ir.blocks.length)
    (idle : done b = 0) : cur.blockExits b = ir.blockExits b := by
  apply blockExits_congr (splits.live b inside) (splits.order b inside)
  intro r listed
  exact splits.instr?_of_idle inside idle (mem_iterInstrs listed)

end Views

section Exit

variable {ir cur next : IR} {via next' : BlockRef → BlockRef → Option BlockRef}
  {done : BlockRef → Nat} {b c : BlockRef} {r : Ref} {instr : Instr}

/-- A branch with one more settled exit. -/
theorem Splits.code_step (splits : Splits ir cur via done) {via' : BlockRef → BlockRef → Option BlockRef}
    (last : ir.blockLast b = some r) (term : ir.instr? r = some instr) (i : Nat)
    (others : ∀ p ≠ b, via' p = via p)
    (here : next.instr? r = some (redirect (via' b) (i + 1) instr))
    (frame : ∀ x < ir.blocks.length, ∀ s, home s = some x → s ≠ r → next.instr? s = cur.instr? s) :
    ∀ x < ir.blocks.length, ∀ s, home s = some x → next.instr? s = (ir.instr? s).map fun instr =>
      if ir.blockLast x = some s then redirect (via' x) (Function.update done b (i + 1) x) instr
      else instr := by
  intro x inside s isHome
  by_cases same : s = r
  · subst same
    obtain rfl := Option.some.inj (isHome.symm.trans (home_of_last last))
    rw [here, term, Option.map_some, if_pos last, Function.update_self]
  · rw [frame x inside s isHome same, splits.code x inside s isHome]
    by_cases sameBlock : x = b
    · subst sameBlock
      have notLast : ir.blockLast x ≠ some s := by
        rw [last]
        exact fun isLast => same (Option.some.inj isLast).symm
      simp only [if_neg notLast]
    · rw [others x sameBlock, Function.update_of_ne sameBlock]

theorem update_idle {i : Nat} (splits : Splits ir cur via done) {via' : BlockRef → BlockRef → Option BlockRef}
    (others : ∀ p ≠ b, via' p = via p) (x : BlockRef) (idle : Function.update done b (i + 1) x = 0)
    (c : BlockRef) : via' x c = none := by
  by_cases same : x = b
  · subst same
    rw [Function.update_self] at idle
    cases idle
  · rw [Function.update_of_ne same] at idle
    rw [others x same]
    exact splits.idle x idle c

/-- The branch of a block while its exits are settled. -/
structure Settling (ir : IR) (via : BlockRef → BlockRef → Option BlockRef) (b : BlockRef) (r : Ref)
    (instr : Instr) (exits : List BlockRef) (i : Nat) : Prop where
  inside : b < ir.blocks.length
  last : ir.blockLast b = some r
  term : ir.instr? r = some instr
  isExits : ir.blockExits b = some exits
  several : 2 ≤ exits.length
  named : ∀ j c, exits[j]? = some c → instr.operands[j + 1]? = some (.block c)
  covered : ∀ j < i, ∀ c, exits[j]? = some c → targetHasPhis ir c = true → (via b c).isSome

/-- The branch in the current function. -/
theorem Settling.current {exits : List BlockRef} {i : Nat} (settling : Settling ir via b r instr exits i)
    (splits : Splits ir cur via done) (reached : done b = i) :
    cur.instr? r = some (redirect (via b) i instr) := by
  rw [splits.code b settling.inside r (home_of_last settling.last), settling.term, Option.map_some,
    if_pos settling.last, reached]

/-- An exit without phis is settled as it is. -/
theorem Splits.skip {exits : List BlockRef} {i : Nat} (splits : Splits ir cur via done)
    (settling : Settling ir via b r instr exits i) (reached : done b = i)
    (isExit : exits[i]? = some c) (plain : targetHasPhis ir c = false) :
    Splits ir cur via (Function.update done b (i + 1)) := by
  have direct : via b c = none := by
    cases found : via b c with
    | none => rfl
    | some n =>
        have merges := (splits.made b c n found).merges
        rw [plain] at merges
        cases merges
  refine { splits with code := ?_, idle := update_idle splits fun _ _ => rfl }
  apply splits.code_step settling.last settling.term i (fun _ _ => rfl) ?_ fun _ _ _ _ _ => rfl
  rw [settling.current splits reached]
  apply congrArg some
  apply redirect_congr
  intro j o isOperand
  by_cases here : j = i + 1
  · subst here
    obtain rfl := Option.some.inj ((settling.named i c isExit).symm.trans isOperand)
    rw [if_neg (by omega), if_pos (by omega), redirectRef, direct, Option.getD_none]
  · have bounds : (1 ≤ j ∧ j ≤ i) ↔ (1 ≤ j ∧ j ≤ i + 1) := by omega
    simp only [bounds]

/-- A repeated exit goes to the block that the first one goes to. -/
theorem Splits.reuse {exits : List BlockRef} {i : Nat} {new : BlockRef} (splits : Splits ir cur via done)
    (settling : Settling ir via b r instr exits i) (reached : done b = i)
    (isExit : exits[i]? = some c) (leads : via b c = some new) :
    Splits ir (cur.modifyInstr r fun instr =>
        { instr with operands := instr.operands.set (i + 1) (.block new) }) via
      (Function.update done b (i + 1)) := by
  have shape := SameShape.modifyInstr cur r fun instr =>
    { instr with operands := instr.operands.set (i + 1) (.block new) }
  refine ⟨?_, ?_, ?_, ?_, ?_, ?_, ?_, update_idle splits fun _ _ => rfl⟩
  · rw [shape.length]
    exact splits.grown
  · intro x inside
    rw [shape.live, splits.live x inside]
  · intro x inside
    rw [iterInstrs_modifyInstr, splits.order x inside]
  · apply splits.code_step settling.last settling.term i fun _ _ => rfl
    · rw [instr?_modifyInstr, if_pos rfl, settling.current splits reached, Option.map_some,
        redirect_succ (settling.named i c isExit) leads]
    · intro x _ s _ other
      rw [instr?_modifyInstr, if_neg other]
  · intro x inside
    rw [preds_modifyInstr, splits.preds x inside]
  · rw [shape.length]
    exact splits.fresh
  · intro p d n found
    have made := splits.made p d n found
    have other : Ref.instr n 0 ≠ r := by
      intro same
      have here := home_of_last settling.last
      rw [← same] at here
      exact Nat.lt_irrefl _ (Nat.lt_of_lt_of_le settling.inside (Option.some.inj here ▸ made.old))
    exact { made with
      bounded := by rw [shape.length]; exact made.bounded
      live := by rw [shape.live]; exact made.live
      preds := by rw [preds_modifyInstr]; exact made.preds
      order := by rw [iterInstrs_modifyInstr]; exact made.order
      jump := by rw [instr?_modifyInstr, if_neg other]; exact made.jump }

/-- The first exit to a block with phis gets a new block. -/
theorem Splits.insert {exits : List BlockRef} {i : Nat} (splits : Splits ir cur via done)
    (settling : Settling ir via b r instr exits i) (reached : done b = i)
    (isExit : exits[i]? = some c) (inside : c < ir.blocks.length) (direct : via b c = none)
    (merges : targetHasPhis ir c = true) (inserted : Inserted cur next b c r (i + 1)) :
    Splits ir next (Function.update via b (Function.update (via b) c (some cur.blocks.length)))
      (Function.update done b (i + 1)) := by
  have others : ∀ p ≠ b,
      Function.update via b (Function.update (via b) c (some cur.blocks.length)) p = via p :=
    fun p other => Function.update_of_ne other _ _
  have here : Function.update via b (Function.update (via b) c (some cur.blocks.length)) b =
      Function.update (via b) c (some cur.blocks.length) := Function.update_self ..
  have away : ∀ x < ir.blocks.length, x ≠ cur.blocks.length :=
    fun x inside => Nat.ne_of_lt (Nat.lt_of_lt_of_le inside splits.grown)
  have oldJump : ∀ s x, x < ir.blocks.length → home s = some x → s ≠ .instr cur.blocks.length 0 := by
    intro s x inside isHome same
    rw [same] at isHome
    exact away x inside (Option.some.inj isHome).symm
  refine ⟨?_, ?_, ?_, ?_, ?_, ?_, ?_, update_idle splits others⟩
  · rw [inserted.grown]
    exact Nat.le_succ_of_le splits.grown
  · intro x old
    rw [inserted.live, decide_eq_false (away x old), Bool.false_or, splits.live x old]
  · intro x old
    rw [inserted.order, if_neg (away x old), splits.order x old]
  · apply splits.code_step settling.last settling.term i others
    · have isHome := home_of_last settling.last
      have target := settling.named i c isExit
      rw [inserted.code, if_neg (oldJump r b settling.inside isHome), if_pos rfl,
        settling.current splits reached, Option.map_some, here,
        redirect_succ target (Function.update_self ..)]
      have same : redirect (via b) i instr =
          redirect (Function.update (via b) c (some cur.blocks.length)) i instr := by
        apply redirect_congr
        intro j o isOperand
        split
        · rename_i bounds
          cases o with
          | block d =>
              have earlier : j - 1 < exits.length := by
                have := (List.getElem?_eq_some_iff.mp isExit).1
                omega
              have other : d ≠ c := by
                rintro rfl
                have target := settling.named (j - 1) _ (List.getElem?_eq_getElem earlier)
                rw [show j - 1 + 1 = j by omega, isOperand] at target
                have isD := Ref.block.inj (Option.some.inj target)
                have known := settling.covered (j - 1) (by omega) d
                  (by rw [isD]; exact List.getElem?_eq_getElem earlier) merges
                rw [direct] at known
                cases known
              rw [redirectRef, redirectRef, Function.update_of_ne other]
          | _ => rfl
        · rfl
      rw [same]
    · intro x old s isHome other
      rw [inserted.code, if_neg (oldJump s x old isHome), if_neg other]
  · intro x old
    rw [inserted.preds, if_neg (away x old)]
    by_cases isTarget : x = c
    · subst isTarget
      rw [if_pos rfl, splits.preds x old, List.map_map]
      apply List.map_congr_left
      intro p _
      by_cases same : p = b
      · subst same
        simp only [Function.comp, direct, Option.getD_none, if_pos, here, Function.update_self,
          Option.getD_some]
      · have other : (via p x).getD p ≠ b := by
          cases found : via p x with
          | none => exact same
          | some n =>
              have old := (splits.made p x n found).old
              exact Nat.ne_of_gt (Nat.lt_of_lt_of_le settling.inside old)
        simp only [Function.comp, if_neg other, others p same]
    · rw [if_neg isTarget, splits.preds x old]
      apply List.map_congr_left
      intro p _
      by_cases same : p = b
      · subst same
        rw [here, Function.update_of_ne isTarget]
      · rw [others p same]
  · intro n old new
    rw [inserted.grown] at new
    by_cases last : n = cur.blocks.length
    · subst last
      exact ⟨b, c, by rw [here, Function.update_self]⟩
    · have bounded : n < cur.blocks.length := Nat.lt_of_le_of_ne (Nat.le_of_lt_succ new) last
      obtain ⟨p, d, found⟩ := splits.fresh n old bounded
      refine ⟨p, d, ?_⟩
      by_cases same : p = b
      · subst same
        have other : d ≠ c := by
          rintro rfl
          rw [direct] at found
          cases found
        rw [here, Function.update_of_ne other, found]
      · rw [others p same, found]
  · intro p d n found
    by_cases isNew : p = b ∧ d = c
    · obtain ⟨rfl, rfl⟩ := isNew
      rw [here, Function.update_self] at found
      obtain rfl := Option.some.inj found
      refine ⟨splits.grown, ?_, settling.inside, ?_, ?_, ?_, ?_, ?_, merges⟩
      · rw [inserted.grown]
        exact Nat.lt_succ_self _
      · rw [inserted.live, decide_eq_true rfl, Bool.true_or]
      · rw [inserted.preds, if_pos rfl]
      · rw [inserted.order, if_pos rfl]
      · rw [inserted.code, if_pos rfl]
      · exact ⟨exits, settling.isExits, settling.several, List.mem_of_getElem? isExit⟩
    · have before : via p d = some n := by
        by_cases same : p = b
        · subst same
          rwa [here, Function.update_of_ne (fun isC => isNew ⟨rfl, isC⟩)] at found
        · rwa [others p same] at found
      have made := splits.made p d n before
      have notNew : n ≠ cur.blocks.length := Nat.ne_of_lt made.bounded
      have notTarget : n ≠ c := Nat.ne_of_gt (Nat.lt_of_lt_of_le inside made.old)
      have notLast : Ref.instr n 0 ≠ r := by
        intro same
        have isHome := home_of_last settling.last
        rw [← same] at isHome
        exact Nat.lt_irrefl _ (Nat.lt_of_lt_of_le settling.inside (Option.some.inj isHome ▸ made.old))
      exact { made with
        bounded := by rw [inserted.grown]; exact Nat.lt_succ_of_lt made.bounded
        live := by rw [inserted.live, decide_eq_false notNew, Bool.false_or]; exact made.live
        preds := by rw [inserted.preds, if_neg notNew, if_neg notTarget]; exact made.preds
        order := by rw [inserted.order, if_neg notNew]; exact made.order
        jump := by
          rw [inserted.code, if_neg (by simpa using notNew), if_neg notLast]
          exact made.jump }

/-- One turn of the loop settles one exit. -/
theorem splitExit_settles {exits : List BlockRef} {i num : Nat} {table : List (BlockRef × BlockRef)}
    (splits : Splits ir cur via done) (settling : Settling ir via b r instr exits i) (reached : done b = i)
    (isExit : exits[i]? = some c) (inside : c < ir.blocks.length)
    (lookup : ∀ x, table.lookup x = via b x) :
    ∃ num' next table' via', splitExit b r ⟨num, cur, table⟩ (c, i) = some ⟨num', next, table'⟩ ∧
      Splits ir next via' (Function.update done b (i + 1)) ∧ (∀ x, table'.lookup x = via' b x) ∧
      (∀ p ≠ b, via' p = via p) ∧ Settling ir via' b r instr exits (i + 1) := by
  have next : ∀ via' : BlockRef → BlockRef → Option BlockRef,
      (∀ x, (via b x).isSome → (via' b x).isSome) →
      (targetHasPhis ir c = true → (via' b c).isSome) → Settling ir via' b r instr exits (i + 1) := by
    intro via' more settled
    refine { settling with covered := ?_ }
    intro j before d isD merges
    by_cases here : j = i
    · subst here
      obtain rfl := Option.some.inj (isExit.symm.trans isD)
      exact settled merges
    · exact more d (settling.covered j (by omega) d isD merges)
  unfold splitExit
  simp only [lookup, splits.targetHasPhis_eq inside]
  cases found : via b c with
  | some new =>
      refine ⟨num, _, table, via, rfl, splits.reuse settling reached isExit found, lookup,
        fun _ _ => rfl, next via (fun _ known => known) fun _ => by rw [found]; rfl⟩
  | none =>
      by_cases merges : targetHasPhis ir c = true
      · have target : (redirect (via b) i instr).operands[i + 1]? = some (.block c) := by
          rw [redirect_operand, settling.named i c isExit, Option.map_some, if_neg (by omega)]
        obtain ⟨after, ran, inserted⟩ := insertBlock_inserted num (settling.current splits reached) target
          (Nat.lt_of_lt_of_le inside splits.grown)
        have here : Function.update via b (Function.update (via b) c (some cur.blocks.length)) b =
            Function.update (via b) c (some cur.blocks.length) := Function.update_self ..
        refine ⟨num + 1, after, (c, cur.blocks.length) :: table, _, ?_,
          splits.insert settling reached isExit inside found merges inserted, ?_,
          fun p other => Function.update_of_ne other _ _, next _ ?_ ?_⟩
        · simp only [if_pos merges, ran, Option.bind_eq_bind, Option.bind_some, Option.pure_def]
        · intro x
          rw [here]
          by_cases same : x = c
          · subst same
            rw [Function.update_self]
            simp
          · rw [Function.update_of_ne same, List.lookup_cons, beq_eq_false_iff_ne.mpr same]
            exact lookup x
        · intro x known
          rw [here]
          by_cases same : x = c
          · subst same
            rw [Function.update_self]
            rfl
          · rw [Function.update_of_ne same]
            exact known
        · intro _
          rw [here, Function.update_self]
          rfl
      · have plain : targetHasPhis ir c = false := Bool.not_eq_true _ ▸ merges
        refine ⟨num, cur, table, via, by simp only [plain]; rfl,
          splits.skip settling reached isExit plain, lookup, fun _ _ => rfl,
          next via (fun _ known => known) fun isMerge => absurd isMerge merges⟩

/-- The loop settles all exits of a block. -/
theorem splitExits_settle (num : Nat) (table : List (BlockRef × BlockRef)) {exits rest : List BlockRef}
    (front : List BlockRef) (split : exits = front ++ rest) (splits : Splits ir cur via done)
    (settling : Settling ir via b r instr exits front.length) (reached : done b = front.length)
    (inside : ∀ c ∈ exits, c < ir.blocks.length) (lookup : ∀ x, table.lookup x = via b x) :
    ∃ state via', (rest.zipIdx front.length).foldlM (splitExit b r) ⟨num, cur, table⟩ = some state ∧
      Splits ir state.ir via' (Function.update done b exits.length) ∧ (∀ p ≠ b, via' p = via p) ∧
      Settling ir via' b r instr exits exits.length := by
  induction rest generalizing front cur via done num table with
  | nil =>
      rw [List.append_nil] at split
      subst split
      refine ⟨_, via, rfl, ?_, fun _ _ => rfl, settling⟩
      rw [← reached, Function.update_eq_self]
      exact splits
  | cons c rest hypothesis =>
      have isExit : exits[front.length]? = some c := by rw [split]; simp
      obtain ⟨num', next, table', via', ran, splits', lookup', others, settling'⟩ :=
        splitExit_settles splits settling reached isExit (inside c (by rw [split]; simp)) lookup
      have length : (front ++ [c]).length = front.length + 1 := by simp
      obtain ⟨state, via'', rest', splits'', others', settled⟩ := hypothesis num' table' (front ++ [c])
        (by rw [split]; simp) splits' (by rw [length]; exact settling')
        (by rw [length, Function.update_self]) lookup'
      refine ⟨state, via'', ?_, ?_, fun p other => (others' p other).trans (others p other), settled⟩
      · rw [List.zipIdx_cons, List.foldlM_cons, ran, ← length]
        exact rest'
      · rw [Function.update_idem] at splits''
        exact splits''

end Exit

section Blocks

variable {ir cur : IR} {via : BlockRef → BlockRef → Option BlockRef} {done : BlockRef → Nat} {b : BlockRef}

/-- All exits of a block with several of them are settled. -/
def Settled (ir : IR) (via : BlockRef → BlockRef → Option BlockRef) (done : BlockRef → Nat)
    (b : BlockRef) : Prop :=
  ∀ exits, ir.blockExits b = some exits → 2 ≤ exits.length → done b = exits.length ∧
    ∀ c ∈ exits, targetHasPhis ir c = true → (via b c).isSome

theorem lt_of_live {x : BlockRef} (live : (ir.block? x).isSome) : x < ir.blocks.length := block?_lt live

/-- A block counts no instruction if and only if it lists none. -/
theorem Splits.count_eq_zero (splits : Splits ir cur via done) (terminated : Terminated ir)
    (live : (ir.block? b).isSome) :
    ∃ count, cur.blockInstrCount b = some count ∧ (count = 0 ↔ ir.iterInstrs b = []) := by
  have inside := lt_of_live live
  obtain ⟨block, found⟩ := Option.isSome_iff_exists.mp live
  obtain ⟨block', found'⟩ := Option.isSome_iff_exists.mp ((splits.live b inside).trans live)
  refine ⟨block'.data.count, by rw [blockInstrCount, found']; rfl, ?_⟩
  have order := splits.order b inside
  unfold iterInstrs at order
  simp only [found, found'] at order
  have listed : ir.iterInstrs b = block.data.order.map (Ref.instr b) := by simp only [iterInstrs, found]
  rw [listed]
  constructor
  · intro none
    rw [← order]
    cases isOrder : block'.data.order with
    | nil => rfl
    | cons idx rest =>
        have bound := block'.data.bounded idx (by rw [isOrder]; exact List.mem_cons_self)
        rw [InstrData.count] at none
        omega
  · intro none
    have stored := terminated.listed b block found (List.map_eq_nil_iff.mp none)
    have missing : ir.instr? (.instr b 0) = .none := by
      rw [instr?, found, Option.bind_some, InstrData.lookup, stored]
      rfl
    have gone : cur.instr? (.instr b 0) = .none := by
      rw [splits.code b inside _ rfl, missing]
      rfl
    rw [instr?, found', Option.bind_some, InstrData.lookup, List.getElem?_eq_none_iff] at gone
    exact Nat.le_zero.mp gone

/-- A turn of the pass settles its block. -/
theorem splitBlock_settles (terminated : Terminated ir) (splits : Splits ir cur via done)
    (live : (ir.block? b).isSome) (idle : done b = 0) (num : Nat) :
    ∃ num' next via' done', splitBlock (num, cur) b = some (num', next) ∧ Splits ir next via' done' ∧
      (∀ p ≠ b, via' p = via p ∧ done' p = done p) ∧ Settled ir via' done' b := by
  have inside := lt_of_live live
  obtain ⟨exits, isExits, exitsLive⟩ := terminated.exits b live
  obtain ⟨count, isCount, zero⟩ := splits.count_eq_zero terminated live
  have curExits : cur.blockExits b = some exits := by
    rw [splits.blockExits_of_idle inside idle, isExits]
  have curLast : cur.blockLast b = ir.blockLast b := by
    rw [blockLast_eq_getLast, blockLast_eq_getLast, splits.order b inside]
  have few : exits.length ≤ 1 → Settled ir via done b := by
    intro few others isOthers several
    obtain rfl := Option.some.inj (isExits.symm.trans isOthers)
    omega
  unfold splitBlock
  simp only [isCount, Option.bind_eq_bind, Option.bind_some, curLast, curExits]
  by_cases empty : count = 0
  · refine ⟨num, cur, via, done, by rw [if_pos empty]; rfl, splits, fun _ _ => ⟨rfl, rfl⟩, ?_⟩
    intro others isOthers several
    obtain ⟨r, _, last, _, _⟩ := terminated.last b others isOthers several
    have listed := mem_iterInstrs_of_last last
    rw [zero.mp empty] at listed
    cases listed
  · obtain ⟨r, last⟩ : ∃ r, ir.blockLast b = some r := by
      rw [blockLast_eq_getLast]
      have nonempty : ir.iterInstrs b ≠ [] := fun none => empty (zero.mpr none)
      exact ⟨_, List.getLast?_eq_some_getLast nonempty⟩
    rw [if_neg empty, last, Option.bind_some]
    by_cases several : exits.length ≤ 1
    · exact ⟨num, cur, via, done, by rw [if_pos several]; rfl, splits, fun _ _ => ⟨rfl, rfl⟩, few several⟩
    · obtain ⟨r', instr, last', term, formed⟩ := terminated.last b exits isExits (by omega)
      obtain rfl := Option.some.inj (last.symm.trans last')
      obtain ⟨first, more, branches⟩ := branches_of_exits formed (by omega)
      have settling : Settling ir via b r instr exits ([] : List BlockRef).length := by
        refine ⟨inside, last, term, isExits, by omega, ?_, fun j before => absurd before (Nat.not_lt_zero j)⟩
        intro j c isExit
        have bound := (List.getElem?_eq_some_iff.mp isExit).1
        rw [branches.operands, List.getElem?_cons_succ, List.getElem?_append_left (by simpa using bound),
          List.getElem?_map, isExit, Option.map_some]
      obtain ⟨state, via', ran, splits', others, settled⟩ := splitExits_settle num [] [] rfl splits settling
        idle (fun c isExit => lt_of_live (exitsLive c isExit)) (fun x => (splits.idle b idle x).symm)
      refine ⟨state.num, state.ir, via', Function.update done b exits.length, ?_, splits',
        fun p other => ⟨others p other, Function.update_of_ne other _ _⟩, ?_⟩
      · rw [if_neg several]
        exact congrArg (fun ran => ran.bind fun state => some (state.num, state.ir)) ran
      · intro exits' isExits' _
        obtain rfl := Option.some.inj (isExits.symm.trans isExits')
        refine ⟨Function.update_self .., fun c isExit merges => ?_⟩
        obtain ⟨j, isC⟩ := List.getElem?_of_mem isExit
        exact settled.covered j (List.getElem?_eq_some_iff.mp isC).1 c isC merges

/-- The pass settles every block. -/
theorem finalize_settles (terminated : Terminated ir) :
    ∃ next via done, finalize ir = some next ∧ Splits ir next via done ∧
      ∀ b, (ir.block? b).isSome → Settled ir via done b := by
  have all : ∀ (rest : List BlockRef) (num : Nat) (cur : IR) (via : BlockRef → BlockRef → Option BlockRef)
      (done : BlockRef → Nat), rest.Nodup → (∀ b ∈ rest, (ir.block? b).isSome) → Splits ir cur via done →
      (∀ b ∈ rest, done b = 0) → (∀ b, (ir.block? b).isSome → b ∉ rest → Settled ir via done b) →
      ∃ num' next via' done', rest.foldlM splitBlock (num, cur) = some (num', next) ∧
        Splits ir next via' done' ∧ ∀ b, (ir.block? b).isSome → Settled ir via' done' b := by
    intro rest
    induction rest with
    | nil => exact fun num cur via done _ _ splits _ settled =>
        ⟨num, cur, via, done, rfl, splits, fun b live => settled b live List.not_mem_nil⟩
    | cons b rest hypothesis =>
        intro num cur via done distinct live splits idle settled
        obtain ⟨fresh, distinct⟩ := List.nodup_cons.mp distinct
        obtain ⟨num', next, via', done', ran, splits', others, here⟩ := splitBlock_settles terminated splits
          (live b List.mem_cons_self) (idle b List.mem_cons_self) num
        have apart : ∀ c ∈ rest, c ≠ b := fun c inside same => fresh (same ▸ inside)
        obtain ⟨num'', last, via'', done'', ran', splits'', all⟩ := hypothesis num' next via' done' distinct
          (fun c inside => live c (List.mem_cons_of_mem b inside)) splits'
          (fun c inside => by
            rw [(others c (apart c inside)).2]
            exact idle c (List.mem_cons_of_mem b inside))
          (fun c isLive outside => by
            by_cases same : c = b
            · subst same
              exact here
            · have before := settled c isLive (by simp [same, outside])
              unfold Settled at before ⊢
              rw [(others c same).1, (others c same).2]
              exact before)
        exact ⟨num'', last, via'', done'', by rw [List.foldlM_cons, ran]; exact ran', splits'', all⟩
  obtain ⟨num, next, via, done, ran, splits, settled⟩ := all ir.iterBlocks 0 ir _ _
    (List.nodup_range.filter _) (fun b => mem_iterBlocks.mp) (.refl ir) (fun _ _ => rfl)
    (fun b live outside => absurd (mem_iterBlocks.mpr live) outside)
  refine ⟨next, via, done, ?_, splits, settled⟩
  unfold finalize insertIntermediatePhiBlocks
  rw [ran]
  rfl

end Blocks

end Dis86.Fin
