import Dis86.IR.Execution

namespace Dis86.Fin
open IR

variable {ir cur next : IR} {b c : BlockRef} {r : Ref}

section Exits

/-- The last effective instruction is found in the order of the block. -/
theorem lastEffective_eq_findSome {block : Block} (present : ir.block? b = some block) :
    lastEffective block = (ir.iterInstrs b).reverse.findSome? fun r =>
      (ir.instr? r).filter fun instr => instr.opcode ≠ .nop := by
  have order : ir.iterInstrs b = block.data.order.map (Ref.instr b) := by
    simp only [iterInstrs, present]
  rw [order, ← List.map_reverse, List.findSome?_map]
  apply congrArg (fun f => block.data.order.reverse.findSome? f)
  funext idx
  simp only [Function.comp, instr?, present, Option.bind_some]

theorem findSome?_congr {A B : Type} {f g : A → Option B} {l : List A} (same : ∀ a ∈ l, f a = g a) :
    l.findSome? f = l.findSome? g := by
  induction l with
  | nil => rfl
  | cons a l hypothesis =>
      rw [List.findSome?_cons, List.findSome?_cons, same a List.mem_cons_self,
        hypothesis fun a inside => same a (List.mem_cons_of_mem _ inside)]

/-- The exits depend on the instructions of the block only. -/
theorem blockExits_congr (live : (next.block? b).isSome = (ir.block? b).isSome)
    (order : next.iterInstrs b = ir.iterInstrs b)
    (same : ∀ r ∈ ir.iterInstrs b, next.instr? r = ir.instr? r) :
    next.blockExits b = ir.blockExits b := by
  unfold blockExits
  cases found : ir.block? b with
  | none =>
      rw [found, Option.isSome_none, Option.isSome_eq_false_iff, Option.isNone_iff_eq_none] at live
      rw [live]
  | some block =>
      rw [found] at live
      obtain ⟨block', found'⟩ := Option.isSome_iff_exists.mp live
      have last : lastEffective block' = lastEffective block := by
        rw [lastEffective_eq_findSome found', lastEffective_eq_findSome found, order]
        apply findSome?_congr
        intro r inside
        rw [same r (List.mem_reverse.mp inside)]
      simp only [found', Option.bind_eq_bind, Option.bind_some, last]

theorem blockLast_eq_getLast (ir : IR) (b : BlockRef) : ir.blockLast b = (ir.iterInstrs b).getLast? := by
  unfold blockLast iterInstrs
  cases ir.block? b with
  | none => rfl
  | some block =>
      rw [List.getLast?_map, Option.bind_eq_bind, Option.bind_some]
      cases block.data.order.getLast? <;> rfl

/-- A branch at the end of its block has its exits. -/
theorem blockExits_of_last {instr : Instr} (last : ir.blockLast b = some r)
    (present : ir.instr? r = some instr) (effective : instr.opcode ≠ .nop) :
    ir.blockExits b = branchExits instr := by
  rw [blockLast_eq_getLast] at last
  cases found : ir.block? b with
  | none => simp [iterInstrs, found] at last
  | some block =>
      have isLast : lastEffective block = some instr := by
        obtain ⟨front, order⟩ := List.getLast?_eq_some_iff.mp last
        rw [lastEffective_eq_findSome found, order, List.reverse_append]
        simp [present, effective]
      simp only [blockExits, found, Option.bind_eq_bind, Option.bind_some, isLast]

end Exits

section Redirecting

/-- Another block for a target. -/
def redirectRef (via : BlockRef → Option BlockRef) : Ref → Ref
  | .block target => .block ((via target).getD target)
  | o => o

/-- The first exits of a branch lead to other blocks. -/
def redirect (via : BlockRef → Option BlockRef) (done : Nat) (instr : Instr) : Instr :=
  { instr with operands := instr.operands.mapIdx fun i o =>
      if 1 ≤ i ∧ i ≤ done then redirectRef via o else o }

variable {via : BlockRef → Option BlockRef} {instr : Instr} {done : Nat}

@[simp] theorem redirect_opcode (via : BlockRef → Option BlockRef) (done : Nat) (instr : Instr) :
    (redirect via done instr).opcode = instr.opcode := rfl

theorem redirect_operand (via : BlockRef → Option BlockRef) (done i : Nat) (instr : Instr) :
    (redirect via done instr).operands[i]? =
      (instr.operands[i]?).map fun o => if 1 ≤ i ∧ i ≤ done then redirectRef via o else o := by
  rw [redirect, List.getElem?_mapIdx]

theorem redirect_congr {other : BlockRef → Option BlockRef} {more : Nat}
    (same : ∀ i o, instr.operands[i]? = some o →
      (if 1 ≤ i ∧ i ≤ done then redirectRef via o else o) =
        if 1 ≤ i ∧ i ≤ more then redirectRef other o else o) :
    redirect via done instr = redirect other more instr := by
  have operands : (redirect via done instr).operands = (redirect other more instr).operands := by
    apply List.ext_getElem?
    intro i
    rw [redirect_operand, redirect_operand]
    cases present : instr.operands[i]? with
    | none => rfl
    | some o => rw [Option.map_some, Option.map_some, same i o present]
  exact congrArg (fun operands => { instr with operands }) operands

theorem redirectRef_none {o : Ref} (none : ∀ target, via target = none) : redirectRef via o = o := by
  cases o with
  | block target => rw [redirectRef, none, Option.getD_none]
  | _ => rfl

theorem redirect_none (none : ∀ target, via target = none) : redirect via done instr = instr := by
  have operands : (redirect via done instr).operands = instr.operands := by
    apply List.ext_getElem?
    intro i
    rw [redirect_operand]
    cases instr.operands[i]? with
    | none => rfl
    | some o => rw [Option.map_some, redirectRef_none none, ite_self]
  exact congrArg (fun operands => { instr with operands }) operands

theorem redirect_zero : redirect via 0 instr = instr := by
  have operands : (redirect via 0 instr).operands = instr.operands := by
    apply List.ext_getElem?
    intro i
    rw [redirect_operand]
    cases instr.operands[i]? with
    | none => rfl
    | some o => rw [Option.map_some, if_neg (by omega)]
  exact congrArg (fun operands => { instr with operands }) operands

/-- One more exit is redirected. -/
theorem redirect_succ {new : BlockRef} (target : instr.operands[done + 1]? = some (.block c))
    (leads : via c = some new) :
    redirect via (done + 1) instr =
      { redirect via done instr with
        operands := (redirect via done instr).operands.set (done + 1) (.block new) } := by
  have operands : (redirect via (done + 1) instr).operands =
      (redirect via done instr).operands.set (done + 1) (.block new) := by
    apply List.ext_getElem?
    intro i
    rw [List.getElem?_set, redirect_operand, redirect_operand]
    by_cases here : done + 1 = i
    · subst here
      have inside : done + 1 < (redirect via done instr).operands.length := by
        rw [redirect, List.length_mapIdx]
        exact (List.getElem?_eq_some_iff.mp target).1
      rw [if_pos rfl, if_pos inside, target, Option.map_some, if_pos (by omega), redirectRef, leads,
        Option.getD_some]
    · rw [if_neg here]
      have sameBounds : (1 ≤ i ∧ i ≤ done + 1) ↔ (1 ≤ i ∧ i ≤ done) := by omega
      simp only [sameBounds]
  exact congrArg (fun operands => { instr with operands }) operands

/-- A redirected branch has its data. -/
theorem withoutTargets_redirect (via : BlockRef → Option BlockRef) (done : Nat) (instr : Instr) :
    (redirect via done instr).withoutTargets = instr.withoutTargets := by
  have kept : ∀ (f : Nat → Ref → Ref) (os : List Ref), (∀ i o, (f i o).isTarget = o.isTarget) →
      (∀ i o, o.isTarget = false → f i o = o) →
      (os.mapIdx f).filter (fun o => !o.isTarget) = os.filter fun o => !o.isTarget := by
    intro f os
    induction os generalizing f with
    | nil => exact fun _ _ => rfl
    | cons o os hypothesis =>
        intro kind data
        rw [List.mapIdx_cons, List.filter_cons, List.filter_cons, kind,
          hypothesis (fun i => f (i + 1)) (fun i => kind (i + 1)) fun i => data (i + 1)]
        cases isTarget : o.isTarget with
        | false => rw [data 0 o isTarget]
        | true => rfl
  have operands := kept (fun i o => if 1 ≤ i ∧ i ≤ done then redirectRef via o else o) instr.operands
    (fun i o => by split <;> cases o <;> rfl)
    (fun i o data => by
      split
      · cases o with
        | block target => cases data
        | _ => rfl
      · rfl)
  exact congrArg (fun operands => { instr with operands }) operands

theorem mapM_unwrapBlock {os : List Ref} {exits : List BlockRef} :
    os.mapM Ref.unwrapBlock = some exits ↔ os = exits.map Ref.block := by
  induction os generalizing exits with
  | nil =>
      rw [List.mapM_nil, Option.pure_def, Option.some.injEq, eq_comm, eq_comm (a := []),
        List.map_eq_nil_iff]
  | cons o os hypothesis =>
      simp only [List.mapM_cons, Option.bind_eq_bind, Option.bind_eq_some_iff, Option.pure_def,
        Option.some.injEq, hypothesis]
      constructor
      · rintro ⟨target, isTarget, targets, rfl, rfl⟩
        cases o with
        | block b =>
            obtain rfl := Option.some.inj isTarget
            rfl
        | _ => cases isTarget
      · intro same
        cases exits with
        | nil => cases same
        | cons target targets =>
            obtain ⟨rfl, rfl⟩ := List.cons.inj same
            exact ⟨target, rfl, targets, rfl, rfl⟩

/-- A branch with several exits names them after its first operand. -/
structure Branches (instr : Instr) (exits : List BlockRef) (first : Ref) (more : List Ref) : Prop where
  operands : instr.operands = first :: (exits.map Ref.block ++ more)
  kind : instr.opcode = .jne ∧ exits.length = 2 ∨ instr.opcode = .jmpTbl ∧ more = []

theorem branches_of_exits {exits : List BlockRef} (formed : branchExits instr = some exits)
    (several : 2 ≤ exits.length) : ∃ first more, Branches instr exits first more := by
  unfold branchExits at formed
  split at formed
  · obtain rfl := Option.some.inj formed
    simp at several
  · obtain rfl := Option.some.inj formed
    simp at several
  · simp only [Option.bind_eq_bind, Option.bind_eq_some_iff, Option.pure_def, Option.some.injEq] at formed
    obtain ⟨_, _, _, _, rfl⟩ := formed
    simp at several
  · rename_i isJne
    simp only [Option.bind_eq_bind, Option.bind_eq_some_iff, Option.pure_def, Option.some.injEq] at formed
    obtain ⟨o, second, a, isA, o', third, b, isB, rfl⟩ := formed
    match listed : instr.operands with
    | [] | [_] | [_, _] => simp [listed] at third
    | first :: x :: y :: more =>
        rw [listed] at second third
        obtain rfl := Option.some.inj second
        obtain rfl := Option.some.inj third
        have both : [x, y] = [a, b].map Ref.block := by
          apply mapM_unwrapBlock.mp
          simp only [List.mapM_cons, isA, isB, List.mapM_nil]
          rfl
        obtain ⟨rfl, rest⟩ := List.cons.inj both
        obtain ⟨rfl, _⟩ := List.cons.inj rest
        exact ⟨first, more, listed, .inl ⟨isJne, rfl⟩⟩
  · rename_i isTable
    simp only [Option.bind_eq_bind, Option.bind_eq_some_iff] at formed
    obtain ⟨_, filled, all⟩ := formed
    match listed : instr.operands with
    | [] => simp [listed] at filled
    | first :: rest =>
        rw [listed, List.tail_cons, mapM_unwrapBlock] at all
        exact ⟨first, [], by rw [listed, all, List.append_nil], .inr ⟨isTable, rfl⟩⟩
  · obtain rfl := Option.some.inj formed
    simp at several

theorem Branches.exits {exits : List BlockRef} {first : Ref} {more : List Ref}
    (branches : Branches instr exits first more) : branchExits instr = some exits := by
  obtain ⟨operands, ⟨isJne, two⟩ | ⟨isTable, none⟩⟩ := branches
  · obtain ⟨a, b, rfl⟩ := List.length_eq_two.mp two
    simp [branchExits, isJne, operands, Ref.unwrapBlock]
  · subst none
    rw [List.append_nil] at operands
    have all : (exits.map Ref.block).mapM Ref.unwrapBlock = some exits := mapM_unwrapBlock.mpr rfl
    simp [branchExits, isTable, operands, all, guard]

/-- The exits of a redirected branch. -/
theorem Branches.redirect {exits : List BlockRef} {first : Ref} {more : List Ref}
    (branches : Branches instr exits first more) :
    Branches (redirect via exits.length instr) (exits.map fun target => (via target).getD target)
      first more where
  operands := by
    apply List.ext_getElem?
    intro i
    rw [redirect_operand, branches.operands]
    cases i with
    | zero => rfl
    | succ i =>
        rw [List.getElem?_cons_succ, List.getElem?_cons_succ]
        by_cases inside : i < exits.length
        · rw [List.getElem?_append_left (by simpa using inside),
            List.getElem?_append_left (by simpa using inside), List.map_map, List.getElem?_map,
            List.getElem?_map, List.getElem?_eq_getElem inside]
          simp only [Option.map_some, if_pos (show 1 ≤ i + 1 ∧ i + 1 ≤ exits.length by omega)]
          rfl
        · rw [List.getElem?_append_right (by simpa using inside),
            List.getElem?_append_right (by simpa using inside)]
          simp only [List.length_map, if_neg (show ¬ (1 ≤ i + 1 ∧ i + 1 ≤ exits.length) by omega)]
          exact Option.map_id'
  kind := by
    rw [redirect_opcode, List.length_map]
    exact branches.kind

end Redirecting

section Inserting

/-- The jump of a new block. -/
def jumpTo (c : BlockRef) : Instr := ⟨.void, none, Attribute.NONE, .jmp, [.block c]⟩

theorem block?_addBlock_eq (ir : IR) (name : String) (b : BlockRef) :
    (ir.addBlock name).2.block? b = if b = ir.blocks.length then
      some ⟨name, fun _ => none, [], .new, false, []⟩ else ir.block? b := by
  simp only [addBlock, block?, List.getD_eq_getElem?_getD]
  rcases Nat.lt_trichotomy b ir.blocks.length with inside | last | beyond
  · rw [List.getElem?_append_left inside, if_neg (Nat.ne_of_lt inside)]
  · subst last
    simp
  · rw [List.getElem?_eq_none (by simp; omega), List.getElem?_eq_none (by omega),
      if_neg (Nat.ne_of_gt beyond)]

/-- What an insertion changes: a branch, the predecessors of its target, and the new block. -/
structure Inserted (cur next : IR) (b c : BlockRef) (r : Ref) (i : Nat) : Prop where
  grown : next.blocks.length = cur.blocks.length + 1
  live : ∀ x, (next.block? x).isSome = (decide (x = cur.blocks.length) || (cur.block? x).isSome)
  order : ∀ x, next.iterInstrs x =
    if x = cur.blocks.length then [.instr cur.blocks.length 0] else cur.iterInstrs x
  code : ∀ s, next.instr? s =
    if s = .instr cur.blocks.length 0 then some (jumpTo c)
    else if s = r then (cur.instr? r).map fun instr =>
      { instr with operands := instr.operands.set i (.block cur.blocks.length) }
    else cur.instr? s
  preds : ∀ x, next.preds x =
    if x = cur.blocks.length then [b]
    else if x = c then (cur.preds c).map fun pred => if pred = b then cur.blocks.length else pred
    else cur.preds x

theorem preds_modifyBlock (ir : IR) (b c : BlockRef) (f : Block → Block) :
    (ir.modifyBlock b f).preds c =
      if c = b then ((ir.block? b).map fun block => (f block).preds).getD [] else ir.preds c := by
  unfold IR.preds
  rw [block?_modifyBlock]
  split
  · rw [Option.map_map]
    rfl
  · rfl

/-- The new block while nothing leads to it. -/
structure Added (cur mid : IR) (b c : BlockRef) : Prop where
  grown : mid.blocks.length = cur.blocks.length + 1
  old : ∀ x ≠ cur.blocks.length, mid.block? x = cur.block? x
  new : ∃ block, mid.block? cur.blocks.length = some block ∧ block.preds = [b] ∧ block.data.order = [0] ∧
    block.data.instrs = [jumpTo c]

theorem addBlock_added (cur : IR) (name : String) (b c : BlockRef) :
    ∃ jump mid, ((cur.addBlock name).2.modifyBlock cur.blocks.length fun block =>
        { block with sealed := true, preds := [b] }).blockInstrAppend cur.blocks.length (jumpTo c) =
      some (jump, mid) ∧ Added cur mid b c := by
  have opened : ((cur.addBlock name).2.modifyBlock cur.blocks.length fun block =>
      { block with sealed := true, preds := [b] }).block? cur.blocks.length =
        some ⟨name, fun _ => none, [b], .new, true, []⟩ := by
    rw [block?_modifyBlock_self, block?_addBlock_eq, if_pos rfl]
    rfl
  refine ⟨_, _, by rw [blockInstrAppend, blockInstrInsert, opened]; rfl, ?_, fun x other => ?_, ?_⟩
  · simp [addBlock]
  · rw [block?_modifyBlock, if_neg other, block?_modifyBlock, if_neg other, block?_addBlock_eq,
      if_neg other]
  · rw [block?_modifyBlock_self, opened]
    exact ⟨_, rfl, rfl, rfl, rfl⟩

theorem preds_modifyInstr (ir : IR) (r : Ref) (f : Instr → Instr) (c : BlockRef) :
    (ir.modifyInstr r f).preds c = ir.preds c := by
  cases r with
  | instr b idx =>
      rw [modifyInstr, preds_modifyBlock]
      split
      · subst c
        rfl
      · rfl
  | _ => rfl

theorem insertBlock_inserted (num : Nat) {instr : Instr} {i : Nat} (present : cur.instr? r = some instr)
    (target : instr.operands[i]? = some (.block c)) (inside : c < cur.blocks.length) :
    ∃ next, insertBlock num cur b r i = some (cur.blocks.length, next) ∧ Inserted cur next b c r i := by
  obtain ⟨jump, mid, appended, added⟩ := addBlock_added cur
    ("phi_" ++ ("".pushn '0' (4 - (toString num).length)) ++ toString num) b c
  obtain ⟨new, isNew, newPreds, newOrder, newInstrs⟩ := added.new
  have apart : c ≠ cur.blocks.length := Nat.ne_of_lt inside
  have distinct : r ≠ .instr cur.blocks.length 0 := by
    rintro rfl
    obtain ⟨block, found, _⟩ := Option.bind_eq_some_iff.mp present
    exact Nat.lt_irrefl _ (block?_lt (Option.isSome_of_mem found))
  have midInstr : ∀ s, mid.instr? s =
      if s = .instr cur.blocks.length 0 then some (jumpTo c) else cur.instr? s := by
    intro s
    cases s with
    | instr x idx =>
        by_cases here : x = cur.blocks.length
        · subst here
          have missing : cur.block? cur.blocks.length = none := by
            by_contra found
            exact Nat.lt_irrefl _ (block?_lt (Option.isSome_iff_ne_none.mpr found))
          rw [instr?, isNew, instr?, missing, Option.bind_some, Option.bind_none, InstrData.lookup,
            newInstrs]
          cases idx with
          | zero => rw [if_pos rfl, List.getElem?_cons_zero]
          | succ idx => simp
        · rw [instr?, instr?, added.old x here, if_neg]
          rintro ⟨rfl, _⟩
          exact here rfl
    | _ => rfl
  refine ⟨(mid.modifyInstr r fun instr =>
      { instr with operands := instr.operands.set i (.block cur.blocks.length) }).modifyBlock c
        fun block => { block with preds := block.preds.map fun pred =>
          if pred = b then cur.blocks.length else pred }, ?_, ?_⟩
  · unfold insertBlock
    have new : (cur.addBlock ("phi_" ++ ("".pushn '0' (4 - (toString num).length)) ++ toString num)).1 =
      cur.blocks.length := rfl
    simp only [present, Option.bind_eq_bind, Option.bind_some, target, new]
    unfold jumpTo at appended
    rw [appended]
    rfl
  · constructor
    · rw [blocks_length_modifyBlock, (SameShape.modifyInstr mid r _).length, added.grown]
    · intro x
      rw [(SameShape.modifyBlock _ c _).live x, (SameShape.modifyInstr mid r _).live x]
      by_cases here : x = cur.blocks.length
      · subst here
        rw [isNew]
        simp
      · rw [added.old x here]
        simp [here]
    · intro x
      rw [iterInstrs_modifyBlock_same _ _ _ (by exact fun _ => rfl), iterInstrs_modifyInstr]
      unfold iterInstrs
      by_cases here : x = cur.blocks.length
      · subst here
        rw [isNew, if_pos rfl]
        simp only [newOrder, List.map_cons, List.map_nil]
      · rw [added.old x here, if_neg here]
    · intro s
      rw [instr?_modifyBlock_same _ _ _ (by exact fun _ => rfl), instr?_modifyInstr, midInstr, midInstr,
        if_neg distinct]
      by_cases isJump : s = .instr cur.blocks.length 0
      · rw [if_neg (by rw [isJump]; exact distinct.symm), if_pos isJump, if_pos isJump]
      · rw [if_neg isJump, if_neg isJump]
    · intro x
      rw [preds_modifyBlock]
      by_cases isTarget : x = c
      · subst isTarget
        have redirected : mid.preds x = cur.preds x := by
          rw [IR.preds, added.old x apart, IR.preds]
        rw [if_pos rfl, if_neg apart, if_pos rfl, ← redirected, ← preds_modifyInstr mid r]
        unfold IR.preds
        cases IR.block? _ x <;> rfl
      · rw [if_neg isTarget, if_neg isTarget, preds_modifyInstr, IR.preds]
        by_cases here : x = cur.blocks.length
        · subst here
          rw [isNew, if_pos rfl, Option.map_some, newPreds, Option.getD_some]
        · rw [added.old x here, if_neg here, IR.preds]

end Inserting

end Dis86.Fin
