import Dis86.IR.Execution
import Dis86.Opt.Propagation

namespace Dis86

/-- What instructions compute and do. The value of an instruction depends on the references it names. -/
structure IR.Meaning (V M : Type) where
  value : Instr → IR.State V M → Option V
  effect : Instr → IR.State V M → M
  choose : M → Nat
  named : ∀ instr env env' machine, (∀ o ∈ instr.operands, env o = env' o) →
    value instr ⟨env, machine⟩ = value instr ⟨env', machine⟩
  copies : ∀ instr source rest state, instr.opcode = .ref → instr.operands = source :: rest →
    value instr state = state.env source

namespace Opt
open IR Lib

/-- An instruction sets its own reference. -/
def meant {V M : Type} (meaning : Meaning V M) : Semantics V M where
  exec r instr state :=
    ⟨fun s => if s = r then meaning.value instr state else state.env s, meaning.effect instr state⟩
  choose state := meaning.choose state.machine

/-- A phi whose operands are all copies of equal instructions becomes one of them. -/
def reducePhi (ir : IR) (r : Ref) : Option IR := do
  let phi ← ir.instr? r
  if phi.opcode ≠ .phi then return ir
  let operands ← phi.operands.mapM (operandPropagate ir)
  match operands.find? (· ≠ r) with
  | none => return ir
  | some common =>
      match ir.instr? common with
      | none => return ir
      | some commonInstr =>
          if commonInstr.opcode.hasSideEffects then return ir
          if commonInstr.opcode = .phi then return ir
          if operands.all fun o => o = r || ir.instr? o = some commonInstr then
            return ir.modifyInstr r fun _ => commonInstr
          return ir

def reducePhiCommonSubexpr (ir : IR) : Option IR := forEachInstr reducePhi ir

/-- The function before the turn of an instruction. -/
def BeforeReduction (ir : IR) (r : Ref) (cur : IR) : Prop :=
  ∃ front back, ir.refs = front ++ r :: back ∧ front.foldlM reducePhi ir = some cur

variable {V M : Type}

/-- A step leaves the operands of an instruction and what it reads of the machine. -/
structure Leaves (meaning : Meaning V M) (instr : Instr) (before after : State V M) : Prop where
  operands : ∀ o ∈ instr.operands, after.env o = before.env o
  reads : ∀ env, meaning.value instr ⟨env, after.machine⟩ = meaning.value instr ⟨env, before.machine⟩

/-- A reference holds a value of an instruction that no step has changed since it was computed: the
value came from there by copies and phis. -/
inductive Fresh (ir : IR) (meaning : Meaning V M) (init : State V M) (common : Instr) :
    List RunStep → Ref → Prop where
  | computed {es s} (present : ir.instr? s = some common)
      (leaves : Leaves meaning common.withoutTargets ((meant meaning).after ir init es)
        ((meant meaning).after ir init (es ++ [.perform s]))) :
      Fresh ir meaning init common (es ++ [.perform s]) s
  | copied {es source s} (fresh : Fresh ir meaning init common es source) (copy : CopyStep ir s source)
      (leaves : Leaves meaning common.withoutTargets ((meant meaning).after ir init es)
        ((meant meaning).after ir init (es ++ [.perform s]))) :
      Fresh ir meaning init common (es ++ [.perform s]) s
  | joined {es source src b phi} (fresh : Fresh ir meaning init common es source)
      (isPhi : phi ∈ ir.phisOf b) (selects : ir.selected src b phi = some source)
      (leaves : Leaves meaning common.withoutTargets ((meant meaning).after ir init es)
        ((meant meaning).after ir init (es ++ [.enter src b]))) :
      Fresh ir meaning init common (es ++ [.enter src b]) phi
  | kept {es e s} (fresh : Fresh ir meaning init common es s) (other : ¬ Sets ir e s)
      (leaves : Leaves meaning common.withoutTargets ((meant meaning).after ir init es)
        ((meant meaning).after ir init (es ++ [e]))) :
      Fresh ir meaning init common (es ++ [e]) s

section Values

variable {ir : IR} {meaning : Meaning V M} {init before after : State V M} {common instr : Instr}
  {es : List RunStep} {r s : Ref}

/-- An instruction whose operands and reads stay has one value. -/
theorem Leaves.value (leaves : Leaves meaning instr before after) :
    meaning.value instr after = meaning.value instr before := by
  have operands := meaning.named instr after.env before.env after.machine leaves.operands
  exact operands.trans (leaves.reads before.env)

theorem env_runStep {e : RunStep} (other : ¬ Sets ir e s) (state : State V M) :
    ((meant meaning).runStep ir state e).env s = state.env s := by
  cases e with
  | enter src b => exact if_neg other
  | perform r =>
      rw [Semantics.runStep, Semantics.step]
      split
      · split
        · rfl
        · exact if_neg other
      · rfl

theorem env_perform (present : ir.instr? r = some instr) (value : instr.opcode ≠ .phi)
    (noJump : instr.opcode ≠ .jmp) (state : State V M) :
    ((meant meaning).step ir state r).env r = meaning.value instr.withoutTargets state := by
  have performs : ¬ (instr.opcode = .phi ∨ instr.opcode = .jmp) := not_or.mpr ⟨value, noJump⟩
  rw [Semantics.step]
  simp only [present, if_neg performs]
  exact if_pos rfl

theorem Fresh.present (fresh : Fresh ir meaning init common es s) : (ir.instr? s).isSome := by
  induction fresh with
  | computed present _ => rw [present]; rfl
  | copied _ copy _ _ =>
      obtain ⟨instr, isCopy, _⟩ := copy
      rw [(copied?_instr isCopy).1]
      rfl
  | joined _ isPhi _ _ _ => exact mem_iterInstrs_instr? (List.mem_of_mem_filter isPhi)
  | kept _ _ _ hypothesis => exact hypothesis

/-- A fresh reference holds what the instruction computes now. -/
theorem Fresh.value (fresh : Fresh ir meaning init common es s) (plain : common.opcode.hasSideEffects = false)
    (noPhi : common.opcode ≠ .phi) :
    ((meant meaning).after ir init es).env s =
      meaning.value common.withoutTargets ((meant meaning).after ir init es) := by
  have noJump : common.opcode ≠ .jmp := by
    intro isJump
    rw [isJump] at plain
    cases plain
  induction fresh with
  | computed present leaves =>
      rw [leaves.value, after_append]
      exact env_perform present noPhi noJump _
  | @copied es source s fresh copy leaves hypothesis =>
      obtain ⟨instr, isCopy, operand⟩ := copy
      obtain ⟨present, isRef, _⟩ := copied?_instr isCopy
      obtain ⟨rest, operands⟩ : ∃ rest, instr.withoutTargets.operands = source :: rest := by
        have isInstr := fresh.present
        match listed : instr.operands, operand with
        | source :: rest, rfl =>
            refine ⟨rest.filter fun o => !o.isTarget, ?_⟩
            cases source with
            | instr _ _ => simp [Instr.withoutTargets, listed, Ref.isTarget]
            | _ => cases isInstr
      rw [leaves.value, ← hypothesis, after_append]
      refine (env_perform present ?_ ?_ _).trans (meaning.copies _ source rest _ isRef operands)
      · rw [isRef]
        exact Opcode.noConfusion
      · rw [isRef]
        exact Opcode.noConfusion
  | @joined es source src b phi fresh isPhi selects leaves hypothesis =>
      rw [leaves.value, ← hypothesis, after_append]
      refine (if_pos isPhi).trans ?_
      rw [selects]
      rfl
  | kept fresh other leaves hypothesis =>
      rw [leaves.value, ← hypothesis, after_append]
      exact env_runStep other _

end Values

/-- The operands of a phi lead by copies to instructions that are all the same, or back to the phi. -/
def LeadTo (ir : IR) (r : Ref) (common : Instr) : Prop :=
  ∃ phi, ir.instr? r = some phi ∧ phi.opcode = .phi ∧ ∀ o ∈ phi.operands,
    ∃ last, Relation.ReflTransGen (CopyStep ir) o last ∧ (last = r ∨ ir.instr? last = some common)

/-- The instruction in the place of a phi gives the value that the phi has there. -/
def GivesPhi (ir next : IR) (meaning : Meaning V M) (init : State V M) (es : List RunStep) (r : Ref) : Prop :=
  ((meant meaning).step next ((meant meaning).after ir init es) r).env r =
    ((meant meaning).after ir init es).env r

section Pass

variable {ir cur next : IR} {r : Ref}

/-- A turn changes nothing, or puts the common instruction in the place of a phi. -/
theorem reducePhi_cases (turn : reducePhi ir r = some next) :
    next = ir ∨ ∃ common, next = ir.modifyInstr r (fun _ => common) ∧ LeadTo ir r common ∧
      common.opcode.hasSideEffects = false ∧ common.opcode ≠ .phi ∧
      ∃ s, ir.instr? s = some common := by
  obtain ⟨phi, present, turn⟩ := Option.bind_eq_some_iff.mp turn
  split at turn
  · exact .inl (Option.some.inj turn).symm
  rename_i isPhi
  obtain ⟨operands, propagated, turn⟩ := Option.bind_eq_some_iff.mp turn
  split at turn
  · exact .inl (Option.some.inj turn).symm
  split at turn
  · exact .inl (Option.some.inj turn).symm
  rename_i common found
  split at turn
  · exact .inl (Option.some.inj turn).symm
  rename_i plain
  split at turn
  · exact .inl (Option.some.inj turn).symm
  rename_i noPhi
  split at turn
  · rename_i matching
    right
    refine ⟨common, (Option.some.inj turn).symm, ⟨phi, present, not_not.mp isPhi, ?_⟩, by simpa using plain,
      noPhi, _, found⟩
    intro o inside
    obtain ⟨last, listed, ended⟩ := exists_partner (mapM_eq_some.mp propagated) inside
    refine ⟨last, (operandPropagate_reaches ended).1, ?_⟩
    have same := List.all_eq_true.mp matching last listed
    simpa using same
  · exact .inl (Option.some.inj turn).symm

theorem reducePhi_keepsOrder : KeepsOrder reducePhi := by
  intro ir r next turn
  rcases reducePhi_cases turn with rfl | ⟨common, rfl, _⟩
  · exact .refl next
  · exact .modifyInstr ir r _

theorem reducePhi_filled (filled : CopiesFilled ir) (turn : reducePhi ir r = some next) :
    CopiesFilled next := by
  rcases reducePhi_cases turn with rfl | ⟨common, rfl, _, _, _, s, found⟩
  · exact filled
  · intro t instr present isRef
    rw [instr?_modifyInstr] at present
    split at present
    · obtain ⟨_, _, rfl⟩ := Option.map_eq_some_iff.mp present
      exact filled s common found isRef
    · exact filled t instr present isRef

/-- A turn ends, because every walk through copies ends. -/
theorem reducePhi_isSome (filled : CopiesFilled ir) {instr : Instr} (present : ir.instr? r = some instr) :
    ∃ next, reducePhi ir r = some next := by
  obtain ⟨operands, propagated⟩ := mapM_operandPropagate_isSome filled instr.operands
  unfold reducePhi
  rw [present, Option.bind_eq_bind, Option.bind_some]
  split
  · exact ⟨ir, rfl⟩
  rw [propagated, Option.bind_eq_bind, Option.bind_some]
  split
  · exact ⟨ir, rfl⟩
  split
  · exact ⟨ir, rfl⟩
  split
  · exact ⟨ir, rfl⟩
  split
  · exact ⟨ir, rfl⟩
  split
  · exact ⟨_, rfl⟩
  · exact ⟨ir, rfl⟩

end Pass

section Stores

def wordInstr (opcode : Opcode) (operands : List Ref) : Instr := ⟨.u16, none, Attribute.NONE, opcode, operands⟩

def wordLoad : Instr := wordInstr .load16 [.init .DS, .init .BX]

def joinBlock (name : String) (preds : List BlockRef) (instrs : List Instr) (order : List Nat)
    (bounded : ∀ idx ∈ order, idx < instrs.length) (distinct : order.Nodup) : Option Block :=
  some ⟨name, fun _ => none, preds, ⟨instrs, order, bounded, distinct⟩, true, []⟩

/-- Two branches load one word, and the first of them stores another value there afterwards. -/
def staleJoin : IR :=
  { IR.new with
    blocks := [
      joinBlock "entry" [] [wordInstr .jne [.init .CX, .block 1, .block 2]] [0] (by decide) distinct_one,
      joinBlock "stores" [0] [wordLoad, wordInstr .store16 [.init .DS, .init .BX, .init .AX],
        wordInstr .jmp [.block 3]] [0, 1, 2] (by decide) distinct_three,
      joinBlock "loads" [0] [wordLoad, wordInstr .jmp [.block 3]] [0, 1] (by decide) distinct_two,
      joinBlock "join" [1, 2] [wordInstr .phi [.instr 1 0, .instr 2 0], wordInstr .retNear []] [0, 1]
        (by decide) distinct_two] }

/-- A machine of one word, which a store sets, and of the branch that is taken. -/
def wordMeaning : Meaning Nat (Nat × Nat) where
  value instr state :=
    match instr.opcode, instr.operands with
    | .ref, source :: _ => state.env source
    | .load16, _ => some state.machine.1
    | _, _ => none
  effect instr state := if instr.opcode = .store16 then (1, state.machine.2) else state.machine
  choose := Prod.snd
  named instr env env' machine same := by
    split
    · rename_i operands
      exact same _ (by rw [operands]; exact List.mem_cons_self)
    · rfl
    · rfl
  copies instr source rest state isRef operands := by rw [isRef, operands]

def wordState (branch : Nat) : State Nat (Nat × Nat) := ⟨fun _ => some 0, (0, branch)⟩

/-- The way to the join by the store. -/
def storing : List RunStep := [.enter none 0, .perform (.instr 0 0), .enter (some 0) 1, .perform (.instr 1 0),
  .perform (.instr 1 1), .perform (.instr 1 2), .enter (some 1) 3]

/-- The way to the join by the other branch. -/
def loading : List RunStep := [.enter none 0, .perform (.instr 0 0), .enter (some 0) 2, .perform (.instr 2 0),
  .perform (.instr 2 1), .enter (some 2) 3]

theorem storing_run : Run staleJoin (meant wordMeaning) 0 (wordState 0) storing 3
    [.instr 3 0, .instr 3 1] := by
  have entry : Run staleJoin (meant wordMeaning) 0 (wordState 0) [.enter none 0] 0 [.instr 0 0] := .start
  have branch : Run staleJoin (meant wordMeaning) 0 (wordState 0)
      [.enter none 0, .perform (.instr 0 0), .enter (some 0) 1] 1 [.instr 1 0, .instr 1 1, .instr 1 2] :=
    entry.perform.leave rfl (by decide +kernel)
  exact branch.perform.perform.perform.leave rfl (by decide +kernel)

theorem loading_run : Run staleJoin (meant wordMeaning) 0 (wordState 1) loading 3
    [.instr 3 0, .instr 3 1] := by
  have entry : Run staleJoin (meant wordMeaning) 0 (wordState 1) [.enter none 0] 0 [.instr 0 0] := .start
  have branch : Run staleJoin (meant wordMeaning) 0 (wordState 1)
      [.enter none 0, .perform (.instr 0 0), .enter (some 0) 2] 2 [.instr 2 0, .instr 2 1] :=
    entry.perform.leave rfl (by decide +kernel)
  exact branch.perform.perform.leave rfl (by decide +kernel)

theorem staleJoin_filled : CopiesFilled staleJoin := by
  have checked : ∀ r ∈ staleJoin.allInstrs, ∀ instr ∈ staleJoin.instr? r,
      instr.opcode = .ref → instr.operands ≠ [] := by decide
  exact fun r instr present => checked r (mem_allInstrs present) instr present

theorem staleJoin_before : BeforeReduction staleJoin (.instr 3 0) staleJoin :=
  ⟨[.instr 0 0, .instr 1 0, .instr 1 1, .instr 1 2, .instr 2 0, .instr 2 1], [.instr 3 1],
    by decide +kernel, rfl⟩

theorem staleJoin_turn : reducePhi staleJoin (.instr 3 0) =
    some (staleJoin.modifyInstr (.instr 3 0) fun _ => wordLoad) := by
  rfl

theorem staleJoin_placed : (staleJoin.modifyInstr (.instr 3 0) fun _ => wordLoad).instr? (.instr 3 0) =
    some wordLoad := by rfl

theorem staleJoin_changed : (staleJoin.modifyInstr (.instr 3 0) fun _ => wordLoad).instr? (.instr 3 0) ≠
    staleJoin.instr? (.instr 3 0) := by decide +kernel

theorem loading_fresh : Fresh staleJoin wordMeaning (wordState 1) wordLoad loading (.instr 3 0) := by
  have computed : Fresh staleJoin wordMeaning (wordState 1) wordLoad
      ([.enter none 0, .perform (.instr 0 0), .enter (some 0) 2] ++ [.perform (.instr 2 0)])
      (.instr 2 0) := by
    apply Fresh.computed rfl
    exact ⟨by decide +kernel, fun _ => rfl⟩
  have jumped : Fresh staleJoin wordMeaning (wordState 1) wordLoad
      ([.enter none 0, .perform (.instr 0 0), .enter (some 0) 2, .perform (.instr 2 0)] ++
        [.perform (.instr 2 1)]) (.instr 2 0) := by
    apply Fresh.kept computed
    · exact (nofun : Ref.instr 2 0 ≠ .instr 2 1)
    · exact ⟨by decide +kernel, fun _ => rfl⟩
  show Fresh staleJoin wordMeaning (wordState 1) wordLoad
    ([.enter none 0, .perform (.instr 0 0), .enter (some 0) 2, .perform (.instr 2 0),
      .perform (.instr 2 1)] ++ [.enter (some 2) 3]) (.instr 3 0)
  apply Fresh.joined jumped (by decide +kernel) (by decide +kernel)
  exact ⟨by decide +kernel, fun _ => rfl⟩

end Stores

end Opt

end Dis86
