import Dis86.Lib.ByteMemory
import Dis86.IR.Flow
import Dis86.Ast.Tree

namespace Dis86.Opt
open IR Lib
open Ast (PureUnary PureBinary)

/-- A way into a block, with the number of the edge that it takes. -/
abbrev Way := BlockRef × Nat

/-- What an instruction does that accesses no symbol. -/
structure Performed (A : Type) where
  value : Option (BitVec 32)
  mem : ByteMemory A
  exit : Option Way

/-- Where the symbols lie, what is known before the function runs, and what all other instructions do. Bytes of a symbol
that are close to each other lie at distinct addresses. -/
structure Machine (A : Type) where
  place : SymbolId → Int → A
  apart : ∀ id off (i j : Nat), i < 4 → j < 4 → place id (off + i) = place id (off + j) → i = j
  known : Ref → Option (BitVec 32)
  effect : Instr → List (BitVec 32) → ByteMemory A → Option (Performed A)

/-- The values that have been computed, the memory, and the way out of the block. -/
structure Running (A : Type) where
  env : Ref → Option (BitVec 32)
  mem : ByteMemory A
  exit : Option Way

/-- The instructions with a fixed meaning. -/
inductive Fixed where
  | skip
  | read (bytes : Nat)
  | write (bytes : Nat)
  | make32
  | half (op : PureUnary)

def fixed? : Opcode → Option Fixed
  | .nop | .phi => some .skip
  | .readVar8 => some (.read 1)
  | .readVar16 => some (.read 2)
  | .readVar32 => some (.read 4)
  | .writeVar8 => some (.write 1)
  | .writeVar16 => some (.write 2)
  | .writeVar32 => some (.write 4)
  | .make32 => some .make32
  | .lower16 => some (.half .lower16)
  | .upper16 => some (.half .upper16)
  | _ => none

namespace Machine

variable {A : Type} (w : Machine A)

/-- The bytes of a symbol from its region on. -/
def window (symref : SymbolRef) (j : Nat) : A := w.place symref.id (symref.region.off + j)

def eval (σ : Running A) (r : Ref) : Option (BitVec 32) :=
  match r with
  | .instr _ _ => σ.env r
  | _ => w.known r

end Machine

variable {A : Type}

def Running.define (σ : Running A) (r : Ref) (v : Option (BitVec 32)) : Running A :=
  { σ with env := Function.update σ.env r v }

namespace Machine

variable (w : Machine A) (ir : IR)

/-- The phis of a block take their values at once, from the edge on which the block is entered. -/
def enter (way : Way) (σ : Running A) : Running A :=
  { σ with
    env := fun r =>
      match (ir.instr? r).filter fun instr => instr.opcode = .phi ∧ r ∈ ir.iterInstrs way.1 with
      | some phi => phi.operands[way.2]?.bind (w.eval σ)
      | none => σ.env r
    exit := none }

variable [DecidableEq A]

/-- One instruction. It fails where an operand is missing or has no value. The phis run on the way into a block. -/
def exec (r : Ref) (instr : Instr) (σ : Running A) : Option (Running A) :=
  match fixed? instr.opcode with
  | some .skip => some σ
  | some (.read n) =>
    match instr.operands with
    | [.symbol symref] => some (σ.define r (some (.ofNat 32 (σ.mem.read (w.window symref) n))))
    | _ => none
  | some (.write n) =>
    match instr.operands with
    | [.symbol symref, v] => do
        let x ← w.eval σ v
        return { σ.define r none with mem := σ.mem.write (w.window symref) n x.toNat }
    | _ => none
  | some .make32 =>
    match instr.operands with
    | [high, low] => do
        let x ← w.eval σ high
        let y ← w.eval σ low
        return σ.define r (some (PureBinary.make32.value .dword .dword x y))
    | _ => none
  | some (.half op) =>
    match instr.operands with
    | [v] => do
        let x ← w.eval σ v
        return σ.define r (some (op.value .word .dword x))
    | _ => none
  | none => do
      let values ← instr.operands.mapM (w.eval σ)
      let effect ← w.effect instr values σ.mem
      return ⟨Function.update σ.env r effect.value, effect.mem, effect.exit <|> σ.exit⟩

def runList (rs : List Ref) (σ : Running A) : Option (Running A) :=
  rs.foldlM (fun σ r => (ir.instr? r).bind fun instr => w.exec r instr σ) σ

def runBlock (way : Way) (σ : Running A) : Option (Running A) := w.runList ir (ir.iterInstrs way.1) (w.enter ir way σ)

/-- A run through at most a number of blocks. -/
def runFrom : Nat → Way → Running A → Option (Running A)
  | 0, _, σ => some σ
  | n + 1, way, σ => do
      let σ ← w.runBlock ir way σ
      match σ.exit with
      | some next => runFrom n next σ
      | none => return σ

end Machine

/-- A run that has computed at least the values of another one, in a function with at least its instructions. -/
structure Agrees (ir : IR) (σ τ : Running A) : Prop where
  mem : τ.mem = σ.mem
  exit : τ.exit = σ.exit
  env : ∀ r v, σ.env r = some v → τ.env r = some v
  listed : ∀ r v, σ.env r = some v → (ir.instr? r).isSome

section Agreement

variable {w : Machine A} {ir : IR} {σ τ σ' : Running A} {r : Ref} {instr : Instr} {rs : List Ref}

theorem Agrees.eval (agrees : Agrees ir σ τ) {v : BitVec 32} (value : w.eval σ r = some v) : w.eval τ r = some v := by
  cases r with
  | instr b idx => exact agrees.env _ v value
  | const | init | block | symbol | func => exact value

theorem Agrees.evals (agrees : Agrees ir σ τ) {values : List (BitVec 32)} (ran : rs.mapM (w.eval σ) = some values) :
    rs.mapM (w.eval τ) = some values := by
  induction rs generalizing values with
  | nil => exact ran
  | cons r rest hypothesis =>
      rw [List.mapM_cons] at ran ⊢
      obtain ⟨v, first, ran⟩ := Option.bind_eq_some_iff.mp ran
      obtain ⟨others, later, ran⟩ := Option.bind_eq_some_iff.mp ran
      exact Option.bind_eq_some_iff.mpr ⟨v, agrees.eval first,
        Option.bind_eq_some_iff.mpr ⟨others, hypothesis later, ran⟩⟩

/-- A value is defined for both. It may be missing in the first run only. -/
theorem Agrees.define (agrees : Agrees ir σ τ) (here : (ir.instr? r).isSome) {v v' : Option (BitVec 32)}
    (same : ∀ x, v = some x → v' = some x) : Agrees ir (σ.define r v) (τ.define r v') where
  mem := agrees.mem
  exit := agrees.exit
  env := by
    intro s x value
    by_cases isHere : s = r
    · subst isHere
      simp only [Running.define, Function.update_self] at value ⊢
      exact same x value
    · simp only [Running.define, Function.update_of_ne isHere] at value ⊢
      exact agrees.env s x value
  listed := by
    intro s x value
    by_cases isHere : s = r
    · exact isHere ▸ here
    · simp only [Running.define, Function.update_of_ne isHere] at value
      exact agrees.listed s x value

theorem Agrees.withMem (agrees : Agrees ir σ τ) {m m' : ByteMemory A} (same : m' = m) :
    Agrees ir { σ with mem := m } { τ with mem := m' } := ⟨same, agrees.exit, agrees.env, agrees.listed⟩

/-- A value that is known after a change without a value has been known before. -/
theorem eval_define_none {v : Ref} {x : BitVec 32} (value : w.eval (σ.define r none) v = some x) :
    w.eval σ v = some x := by
  cases v with
  | instr b idx =>
      rw [Machine.eval] at value ⊢
      by_cases here : Ref.instr b idx = r
      · simp only [Running.define, here, Function.update_self] at value
        cases value
      · simpa only [Running.define, Function.update_of_ne here] using value
  | const | init | block | symbol | func => exact value

/-- The phis on the way into a block. -/
def enteringPhi? (ir : IR) (b : BlockRef) (r : Ref) : Option Instr :=
  (ir.instr? r).filter fun instr => instr.opcode = .phi ∧ r ∈ ir.iterInstrs b

theorem Agrees.enter {next : IR} {way : Way} (agrees : Agrees ir σ τ)
    (same : ∀ r, enteringPhi? next way.1 r = enteringPhi? ir way.1 r) :
    Agrees ir (w.enter ir way σ) (w.enter next way τ) where
  mem := agrees.mem
  exit := rfl
  env := by
    intro r v value
    change (match enteringPhi? ir way.1 r with | some phi => _ | none => _) = _ at value
    change (match enteringPhi? next way.1 r with | some phi => _ | none => _) = _
    rw [same r]
    cases phi : enteringPhi? ir way.1 r with
    | none =>
        rw [phi] at value
        exact agrees.env r v value
    | some instr =>
        rw [phi] at value
        obtain ⟨operand, listed, value⟩ := Option.bind_eq_some_iff.mp value
        exact Option.bind_eq_some_iff.mpr ⟨operand, listed, agrees.eval value⟩
  listed := by
    intro r v value
    change (match enteringPhi? ir way.1 r with | some phi => _ | none => _) = _ at value
    cases phi : enteringPhi? ir way.1 r with
    | none =>
        rw [phi] at value
        exact agrees.listed r v value
    | some instr => exact Option.isSome_of_mem (Option.filter_eq_some_iff.mp phi).1

variable [DecidableEq A]

/-- An instruction does the same in both runs. -/
theorem Agrees.exec (agrees : Agrees ir σ τ) (here : (ir.instr? r).isSome) (ran : w.exec r instr σ = some σ') :
    ∃ τ', w.exec r instr τ = some τ' ∧ Agrees ir σ' τ' := by
  rw [Machine.exec] at ran ⊢
  cases fixed : fixed? instr.opcode with
  | none =>
      rw [fixed] at ran
      obtain ⟨values, read, ran⟩ := Option.bind_eq_some_iff.mp ran
      obtain ⟨effect, did, ran⟩ := Option.bind_eq_some_iff.mp ran
      obtain rfl := Option.some.inj ran
      have defined := agrees.define here fun x (same : effect.value = some x) => same
      rw [← agrees.mem] at did
      exact ⟨_, Option.bind_eq_some_iff.mpr ⟨values, agrees.evals read,
        Option.bind_eq_some_iff.mpr ⟨effect, did, rfl⟩⟩, rfl, by rw [agrees.exit], defined.env, defined.listed⟩
  | some kind =>
      rw [fixed] at ran
      cases kind with
      | skip =>
          obtain rfl := Option.some.inj ran
          exact ⟨τ, rfl, agrees⟩
      | read n =>
          simp only at ran ⊢
          split at ran
          · obtain rfl := Option.some.inj ran
            refine ⟨_, rfl, ?_⟩
            rw [agrees.mem]
            exact agrees.define here fun _ => id
          · cases ran
      | write n =>
          simp only at ran ⊢
          split at ran
          · obtain ⟨x, value, ran⟩ := Option.bind_eq_some_iff.mp ran
            obtain rfl := Option.some.inj ran
            refine ⟨_, Option.bind_eq_some_iff.mpr ⟨x, agrees.eval value, rfl⟩, ?_⟩
            exact (agrees.define here fun _ => id).withMem (by rw [agrees.mem])
          · cases ran
      | make32 =>
          simp only at ran ⊢
          split at ran
          · obtain ⟨x, high, ran⟩ := Option.bind_eq_some_iff.mp ran
            obtain ⟨y, low, ran⟩ := Option.bind_eq_some_iff.mp ran
            obtain rfl := Option.some.inj ran
            exact ⟨_, Option.bind_eq_some_iff.mpr ⟨x, agrees.eval high,
              Option.bind_eq_some_iff.mpr ⟨y, agrees.eval low, rfl⟩⟩, agrees.define here fun _ => id⟩
          · cases ran
      | half op =>
          simp only at ran ⊢
          split at ran
          · obtain ⟨x, value, ran⟩ := Option.bind_eq_some_iff.mp ran
            obtain rfl := Option.some.inj ran
            exact ⟨_, Option.bind_eq_some_iff.mpr ⟨x, agrees.eval value, rfl⟩, agrees.define here fun _ => id⟩
          · cases ran

/-- Instructions that both functions have do the same in both runs. -/
theorem Agrees.runList {next : IR} (agrees : Agrees ir σ τ) (same : ∀ r ∈ rs, next.instr? r = ir.instr? r)
    (ran : w.runList ir rs σ = some σ') : ∃ τ', w.runList next rs τ = some τ' ∧ Agrees ir σ' τ' := by
  induction rs generalizing σ τ with
  | nil =>
      obtain rfl := Option.some.inj ran
      exact ⟨τ, rfl, agrees⟩
  | cons r rest hypothesis =>
      rw [Machine.runList, List.foldlM_cons] at ran
      obtain ⟨middle, first, ran⟩ := Option.bind_eq_some_iff.mp ran
      obtain ⟨instr, present, first⟩ := Option.bind_eq_some_iff.mp first
      obtain ⟨middle', first', agrees'⟩ := agrees.exec (Option.isSome_of_mem present) first
      obtain ⟨τ', others, last⟩ := hypothesis agrees' (fun r inside => same r (List.mem_cons_of_mem _ inside)) ran
      refine ⟨τ', ?_, last⟩
      rw [Machine.runList, List.foldlM_cons]
      have step : (next.instr? r).bind (fun instr => w.exec r instr τ) = some middle' := by
        rw [same r List.mem_cons_self, present]
        exact first'
      exact Option.bind_eq_some_iff.mpr ⟨middle', step, others⟩

theorem runList_append (w : Machine A) (ir : IR) (rs rest : List Ref) (σ : Running A) :
    w.runList ir (rs ++ rest) σ = (w.runList ir rs σ).bind (w.runList ir rest) := List.foldlM_append

end Agreement

/-- Every visit of a block of one function is a visit of the block of the other. -/
structure Refines (ir next : IR) : Prop where
  grows : ∀ r, (ir.instr? r).isSome → (next.instr? r).isSome
  listed : ∀ b, ∀ r ∈ ir.iterInstrs b, r ∈ next.iterInstrs b
  block : ∀ {A : Type} [DecidableEq A] (w : Machine A) (way : Way) (σ τ σ' : Running A), Agrees ir σ τ →
    w.runBlock ir way σ = some σ' → ∃ τ', w.runBlock next way τ = some τ' ∧ Agrees ir σ' τ'

/-- A part of a block is replaced by another one. -/
structure Rewrites (ir next : IR) (b : BlockRef) (front part part' back : List Ref) : Prop where
  order : ir.iterInstrs b = front ++ (part ++ back)
  order' : next.iterInstrs b = front ++ (part' ++ back)
  others : ∀ c, c ≠ b → next.iterInstrs c = ir.iterInstrs c
  within : ∀ r ∈ part, r ∈ part'
  kept : ∀ r, r ∉ part' → next.instr? r = ir.instr? r
  plain : ∀ r ∈ part', ∀ instr, ir.instr? r = some instr ∨ next.instr? r = some instr → instr.opcode ≠ .phi

section Refinement

variable {ir next third : IR} {b : BlockRef} {front part part' back : List Ref}

theorem Refines.refl (ir : IR) : Refines ir ir where
  grows := fun _ => id
  listed := fun _ _ => id
  block := fun _ _ _ _ _ agrees ran => (agrees.enter fun _ => rfl).runList (fun _ _ => rfl) ran

theorem Refines.trans (first : Refines ir next) (second : Refines next third) : Refines ir third where
  grows := fun r here => second.grows r (first.grows r here)
  listed := fun b r inside => second.listed b r (first.listed b r inside)
  block := by
    intro A _ w way σ τ σ' agrees ran
    have itself : Agrees ir σ σ := ⟨rfl, rfl, fun _ _ => id, agrees.listed⟩
    obtain ⟨μ, middle, one⟩ := first.block w way σ σ σ' itself ran
    have later : Agrees next σ τ :=
      ⟨agrees.mem, agrees.exit, agrees.env, fun r v value => first.grows r (agrees.listed r v value)⟩
    obtain ⟨τ', last, two⟩ := second.block w way σ τ μ later middle
    exact ⟨τ', last, two.mem.trans one.mem, two.exit.trans one.exit,
      fun r v value => two.env r v (one.env r v value), one.listed⟩

theorem Rewrites.apart (rewrites : Rewrites ir next b front part part' back) {r : Ref}
    (outside : r ∈ front ∨ r ∈ back) : r ∉ part' := by
  have distinct := iterInstrs_nodup next b
  rw [rewrites.order', List.nodup_append] at distinct
  intro inside
  rcases outside with before | after
  · exact distinct.2.2 r before r (List.mem_append_left back inside) rfl
  · exact (List.nodup_append.mp distinct.2.1).2.2 r inside r after rfl

theorem Rewrites.enteringPhi? (rewrites : Rewrites ir next b front part part' back) (c : BlockRef) (r : Ref) :
    enteringPhi? next c r = enteringPhi? ir c r := by
  by_cases inside : r ∈ part'
  · have neither (cur : IR) (plain : ∀ instr, cur.instr? r = some instr → instr.opcode ≠ .phi) :
        Opt.enteringPhi? cur c r = none := by
      cases found : Opt.enteringPhi? cur c r with
      | none => rfl
      | some instr =>
          obtain ⟨present, isPhi⟩ := Option.filter_eq_some_iff.mp found
          exact absurd (decide_eq_true_iff.mp isPhi).1 (plain instr present)
    rw [neither next fun instr present => rewrites.plain r inside instr (.inr present),
      neither ir fun instr present => rewrites.plain r inside instr (.inl present)]
  · have listed : r ∈ next.iterInstrs c ↔ r ∈ ir.iterInstrs c := by
      by_cases here : c = b
      · subst here
        have outside : r ∉ part := fun among => inside (rewrites.within r among)
        simp only [rewrites.order, rewrites.order', List.mem_append, inside, outside, false_or]
      · rw [rewrites.others c here]
    simp only [Opt.enteringPhi?, rewrites.kept r inside, listed]

/-- It is enough to compare the two parts. -/
theorem Rewrites.refines (rewrites : Rewrites ir next b front part part' back)
    (parts : ∀ {A : Type} [DecidableEq A] (w : Machine A) (σ τ σ' : Running A), Agrees ir σ τ →
      w.runList ir part σ = some σ' → ∃ τ', w.runList next part' τ = some τ' ∧ Agrees ir σ' τ') : Refines ir next where
  grows := by
    intro r here
    by_cases inside : r ∈ part'
    · apply mem_iterInstrs_instr? (b := b)
      rw [rewrites.order']
      exact List.mem_append_right front (List.mem_append_left back inside)
    · rwa [rewrites.kept r inside]
  listed := by
    intro c r inside
    by_cases here : c = b
    · subst here
      rw [rewrites.order, List.mem_append, List.mem_append] at inside
      rw [rewrites.order', List.mem_append, List.mem_append]
      exact inside.imp_right fun later => later.imp_left (rewrites.within r)
    · rwa [rewrites.others c here]
  block := by
    intro A _ w way σ τ σ' agrees ran
    have entered : Agrees ir (w.enter ir way σ) (w.enter next way τ) :=
      agrees.enter (rewrites.enteringPhi? way.1)
    by_cases here : way.1 = b
    · rw [Machine.runBlock, here, rewrites.order, runList_append] at ran
      obtain ⟨σ₁, first, ran⟩ := Option.bind_eq_some_iff.mp ran
      rw [runList_append] at ran
      obtain ⟨σ₂, second, last⟩ := Option.bind_eq_some_iff.mp ran
      obtain ⟨τ₁, first', agrees₁⟩ := entered.runList
        (fun r inside => rewrites.kept r (rewrites.apart (.inl inside))) first
      obtain ⟨τ₂, second', agrees₂⟩ := parts w σ₁ τ₁ σ₂ agrees₁ second
      obtain ⟨τ', last', agrees'⟩ := agrees₂.runList
        (fun r inside => rewrites.kept r (rewrites.apart (.inr inside))) last
      refine ⟨τ', ?_, agrees'⟩
      rw [Machine.runBlock, here, rewrites.order', runList_append, first', Option.bind_some, runList_append, second']
      exact last'
    · have same : ∀ r ∈ ir.iterInstrs way.1, next.instr? r = ir.instr? r := by
        intro r inside
        apply rewrites.kept
        intro among
        have home : r ∈ next.iterInstrs b := by
          rw [rewrites.order']
          exact List.mem_append_right front (List.mem_append_left back among)
        exact here (Option.some.inj ((mem_iterInstrs inside).symm.trans (mem_iterInstrs home)))
      rw [Machine.runBlock, rewrites.others way.1 here]
      exact entered.runList same ran

/-- Runs through any number of blocks agree. -/
theorem Refines.runFrom {A : Type} [DecidableEq A] (refines : Refines ir next) (w : Machine A) {n : Nat} {way : Way}
    {σ τ σ' : Running A} (agrees : Agrees ir σ τ) (ran : w.runFrom ir n way σ = some σ') :
    ∃ τ', w.runFrom next n way τ = some τ' ∧ Agrees ir σ' τ' := by
  induction n generalizing way σ τ with
  | zero =>
      obtain rfl := Option.some.inj ran
      exact ⟨τ, rfl, agrees⟩
  | succ n hypothesis =>
      obtain ⟨middle, first, ran⟩ := Option.bind_eq_some_iff.mp ran
      obtain ⟨middle', first', agrees'⟩ := refines.block w way σ τ middle agrees first
      cases exit : middle.exit with
      | none =>
          rw [exit] at ran
          obtain rfl := Option.some.inj ran
          exact ⟨middle', Option.bind_eq_some_iff.mpr ⟨middle', first', by rw [agrees'.exit, exit]; rfl⟩, agrees'⟩
      | some way =>
          rw [exit] at ran
          obtain ⟨τ', later, last⟩ := hypothesis agrees' ran
          exact ⟨τ', Option.bind_eq_some_iff.mpr ⟨middle', first', by rw [agrees'.exit, exit]; exact later⟩, last⟩

end Refinement

end Dis86.Opt
