import Dis86.Lib.ValueFlow

namespace Dis86.Lib

/-- Each value has a place, and a merge has operands. -/
structure Values (Node Ref : Type) where
  home : Ref → Option Node
  operands : Ref → Option (List Ref)

namespace Values

variable {Node Ref Value : Type} [DecidableEq Node]

/-- A visit merges by the arrival edge and computes the other values of the node afresh. -/
def visit (values : Values Node Ref) (node : Node) (arrival : Option Nat)
    (fresh env : Ref → Option Value) : Ref → Option Value := fun r =>
  if values.home r = some node then
    match values.operands r with
    | some operands => (arrival.bind fun i => operands[i]?).bind env
    | none => fresh r
  else env r

/-- Only values without a place are known at the start. -/
def initial (values : Values Node Ref) (constants : Ref → Option Value) : Ref → Option Value :=
  fun r => if values.home r = none then constants r else none

@[simp] theorem visit_away {values : Values Node Ref} {node : Node} {r : Ref}
    (arrival : Option Nat) (fresh env : Ref → Option Value)
    (away : values.home r ≠ some node) : values.visit node arrival fresh env r = env r := by
  simp [visit, away]

theorem visit_merge {values : Values Node Ref} {node : Node} {r s : Ref}
    {operands : List Ref} {i : Nat} (fresh env : Ref → Option Value)
    (placed : values.home r = some node) (merge : values.operands r = some operands)
    (taken : operands[i]? = some s) : values.visit node (some i) fresh env r = env s := by
  simp [visit, placed, merge, taken]

theorem visit_fresh {values : Values Node Ref} {node : Node} {r : Ref} (arrival : Option Nat)
    (fresh env : Ref → Option Value) (placed : values.home r = some node)
    (plain : values.operands r = none) : values.visit node arrival fresh env r = fresh r := by
  simp [visit, placed, plain]

end Values

/-- A flow with the stores of its variable and with the values of its nodes. -/
structure FlowProgram (Node Ref : Type) extends VarFlow Node Ref, Values Node Ref where
  store : Node → Option Ref

namespace FlowProgram
open Values

variable {Node Ref Value : Type} [DecidableEq Node]

/-- The value of the variable after a visit is the stored one or the one that came in. -/
def outgoing (program : FlowProgram Node Ref) (node : Node) (env : Ref → Option Value)
    (incoming : Option Value) : Option Value :=
  match program.store node with
  | some r => env r
  | none => incoming

/-- A store of a value that has not been computed is no execution. -/
def Stores (program : FlowProgram Node Ref) (node : Node) (env : Ref → Option Value) : Prop :=
  ∀ r, program.store node = some r → (env r).isSome

omit [DecidableEq Node] in
theorem stores_of_some {program : FlowProgram Node Ref} {node : Node} {env : Ref → Option Value}
    {s : Ref} (stored : program.store node = some s) (known : (env s).isSome) :
    program.Stores node env := by
  intro r found
  rw [stored, Option.some.injEq] at found
  rwa [← found]

omit [DecidableEq Node] in
theorem stores_of_none {program : FlowProgram Node Ref} {node : Node} {env : Ref → Option Value}
    (free : program.store node = none) : program.Stores node env := by
  intro r found
  simp [free] at found

/-- An execution follows predecessor edges and carries the last stored value. -/
inductive Execution (program : FlowProgram Node Ref) (entry : Node)
    (constants : Ref → Option Value) : Node → (Ref → Option Value) → Option Value → Prop where
  | start (fresh : Ref → Option Value)
      (stores : program.Stores entry
        (program.visit entry none fresh (program.initial constants))) :
      Execution program entry constants entry
        (program.visit entry none fresh (program.initial constants)) none
  | step {env incoming next} (node : Node) (i : Nat) (fresh : Ref → Option Value)
      (before : Execution program entry constants node env incoming)
      (edge : (program.preds next)[i]? = some node)
      (stores : program.Stores next (program.visit next (some i) fresh env)) :
      Execution program entry constants next (program.visit next (some i) fresh env)
        (program.outgoing node env incoming)

/-- The merges of a node resolve the variable on every incoming edge. -/
structure Sound (program : FlowProgram Node Ref) (merges : Node → Ref → Prop) : Prop where
  stored : ∀ node r, program.store node = some r → program.defined node = some r
  merged : ∀ node r, program.store node = none → program.defined node = some r → merges node r
  placed : ∀ node r, merges node r → program.home r = some node
  complete : ∀ node r, merges node r → ∃ operands, program.operands r = some operands ∧
    List.Forall₂ program.Resolves (program.preds node) operands

/-- A value answers for the variable at the entry of a node. -/
inductive Enters (program : FlowProgram Node Ref) (merges : Node → Ref → Prop) :
    Node → Ref → Prop where
  | merge {node r} (owned : merges node r) : Enters program merges node r
  | pass {node parent r} (single : program.preds node = [parent])
      (above : program.Resolves parent r) : Enters program merges node r

/-- An environment holds the incoming value of the variable wherever the program reads it. -/
def Carries (incoming : Option Value) (env : Ref → Option Value) (r : Ref) : Prop :=
  ∀ v, incoming = some v → env r = some v

omit [DecidableEq Node] in
/-- The only predecessor is the one every arrival came from. -/
theorem single_arrival {preds : List Node} {parent last : Node} {i : Nat}
    (single : preds = [parent]) (edge : preds[i]? = some last) : parent = last := by
  subst single
  obtain ⟨inside, atEdge⟩ := List.getElem?_eq_some_iff.mp edge
  have first : i = 0 := by simpa using inside
  simpa [first] using atEdge

section Soundness

variable {program : FlowProgram Node Ref} {merges : Node → Ref → Prop}
  {entry : Node} {constants : Ref → Option Value}

omit [DecidableEq Node] in
/-- A merge operand resolves its predecessor. -/
theorem Sound.operand (sound : program.Sound merges) {node pred : Node} {r : Ref} {i : Nat}
    (owned : merges node r) (edge : (program.preds node)[i]? = some pred) :
    ∃ operands s, program.operands r = some operands ∧ operands[i]? = some s ∧
      program.Resolves pred s := by
  obtain ⟨operands, merge, complete⟩ := sound.complete node r owned
  obtain ⟨inside, atEdge⟩ := List.getElem?_eq_some_iff.mp edge
  have within : i < operands.length := complete.length_eq ▸ inside
  refine ⟨operands, operands[i], merge, List.getElem?_eq_getElem within, ?_⟩
  have resolved := complete.get inside within
  simpa only [List.get_eq_getElem, atEdge] using resolved

/-- A value that a node stores before its own place has been visited is never computed. -/
theorem Execution.never_visited (sound : program.Sound merges) {node parent : Node} {r : Ref}
    (single : program.preds node = [parent]) (above : program.Resolves parent r)
    (placed : program.home r = some node) (foreign : ¬ merges node r)
    (entryPreds : (program.preds entry).length ≠ 1)
    {current : Node} {env : Ref → Option Value} {incoming : Option Value}
    (execution : program.Execution entry constants current env incoming) :
    current ≠ node ∧ ¬ program.Resolves current r ∧ env r = none := by
  have storedAt : ∀ at' : Node, program.defined at' = some r → program.store at' = some r := by
    intro at' found
    cases stored : program.store at' with
    | some s =>
        have := sound.stored at' s stored
        simpa [found] using this.symm
    | none =>
        have owned := sound.merged at' r stored found
        have same := (sound.placed at' r owned).symm.trans placed
        simp only [Option.some.injEq] at same
        subst same
        exact absurd owned foreign
  induction execution with
  | start fresh stores =>
      have away : entry ≠ node := by
        rintro rfl
        simp [single] at entryPreds
      have unknown : program.visit entry none fresh (program.initial constants) r = none := by
        rw [visit_away]
        · simp [initial, placed]
        · simpa [placed] using away.symm
      refine ⟨away, ?_, unknown⟩
      intro resolved
      cases resolved with
      | here found =>
          have := stores r (storedAt entry found)
          simp [unknown] at this
      | up climb _ => simp [climb.single] at entryPreds
  | @step env incoming next last i fresh before edge stores ih =>
      obtain ⟨_, unresolved, unknownBefore⟩ := ih
      have away : next ≠ node := by
        rintro rfl
        exact unresolved (single_arrival single edge ▸ above)
      have unknown : program.visit next (some i) fresh env r = none := by
        rw [visit_away]
        · exact unknownBefore
        · simpa [placed] using away.symm
      refine ⟨away, ?_, unknown⟩
      intro resolved
      cases resolved with
      | here found =>
          have := stores r (storedAt next found)
          simp [unknown] at this
      | up climb aboveNext =>
          exact unresolved (single_arrival climb.single edge ▸ aboveNext)

omit [DecidableEq Node] in
/-- What answers at the entry of a node answers at its end. -/
theorem Sound.carries_resolved (sound : program.Sound merges) {node : Node}
    {env : Ref → Option Value} {incoming : Option Value}
    (enters : ∀ r, program.Enters merges node r → Carries incoming env r)
    {r : Ref} (resolved : program.Resolves node r) :
    Carries (program.outgoing node env incoming) env r := by
  intro v last
  cases stored : program.store node with
  | some s =>
      have same : s = r := (VarFlow.Resolves.here (sound.stored node s stored)).unique resolved
      simpa [outgoing, stored, same] using last
  | none =>
      have came : incoming = some v := by simpa [outgoing, stored] using last
      cases resolved with
      | here found => exact enters r (.merge (sound.merged node r stored found)) v came
      | up climb above => exact enters r (.pass climb.single above) v came

/-- Every value that answers for the variable carries the last store of the execution. -/
theorem Sound.carries_entering (sound : program.Sound merges)
    (entryPreds : (program.preds entry).length ≠ 1)
    {node : Node} {env : Ref → Option Value} {incoming : Option Value}
    (execution : program.Execution entry constants node env incoming)
    (r : Ref) (enters : program.Enters merges node r) : Carries incoming env r := by
  induction execution generalizing r with
  | start fresh stores =>
      intro v came
      simp at came
  | @step env incoming next last i fresh before edge stores ih =>
      have ofMerge : ∀ r, merges next r → Carries (program.outgoing last env incoming)
          (program.visit next (some i) fresh env) r := by
        intro r owned v came
        obtain ⟨operands, s, merge, taken, resolved⟩ := sound.operand owned edge
        rw [visit_merge fresh env (sound.placed next r owned) merge taken]
        exact sound.carries_resolved ih resolved v came
      cases enters with
      | merge owned => exact ofMerge r owned
      | pass single above =>
          by_cases owned : merges next r
          · exact ofMerge r owned
          -- A value of this very node would have been read before it was ever computed.
          have away : program.home r ≠ some next := by
            intro placed
            exact (Execution.never_visited sound single above placed owned entryPreds
              (.step last i fresh before edge stores)).1 rfl
          intro v came
          rw [visit_away (some i) fresh env away]
          have same := single_arrival single edge
          exact sound.carries_resolved ih (same ▸ above) v came

omit [DecidableEq Node] in
/-- What resolves a node is stored or merged somewhere. -/
theorem Sound.resolved_source (sound : program.Sound merges) {node : Node} {r : Ref}
    (resolved : program.Resolves node r) :
    ∃ source, program.defined source = some r ∧
      (program.store source = some r ∨ program.store source = none ∧ merges source r) := by
  induction resolved with
  | @here node r found =>
      refine ⟨node, found, ?_⟩
      cases stored : program.store node with
      | some s =>
          have same := sound.stored node s stored
          rw [found] at same
          exact .inl same.symm
      | none => exact .inr ⟨rfl, sound.merged node r stored found⟩
  | up _ _ ih => exact ih

/-- When each node stores only its own values, every merge carries the last store, whatever the
entry's predecessors are. -/
theorem Sound.carries_own (sound : program.Sound merges)
    (own : ∀ node r, program.store node = some r → program.home r = some node)
    {node : Node} {env : Ref → Option Value} {incoming : Option Value}
    (execution : program.Execution entry constants node env incoming) :
    (∀ r, merges node r → Carries incoming env r) ∧
      ∀ r, program.Resolves node r → Carries (program.outgoing node env incoming) env r := by
  have ofMerges : ∀ {node env incoming}, (∀ r, merges node r → Carries incoming env r) →
      (∀ parent r, program.Climb node parent → program.Resolves parent r →
        Carries incoming env r) →
      ∀ r, program.Resolves node r →
        Carries (program.outgoing node env incoming) (env : Ref → Option Value) r := by
    intro node env incoming merge pass r resolved v last
    cases stored : program.store node with
    | some s =>
        have same : s = r := (VarFlow.Resolves.here (sound.stored node s stored)).unique resolved
        simpa [outgoing, stored, same] using last
    | none =>
        have came : incoming = some v := by simpa [outgoing, stored] using last
        cases resolved with
        | here found => exact merge r (sound.merged node r stored found) v came
        | up climb above => exact pass _ r climb above v came
  induction execution with
  | start fresh stores =>
      have nothing : ∀ r, Carries none (program.visit entry none fresh (program.initial constants)) r := by
        intro r v came
        simp at came
      exact ⟨fun r _ => nothing r, ofMerges (fun r _ => nothing r) fun _ r _ _ => nothing r⟩
  | @step env incoming next last i fresh before edge stores ih =>
      have merge : ∀ r, merges next r → Carries (program.outgoing last env incoming)
          (program.visit next (some i) fresh env) r := by
        intro r owned v came
        obtain ⟨operands, s, merge, taken, resolved⟩ := sound.operand owned edge
        rw [visit_merge fresh env (sound.placed next r owned) merge taken]
        exact ih.2 s resolved v came
      refine ⟨merge, ofMerges merge fun parent r climb above v came => ?_⟩
      -- The resolved value lives where the variable is defined, and that is not here.
      have away : program.home r ≠ some next := by
        obtain ⟨source, found, kind⟩ := sound.resolved_source above
        have placed : program.home r = some source := by
          rcases kind with stored | ⟨_, owned⟩
          · exact own source r stored
          · exact sound.placed source r owned
        rw [placed]
        intro same
        rw [Option.some.injEq] at same
        subst same
        simp [climb.undefined] at found
      rw [visit_away (some i) fresh env away]
      have same := single_arrival climb.single edge
      exact ih.2 r (same ▸ above) v came

end Soundness

end FlowProgram

end Dis86.Lib
