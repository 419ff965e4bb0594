import Mathlib.Logic.Relation
import Mathlib.Logic.Function.Basic
import Mathlib.Data.List.Forall2
import Mathlib.Tactic.Common

namespace Dis86.Lib

/-- One variable over a control-flow graph: its definitions and the known predecessors. -/
structure VarFlow (Node Ref : Type) where
  defined : Node → Option Ref
  closed : Node → Bool
  preds : Node → List Node

namespace VarFlow

variable {Node Ref : Type}

/-- A node without a definition passes its only predecessor's value through. -/
structure Climb (flow : VarFlow Node Ref) (node parent : Node) : Prop where
  undefined : flow.defined node = none
  isClosed : flow.closed node = true
  single : flow.preds node = [parent]

/-- The value at the end of a node is its own definition or the one it passes through. -/
inductive Resolves (flow : VarFlow Node Ref) : Node → Ref → Prop where
  | here {node r} (found : flow.defined node = some r) : Resolves flow node r
  | up {node parent r} (climb : flow.Climb node parent) (above : Resolves flow parent r) :
      Resolves flow node r

/-- A definition is added at one node. -/
def define [DecidableEq Node] (flow : VarFlow Node Ref) (node : Node) (r : Ref) : VarFlow Node Ref :=
  { flow with defined := Function.update flow.defined node (some r) }

/-- Every value that was resolved stays resolved. -/
def Extends (flow next : VarFlow Node Ref) : Prop :=
  ∀ node r, flow.Resolves node r → next.Resolves node r

theorem Extends.refl (flow : VarFlow Node Ref) : flow.Extends flow := fun _ _ resolved => resolved

theorem Extends.trans {first second third : VarFlow Node Ref}
    (before : first.Extends second) (after : second.Extends third) : first.Extends third :=
  fun node r resolved => after node r (before node r resolved)

theorem Climb.parent_unique {flow : VarFlow Node Ref} {node parent other : Node}
    (climb : flow.Climb node parent) (again : flow.Climb node other) : parent = other := by
  have same := climb.single.symm.trans again.single
  simpa using same

/-- A node resolves to one value only. -/
theorem Resolves.unique {flow : VarFlow Node Ref} {node : Node} {r s : Ref}
    (first : flow.Resolves node r) (second : flow.Resolves node s) : r = s := by
  induction first with
  | here found =>
      cases second with
      | here again => simpa [found] using again
      | up climb _ => exact absurd climb.undefined (by simp [found])
  | up climb _ ih =>
      cases second with
      | here found => exact absurd climb.undefined (by simp [found])
      | up again above =>
          have same := climb.parent_unique again
          subst same
          exact ih above

/-- A walk that ends at a resolved node starts at a resolved node. -/
theorem Resolves.of_climbs {flow : VarFlow Node Ref} {start node : Node} {r : Ref}
    (walk : Relation.ReflTransGen flow.Climb start node) (resolved : flow.Resolves node r) :
    flow.Resolves start r := by
  induction walk using Relation.ReflTransGen.head_induction_on with
  | refl => exact resolved
  | head climb _ ih => exact .up climb ih

/-- A node on a cycle of single predecessors resolves to nothing. -/
theorem Resolves.acyclic {flow : VarFlow Node Ref} {node : Node} {r : Ref}
    (resolved : flow.Resolves node r) : ¬ Relation.TransGen flow.Climb node node := by
  induction resolved with
  | here found =>
      intro cycle
      obtain ⟨parent, climb, _⟩ := Relation.TransGen.head'_iff.mp cycle
      exact absurd climb.undefined (by simp [found])
  | up climb _ ih =>
      intro cycle
      obtain ⟨parent, first, rest⟩ := Relation.TransGen.head'_iff.mp cycle
      have same := climb.parent_unique first
      subst same
      exact ih (Relation.TransGen.tail' rest climb)

/-- An open node without a definition resolves to nothing. -/
theorem Resolves.not_open {flow : VarFlow Node Ref} {node : Node} {r : Ref}
    (undefined : flow.defined node = none) (isOpen : flow.closed node = false) :
    ¬ flow.Resolves node r := by
  intro resolved
  cases resolved with
  | here found => simp [undefined] at found
  | up climb _ => exact absurd climb.isClosed (by simp [isOpen])

/-- A merge without a definition resolves to nothing. -/
theorem Resolves.not_merge {flow : VarFlow Node Ref} {node : Node} {r : Ref}
    (undefined : flow.defined node = none) (merge : ∀ parent, flow.preds node ≠ [parent]) :
    ¬ flow.Resolves node r := by
  intro resolved
  cases resolved with
  | here found => simp [undefined] at found
  | up climb _ => exact merge _ climb.single

section Define

variable [DecidableEq Node]

theorem define_resolves_self (flow : VarFlow Node Ref) (node : Node) (r : Ref) :
    (flow.define node r).Resolves node r :=
  .here (by simp [define])

theorem Climb.define {flow : VarFlow Node Ref} {node parent target : Node}
    (climb : flow.Climb node parent) (different : node ≠ target) (r : Ref) :
    (flow.define target r).Climb node parent where
  undefined := by simpa [VarFlow.define, Function.update_of_ne different] using climb.undefined
  isClosed := climb.isClosed
  single := climb.single

/-- A new definition answers every walk that reached it. -/
theorem define_resolves {flow : VarFlow Node Ref} {start node : Node} (r : Ref)
    (walk : Relation.ReflTransGen flow.Climb start node) :
    (flow.define node r).Resolves start r := by
  induction walk using Relation.ReflTransGen.head_induction_on with
  | refl => exact flow.define_resolves_self node r
  | @head start _ climb _ ih =>
      by_cases same : start = node
      · subst same
        exact flow.define_resolves_self start r
      · exact .up (climb.define same r) ih

/-- A definition at a node that resolved to nothing keeps every other value. -/
theorem extends_define {flow : VarFlow Node Ref} {node : Node} (r : Ref)
    (unresolved : ∀ s, ¬ flow.Resolves node s) : flow.Extends (flow.define node r) := by
  intro start s resolved
  induction resolved with
  | @here start s found =>
      have different : start ≠ node := by
        rintro rfl
        exact unresolved s (.here found)
      exact .here (by simpa [define, Function.update_of_ne different] using found)
  | @up start parent s climb above ih =>
      have different : start ≠ node := by
        rintro rfl
        exact unresolved s (.up climb above)
      exact .up (climb.define different r) ih

/-- A node that is closed accepts no further predecessors. -/
def close (flow : VarFlow Node Ref) (node : Node) : VarFlow Node Ref :=
  { flow with closed := Function.update flow.closed node true }

/-- Closing a node keeps every value. -/
theorem extends_close (flow : VarFlow Node Ref) (node : Node) : flow.Extends (flow.close node) := by
  intro start r resolved
  induction resolved with
  | here found => exact .here found
  | @up start parent r climb _ ih =>
      refine .up ⟨climb.undefined, ?_, climb.single⟩ ih
      by_cases same : start = node
      · simp [close, same]
      · simpa [close, Function.update_of_ne same] using climb.isClosed

/-- A definition at a node that no closed node names keeps the values of all other nodes. -/
theorem Resolves.define_apart {flow : VarFlow Node Ref} {target start : Node} {r : Ref} (s : Ref)
    (apart : ∀ node, flow.closed node = true → target ∉ flow.preds node) (different : start ≠ target)
    (resolved : flow.Resolves start r) : (flow.define target s).Resolves start r := by
  induction resolved with
  | here found => exact .here (by simpa [define, Function.update_of_ne different] using found)
  | @up start parent r climb _ ih =>
      have parentDifferent : parent ≠ target := by
        have named := apart start climb.isClosed
        rw [climb.single] at named
        intro same
        simp [same] at named
      exact .up (climb.define different s) (ih parentDifferent)

/-- New predecessors of an open node. -/
def reconnect (flow : VarFlow Node Ref) (node : Node) (preds : List Node) : VarFlow Node Ref :=
  { flow with preds := Function.update flow.preds node preds }

/-- New predecessors of an open node keep every value. -/
theorem extends_reconnect (flow : VarFlow Node Ref) {node : Node} (preds : List Node)
    (isOpen : flow.closed node = false) : flow.Extends (flow.reconnect node preds) := by
  intro start r resolved
  induction resolved with
  | here found => exact .here found
  | @up start parent r climb _ ih =>
      have different : start ≠ node := by
        intro same
        have closed := climb.isClosed
        simp [same, isOpen] at closed
      refine .up ⟨climb.undefined, climb.isClosed, ?_⟩ ih
      simpa [reconnect, Function.update_of_ne different] using climb.single

end Define

end VarFlow

end Dis86.Lib
