import Mathlib.Data.List.Nodup
import Mathlib.Tactic.Common

namespace Dis86.Lib

variable {A : Type} {next prev next' prev' : A → Option A} {before after : Option A}

/-- Between two ends, each node of a doubly linked list points to its neighbours. -/
def Threads (next prev : A → Option A) : Option A → List A → Option A → Prop
  | _, [], _ => True
  | before, node :: rest, after =>
      prev node = before ∧ next node = rest.head?.or after ∧ Threads next prev (some node) rest after

theorem threads_append {front back : List A} : Threads next prev before (front ++ back) after ↔
    Threads next prev before front (back.head?.or after) ∧
      Threads next prev (front.getLast?.or before) back after := by
  induction front generalizing before with
  | nil => simp [Threads]
  | cons node rest ih =>
      have last : ((node :: rest).getLast?).or before = rest.getLast?.or (some node) := by
        cases rest <;> simp [List.getLast?_cons]
      have head : (rest ++ back).head?.or after = rest.head?.or (back.head?.or after) := by
        rw [List.head?_append, Option.or_assoc]
      simp only [List.cons_append, Threads, ih, last, head, and_assoc]

theorem Threads.congr {nodes : List A} (threads : Threads next prev before nodes after)
    (forth : ∀ node ∈ nodes, next' node = next node) (back : ∀ node ∈ nodes, prev' node = prev node) :
    Threads next' prev' before nodes after := by
  induction nodes generalizing before with
  | nil => trivial
  | cons node rest ih =>
      obtain ⟨first, second, others⟩ := threads
      refine ⟨by rw [back node List.mem_cons_self, first], by rw [forth node List.mem_cons_self, second], ?_⟩
      exact ih others (fun other inside => forth other (List.mem_cons_of_mem _ inside))
        fun other inside => back other (List.mem_cons_of_mem _ inside)

/-- The backward links read the list in the opposite order. -/
theorem Threads.reverse {nodes : List A} (threads : Threads next prev before nodes after) :
    Threads prev next after nodes.reverse before := by
  induction nodes generalizing before with
  | nil => trivial
  | cons node rest ih =>
      obtain ⟨back, forth, others⟩ := threads
      rw [List.reverse_cons, threads_append]
      refine ⟨ih others, ?_, by simpa using back, trivial⟩
      rw [forth, List.getLast?_reverse]

section Relinking

variable [DecidableEq A]

/-- The last node of a part gets a new successor. -/
theorem Threads.close {nodes : List A} {after' : Option A}
    (threads : Threads next prev before nodes after) (distinct : nodes.Nodup)
    (forth : ∀ node ∈ nodes, next' node = if nodes.getLast? = some node then after' else next node)
    (back : ∀ node ∈ nodes, prev' node = prev node) :
    Threads next' prev' before nodes after' := by
  induction nodes generalizing before with
  | nil => trivial
  | cons node rest ih =>
      obtain ⟨first, second, others⟩ := threads
      obtain ⟨fresh, distinct⟩ := List.nodup_cons.mp distinct
      refine ⟨by rw [back node List.mem_cons_self, first], ?_, ?_⟩
      · rw [forth node List.mem_cons_self]
        cases rest with
        | nil => simp
        | cons other rest =>
            have later : (node :: other :: rest).getLast? ≠ some node := by
              rw [List.getLast?_cons_cons]
              exact fun same => fresh (List.mem_of_getLast? same)
            rw [if_neg later, second]
            rfl
      · refine ih others distinct (fun other inside => ?_) fun other inside =>
          back other (List.mem_cons_of_mem _ inside)
        rw [forth other (List.mem_cons_of_mem _ inside)]
        cases rest with
        | nil => exact absurd inside List.not_mem_nil
        | cons third rest => rw [List.getLast?_cons_cons]

/-- The first node of a part gets a new predecessor. -/
theorem Threads.rebase {nodes : List A} {before' : Option A}
    (threads : Threads next prev before nodes after) (distinct : nodes.Nodup)
    (forth : ∀ node ∈ nodes, next' node = next node)
    (back : ∀ node ∈ nodes, prev' node = if nodes.head? = some node then before' else prev node) :
    Threads next' prev' before' nodes after := by
  have turned : Threads prev' next' after nodes.reverse before' :=
    threads.reverse.close (List.nodup_reverse.mpr distinct)
    (fun node inside => by rw [back node (List.mem_reverse.mp inside), List.getLast?_reverse])
    fun node inside => forth node (List.mem_reverse.mp inside)
  simpa using turned.reverse

/-- A fresh node can be linked between any two parts. -/
theorem Threads.insert {front back : List A} {node : A}
    (threads : Threads next prev before (front ++ back) after) (distinct : (front ++ back).Nodup)
    (forth : ∀ other ∈ front ++ back,
      next' other = if front.getLast? = some other then some node else next other)
    (behind : ∀ other ∈ front ++ back,
      prev' other = if back.head? = some other then some node else prev other)
    (nextNode : next' node = back.head?.or after) (prevNode : prev' node = front.getLast?.or before) :
    Threads next' prev' before (front ++ node :: back) after := by
  obtain ⟨first, second⟩ := threads_append.mp threads
  obtain ⟨left, right, apart⟩ := List.nodup_append.mp distinct
  refine threads_append.mpr ⟨first.close left (fun other inside => ?_) fun other inside => ?_,
    prevNode, nextNode, second.rebase right (fun other inside => ?_) fun other inside => ?_⟩
  · exact forth other (List.mem_append_left back inside)
  · rw [behind other (List.mem_append_left back inside), if_neg]
    exact fun same => apart other inside other (List.mem_of_head? same) rfl
  · rw [forth other (List.mem_append_right front inside), if_neg]
    exact fun same => apart other (List.mem_of_getLast? same) other inside rfl
  · exact behind other (List.mem_append_right front inside)

end Relinking

/-- The walk along partial links stops at an end of the list. -/
def follow (step : A → Option (Option A)) : Nat → Option A → Option (List A)
  | _, none => some []
  | 0, some _ => none
  | fuel + 1, some node => do return node :: (← follow step fuel (← step node))

/-- The walk visits the nodes of the list in order. -/
theorem Threads.follow_eq {nodes : List A} {step : A → Option (Option A)} {fuel : Nat}
    (threads : Threads next prev before nodes none)
    (steps : ∀ node ∈ nodes, step node = some (next node)) (enough : nodes.length ≤ fuel) :
    follow step fuel nodes.head? = some nodes := by
  induction nodes generalizing before fuel with
  | nil => cases fuel <;> rfl
  | cons node rest ih =>
      obtain ⟨-, forth, others⟩ := threads
      cases fuel with
      | zero => simp at enough
      | succ fuel =>
          have walked := ih others (fun other inside => steps other (List.mem_cons_of_mem _ inside))
            (Nat.le_of_succ_le_succ enough)
          simp [follow, steps node List.mem_cons_self, forth, walked]

end Dis86.Lib
