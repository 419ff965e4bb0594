import Dis86.Analyze.Trace
import Mathlib.Algebra.BigOperators.Group.List.Basic
import Mathlib.Algebra.Group.Prod
import Mathlib.Data.List.Perm.Basic

namespace Dis86.Trace
open Asm (SegOff)

/-- The argument counts of the native calls to an address, in their order. -/
def argCounts (addr : SegOff) (events : List TraceEvent) : List Nat := events.filterMap (TraceEvent.argsTo addr)

/-- What the events of a run say about an address. -/
structure Described (addr : SegOff) (events : List TraceEvent) (known : Bool) (f : FunctionInfo) : Prop where
  known : known = true ↔ ∃ event ∈ events, event.Creates addr
  name : f.name = events.findSome? (TraceEvent.nameOf addr)
  callees : ∀ callee, callee ∈ f.callees ↔ ∃ event ∈ events, event.Calls addr callee
  callers : ∀ caller, caller ∈ f.callers ↔ ∃ event ∈ events, event.Calls caller addr
  shows : ∀ site, (∃ event ∈ events, event.SiteOf addr site) → site ∈ f.callSites
  shown : ∀ site ∈ f.callSites, ∃ event ∈ events, event.SiteOf addr site ∨ event.UnnamedSiteOf addr site
  uncounted : f.observedArgs = none ↔ argCounts addr events = []
  observedArgs : ∀ nargs, f.observedArgs = some nargs ↔
    nargs ∈ argCounts addr events ∧ ∀ other ∈ argCounts addr events, other ≤ nargs
  argsConflict : f.argsConflict = true ↔ ∃ one ∈ argCounts addr events, ∃ other ∈ argCounts addr events, one ≠ other
  dispatches : f.dispatches = events.countP (TraceEvent.enters addr)
  returns : f.returns = events.countP (TraceEvent.leaves addr)
  results : f.results = events.filterMap (TraceEvent.resultOf addr)

variable {addr : SegOff} {events : List TraceEvent}

theorem described_nil (addr : SegOff) : Described addr [] false .empty := by
  constructor <;> simp [FunctionInfo.empty, argCounts]

theorem argCounts_snoc (event : TraceEvent) :
    argCounts addr (events ++ [event]) = argCounts addr events ++ (event.argsTo addr).toList := by
  rw [argCounts, argCounts, List.filterMap_append]
  cases counted : event.argsTo addr <;> simp [counted]

/-- One more count leaves the highest one. -/
theorem highest_snoc {counts : List Nat} {seen : Option Nat}
    (uncounted : seen = none ↔ counts = [])
    (highest : ∀ nargs, seen = some nargs ↔ nargs ∈ counts ∧ ∀ other ∈ counts, other ≤ nargs)
    (count : Option Nat) (nargs : Nat) :
    count.elim seen (fun count => some (max (seen.getD count) count)) = some nargs ↔
      nargs ∈ counts ++ count.toList ∧ ∀ other ∈ counts ++ count.toList, other ≤ nargs := by
  cases count with
  | none => simpa using highest nargs
  | some count =>
      cases seen with
      | none =>
          rw [uncounted.mp rfl]
          simp only [Option.elim_some, Option.getD_none, max_self, Option.some.injEq, Option.toList_some,
            List.nil_append, List.mem_singleton, forall_eq]
          omega
      | some seen =>
          obtain ⟨inside, bound⟩ := (highest seen).mp rfl
          simp only [Option.elim_some, Option.getD_some, Option.some.injEq, Option.toList_some, List.mem_append,
            List.mem_singleton]
          constructor
          · rintro rfl
            constructor
            · rcases max_choice seen count with left | right
              · rw [left]
                exact .inl inside
              · exact .inr right
            · intro other counted
              rcases counted with before | rfl
              · exact le_max_of_le_left (bound other before)
              · exact le_max_right _ _
          · intro ⟨one, all⟩
            apply le_antisymm
            · exact max_le (all seen (.inl inside)) (all count (.inr rfl))
            · rcases one with before | rfl
              · exact le_max_of_le_left (bound nargs before)
              · exact le_max_right _ _

/-- One more count differs from an earlier one when it differs from the highest or the earlier ones differ. -/
theorem conflict_snoc {counts : List Nat} {seen : Option Nat} {conflict : Bool}
    (uncounted : seen = none ↔ counts = [])
    (highest : ∀ nargs, seen = some nargs ↔ nargs ∈ counts ∧ ∀ other ∈ counts, other ≤ nargs)
    (conflicts : conflict = true ↔ ∃ one ∈ counts, ∃ other ∈ counts, one ≠ other) (count : Option Nat) :
    (conflict || count.any fun count => seen.any (· ≠ count)) = true ↔
      ∃ one ∈ counts ++ count.toList, ∃ other ∈ counts ++ count.toList, one ≠ other := by
  cases count with
  | none => simpa using conflicts
  | some count =>
      rw [Bool.or_eq_true, conflicts]
      constructor
      · rintro (⟨one, inside, other, too, differ⟩ | differs)
        · exact ⟨one, List.mem_append_left _ inside, other, List.mem_append_left _ too, differ⟩
        · rw [Option.any_some] at differs
          obtain ⟨seen, rfl, differ⟩ := (Option.any_eq_true _ _).mp differs
          exact ⟨seen, List.mem_append_left _ ((highest seen).mp rfl).1, count, by simp, of_decide_eq_true differ⟩
      · rintro ⟨one, inside, other, too, differ⟩
        cases seen with
        | none =>
            rw [uncounted.mp rfl] at inside too
            simp_all
        | some seen =>
            by_cases same : seen = count
            · subst same
              have before : ∀ one ∈ counts ++ [seen], one ∈ counts := by
                intro one inside
                rcases List.mem_append.mp inside with before | now
                · exact before
                · exact List.mem_singleton.mp now ▸ ((highest seen).mp rfl).1
              exact .inl ⟨one, before one inside, other, before other too, differ⟩
            · exact .inr (by simpa using same)

/-- One more event adds its part to the description. -/
theorem Described.snoc {known known' : Bool} {f g : FunctionInfo} (described : Described addr events known f)
    {event : TraceEvent} (created : known' = true ↔ known = true ∨ event.Creates addr)
    (adds : event.Adds addr known f g) : Described addr (events ++ [event]) known' g := by
  have either : ∀ P : TraceEvent → Prop, (∃ e ∈ events ++ [event], P e) ↔ (∃ e ∈ events, P e) ∨ P event := by
    intro P
    simp only [List.mem_append, List.mem_singleton, or_and_right, exists_or, exists_eq_left]
  constructor
  · rw [created, described.known, either]
  · rw [adds.name, described.name, List.findSome?_append]
    cases given : event.nameOf addr <;> simp [given]
  · intro callee
    rw [adds.callees, described.callees, either]
  · intro caller
    rw [adds.callers, described.callers, either]
  · intro site shows
    rw [adds.callSites]
    rcases (either _).mp shows with before | now
    · exact .inl (described.shows site before)
    · exact .inr (.inl now)
  · intro site inside
    rw [either]
    rcases (adds.callSites site).mp inside with before | named | ⟨-, unnamed⟩
    · exact .inl (described.shown site before)
    · exact .inr (.inl named)
    · exact .inr (.inr unnamed)
  · rw [adds.observedArgs, argCounts_snoc]
    cases event.argsTo addr <;> simp [described.uncounted]
  · rw [adds.observedArgs, argCounts_snoc]
    exact highest_snoc described.uncounted described.observedArgs (event.argsTo addr)
  · rw [adds.argsConflict, argCounts_snoc]
    exact conflict_snoc described.uncounted described.observedArgs described.argsConflict (event.argsTo addr)
  · rw [adds.dispatches, described.dispatches, List.countP_append, List.countP_singleton]
  · rw [adds.returns, described.returns, List.countP_append, List.countP_singleton]
  · rw [adds.results, described.results, List.filterMap_append]
    cases result : event.resultOf addr <;> simp [result]

theorem analyze_described (events : List TraceEvent) (addr : SegOff) :
    Described addr events ((analyze events).functions addr).isSome ((analyze events).info addr) := by
  rw [TraceAnalysis.info, analyze_functions]
  induction events using List.reverseRecOn with
  | nil => exact described_nil addr
  | append_singleton events event ih =>
      rw [List.foldl_append, List.foldl_cons, List.foldl_nil]
      exact ih.snoc (TraceEvent.effect_isSome addr event _) (TraceEvent.effect_adds addr event _)

namespace TraceEvent

/-- The event is recorded. A native call is recorded with the words that are on the stack. -/
def written : TraceEvent → TraceEvent
  | .nativeCall source target name _ pushed => traceNativeCall source target name pushed
  | event => event

def pushed : TraceEvent → List (BitVec 16)
  | .nativeCall _ _ _ _ pushed => pushed
  | _ => []

/-- The number of words that a native call to the address has pushed. -/
def pushedTo (addr : SegOff) : TraceEvent → Option Nat
  | .nativeCall _ target _ _ pushed => if target = some addr then some pushed.length else none
  | _ => none

/-- The event says that the address is a function: a hook of it was dispatched, a call boundary arrived at it, a
native call names it, or a return does. -/
def Arrives (addr : SegOff) : TraceEvent → Prop
  | .dispatch enter place _ _ => enter ∧ place = some addr
  | .call _ target _ => target = some addr
  | .ret source _ name => source = some addr ∧ name.isSome
  | .nativeCall source target _ _ _ => target = some addr ∨ target.isSome ∧ source = some addr
  | .nativeRet _ target _ _ => target = some addr
  | _ => False

theorem creates_iff (addr : SegOff) (event : TraceEvent) :
    event.Creates addr ↔ event.Arrives addr ∨ event.leaves addr = true := by
  cases event with
  | dispatch enter place name result => cases enter <;> simp [Creates, Arrives, leaves]
  | call source target name => simp [Creates, Arrives, leaves]
  | ret source target name => simp [Creates, Arrives, leaves]
  | nativeCall source target name nargs args => simp [Creates, Arrives, leaves]
  | nativeRet source target dx ax => simp [Creates, Arrives, leaves]
  | step place => simp [Creates, Arrives, leaves]
  | int num ah => simp [Creates, Arrives, leaves]

/-- The counters of the whole run that an event increments. -/
def increments : TraceEvent → Nat × Nat × Nat × Nat × Nat × Nat × Nat
  | .dispatch enter _ _ _ => (if enter then 1 else 0, 0, 0, 0, 0, 0, 0)
  | .call _ _ _ => (0, 1, 0, 0, 0, 0, 0)
  | .ret _ _ _ => (0, 0, 1, 0, 0, 0, 0)
  | .nativeCall _ _ _ _ _ => (0, 0, 0, 1, 0, 0, 0)
  | .nativeRet _ _ _ _ => (0, 0, 0, 0, 1, 0, 0)
  | .step _ => (0, 0, 0, 0, 0, 1, 0)
  | .int _ _ => (0, 0, 0, 0, 0, 0, 1)

theorem argsTo_written (addr : SegOff) (event : TraceEvent) (fits : event.pushed.length ≤ traceMaxArgs) :
    event.written.argsTo addr = event.pushedTo addr := by
  cases event with
  | nativeCall source target name nargs pushed =>
      have all : min pushed.length traceMaxArgs = pushed.length := Nat.min_eq_left fits
      simp [written, traceNativeCall, argsTo, pushedTo, all]
  | dispatch enter place name result => rfl
  | call source target name => rfl
  | ret source target name => rfl
  | nativeRet source target dx ax => rfl
  | step place => rfl
  | int num ah => rfl

end TraceEvent

def TraceAnalysis.counters (a : TraceAnalysis) : Nat × Nat × Nat × Nat × Nat × Nat × Nat :=
  (a.dispatches, a.calls, a.returns, a.nativeCalls, a.nativeReturns, a.steps, a.interrupts)

theorem step_counters (a : TraceAnalysis) (event : TraceEvent) :
    (a.step event).counters = a.counters + event.increments := by
  cases event with
  | dispatch enter place name result => cases enter <;> cases place <;> rfl
  | call source target name => cases target <;> cases source <;> rfl
  | ret source target name =>
      cases source with
      | none => rfl
      | some source =>
          simp only [TraceAnalysis.step]
          split <;> rfl
  | nativeCall source target name nargs args => cases target <;> cases source <;> rfl
  | nativeRet source target dx ax => cases target <;> rfl
  | step place => rfl
  | int num ah => rfl

theorem step_events (a : TraceAnalysis) (event : TraceEvent) : (a.step event).events = a.events := by
  cases event with
  | dispatch enter place name result => cases enter <;> cases place <;> rfl
  | call source target name => cases target <;> cases source <;> rfl
  | ret source target name =>
      cases source with
      | none => rfl
      | some source =>
          simp only [TraceAnalysis.step]
          split <;> rfl
  | nativeCall source target name nargs args => cases target <;> cases source <;> rfl
  | nativeRet source target dx ax => cases target <;> rfl
  | step place => rfl
  | int num ah => rfl

/-- The counters are the sums over the events. -/
theorem analyze_counters (events : List TraceEvent) :
    (analyze events).counters = (events.map TraceEvent.increments).sum := by
  have general : ∀ a : TraceAnalysis,
      (events.foldl .step a).counters = a.counters + (events.map TraceEvent.increments).sum := by
    induction events with
    | nil => exact fun a => (add_zero _).symm
    | cons event rest ih =>
        intro a
        rw [List.foldl_cons, ih, step_counters, List.map_cons, List.sum_cons, add_assoc]
  rw [analyze, general]
  exact zero_add _

theorem analyze_events (events : List TraceEvent) : (analyze events).events = events.length := by
  have general : ∀ a : TraceAnalysis, (events.foldl .step a).events = a.events := by
    induction events with
    | nil => exact fun _ => rfl
    | cons event rest ih =>
        intro a
        rw [List.foldl_cons, ih, step_events]
  exact general _

/-- Two descriptions agree but for the order of the results, the first name and the places of unnamed returns. -/
structure SameInfo (f g : FunctionInfo) : Prop where
  named : f.name.isSome = g.name.isSome
  callees : f.callees = g.callees
  callers : f.callers = g.callers
  observedArgs : f.observedArgs = g.observedArgs
  argsConflict : f.argsConflict = g.argsConflict
  dispatches : f.dispatches = g.dispatches
  returns : f.returns = g.returns
  results : f.results.Perm g.results

/-- The descriptions of two orders of the same events agree. -/
theorem Described.same {known known' : Bool} {f g : FunctionInfo} {events' : List TraceEvent}
    (one : Described addr events known f) (other : Described addr events' known' g) (perm : events.Perm events') :
    known = known' ∧ SameInfo f g ∧
      ((∀ event ∈ events, ∀ site, ¬event.UnnamedSiteOf addr site) → f.callSites = g.callSites) := by
  have moved : ∀ P : TraceEvent → Prop, (∃ event ∈ events, P event) ↔ ∃ event ∈ events', P event := by
    intro P
    simp only [perm.mem_iff]
  have counts : (argCounts addr events).Perm (argCounts addr events') := perm.filterMap _
  refine ⟨?_, ?_, ?_⟩
  · rw [Bool.eq_iff_iff, one.known, other.known, moved]
  · constructor
    · rw [one.name, other.name, Bool.eq_iff_iff, List.findSome?_isSome_iff, List.findSome?_isSome_iff]
      exact moved _
    · ext callee
      rw [one.callees, other.callees, moved]
    · ext caller
      rw [one.callers, other.callers, moved]
    · ext nargs
      rw [one.observedArgs, other.observedArgs]
      simp only [counts.mem_iff]
    · rw [Bool.eq_iff_iff, one.argsConflict, other.argsConflict]
      simp only [counts.mem_iff]
    · rw [one.dispatches, other.dispatches, perm.countP_eq]
    · rw [one.returns, other.returns, perm.countP_eq]
    · rw [one.results, other.results]
      exact perm.filterMap _
  · intro named
    ext site
    constructor
    · intro inside
      obtain ⟨event, happened, site | unnamed⟩ := one.shown site inside
      · exact other.shows _ ⟨event, perm.mem_iff.mp happened, site⟩
      · exact absurd unnamed (named event happened site)
    · intro inside
      obtain ⟨event, happened, site | unnamed⟩ := other.shown site inside
      · exact one.shows _ ⟨event, perm.mem_iff.mpr happened, site⟩
      · exact absurd unnamed (named event (perm.mem_iff.mpr happened) site)

/-- The analyses of two orders of the same events agree. -/
structure SameAnalysis (events : List TraceEvent) (a b : TraceAnalysis) : Prop where
  total : a.events = b.events
  counters : a.counters = b.counters
  functions : ∀ addr, (a.functions addr).isSome = (b.functions addr).isSome
  infos : ∀ addr, SameInfo (a.info addr) (b.info addr)
  callSites : ∀ addr, (∀ event ∈ events, ∀ site, ¬event.UnnamedSiteOf addr site) →
    (a.info addr).callSites = (b.info addr).callSites
  names : ∀ addr name, (a.info addr).name = some name ∨ (b.info addr).name = some name →
    ∃ event ∈ events, event.nameOf addr = some name

theorem sameAnalysis_of_perm {events' : List TraceEvent} (perm : events.Perm events') :
    SameAnalysis events (analyze events) (analyze events') := by
  have same : ∀ addr, _ := fun addr => (analyze_described events addr).same (analyze_described events' addr) perm
  constructor
  · rw [analyze_events, analyze_events, perm.length_eq]
  · rw [analyze_counters, analyze_counters]
    exact (perm.map _).sum_eq
  · exact fun addr => (same addr).1
  · exact fun addr => (same addr).2.1
  · exact fun addr => (same addr).2.2
  · intro addr name given
    rw [(analyze_described events addr).name, (analyze_described events' addr).name] at given
    rcases given with first | first
    · exact List.exists_of_findSome?_eq_some first
    · obtain ⟨event, happened, named⟩ := List.exists_of_findSome?_eq_some first
      exact ⟨event, perm.mem_iff.mpr happened, named⟩

/-- The analysis of a run reports the functions that its events name, with the highest argument count that a native
call pushed, and does not depend on the order of the events but for the first name, the order of the results and the
places that unnamed returns show. -/
theorem analysis_of_run (run : List TraceEvent) (fits : ∀ event ∈ run, event.pushed.length ≤ traceMaxArgs) :
    let a := analyze (run.map TraceEvent.written)
    (∀ addr, (∃ event ∈ run.map TraceEvent.written, event.Arrives addr) → (a.functions addr).isSome) ∧
    (∀ addr, (∀ event ∈ run.map TraceEvent.written, event.leaves addr = false) → (a.functions addr).isSome →
      ∃ event ∈ run.map TraceEvent.written, event.Arrives addr) ∧
    (∀ addr nargs, (a.info addr).observedArgs = some nargs ↔ nargs ∈ run.filterMap (TraceEvent.pushedTo addr) ∧
      ∀ other ∈ run.filterMap (TraceEvent.pushedTo addr), other ≤ nargs) ∧
    (∀ addr, (a.info addr).argsConflict = true ↔ ∃ one ∈ run.filterMap (TraceEvent.pushedTo addr),
      ∃ other ∈ run.filterMap (TraceEvent.pushedTo addr), one ≠ other) ∧
    (∀ caller callee, callee ∈ (a.info caller).callees ↔ caller ∈ (a.info callee).callers) ∧
    ∀ events, (run.map TraceEvent.written).Perm events →
      SameAnalysis (run.map TraceEvent.written) a (analyze events) := by
  have described := analyze_described (run.map TraceEvent.written)
  have counts : ∀ addr, argCounts addr (run.map TraceEvent.written) = run.filterMap (TraceEvent.pushedTo addr) := by
    intro addr
    rw [argCounts, List.filterMap_map]
    exact List.filterMap_congr fun event happened => event.argsTo_written addr (fits event happened)
  refine ⟨?_, ?_, ?_, ?_, ?_, fun events perm => sameAnalysis_of_perm perm⟩
  · intro addr ⟨event, happened, arrives⟩
    exact (described addr).known.mpr ⟨event, happened, (event.creates_iff addr).mpr (.inl arrives)⟩
  · intro addr stays present
    obtain ⟨event, happened, creates⟩ := (described addr).known.mp present
    rcases (event.creates_iff addr).mp creates with arrives | leaves
    · exact ⟨event, happened, arrives⟩
    · rw [stays event happened] at leaves
      cases leaves
  · intro addr nargs
    rw [(described addr).observedArgs, counts]
  · intro addr
    rw [(described addr).argsConflict, counts]
  · intro caller callee
    rw [(described caller).callees, (described callee).callers]

/-- A run with a hook, a call of it with two words and one with three. -/
theorem analysis_of_two_calls :
    let one : TraceEvent := .nativeCall (some ⟨.normal 16, 0⟩) (some ⟨.normal 32, 0⟩) none 2 [1, 2]
    let other : TraceEvent := .nativeCall (some ⟨.normal 16, 4⟩) (some ⟨.normal 32, 0⟩) none 3 [1, 2, 3]
    ((analyze ([one, other].map TraceEvent.written)).info ⟨.normal 32, 0⟩).observedArgs = some 3 := by
  intro one other
  exact ((analysis_of_run [one, other] (by decide)).2.2.1 ⟨.normal 32, 0⟩ 3).mpr (by decide)

/-- The results of two calls are listed in the order of the run, and a return without a name counts only after the
function is known. -/
theorem order_of_events_is_seen :
    let place : SegOff := ⟨.normal 32, 0⟩
    let first : TraceEvent := .nativeRet none (some place) 0 1
    let second : TraceEvent := .nativeRet none (some place) 0 2
    let ret : TraceEvent := .ret (some place) (some ⟨.normal 16, 4⟩) none
    ([first, second].Perm [second, first] ∧
      ((analyze [first, second]).info place).results ≠ ((analyze [second, first]).info place).results) ∧
    ([first, ret].Perm [ret, first] ∧
      ((analyze [first, ret]).info place).callSites ≠ ((analyze [ret, first]).info place).callSites) := by
  decide

end Dis86.Trace
