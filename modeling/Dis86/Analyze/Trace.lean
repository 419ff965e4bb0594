import Dis86.Asm.Instr
import Mathlib.Data.Finset.Basic
import Mathlib.Data.List.Induction

namespace Dis86.Trace
open Asm (SegOff)

/-- An event of a run. Addresses outside of the image are not resolved. -/
inductive TraceEvent where
  | dispatch (enter : Bool) (addr : Option SegOff) (name result : Option String)
  | call (source target : Option SegOff) (name : Option String)
  | ret (source target : Option SegOff) (name : Option String)
  | nativeCall (source target : Option SegOff) (name : Option String) (nargs : Nat) (args : List (BitVec 16))
  | nativeRet (source target : Option SegOff) (dx ax : BitVec 16)
  | step (addr : Option SegOff)
  | int (num ah : BitVec 8)
deriving DecidableEq

structure FunctionInfo where
  name : Option String
  callees : Finset SegOff
  callers : Finset SegOff
  callSites : Finset SegOff
  observedArgs : Option Nat
  argsConflict : Bool
  dispatches : Nat
  returns : Nat
  results : List (BitVec 16 × BitVec 16)
deriving DecidableEq

def FunctionInfo.empty : FunctionInfo := ⟨none, ∅, ∅, ∅, none, false, 0, 0, []⟩

/-- The first name is kept. -/
def FunctionInfo.named (name : Option String) (f : FunctionInfo) : FunctionInfo :=
  if f.name.isNone then { f with name } else f

/-- The highest argument count is kept, and a different one is a conflict. -/
def FunctionInfo.observed (nargs : Nat) (f : FunctionInfo) : FunctionInfo :=
  match f.observedArgs with
  | none => { f with observedArgs := some nargs }
  | some seen =>
      if seen = nargs then f
      else { f with argsConflict := true, observedArgs := some (if seen < nargs then nargs else seen) }

structure TraceAnalysis where
  functions : SegOff → Option FunctionInfo
  events : Nat
  dispatches : Nat
  calls : Nat
  returns : Nat
  nativeCalls : Nat
  nativeReturns : Nat
  steps : Nat
  interrupts : Nat

namespace TraceAnalysis

def start (events : Nat) : TraceAnalysis := ⟨fun _ => none, events, 0, 0, 0, 0, 0, 0, 0⟩

/-- The entry of an address changes. It is made when there is none. -/
def entry (a : TraceAnalysis) (addr : SegOff) (change : FunctionInfo → FunctionInfo) : TraceAnalysis :=
  { a with functions := Function.update a.functions addr (some (change ((a.functions addr).getD .empty))) }

def step (a : TraceAnalysis) : TraceEvent → TraceAnalysis
  | .dispatch enter addr name _ =>
      let a := if enter then { a with dispatches := a.dispatches + 1 } else a
      match addr with
      | none => a
      | some addr => a.entry addr fun f =>
          (if enter then { f with dispatches := f.dispatches + 1 } else { f with returns := f.returns + 1 }).named name
  | .call source target name =>
      let a := { a with calls := a.calls + 1 }
      match target with
      | none => a
      | some target =>
          let a := a.entry target (·.named name)
          match source with
          | none => a
          | some source => a.entry target fun f => { f with callSites := insert source f.callSites }
  | .ret source target name =>
      let a := { a with returns := a.returns + 1 }
      match source with
      | none => a
      | some source =>
          if name.isSome ∨ (a.functions source).isSome then
            a.entry source fun f =>
              let f := f.named name
              match target with
              | none => f
              | some target => { f with callSites := insert target f.callSites }
          else a
  | .nativeCall source target name nargs _ =>
      let a := { a with nativeCalls := a.nativeCalls + 1 }
      match target with
      | none => a
      | some target =>
          let a := a.entry target fun f => (f.named name).observed nargs
          match source with
          | none => a
          | some source =>
              (a.entry source fun f => { f with callees := insert target f.callees }).entry target fun f =>
                { f with callers := insert source f.callers }
  | .nativeRet _ target dx ax =>
      let a := { a with nativeReturns := a.nativeReturns + 1 }
      match target with
      | none => a
      | some target => a.entry target fun f => { f with results := f.results ++ [(dx, ax)] }
  | .step _ => { a with steps := a.steps + 1 }
  | .int _ _ => { a with interrupts := a.interrupts + 1 }

def info (a : TraceAnalysis) (addr : SegOff) : FunctionInfo := (a.functions addr).getD .empty

end TraceAnalysis

def analyze (events : List TraceEvent) : TraceAnalysis := events.foldl .step (.start events.length)

/-- The writer records at most so many arguments. -/
def traceMaxArgs : Nat := 8

/-- The event of a native call whose stub has pushed some words. -/
def traceNativeCall (source target : Option SegOff) (name : Option String) (pushed : List (BitVec 16)) : TraceEvent :=
  .nativeCall source target name (min pushed.length traceMaxArgs) (pushed.take traceMaxArgs)

/-- What an event does to the entry of one address. -/
def TraceEvent.effect (addr : SegOff) (event : TraceEvent) (known : Option FunctionInfo) : Option FunctionInfo :=
  let f := known.getD .empty
  match event with
  | .dispatch enter (some place) name _ =>
      if place = addr then
        some ((if enter then { f with dispatches := f.dispatches + 1 }
          else { f with returns := f.returns + 1 }).named name)
      else known
  | .call source (some target) name =>
      if target = addr then
        some { f.named name with callSites := source.elim (f.named name).callSites (insert · (f.named name).callSites) }
      else known
  | .ret (some source) target name =>
      if source = addr ∧ (name.isSome ∨ known.isSome) then
        some { f.named name with callSites := target.elim (f.named name).callSites (insert · (f.named name).callSites) }
      else known
  | .nativeCall source (some target) name nargs _ =>
      let f := if target = addr then (f.named name).observed nargs else f
      let f := if source = some addr then { f with callees := insert target f.callees } else f
      let f := if target = addr then { f with callers := source.elim f.callers (insert · f.callers) } else f
      if target = addr ∨ source = some addr then some f else known
  | .nativeRet _ (some target) dx ax =>
      if target = addr then some { f with results := f.results ++ [(dx, ax)] } else known
  | _ => known

theorem entry_functions (a : TraceAnalysis) (place addr : SegOff) (change : FunctionInfo → FunctionInfo) :
    (a.entry place change).functions addr =
      if place = addr then some (change ((a.functions addr).getD .empty)) else a.functions addr := by
  unfold TraceAnalysis.entry
  by_cases same : place = addr
  · subst same
    simp
  · simp [same, Function.update_of_ne (Ne.symm same)]

/-- An event changes the entry of an address by its effect there. -/
theorem step_functions (a : TraceAnalysis) (event : TraceEvent) (addr : SegOff) :
    (a.step event).functions addr = event.effect addr (a.functions addr) := by
  cases event with
  | dispatch enter place name result =>
      cases place <;> cases enter <;> simp [TraceAnalysis.step, TraceEvent.effect, entry_functions]
  | call source target name =>
      cases target with
      | none => rfl
      | some target =>
          cases source <;> by_cases same : target = addr <;>
            simp [TraceAnalysis.step, TraceEvent.effect, entry_functions, same]
  | ret source target name =>
      cases source with
      | none => rfl
      | some source =>
          by_cases same : source = addr
          · subst same
            cases target <;> by_cases counted : name.isSome ∨ (a.functions source).isSome <;>
              simp [TraceAnalysis.step, TraceEvent.effect, entry_functions, counted]
          · cases target <;> by_cases counted : name.isSome ∨ (a.functions source).isSome <;>
              simp [TraceAnalysis.step, TraceEvent.effect, entry_functions, counted, same]
  | nativeCall source target name nargs args =>
      cases target with
      | none => rfl
      | some target =>
          cases source with
          | none => by_cases same : target = addr <;>
              simp [TraceAnalysis.step, TraceEvent.effect, entry_functions, same]
          | some source => by_cases same : target = addr <;> by_cases calls : source = addr <;>
              simp [TraceAnalysis.step, TraceEvent.effect, entry_functions, same, calls]
  | nativeRet source target dx ax =>
      cases target <;> simp [TraceAnalysis.step, TraceEvent.effect, entry_functions]
  | step place => rfl
  | int num ah => rfl

/-- The entry of an address is made by the effects of the events there. -/
theorem analyze_functions (events : List TraceEvent) (addr : SegOff) :
    (analyze events).functions addr = events.foldl (fun known event => event.effect addr known) none := by
  have general : ∀ a : TraceAnalysis, (events.foldl .step a).functions addr =
      events.foldl (fun known event => event.effect addr known) (a.functions addr) := by
    induction events with
    | nil => exact fun _ => rfl
    | cons event rest ih =>
        intro a
        rw [List.foldl_cons, List.foldl_cons, ih, step_functions]
  exact general _

namespace TraceEvent

/-- The event makes an entry for the address. -/
def Creates (addr : SegOff) : TraceEvent → Prop
  | .dispatch _ place _ _ => place = some addr
  | .call _ target _ => target = some addr
  | .ret source _ name => source = some addr ∧ name.isSome
  | .nativeCall source target _ _ _ => target = some addr ∨ target.isSome ∧ source = some addr
  | .nativeRet _ target _ _ => target = some addr
  | _ => False

/-- One function calls another one at the native seam. -/
def Calls (caller callee : SegOff) : TraceEvent → Prop
  | .nativeCall source target _ _ _ => source = some caller ∧ target = some callee
  | _ => False

/-- The argument count of a native call to the address. -/
def argsTo (addr : SegOff) : TraceEvent → Option Nat
  | .nativeCall _ target _ nargs _ => if target = some addr then some nargs else none
  | _ => none

def resultOf (addr : SegOff) : TraceEvent → Option (BitVec 16 × BitVec 16)
  | .nativeRet _ target dx ax => if target = some addr then some (dx, ax) else none
  | _ => none

def enters (addr : SegOff) : TraceEvent → Bool
  | .dispatch enter place _ _ => enter && place = some addr
  | _ => false

def leaves (addr : SegOff) : TraceEvent → Bool
  | .dispatch enter place _ _ => !enter && place = some addr
  | _ => false

/-- The name that the event gives the address. -/
def nameOf (addr : SegOff) : TraceEvent → Option String
  | .dispatch _ place name _ => if place = some addr then name else none
  | .call _ target name => if target = some addr then name else none
  | .ret source _ name => if source = some addr then name else none
  | .nativeCall _ target name _ _ => if target = some addr then name else none
  | _ => none

/-- The place that a call or a named return shows in a caller of the address. -/
def SiteOf (addr site : SegOff) : TraceEvent → Prop
  | .call source target _ => target = some addr ∧ source = some site
  | .ret source target name => source = some addr ∧ target = some site ∧ name.isSome
  | _ => False

/-- The place that a return without a name shows. -/
def UnnamedSiteOf (addr site : SegOff) : TraceEvent → Prop
  | .ret source target name => source = some addr ∧ target = some site ∧ name = none
  | _ => False

theorem named_eq (name : Option String) (f : FunctionInfo) : f.named name = { f with name := f.name.or name } := by
  obtain ⟨first, _, _, _, _, _, _, _, _⟩ := f
  cases first <;> rfl

theorem observed_eq (nargs : Nat) (f : FunctionInfo) : f.observed nargs = { f with
    observedArgs := some (max (f.observedArgs.getD nargs) nargs)
    argsConflict := f.argsConflict || f.observedArgs.any (· ≠ nargs) } := by
  obtain ⟨_, _, _, _, observed, _, _, _, _⟩ := f
  cases observed with
  | none => simp [FunctionInfo.observed]
  | some seen =>
      by_cases same : seen = nargs
      · simp [FunctionInfo.observed, same]
      · have larger : (if seen < nargs then nargs else seen) = max seen nargs := by
          split <;> omega
        simp [FunctionInfo.observed, same, larger]

/-- What an event adds to the entry of an address. -/
structure Adds (addr : SegOff) (event : TraceEvent) (known : Bool) (f g : FunctionInfo) : Prop where
  name : g.name = f.name.or (event.nameOf addr)
  callees : ∀ callee, callee ∈ g.callees ↔ callee ∈ f.callees ∨ event.Calls addr callee
  callers : ∀ caller, caller ∈ g.callers ↔ caller ∈ f.callers ∨ event.Calls caller addr
  callSites : ∀ site, site ∈ g.callSites ↔
    site ∈ f.callSites ∨ event.SiteOf addr site ∨ known ∧ event.UnnamedSiteOf addr site
  observedArgs : g.observedArgs = (event.argsTo addr).elim f.observedArgs fun nargs =>
    some (max (f.observedArgs.getD nargs) nargs)
  argsConflict : g.argsConflict =
    (f.argsConflict || (event.argsTo addr).any fun nargs => f.observedArgs.any (· ≠ nargs))
  dispatches : g.dispatches = f.dispatches + if event.enters addr then 1 else 0
  returns : g.returns = f.returns + if event.leaves addr then 1 else 0
  results : g.results = f.results ++ (event.resultOf addr).toList

section Effects

variable (addr : SegOff) (event : TraceEvent) (known : Option FunctionInfo)

theorem effect_isSome : (event.effect addr known).isSome ↔ known.isSome ∨ event.Creates addr := by
  cases event with
  | dispatch enter place name result => cases place <;> grind [effect, Creates]
  | call source target name => cases target <;> grind [effect, Creates]
  | ret source target name => cases source <;> grind [effect, Creates]
  | nativeCall source target name nargs args => cases target <;> grind [effect, Creates]
  | nativeRet source target dx ax => cases target <;> grind [effect, Creates]
  | step place => simp [effect, Creates]
  | int num ah => simp [effect, Creates]

theorem effect_adds :
    event.Adds addr known.isSome (known.getD .empty) ((event.effect addr known).getD .empty) := by
  cases event with
  | dispatch enter place name result =>
      cases place <;> constructor <;>
        grind [effect, nameOf, Calls, SiteOf, UnnamedSiteOf, argsTo, enters, leaves, resultOf, named_eq]
  | call source target name =>
      cases source <;> cases target <;> constructor <;>
        grind [effect, nameOf, Calls, SiteOf, UnnamedSiteOf, argsTo, enters, leaves, resultOf, named_eq]
  | ret source target name =>
      cases source <;> cases target <;> cases name <;> constructor <;>
        grind [effect, nameOf, Calls, SiteOf, UnnamedSiteOf, argsTo, enters, leaves, resultOf, named_eq]
  | nativeCall source target name nargs args =>
      cases source <;> cases target <;> constructor <;>
        grind [effect, nameOf, Calls, SiteOf, UnnamedSiteOf, argsTo, enters, leaves, resultOf, named_eq, observed_eq]
  | nativeRet source target dx ax =>
      cases target <;> constructor <;>
        grind [effect, nameOf, Calls, SiteOf, UnnamedSiteOf, argsTo, enters, leaves, resultOf]
  | step place =>
      constructor <;> simp [effect, nameOf, Calls, SiteOf, UnnamedSiteOf, argsTo, enters, leaves, resultOf]
  | int num ah =>
      constructor <;> simp [effect, nameOf, Calls, SiteOf, UnnamedSiteOf, argsTo, enters, leaves, resultOf]

end Effects

end TraceEvent

end Dis86.Trace
