import Dis86.IR.Fin

namespace Dis86

def Ref.isTarget : Ref → Bool
  | .block _ => true
  | _ => false

/-- The branch targets of an instruction are no data. -/
def Instr.withoutTargets (instr : Instr) : Instr :=
  { instr with operands := instr.operands.filter fun o => !o.isTarget }

namespace IR

/-- The phis of a block, in their order. -/
def phisOf (ir : IR) (b : BlockRef) : List Ref :=
  (ir.iterInstrs b).filter fun r => (ir.instr? r).any fun instr => instr.opcode = .phi

/-- The position of an edge among the predecessors of its target. -/
def edgeIndex (ir : IR) (src dst : BlockRef) : Option Nat :=
  (ir.block? dst).bind fun target => target.preds.findIdx? (· = src)

/-- The operand of a phi for an edge into its block. -/
def edgeOperand (ir : IR) (src dst : BlockRef) (phi : Ref) : Option Ref := do
  (← ir.instr? phi).operands[← ir.edgeIndex src dst]?

/-- The operand that a phi selects when its block is entered. -/
def selected (ir : IR) (src : Option BlockRef) (b : BlockRef) (phi : Ref) : Option Ref :=
  src.bind fun src => ir.edgeOperand src b phi

/-- The known values, and the machine that the instructions act on. -/
structure State (V M : Type) where
  env : Ref → Option V
  machine : M

/-- What the instructions do. A branch leaves its decision in the machine. -/
structure Semantics (V M : Type) where
  exec : Ref → Instr → State V M → State V M
  choose : State V M → Nat

variable {V M : Type}

/-- All phis of a block take their values together. -/
def enter (ir : IR) (src : Option BlockRef) (b : BlockRef) (state : State V M) : State V M :=
  { state with env := fun r =>
      if r ∈ ir.phisOf b then (ir.selected src b r).bind state.env else state.env r }

/-- A jump does nothing but go on, and the phis are done when the block is entered. -/
def Semantics.step (semantics : Semantics V M) (ir : IR) (state : State V M) (r : Ref) : State V M :=
  match ir.instr? r with
  | some instr =>
      if instr.opcode = .phi ∨ instr.opcode = .jmp then state
      else semantics.exec r instr.withoutTargets state
  | none => state

def Semantics.visit (semantics : Semantics V M) (ir : IR) (src : Option BlockRef) (b : BlockRef)
    (state : State V M) : State V M :=
  (ir.iterInstrs b).foldl (semantics.step ir) (ir.enter src b state)

/-- A block with one exit leaves no choice. -/
def Semantics.take (semantics : Semantics V M) (exits : List BlockRef) (state : State V M) :
    Option BlockRef :=
  match exits with
  | [only] => some only
  | _ => exits[semantics.choose state]?

/-- What an execution shows of a block: the operands that its phis selected. -/
structure Visit where
  block : BlockRef
  selected : List (Ref × Option Ref)
deriving DecidableEq, Repr

def visitOf (ir : IR) (src : Option BlockRef) (b : BlockRef) : Visit :=
  ⟨b, (ir.phisOf b).map fun phi => (phi, ir.selected src b phi)⟩

/-- An execution goes from block to block along their exits. -/
inductive Execution (ir : IR) (semantics : Semantics V M) (entry : BlockRef) (init : State V M) :
    List Visit → BlockRef → State V M → Prop where
  | start : Execution ir semantics entry init [ir.visitOf none entry] entry
      (semantics.visit ir none entry init)
  | step {visits b state exits c} (before : Execution ir semantics entry init visits b state)
      (leaves : ir.blockExits b = some exits) (taken : semantics.take exits state = some c) :
      Execution ir semantics entry init (visits ++ [ir.visitOf (some b) c]) c
        (semantics.visit ir (some b) c state)

/-- A block is entered by an edge, or one of its instructions is performed. -/
inductive RunStep where
  | enter (src : Option BlockRef) (b : BlockRef)
  | perform (r : Ref)
deriving DecidableEq, Repr

variable {V M : Type}

def Semantics.runStep (semantics : Semantics V M) (ir : IR) (state : State V M) : RunStep → State V M
  | .enter src b => ir.enter src b state
  | .perform r => semantics.step ir state r

def Semantics.after (semantics : Semantics V M) (ir : IR) (init : State V M) (es : List RunStep) :
    State V M :=
  es.foldl (semantics.runStep ir) init

/-- The references that a step gives a value. -/
def Sets (ir : IR) : RunStep → Ref → Prop
  | .enter _ b, r => r ∈ ir.phisOf b
  | .perform s, r => r = s

/-- The steps of an execution, the block that it is in, and the instructions that are left there. -/
inductive Run (ir : IR) (semantics : Semantics V M) (entry : BlockRef) (init : State V M) :
    List RunStep → BlockRef → List Ref → Prop where
  | start : Run ir semantics entry init [.enter none entry] entry (ir.iterInstrs entry)
  | perform {es b r rest} (before : Run ir semantics entry init es b (r :: rest)) :
      Run ir semantics entry init (es ++ [.perform r]) b rest
  | leave {es b exits c} (before : Run ir semantics entry init es b [])
      (leaves : ir.blockExits b = some exits)
      (taken : semantics.take exits (semantics.after ir init es) = some c) :
      Run ir semantics entry init (es ++ [.enter (some b) c]) c (ir.iterInstrs c)

variable {ir : IR} {semantics : Semantics V M} {entry b c : BlockRef} {init state : State V M}
  {es : List RunStep} {rs rest : List Ref}

theorem after_append (semantics : Semantics V M) (ir : IR) (init : State V M) (es : List RunStep) (e : RunStep) :
    semantics.after ir init (es ++ [e]) = semantics.runStep ir (semantics.after ir init es) e := by
  rw [Semantics.after, Semantics.after, List.foldl_append]
  rfl

/-- The instructions of a block are performed one after another. -/
theorem Run.performs (run : Run ir semantics entry init es b (rs ++ rest)) :
    Run ir semantics entry init (es ++ rs.map .perform) b rest := by
  induction rs generalizing es with
  | nil => simpa using run
  | cons r rs hypothesis =>
      have next : Run ir semantics entry init (es ++ [.perform r] ++ rs.map .perform) b rest :=
        hypothesis run.perform
      rwa [List.append_assoc] at next

theorem after_performs (es : List RunStep) (rs : List Ref) :
    semantics.after ir init (es ++ rs.map .perform) =
      rs.foldl (semantics.step ir) (semantics.after ir init es) := by
  rw [Semantics.after, Semantics.after, List.foldl_append, List.foldl_map]
  rfl

/-- Every execution of blocks is a run. -/
theorem Execution.run {visits : List Visit} (execution : Execution ir semantics entry init visits b state) :
    ∃ es, Run ir semantics entry init es b [] ∧ semantics.after ir init es = state := by
  have visited : ∀ src c es, Run ir semantics entry init (es ++ [.enter src c]) c (ir.iterInstrs c) →
      ∃ es', Run ir semantics entry init es' c [] ∧
        semantics.after ir init es' = semantics.visit ir src c (semantics.after ir init es) := by
    intro src c es entered
    refine ⟨es ++ [.enter src c] ++ (ir.iterInstrs c).map .perform, Run.performs (by simpa using entered), ?_⟩
    rw [after_performs, after_append]
    rfl
  induction execution with
  | start => exact visited none entry [] .start
  | step before leaves taken hypothesis =>
      obtain ⟨es, run, rfl⟩ := hypothesis
      exact visited _ _ es (run.leave leaves taken)

end IR

end Dis86
