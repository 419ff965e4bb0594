import Dis86.Build.ExitRun

namespace Dis86.Build
open Asm (Reg)
open Lib

variable {ir : IR}

theorem refReadsInit_operand {r o : Ref} {reg : Reg} (inside : o ∈ ir.valueOperands r)
    (reads : refReadsInit ir o reg = true) : refReadsInit ir r reg = true := by
  obtain ⟨part, same, reached⟩ := refReadsInit_iff.mp reads
  exact refReadsInit_iff.mpr ⟨part, same, reached.through inside⟩

/-- The value of an expression: an operation on the values of the operands, with entry values read
from the live registers. Expressions deeper than the bound are cut. -/
def exprValue (ir : IR) (apply : Ref → List (BitVec 32) → BitVec 32) (live : Reg → BitVec 16) :
    Nat → Ref → BitVec 32
  | _, .init reg => (regView reg (live (initStorageParent reg))).setWidth 32
  | 0, r => apply r []
  | depth + 1, r => apply r ((ir.valueOperands r).map (exprValue ir apply live depth))

theorem exprValue_confined (apply : Ref → List (BitVec 32) → BitVec 32) (live live' : Reg → BitVec 16)
    (depth : Nat) (v : Ref) (same : ∀ reg, refReadsInit ir v reg = true → live reg = live' reg) :
    exprValue ir apply live depth v = exprValue ir apply live' depth v := by
  induction depth generalizing v with
  | zero =>
      cases v with
      | init reg => rw [exprValue, exprValue, same _ (refReadsInit_init ir reg)]
      | const | instr | block | symbol | func => rfl
  | succ depth hypothesis =>
      have operands : (ir.valueOperands v).map (exprValue ir apply live depth) =
          (ir.valueOperands v).map (exprValue ir apply live' depth) := by
        apply List.map_congr_left
        intro o inside
        apply hypothesis
        exact fun reg reads => same reg (refReadsInit_operand inside reads)
      cases v with
      | init reg => rw [exprValue, exprValue, same _ (refReadsInit_init ir reg)]
      | const | instr | block | symbol | func => simp only [exprValue, operands]

/-- Expressions are a meaning of the values. -/
def Evaluation.expression (ir : IR) (apply : Ref → List (BitVec 32) → BitVec 32) (depth : Nat) :
    Evaluation ir where
  eval live r := exprValue ir apply live depth r
  init live reg := by cases depth <;> rfl
  confined live live' v := exprValue_confined apply live live' depth v

/-- A function of one block, whose registers hold the given values. -/
def oneBlock (defs : Reg → Ref) (data : InstrData) : IR where
  consts := []
  symbols := .new
  funcs := []
  names := fun _ => none
  nameNext := fun _ => none
  blocks := [some {
    name := "entry"
    defs := fun name =>
      match name with
      | .reg reg => some (defs reg)
      | .var _ => none
    preds := []
    data
    sealed := true
    incompletePhis := [] }]

/-- Each of AX, BX and CX has got the entry value of the next one. -/
def shiftedIR : IR := oneBlock (fun
  | .AX => .init .BX
  | .BX => .init .CX
  | .CX => .init .DX
  | reg => .init reg) .new

/-- A return of BX. -/
def returnIR : IR :=
  oneBlock .init (InstrData.new.insert ⟨.void, none, Attribute.NONE, .retNear, [.init .BX]⟩ .last).2

/-- At the return BX has the entry value of CX, and SS the one of BX. -/
def returnExit : RetExit := ⟨.instr 0 0, [(.BX, .init .CX), (.SS, .init .BX)]⟩

theorem known_init (ir : IR) (b : BlockRef) (idx : Nat) (reg : Reg) :
    Known ir (.instr b idx) (.init reg) := by
  intro x reached
  obtain rfl := eq_init_of_reaches reached
  exact ⟨nofun, nofun⟩

theorem returnExit_state : ExitState returnIR returnExit 0 0 where
  ret := rfl
  listed := by decide
  distinct := by decide
  known := by simp [returnExit, known_init]
  returned := by
    intro v inside
    obtain rfl : v = .init .BX := List.mem_singleton.mp inside
    exact known_init _ _ _ _

/-- After an exchange each of the two registers has the entry value of the other. -/
def exchangedIR : IR := oneBlock (fun
  | .AX => .init .BX
  | .BX => .init .AX
  | reg => .init reg) .new

end Dis86.Build
