import Dis86.Lib.Lists
import Dis86.Build.GuestWrites

namespace Dis86
open Lib

/-- New instructions stand between two parts of a block, and nothing else has changed. -/
structure Placed (ir ir' : IR) (b : BlockRef) (post refs : List Ref) (instrs : List Instr) : Prop where
  order : ∃ pre, ir.iterInstrs b = pre ++ post ∧ ir'.iterInstrs b = pre ++ (refs ++ post)
  fresh : ∀ r ∈ refs, ir.instr? r = none
  holds : List.Forall₂ (fun r instr => ir'.instr? r = some instr) refs instrs
  kept : ∀ r, r ∉ refs → ir'.instr? r = ir.instr? r
  symbols : ir'.symbols = ir.symbols

namespace Placed

variable {ir ir₁ ir₂ : IR} {b : BlockRef} {post refs refs₁ refs₂ : List Ref}
  {instrs instrs₁ instrs₂ : List Instr}

theorem nil (pre : List Ref) (split : ir.iterInstrs b = pre ++ post) :
    Placed ir ir b post [] [] where
  order := ⟨pre, split, split⟩
  fresh _ inside := absurd inside List.not_mem_nil
  holds := .nil
  kept _ _ := rfl
  symbols := rfl

theorem present_apart (placed : Placed ir ir₁ b post refs instrs) {r : Ref} {instr : Instr}
    (found : ir.instr? r = some instr) : r ∉ refs := by
  intro inside
  rw [placed.fresh r inside] at found
  cases found

theorem present (placed : Placed ir ir₁ b post refs instrs) {r : Ref} {instr : Instr}
    (found : ir.instr? r = some instr) : ir₁.instr? r = some instr :=
  (placed.kept r (placed.present_apart found)).trans found

theorem instr?_of_mem (placed : Placed ir ir₁ b post refs instrs) {r : Ref} (inside : r ∈ refs) :
    ∃ instr ∈ instrs, ir₁.instr? r = some instr := exists_partner placed.holds inside

/-- Instructions that are placed one after another stand together. -/
theorem trans (first : Placed ir ir₁ b post refs₁ instrs₁)
    (second : Placed ir₁ ir₂ b post refs₂ instrs₂) :
    Placed ir ir₂ b post (refs₁ ++ refs₂) (instrs₁ ++ instrs₂) where
  order := by
    obtain ⟨pre, old, middle⟩ := first.order
    obtain ⟨pre', middle', new⟩ := second.order
    have same : pre ++ refs₁ = pre' := by
      apply (List.append_left_inj post).mp
      rw [List.append_assoc, ← middle, middle']
    refine ⟨pre, old, ?_⟩
    rw [new, ← same, List.append_assoc, List.append_assoc]
  fresh r inside := by
    rcases List.mem_append.mp inside with early | late
    · exact first.fresh r early
    · have apart : r ∉ refs₁ := by
        intro early
        obtain ⟨instr, _, found⟩ := first.instr?_of_mem early
        rw [second.fresh r late] at found
        cases found
      rw [← first.kept r apart]
      exact second.fresh r late
  holds := by
    apply List.rel_append _ second.holds
    apply first.holds.imp
    exact fun r instr found => second.present found
  kept r apart := by
    rw [List.mem_append, not_or] at apart
    rw [second.kept r apart.2, first.kept r apart.1]
  symbols := second.symbols.trans first.symbols

/-- The place of an insertion in the order of the block. -/
theorem insert {instr : Instr} {loc : Loc} {r : Ref} {pre : List Ref}
    (inserted : ir.blockInstrInsert b instr loc = some (r, ir₁))
    (split : ir.iterInstrs b = pre ++ post)
    (spot : loc = .last ∧ post = [] ∨ ∃ idx rest, loc = .before idx ∧ post = .instr b idx :: rest) :
    Placed ir ir₁ b post [r] [instr] := by
  obtain ⟨_, fresh, view, _, _⟩ := IR.blockInstrInsert_view inserted
  have order := IR.iterInstrs_insert inserted split spot
  exact {
    order := ⟨pre, split, order⟩
    fresh := fun s inside => List.mem_singleton.mp inside ▸ fresh
    holds := .cons (by rw [view, if_pos rfl]) .nil
    kept := fun s apart => by rw [view, if_neg (List.mem_singleton.not.mp apart)]
    symbols := by
      obtain ⟨_, _, same⟩ := Option.map_eq_some_iff.mp inserted
      rw [← (Prod.mk.inj same).2]
      rfl }

end Placed

/-- What has been added to a block, in the order of the block. -/
def IR.emitted (old new : IR) (b : BlockRef) : List Ref :=
  (new.iterInstrs b).filter fun r => r ∉ old.iterInstrs b

theorem IR.emitted_of_order {ir ir' : IR} {b : BlockRef} {pre post refs : List Ref}
    (old : ir.iterInstrs b = pre ++ post) (new : ir'.iterInstrs b = pre ++ (refs ++ post))
    (fresh : ∀ r ∈ refs, r ∉ ir.iterInstrs b) : ir.emitted ir' b = refs := by
  have listed : ∀ r ∈ ir.iterInstrs b, decide (r ∉ ir.iterInstrs b) = false := by
    intro r inside
    exact decide_eq_false (not_not_intro inside)
  have left : pre.filter (fun r => r ∉ ir.iterInstrs b) = [] := by
    apply List.filter_eq_nil_iff.mpr
    intro r inside
    rw [listed r (old ▸ List.mem_append_left _ inside)]
    exact Bool.false_ne_true
  have right : post.filter (fun r => r ∉ ir.iterInstrs b) = [] := by
    apply List.filter_eq_nil_iff.mpr
    intro r inside
    rw [listed r (old ▸ List.mem_append_right _ inside)]
    exact Bool.false_ne_true
  have middle : refs.filter (fun r => r ∉ ir.iterInstrs b) = refs := by
    apply List.filter_eq_self.mpr
    exact fun r inside => decide_eq_true (fresh r inside)
  rw [IR.emitted, new, List.filter_append, List.filter_append, left, right, middle]
  simp

theorem Placed.emitted {ir ir' : IR} {b : BlockRef} {post refs : List Ref} {instrs : List Instr}
    (placed : Placed ir ir' b post refs instrs) : ir.emitted ir' b = refs := by
  obtain ⟨pre, old, new⟩ := placed.order
  apply IR.emitted_of_order old new
  intro r inside listed
  have known := IR.mem_iterInstrs_instr? listed
  rw [placed.fresh r inside] at known
  cases known

namespace Build
open Asm (Reg)
open Lib

/-- The part of its storage that a register is. -/
def regView (reg : Reg) (storage : BitVec 16) : BitVec 16 :=
  if parent? reg = none then storage
  else if isHigh reg then storage >>> 8 else storage &&& 0xFF

/-- A meaning of the values of a function. An entry value is what the live register holds, and no
value depends on a register that it does not read. -/
structure Evaluation (ir : IR) where
  eval : (Reg → BitVec 16) → Ref → BitVec 32
  init : ∀ live reg, eval live (.init reg) = (regView reg (live (initStorageParent reg))).setWidth 32
  confined : ∀ live live' v, (∀ reg, refReadsInit ir v reg = true → live reg = live' reg) →
    eval live v = eval live' v

/-- The live registers and the temporaries of the emitted code. -/
structure Machine where
  live : Reg → BitVec 16
  temps : Ref → Option (BitVec 16)

def allRegs : List Reg :=
  [.AX, .CX, .DX, .BX, .SP, .BP, .SI, .DI, .ES, .CS, .SS, .DS, .IP, .FLAGS,
    .AL, .CL, .DL, .BL, .AH, .CH, .DH, .BH]

/-- The register that a symbol stands for. -/
def guestRegister? (map : SymbolMap) (symref : SymbolRef) : Option Reg :=
  allRegs.find? fun reg => map.findRefByName .register reg.name = some symref

namespace Evaluation

variable {ir₀ : IR} (E : Evaluation ir₀)

/-- A value that is kept in a temporary is not computed again. -/
def word (m : Machine) (v : Ref) : BitVec 16 := (m.temps v).getD ((E.eval m.live v).setWidth 16)

/-- A guest write changes its register, and a snapshot its temporary. -/
def step (ir : IR) (m : Machine) (r : Ref) : Machine :=
  match ir.instr? r with
  | some instr =>
      match instr.opcode, instr.operands with
      | .writeVar16, [.symbol symref, v] =>
          match guestRegister? ir.symbols symref with
          | some reg => { m with live := Function.update m.live reg (E.word m v) }
          | none => m
      | .ref, [v] =>
          if instr.attrs &&& Attribute.MATERIALISE = 0 then m
          else { m with temps := Function.update m.temps r (some (E.word m v)) }
      | _, _ => m
  | none => m

end Evaluation

/-- A write that is emitted behind the frame sequence. -/
def deferred (ir : IR) (r : Ref) : Bool :=
  (ir.instr? r).any fun instr => instr.attrs &&& Attribute.POST_FRAME ≠ 0

/-- The instructions run one after another, the deferred ones last. -/
def Evaluation.run {ir₀ : IR} (E : Evaluation ir₀) (ir : IR) (refs : List Ref) (m : Machine) : Machine :=
  (refs.filter (fun r => !deferred ir r) ++ refs.filter (deferred ir)).foldl (E.step ir) m

end Build

end Dis86
