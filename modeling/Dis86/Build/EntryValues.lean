import Dis86.Build.GuestWrites
import Dis86.Lib.Conjunction
import Mathlib.Data.Finset.Card

namespace Dis86.Build
open Asm (Reg)
open Lib (Reaches Solves AllGood PartOf conjunction allOf conjunction_iff allGood_solves)

variable {ir : IR} {reg : Reg} {r : Ref}

/-- Phis and copies only carry other values. -/
def isCarrier (ir : IR) (r : Ref) : Bool := (ir.instr? r).any fun instr => instr.opcode matches .phi | .ref

def carried (ir : IR) (r : Ref) : List Ref := if isCarrier ir r then ir.valueOperands r else []

/-- The value of the register itself or of one of its bytes, at the entry. Bytes have no storage of their own. -/
def IsEntryOf (reg : Reg) (r : Ref) : Prop :=
  parent? reg = none ∧ ∃ other, r = .init other ∧ (other = reg ∨ parent? other = some reg)

/-- Everything that a value may carry was there at the entry, and each carrier carries something. -/
def OnlyEntryLeaves (ir : IR) (reg : Reg) (r : Ref) : Prop :=
  ∀ v, Reaches (carried ir) [r] v → if isCarrier ir v then carried ir v ≠ [] else IsEntryOf reg v

/-- The equations of the entry values. On cyclic carriers they have several solutions. -/
def EntryEquations (ir : IR) (reg : Reg) (answers : Ref → Prop) : Prop :=
  ∀ r, answers r ↔
    if isCarrier ir r then carried ir r ≠ [] ∧ ∀ operand ∈ carried ir r, answers operand else IsEntryOf reg r

/-- The operands of a carrier that has some. -/
def entryParts (ir : IR) (r : Ref) : Option (List Ref) :=
  if isCarrier ir r ∧ ir.valueOperands r ≠ [] then some (ir.valueOperands r) else none

theorem initStorageParent_eq_iff {other : Reg} :
    initStorageParent other = reg ↔ parent? reg = none ∧ (other = reg ∨ parent? other = some reg) := by
  cases other <;> cases reg <;> decide

theorem isInitOf_iff : isInitOf reg r = true ↔ IsEntryOf reg r := by
  cases r with
  | init other =>
      rw [isInitOf, decide_eq_true_iff, initStorageParent_eq_iff]
      constructor
      · exact fun storage => ⟨storage.1, other, rfl, storage.2⟩
      · intro isEntry
        obtain ⟨full, named, same, either⟩ := isEntry
        cases same
        exact ⟨full, either⟩
  | const | block | symbol | func | instr =>
      exact ⟨nofun, fun isEntry => by
        obtain ⟨_, _, same, _⟩ := isEntry
        cases same⟩

theorem carrier_isInstr (carrier : isCarrier ir r = true) : ∃ b idx, r = .instr b idx := by
  cases r with
  | instr b idx => exact ⟨b, idx, rfl⟩
  | const | init | block | symbol | func => cases carrier

theorem entryParts_listed (parts : entryParts ir r ≠ none) : r ∈ ir.allInstrs.toFinset := by
  rw [entryParts] at parts
  split at parts
  · rename_i carrier
    cases found : ir.instr? r with
    | none =>
        rw [isCarrier, found] at carrier
        cases carrier.1
    | some instr => exact List.mem_toFinset.mpr (IR.mem_allInstrs found)
  · exact absurd rfl parts

theorem entryAll_eq (inner : Ref → EntryMemo → Bool × EntryMemo) (operands : List Ref) (memo : EntryMemo) :
    entryAll inner operands memo = allOf inner operands memo := by
  induction operands generalizing memo with
  | nil => rfl
  | cons operand rest hypothesis =>
      rw [entryAll, allOf]
      cases inner operand memo with
      | mk answer later =>
          cases answer with
          | true => exact hypothesis later
          | false => rfl

/-- The search is the general one. Only carriers with operands are ever under way. -/
theorem isEntryValueInner_eq (ir : IR) (reg : Reg) (fuel : Nat) (visiting : List Ref) (r : Ref) (memo : EntryMemo)
    (underway : ∀ v ∈ visiting, entryParts ir v ≠ none) :
    isEntryValueInner ir reg fuel visiting r memo =
      conjunction (entryParts ir) (isInitOf reg) fuel visiting r memo := by
  induction fuel generalizing visiting r memo with
  | zero => rfl
  | succ fuel hypothesis =>
      cases r with
      | instr b idx =>
          rw [isEntryValueInner, conjunction]
          cases memo.lookup (.instr b idx) with
          | some known => rfl
          | none =>
              change (if _ ∈ visiting then _
                else if isCarrier ir (.instr b idx) = true ∧ ir.valueOperands (.instr b idx) ≠ [] then _ else _) = _
              by_cases carrier : isCarrier ir (.instr b idx) ∧ ir.valueOperands (.instr b idx) ≠ []
              · have parts : entryParts ir (.instr b idx) = some (ir.valueOperands (.instr b idx)) := if_pos carrier
                have deeper : isEntryValueInner ir reg fuel (.instr b idx :: visiting) =
                    conjunction (entryParts ir) (isInitOf reg) fuel (.instr b idx :: visiting) := by
                  funext operand memo
                  apply hypothesis
                  intro v among
                  rcases List.mem_cons.mp among with rfl | later
                  · rw [parts]
                    exact Option.some_ne_none _
                  · exact underway v later
                simp only [if_pos carrier, parts, entryAll_eq, deeper]
              · have parts : entryParts ir (.instr b idx) = none := if_neg carrier
                have first : Ref.instr b idx ∉ visiting := fun among => underway _ among parts
                simp only [if_neg first, if_neg carrier, parts]
                rfl
      | init other =>
          rw [isEntryValueInner, conjunction]
          rfl
      | const | block | symbol | func =>
          rw [isEntryValueInner, conjunction]
          · rfl
          · intros
            contradiction
          · intros
            contradiction

theorem allInstrs_card (ir : IR) : ir.allInstrs.toFinset.card < ir.allInstrs.length + 2 :=
  Nat.lt_of_le_of_lt (List.toFinset_card_le _) (Nat.lt_add_of_pos_right (by decide))

theorem isEntryValue_iff (ir : IR) (reg : Reg) (r : Ref) :
    isEntryValue ir r reg = true ↔ AllGood (entryParts ir) (isInitOf reg) r := by
  rw [isEntryValue, isEntryValueInner_eq ir reg _ [] r [] nofun]
  exact conjunction_iff (fun _ => entryParts_listed) (allInstrs_card ir)

/-- An empty carrier carries nothing, so both ways of following the carriers agree. -/
theorem carried_eq (ir : IR) (r : Ref) : carried ir r = (entryParts ir r).getD [] := by
  rw [carried, entryParts]
  by_cases carrier : isCarrier ir r = true
  · rw [if_pos carrier]
    by_cases empty : ir.valueOperands r = []
    · rw [if_neg (fun both => both.2 empty), empty]
      rfl
    · rw [if_pos ⟨carrier, empty⟩]
      rfl
  · rw [if_neg carrier, if_neg (fun both => carrier both.1)]
    rfl

/-- What the general search asks of a leaf, and what is asked here. -/
theorem leaf_iff : (entryParts ir r = none → isInitOf reg r = true) ↔
    if isCarrier ir r then carried ir r ≠ [] else IsEntryOf reg r := by
  by_cases carrier : isCarrier ir r = true
  · rw [if_pos carrier, carried, if_pos carrier, entryParts]
    by_cases empty : ir.valueOperands r = []
    · rw [if_neg (fun both => both.2 empty)]
      obtain ⟨b, idx, rfl⟩ := carrier_isInstr carrier
      exact ⟨fun leaf => Bool.noConfusion (leaf rfl), fun some => absurd empty some⟩
    · rw [if_pos ⟨carrier, empty⟩]
      exact ⟨fun _ => empty, fun _ => nofun⟩
  · rw [if_neg carrier, entryParts, if_neg (fun both => carrier both.1), ← isInitOf_iff]
    exact ⟨fun leaf => leaf rfl, fun leaf _ => leaf⟩

theorem onlyEntryLeaves_iff : OnlyEntryLeaves ir reg r ↔ AllGood (entryParts ir) (isInitOf reg) r := by
  have same : Reaches (carried ir) [r] = PartOf (entryParts ir) r := congrArg (Reaches · [r]) (funext (carried_eq ir))
  rw [OnlyEntryLeaves, same]
  exact forall_congr' fun v => imp_congr_right fun _ => leaf_iff.symm

theorem entryEquations_iff {answers : Ref → Prop} :
    EntryEquations ir reg answers ↔ Solves (entryParts ir) (isInitOf reg) answers := by
  apply forall_congr'
  intro r
  apply iff_congr Iff.rfl
  have leaf : (entryParts ir r = none → isInitOf reg r = true) ↔ _ := leaf_iff
  rw [carried_eq] at leaf ⊢
  cases parts : entryParts ir r with
  | none =>
      rw [parts] at leaf
      simp only [Option.getD_none, ne_eq, not_true_eq_false, false_and, true_imp_iff] at leaf ⊢
      exact leaf.symm
  | some next =>
      rw [parts] at leaf
      have carrier : isCarrier ir r = true ∧ ir.valueOperands r ≠ [] := by
        by_contra neither
        rw [entryParts, if_neg neither] at parts
        cases parts
      rw [entryParts, if_pos carrier, Option.some.injEq] at parts
      subst parts
      rw [if_pos carrier.1]
      exact ⟨fun both => both.2, fun all => ⟨carrier.2, all⟩⟩

/-- The answers are those about everything that a value may carry, and the greatest ones that satisfy the equations. -/
theorem isEntryValue_exact (ir : IR) (reg : Reg) :
    (∀ r, isEntryValue ir r reg = true ↔ OnlyEntryLeaves ir reg r) ∧
      EntryEquations ir reg (isEntryValue ir · reg = true) ∧
      ∀ answers, EntryEquations ir reg answers → ∀ r, answers r → isEntryValue ir r reg = true := by
  have general : (isEntryValue ir · reg = true) = AllGood (entryParts ir) (isInitOf reg) := by
    funext r
    exact propext (isEntryValue_iff ir reg r)
  refine ⟨fun r => (isEntryValue_iff ir reg r).trans onlyEntryLeaves_iff.symm, ?_, fun answers solves r positive => ?_⟩
  · rw [general]
    exact entryEquations_iff.mpr (allGood_solves _ _)
  · exact (isEntryValue_iff ir reg r).mpr ((entryEquations_iff.mp solves).allGood positive)

/-- The entry value of a byte is counted for its word, and not for the byte itself. -/
theorem byte_is_not_its_own_entry : ¬ ∀ (ir : IR) (reg : Reg) (r : Ref), isEntryValue ir r reg = true ↔
    ∀ v, Reaches (carried ir) [r] v → if isCarrier ir v then carried ir v ≠ []
      else ∃ other, v = .init other ∧ (other = reg ∨ parent? other = some reg) := by
  intro claimed
  have positive := (claimed IR.new .AL (.init .AL)).mpr fun v reached => by
    have here : v = .init .AL := by
      induction reached with
      | start among => exact List.mem_singleton.mp among
      | step _ next hypothesis =>
          rw [hypothesis] at next
          cases next
    rw [here]
    exact ⟨.AL, rfl, .inl rfl⟩
  cases positive

end Dis86.Build
