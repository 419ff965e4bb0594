import Dis86.Ast.Builder
import Dis86.IR.Flow
import Dis86.Lib.DepthMemo

namespace Dis86

namespace IR

/-- All instructions get their operands anew. -/
def withOperands (ir : IR) (operands : Ref → List Ref) : IR :=
  { ir with
    blocks := ir.blocks.mapIdx fun b => Option.map fun block =>
      { block with data :=
        { block.data with
          instrs := block.data.instrs.mapIdx fun idx instr => { instr with operands := operands (.instr b idx) }
          bounded := by simpa using block.data.bounded } } }

theorem instr?_withOperands (ir : IR) (operands : Ref → List Ref) (r : Ref) :
    (ir.withOperands operands).instr? r = (ir.instr? r).map fun instr => { instr with operands := operands r } := by
  cases r with
  | instr b idx =>
      simp only [instr?, block?, withOperands, List.getD_eq_getElem?_getD, List.getElem?_mapIdx]
      cases ir.blocks[b]? with
      | none => rfl
      | some block =>
          cases block with
          | none => rfl
          | some block => exact List.getElem?_mapIdx
  | const | init | block | symbol | func => rfl

end IR

namespace Ast
open Lib (Walk Yields collectWithin collectOnce mem_collectWithin mem_collectOnce collectOnce_nodup)

/-- The operands that the search for a pointer goes on with. -/
def originOperands (ir : IR) (r : Ref) : List Ref :=
  match ir.instr? r with
  | none => []
  | some instr =>
    match instr.opcode with
    | .readVar8 | .readVar16 | .readVar32 => []
    | .ref | .lower16 | .upper16 => instr.operands.head?.toList
    | _ => instr.operands

def insertOrigin (found : List GuestPointerOrigin) (origin : GuestPointerOrigin) : List GuestPointerOrigin :=
  if origin ∈ found then found else origin :: found

namespace Input

/-- The origin that a value is itself: an annotated pointer, or a read of one. -/
def ownOrigin (input : Input) (r : Ref) : Option GuestPointerOrigin :=
  match r with
  | .symbol symref => (input.pointerKind symref).map fun kind => ⟨symref, kind, none⟩
  | .instr _ _ =>
    match input.ir.instr? r with
    | none => none
    | some instr =>
      match instr.opcode with
      | .readVar8 | .readVar16 | .readVar32 =>
        match instr.operands.head? with
        | some (.symbol symref) => (input.pointerKind symref).map fun kind => ⟨symref, kind, some r⟩
        | _ => none
      | _ => none
  | _ => none

/-- What a traversal does at a value, whatever it keeps with the origins. -/
def originLevel {S : Type} (input : Input) (report : S → GuestPointerOrigin → S) (visit : S → Ref → S) (r : Ref)
    (state : S) : S :=
  match r with
  | .symbol symref =>
    match input.pointerKind symref with
    | some kind => report state ⟨symref, kind, none⟩
    | none => state
  | .instr _ _ =>
    match input.ir.instr? r with
    | none => state
    | some instr =>
      match instr.opcode with
      | .readVar8 | .readVar16 | .readVar32 =>
        match instr.operands.head? with
        | some (.symbol symref) =>
          match input.pointerKind symref with
          | some kind => report state ⟨symref, kind, some r⟩
          | none => state
        | _ => state
      | .ref | .lower16 | .upper16 =>
        match instr.operands.head? with
        | some operand => visit state operand
        | none => state
      | _ => instr.operands.foldl visit state
  | _ => state

/-- The same traversal without the depths of the values it has seen. -/
def collectAllOrigins (input : Input) : Nat → Ref → List GuestPointerOrigin → List GuestPointerOrigin
  | 0, _, found => found
  | left + 1, r, found =>
    input.originLevel insertOrigin (fun found operand => input.collectAllOrigins left operand found) r found

/-- What a search from a depth collects. -/
def guestPointerOrigins (input : Input) (r : Ref) (depth : Nat) : List GuestPointerOrigin :=
  (input.collectGuestPointerOrigins (25 - depth) r depth ⟨[], fun _ => none⟩).found

end Input

def OriginSearch.toMemo (search : OriginSearch) : Lib.DepthMemo Ref GuestPointerOrigin := ⟨search.found, search.visited⟩

theorem toMemo_visited {search : OriginSearch} : search.toMemo.visited = search.visited := rfl

theorem toMemo_insert (search : OriginSearch) (origin : GuestPointerOrigin) :
    (search.insert origin).toMemo = ⟨insertOrigin search.found origin, search.visited⟩ := by
  rw [OriginSearch.insert, insertOrigin]
  split
  · rfl
  · rfl

/-- A value reports its own origin when the search enters it. -/
theorem toMemo_enter (own : Ref → Option GuestPointerOrigin) (search : OriginSearch) (r : Ref) (depth : Nat) :
    ((own r).elim { search with visited := Function.update search.visited r (some depth) }
      (OriginSearch.insert { search with visited := Function.update search.visited r (some depth) })).toMemo =
        search.toMemo.enter own r depth := by
  rw [Lib.DepthMemo.enter]
  cases own r with
  | none => rfl
  | some origin => exact toMemo_insert _ origin

section Traversals

variable (input : Input) (left : Nat) (r : Ref) (depth : Nat)

/-- A value either is an origin itself or has operands that are followed. -/
theorem originLevel_eq {S : Type} (report : S → GuestPointerOrigin → S) (visit : S → Ref → S) (state : S) :
    input.originLevel report visit r state =
      (originOperands input.ir r).foldl visit ((input.ownOrigin r).elim state (report state)) := by
  cases r with
  | symbol symref =>
      rw [Input.originLevel, Input.ownOrigin]
      cases input.pointerKind symref with
      | none => rfl
      | some kind => rfl
  | instr b idx =>
      rw [Input.originLevel, originOperands, Input.ownOrigin]
      cases input.ir.instr? (.instr b idx) with
      | none => rfl
      | some instr =>
          obtain ⟨typ, width, attrs, opcode, operands⟩ := instr
          cases opcode with
          | readVar8 | readVar16 | readVar32 =>
              cases operands with
              | nil => rfl
              | cons first rest =>
                  cases first with
                  | symbol symref =>
                      simp only [List.head?_cons, List.foldl_nil]
                      cases input.pointerKind symref with
                      | none => rfl
                      | some kind => rfl
                  | const | init | block | func | instr => rfl
          | ref | lower16 | upper16 =>
              cases operands with
              | nil => rfl
              | cons first rest => rfl
          | _ => rfl
  | const | init | block | func => rfl

theorem collectGuestPointerOrigins_succ (search : OriginSearch) :
    input.collectGuestPointerOrigins (left + 1) r depth search =
      if (search.visited r).any (· ≤ depth) then search
      else input.originLevel OriginSearch.insert
        (fun search operand => input.collectGuestPointerOrigins left operand (depth + 1) search) r
        { search with visited := Function.update search.visited r (some depth) } := rfl

/-- The search is the general one, over the operands that it follows. -/
theorem collectGuestPointerOrigins_toMemo (search : OriginSearch) :
    (input.collectGuestPointerOrigins left r depth search).toMemo =
      collectOnce input.ownOrigin (originOperands input.ir) left r depth search.toMemo := by
  induction left generalizing r depth search with
  | zero => rfl
  | succ left hypothesis =>
      have children (operands : List Ref) (search : OriginSearch) :
          (operands.foldl (fun search operand => input.collectGuestPointerOrigins left operand (depth + 1) search)
            search).toMemo = operands.foldl (fun memo operand =>
              collectOnce input.ownOrigin (originOperands input.ir) left operand (depth + 1) memo) search.toMemo :=
        (List.foldl_hom OriginSearch.toMemo fun search operand => (hypothesis operand (depth + 1) search).symm).symm
      rw [collectGuestPointerOrigins_succ, collectOnce, toMemo_visited]
      by_cases seen : (search.visited r).any (· ≤ depth) = true
      · rw [if_pos seen, if_pos seen]
      · rw [if_neg seen, if_neg seen, originLevel_eq, children, toMemo_enter]

theorem collectAllOrigins_eq (found : List GuestPointerOrigin) :
    input.collectAllOrigins left r found = collectWithin input.ownOrigin (originOperands input.ir) left r found := by
  induction left generalizing r found with
  | zero => rfl
  | succ left hypothesis =>
      have entered : (input.ownOrigin r).elim found (insertOrigin found) = Lib.record (input.ownOrigin r) found := by
        cases input.ownOrigin r with
        | none => rfl
        | some origin => rfl
      have children : input.collectAllOrigins left = collectWithin input.ownOrigin (originOperands input.ir) left := by
        funext operand found
        exact hypothesis operand found
      rw [Input.collectAllOrigins, collectWithin, originLevel_eq, entered, children]

end Traversals

/-- The opcodes of which the search looks at the first operand only. -/
def firstOperandOnly : Opcode → Bool
  | .readVar8 | .readVar16 | .readVar32 | .ref | .lower16 | .upper16 => true
  | _ => false

/-- Another order of all operands, with the first one kept where it is the only one that counts. -/
structure OperandOrder (ir : IR) where
  operands : Ref → List Ref
  perm : ∀ r instr, ir.instr? r = some instr → (operands r).Perm instr.operands
  first : ∀ r instr, ir.instr? r = some instr → firstOperandOnly instr.opcode = true →
    (operands r).head? = instr.operands.head?

def Input.reordered (input : Input) (order : OperandOrder input.ir) : Input :=
  { input with ir := input.ir.withOperands order.operands }

section Reordered

variable {input : Input} (order : OperandOrder input.ir)

theorem findPointerKind_reordered (left : Nat) (typ : Typ) (off size : Nat) :
    (input.reordered order).findPointerKind left typ off size = input.findPointerKind left typ off size := by
  induction left generalizing typ off size with
  | zero => rfl
  | succ left hypothesis =>
      cases typ with
      | array base count =>
          cases count with
          | known len => simp only [Input.findPointerKind, hypothesis]
          | unknown => rfl
      | struct idx size =>
          simp only [Input.findPointerKind, hypothesis]
          rfl
      | _ => rfl

theorem pointerKind_reordered (symref : SymbolRef) :
    (input.reordered order).pointerKind symref = input.pointerKind symref := by
  have annotated : (input.reordered order).annotatedPointerKind symref = input.annotatedPointerKind symref := by
    simp only [Input.annotatedPointerKind, findPointerKind_reordered]
    rfl
  rw [Input.pointerKind, Input.pointerKind, annotated]
  rfl

theorem instr?_reordered (r : Ref) : (input.reordered order).ir.instr? r =
    (input.ir.instr? r).map fun instr => { instr with operands := order.operands r } :=
  input.ir.instr?_withOperands order.operands r

theorem ownOrigin_reordered (r : Ref) : (input.reordered order).ownOrigin r = input.ownOrigin r := by
  cases r with
  | symbol symref => rw [Input.ownOrigin, Input.ownOrigin, pointerKind_reordered]
  | instr b idx =>
      rw [Input.ownOrigin, Input.ownOrigin, instr?_reordered]
      cases known : input.ir.instr? (.instr b idx) with
      | none => rfl
      | some instr =>
          have first := order.first _ instr known
          obtain ⟨typ, width, attrs, opcode, operands⟩ := instr
          cases opcode with
          | readVar8 | readVar16 | readVar32 => simp only [Option.map_some, first rfl, pointerKind_reordered]
          | _ => rfl
  | const | init | block | func => rfl

theorem mem_originOperands_reordered (r v : Ref) :
    v ∈ originOperands (input.reordered order).ir r ↔ v ∈ originOperands input.ir r := by
  rw [originOperands, originOperands, instr?_reordered]
  cases known : input.ir.instr? r with
  | none => exact Iff.rfl
  | some instr =>
      have first := order.first r instr known
      have perm := order.perm r instr known
      obtain ⟨typ, width, attrs, opcode, operands⟩ := instr
      cases opcode with
      | readVar8 | readVar16 | readVar32 => exact Iff.rfl
      | ref | lower16 | upper16 => simp only [Option.map_some, first rfl]
      | _ => exact perm.mem_iff

end Reordered

section Exact

variable (input : Input) (r : Ref) (depth : Nat) (origin : GuestPointerOrigin)

theorem guestPointerOrigins_eq : input.guestPointerOrigins r depth =
    (collectOnce input.ownOrigin (originOperands input.ir) (25 - depth) r depth ⟨[], fun _ => none⟩).found :=
  congrArg Lib.DepthMemo.found (collectGuestPointerOrigins_toMemo input (25 - depth) r depth ⟨[], fun _ => none⟩)

theorem mem_guestPointerOrigins : origin ∈ input.guestPointerOrigins r depth ↔
    Yields input.ownOrigin (originOperands input.ir) (25 - depth) r origin := by
  rw [guestPointerOrigins_eq, mem_collectOnce]

theorem guestPointerOrigins_nodup : (input.guestPointerOrigins r depth).Nodup := by
  rw [guestPointerOrigins_eq]
  exact collectOnce_nodup List.nodup_nil

/-- The depths that a search keeps lose no origin, and the order of the operands does not matter. -/
theorem guestPointerOrigins_exact :
    (origin ∈ input.guestPointerOrigins r depth ↔ origin ∈ input.collectAllOrigins (25 - depth) r []) ∧
      (origin ∈ input.guestPointerOrigins r depth ↔
        ∃ n v, depth + n ≤ 24 ∧ Walk (originOperands input.ir) n r v ∧ input.ownOrigin v = some origin) ∧
      ∀ order : OperandOrder input.ir,
        origin ∈ (input.reordered order).guestPointerOrigins r depth ↔ origin ∈ input.guestPointerOrigins r depth := by
  have paths (input : Input) : origin ∈ input.guestPointerOrigins r depth ↔
      ∃ n v, depth + n ≤ 24 ∧ Walk (originOperands input.ir) n r v ∧ input.ownOrigin v = some origin := by
    rw [mem_guestPointerOrigins, Yields]
    have level (n : Nat) : n < 25 - depth ↔ depth + n ≤ 24 := by omega
    simp only [level]
  refine ⟨?_, paths input, fun order => ?_⟩
  · rw [mem_guestPointerOrigins, collectAllOrigins_eq, mem_collectWithin]
    exact ⟨.inr, fun either => either.resolve_left List.not_mem_nil⟩
  · rw [paths, paths]
    have walks (n : Nat) (v : Ref) : Walk (originOperands (input.reordered order).ir) n r v ↔
        Walk (originOperands input.ir) n r v := by
      constructor
      · exact fun walk => walk.mono fun x y => (mem_originOperands_reordered order x y).mp
      · exact fun walk => walk.mono fun x y => (mem_originOperands_reordered order x y).mpr
    simp only [walks, ownOrigin_reordered]

/-- A pointer has an origin when all use paths that lead to one lead to the same. -/
theorem guestPointerOrigin_iff : input.guestPointerOrigin r depth = some origin ↔
    ∀ other, other ∈ input.guestPointerOrigins r depth ↔ other = origin := by
  have distinct := guestPointerOrigins_nodup input r depth
  have single : input.guestPointerOrigin r depth = some origin ↔ input.guestPointerOrigins r depth = [origin] := by
    unfold Input.guestPointerOrigin
    change _ ↔ (input.collectGuestPointerOrigins (25 - depth) r depth ⟨[], fun _ => none⟩).found = [origin]
    split
    · rename_i only
      rw [only, Option.some.injEq, List.cons.injEq, and_iff_left rfl]
    · rename_i several
      exact ⟨fun no => (by cases no), fun only => absurd only (several origin)⟩
  rw [single]
  constructor
  · intro only other
    rw [only, List.mem_singleton]
  · intro only
    refine List.perm_singleton.mp ((List.perm_ext_iff_of_nodup distinct (List.nodup_singleton origin)).mpr ?_)
    intro other
    rw [only, List.mem_singleton]

end Exact

end Ast

end Dis86
