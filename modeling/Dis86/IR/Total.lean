import Dis86.IR.Ssa
import Mathlib.Data.Finset.Card
import Mathlib.Data.Finset.Range
import Mathlib.Tactic.Linarith

namespace Dis86.IR
open Lib

variable {ir next : IR}

/-- Every listed predecessor is a live block. -/
def PredsPresent (ir : IR) : Prop :=
  ∀ sym b pred, pred ∈ (ir.flow sym).preds b → (ir.block? pred).isSome

/-- The places of the function that do not define the variable. -/
def undefinedBlocks (ir : IR) (sym : Name) : Finset BlockRef :=
  (Finset.range ir.blocks.length).filter fun b => (ir.flow sym).defined b = none

/-- A read keeps the blocks and their edges and only adds definitions. -/
structure Grows (ir : IR) (sym : Name) (next : IR) : Prop where
  shape : SameShape ir next
  preds : ∀ other, (next.flow other).preds = (ir.flow other).preds
  undefined : next.undefinedBlocks sym ⊆ ir.undefinedBlocks sym

theorem Grows.refl (ir : IR) (sym : Name) : Grows ir sym ir :=
  ⟨.refl ir, fun _ => rfl, fun _ h => h⟩

theorem Grows.trans {sym : Name} {third : IR} (first : Grows ir sym next)
    (second : Grows next sym third) : Grows ir sym third where
  shape := first.shape.trans second.shape
  preds := fun other => (second.preds other).trans (first.preds other)
  undefined := fun _ inside => first.undefined (second.undefined inside)

theorem Grows.predsPresent {sym : Name} (grows : Grows ir sym next) (present : ir.PredsPresent) :
    next.PredsPresent := by
  intro other b pred inside
  rw [grows.shape.live]
  rw [grows.preds] at inside
  exact present other b pred inside

theorem Grows.modifyInstr (ir : IR) (sym : Name) (r : Ref) (f : Instr → Instr) :
    Grows ir sym (ir.modifyInstr r f) := by
  have shape := SameShape.modifyInstr ir r f
  refine ⟨shape, fun other => by rw [flow_modifyInstr], fun b inside => ?_⟩
  simpa only [undefinedBlocks, flow_modifyInstr, shape.length] using inside

theorem Grows.pushIncompletePhi (ir : IR) (sym : Name) (b : BlockRef) (phi : Ref) :
    Grows ir sym (ir.pushIncompletePhi sym b phi) := by
  have shape : SameShape ir (ir.pushIncompletePhi sym b phi) := .modifyBlock ir b _
  refine ⟨shape, fun other => by rw [flow_pushIncompletePhi], fun c inside => ?_⟩
  simpa only [undefinedBlocks, flow_pushIncompletePhi, shape.length] using inside

/-- A phi can be created in every live block, and it defines the variable there. -/
theorem phiCreate_returns {b : BlockRef} {sym : Name} (present : (ir.block? b).isSome)
    (undefined : (ir.flow sym).defined b = none) :
    ∃ phi middle, ir.phiCreate sym b = some (phi, middle) ∧ Grows ir sym middle ∧
      (middle.undefinedBlocks sym).card < (ir.undefinedBlocks sym).card := by
  obtain ⟨block, found⟩ := Option.isSome_iff_exists.mp present
  have created := phiCreate_eq sym found
  have made := phiCreate_created created
  have smaller : ∀ middle, PhiCreated ir sym b (.instr b block.data.instrs.length) middle →
      middle.undefinedBlocks sym ⊂ ir.undefinedBlocks sym := by
    intro middle made
    refine (Finset.ssubset_iff_of_subset ?_).mpr ⟨b, ?_, ?_⟩
    · intro c inside
      simp only [undefinedBlocks, Finset.mem_filter, made.shape.length, made.flow, VarFlow.define]
        at inside ⊢
      refine ⟨inside.1, ?_⟩
      by_cases here : c = b
      · rw [here]
        exact undefined
      · simpa [Function.update_of_ne here] using inside.2
    · simp [undefinedBlocks, undefined, block?_lt present]
    · simp [undefinedBlocks, made.flow, VarFlow.define]
  have smaller := smaller _ made
  exact ⟨_, _, created, ⟨made.shape, made.preds, smaller.1⟩, Finset.card_lt_card smaller⟩

/-- A function is ready when its predecessors are live and few blocks lack the variable. -/
structure Ready (ir : IR) (sym : Name) (size limit : Nat) : Prop where
  preds : ir.PredsPresent
  length : ir.blocks.length = size
  undefined : (ir.undefinedBlocks sym).card ≤ limit

theorem Ready.grows {sym : Name} {size limit : Nat} (ready : Ready ir sym size limit)
    (grows : Grows ir sym next) : Ready next sym size limit :=
  ⟨grows.predsPresent ready.preds, grows.shape.length.trans ready.length,
    (Finset.card_le_card grows.undefined).trans ready.undefined⟩

/-- Reading each live predecessor returns when every single read does. -/
theorem getVars_returns {sym : Name} {get : IR → BlockRef → Option (Ref × IR)} {size limit : Nat}
    (reads : ∀ (ir : IR) (b : BlockRef), Ready ir sym size limit → (ir.block? b).isSome →
      ∃ r next, get ir b = some (r, next) ∧ Grows ir sym next)
    {preds : List BlockRef} (ready : Ready ir sym size limit)
    (present : ∀ pred ∈ preds, (ir.block? pred).isSome) :
    ∃ refs next, getVars get ir preds = some (refs, next) ∧ Grows ir sym next := by
  induction preds generalizing ir with
  | nil => exact ⟨[], ir, rfl, .refl ir sym⟩
  | cons pred rest ih =>
      obtain ⟨r, middle, first, grows⟩ := reads ir pred ready (present pred List.mem_cons_self)
      obtain ⟨refs, last, others, grows'⟩ := ih (ready.grows grows) (by
        intro other inside
        rw [grows.shape.live]
        exact present other (List.mem_cons_of_mem _ inside))
      exact ⟨r :: refs, last, by simp [getVars, first, others], grows.trans grows'⟩

/-- A search that populates a new phi returns when every single read does. -/
theorem populate_returns {sym : Name} {size : Nat} (limit : Nat)
    (get : IR → BlockRef → Option (Ref × IR))
    (reads : ∀ (ir : IR) (b : BlockRef), Ready ir sym size limit → (ir.block? b).isSome →
      ∃ r next, get ir b = some (r, next) ∧ Grows ir sym next)
    {b : BlockRef} (preds : ir.PredsPresent) (length : ir.blocks.length = size)
    (room : (ir.undefinedBlocks sym).card ≤ limit + 1) (present : (ir.block? b).isSome)
    (undefined : (ir.flow sym).defined b = none) :
    ∃ phi middle next, ir.phiCreate sym b = some (phi, middle) ∧
      phiPopulateWith get middle phi = some next ∧ Grows ir sym next := by
  obtain ⟨phi, middle, created, grows, smaller⟩ := phiCreate_returns present undefined
  have made := phiCreate_created created
  have ready : Ready middle sym size limit :=
    ⟨grows.predsPresent preds, grows.shape.length.trans length, by omega⟩
  have found : middle.instr? phi = some emptyPhi := by
    rw [made.instr?, if_pos rfl]
  have livePhi : (middle.block? b).isSome := by
    rw [grows.shape.live]
    exact present
  obtain ⟨block, here⟩ := Option.isSome_iff_exists.mp livePhi
  have live : ∀ pred ∈ block.preds, (middle.block? pred).isSome := by
    intro pred inside
    exact ready.preds sym b pred (by simpa [flow, here] using inside)
  obtain ⟨refs, last, read, grows'⟩ := getVars_returns reads ready live
  have place := made.home
  cases phi with
  | instr c idx =>
      simp only [home, Option.some.injEq] at place
      subst place
      exact ⟨_, middle, last.modifyInstr (.instr c idx) fun instr => { instr with operands := refs },
        created, by simp [phiPopulateWith, here, found, emptyPhi, read],
        grows.trans (grows'.trans (.modifyInstr last sym _ _))⟩
  | _ => simp [home] at place

/-- A block that gets its definition pays for a whole new walk. -/
theorem search_budget {small large size walked fuel : Nat} (fewer : small ≤ large - 1)
    (some : 0 < large) (bound : large ≤ size)
    (enough : large * (size + 2) + (large - walked) < fuel + 1) :
    small * (size + 2) + (small - ([] : List BlockRef).length) < fuel := by
  obtain ⟨less, rfl⟩ : ∃ less, large = less + 1 := ⟨large - 1, by omega⟩
  have product := Nat.mul_le_mul_right (size + 2) (show small ≤ less by omega)
  rw [Nat.succ_mul] at enough
  rw [List.length_nil]
  omega

/-- The search returns when the fuel covers its walk and every phi it can still create. -/
theorem getVarLoop_returns (sym : Name) (fuel : Nat) {visited : List BlockRef} {b : BlockRef}
    (preds : ir.PredsPresent) (present : (ir.block? b).isSome) (distinct : visited.Nodup)
    (walked : ∀ c ∈ visited, c ∈ ir.undefinedBlocks sym)
    (enough : (ir.undefinedBlocks sym).card * (ir.blocks.length + 2) +
      ((ir.undefinedBlocks sym).card - visited.length) < fuel) :
    ∃ r next, getVarLoop sym fuel ir visited b = some (r, next) ∧ Grows ir sym next := by
  induction fuel generalizing ir visited b with
  | zero => omega
  | succ fuel ih =>
      obtain ⟨block, found⟩ := Option.isSome_iff_exists.mp present
      have defined : (ir.flow sym).defined b = block.defs sym := by simp [flow, found]
      rw [getVarLoop]
      simp only [found, Option.bind_eq_bind, Option.bind_some]
      cases undefined : block.defs sym with
      | some val => exact ⟨val, ir, rfl, .refl ir sym⟩
      | none =>
          rw [undefined] at defined
          have here : b ∈ ir.undefinedBlocks sym := by
            simp [undefinedBlocks, defined, block?_lt present]
          have some : 0 < (ir.undefinedBlocks sym).card := Finset.card_pos.mpr ⟨b, here⟩
          have bound : (ir.undefinedBlocks sym).card ≤ ir.blocks.length := by
            simpa [undefinedBlocks] using
              Finset.card_filter_le (Finset.range ir.blocks.length) fun b => (ir.flow sym).defined b = none
          have populate := populate_returns ((ir.undefinedBlocks sym).card - 1)
            (fun ir pred => getVarLoop sym fuel ir [] pred) (fun other c ready live => by
              refine ih ready.preds live List.nodup_nil (by simp) ?_
              rw [ready.length]
              exact search_budget ready.undefined some bound enough) preds rfl (by omega) present defined
          obtain ⟨phi, middle, last, created, populated, grows⟩ := populate
          cases isSealed : block.sealed with
          | false =>
              obtain ⟨phi, middle, created, grows, _⟩ := phiCreate_returns present defined
              simp only [Bool.false_eq_true, if_false, created, Option.bind_some]
              exact ⟨phi, _, rfl, grows.trans (.pushIncompletePhi middle sym b phi)⟩
          | true =>
              simp only [if_true, created, populated, Option.bind_some]
              split
              · rename_i parent single
                split
                · exact ⟨phi, last, rfl, grows⟩
                · rename_i unseen
                  have live : (ir.block? parent).isSome := preds sym b parent (by simp [flow, found, single])
                  have inside : (b :: visited).toFinset ⊆ ir.undefinedBlocks sym := by
                    intro c seen
                    rcases List.mem_cons.mp (List.mem_toFinset.mp seen) with rfl | seen
                    · exact here
                    · exact walked c seen
                  have distinct' : (b :: visited).Nodup := List.nodup_cons.mpr ⟨unseen, distinct⟩
                  have count := Finset.card_le_card inside
                  rw [List.toFinset_card_of_nodup distinct', List.length_cons] at count
                  refine ih preds live distinct' (fun c seen => inside (List.mem_toFinset.mpr seen)) ?_
                  rw [List.length_cons]
                  omega
              · exact ⟨phi, last, rfl, grows⟩

/-- A read returns whenever its block and all listed predecessors are live. -/
theorem getVar_returns {b : BlockRef} (sym : Name) (preds : ir.PredsPresent)
    (present : (ir.block? b).isSome) :
    ∃ r next, ir.getVar sym b = some (r, next) ∧ Grows ir sym next := by
  refine getVarLoop_returns sym _ preds present List.nodup_nil (by simp) ?_
  have bound : (ir.undefinedBlocks sym).card ≤ ir.blocks.length := by
    simpa [undefinedBlocks] using
      Finset.card_filter_le (Finset.range ir.blocks.length) fun b => (ir.flow sym).defined b = none
  simp only [getVarFuel, List.length_nil, Nat.sub_zero]
  nlinarith [Nat.mul_le_mul_right (ir.blocks.length + 2) bound]

end Dis86.IR
