import Dis86.Opt.Sweep
import Dis86.Opt.MemSymbol

namespace Dis86.Opt
open IR Lib

/-- The value of the latest store to the same operands; the stores are listed from the latest on. The
outer result is missing where the source panics. -/
def prevLookup (ir : IR) (seg off : Ref) : List Ref → Option (Option Ref)
  | [] => some none
  | s :: rest => do
      let store ← ir.instr? s
      if seg ≠ (← store.operands[0]?) then prevLookup ir seg off rest
      else if off ≠ (← store.operands[1]?) then prevLookup ir seg off rest
      else return some (← store.operands[2]?)

/-- The stores that are pending after an instruction. -/
def pendAfter (instr : Instr) (r : Ref) (prevStores : List Ref) : List Ref :=
  let prevStores := if instr.opcode.mayClobberMemory then [] else prevStores
  if instr.opcode.isStore then r :: prevStores else prevStores

def forwardInstr (state : IR × List Ref) (r : Ref) : Option (IR × List Ref) := do
  let (ir, prevStores) := state
  let instr ← ir.instr? r
  let prevStores := pendAfter instr r prevStores
  if !instr.opcode.isLoad then return (ir, prevStores)
  let seg ← instr.operands[0]?
  let off ← instr.operands[1]?
  match ← prevLookup ir seg off prevStores with
  | none => return (ir, prevStores)
  | some value => return (ir.modifyInstr r (toRef value), prevStores)

/-- Nothing is forwarded across blocks. -/
def forwardBlock (ir : IR) (b : BlockRef) : Option IR := do
  let (ir, _) ← (ir.iterInstrs b).foldlM forwardInstr (ir, [])
  return ir

def forwardStoreToLoad (ir : IR) : Option IR := ir.iterBlocks.foldlM forwardBlock ir

/-- Memory operations have their operands. -/
structure MemoryFilled (ir : IR) : Prop where
  loads : ∀ r instr, ir.instr? r = some instr → instr.opcode.isLoad = true → 2 ≤ instr.operands.length
  stores : ∀ r instr, ir.instr? r = some instr → instr.opcode.isStore = true → 3 ≤ instr.operands.length

/-- An instruction at a position of a block. -/
structure At (ir : IR) (b : BlockRef) (p : Nat) (r : Ref) (instr : Instr) : Prop where
  listed : (ir.iterInstrs b)[p]? = some r
  present : ir.instr? r = some instr

/-- A store to the given operands. -/
def StoresTo (instr : Instr) (seg off value : Ref) : Prop :=
  instr.opcode.isStore = true ∧ ∃ rest, instr.operands = seg :: off :: value :: rest

/-- The value of the latest store before a position, where nothing has clobbered the memory since. -/
structure Pending (ir : IR) (b : BlockRef) (s l : Nat) (seg off value : Ref) : Prop where
  before : s < l
  store : ∃ r instr, At ir b s r instr ∧ StoresTo instr seg off value
  latest : ∀ p, s < p → p < l → ∀ r instr, At ir b p r instr → ∀ other, ¬ StoresTo instr seg off other
  unclobbered : ∀ p, s < p → p < l → ∀ r instr, At ir b p r instr →
    instr.opcode.mayClobberMemory = false

/-- A load takes the value of the latest store to its operands. -/
structure Forwards (ir : IR) (b : BlockRef) (s l : Nat) (seg off value : Ref) : Prop where
  pending : Pending ir b s l seg off value
  load : ∃ r instr rest, At ir b l r instr ∧ instr.opcode.isLoad = true ∧
    instr.operands = seg :: off :: rest

section Pending

variable {ir : IR} {b : BlockRef} {l : Nat} {seg off value : Ref}

/-- The pending stores before a position. -/
def pendingAt (ir : IR) (b : BlockRef) : Nat → List Ref
  | 0 => []
  | l + 1 =>
      match (ir.iterInstrs b)[l]?.bind fun r => (ir.instr? r).map fun instr => (r, instr) with
      | some (r, instr) => pendAfter instr r (pendingAt ir b l)
      | none => pendingAt ir b l

theorem pendingAt_succ {r : Ref} {instr : Instr} (here : At ir b l r instr) :
    pendingAt ir b (l + 1) = pendAfter instr r (pendingAt ir b l) := by
  rw [pendingAt, here.listed, Option.bind_some, here.present, Option.map_some]

theorem At.unique {r s : Ref} {instr other : Instr} (first : At ir b l r instr)
    (second : At ir b l s other) : r = s ∧ instr = other := by
  obtain rfl := Option.some.inj (first.listed.symm.trans second.listed)
  obtain rfl := Option.some.inj (first.present.symm.trans second.present)
  exact ⟨rfl, rfl⟩

theorem not_isStore_of_clobbers {op : Opcode} (clobbers : op.mayClobberMemory = true) :
    op.isStore = false := by
  revert clobbers
  cases op <;> simp [Opcode.mayClobberMemory, Opcode.isStore]

/-- A lookup stops at a store to the same operands and passes any other one. -/
theorem prevLookup_cons (filled : MemoryFilled ir) (rest : List Ref) {r : Ref} {instr : Instr}
    (present : ir.instr? r = some instr) (isStore : instr.opcode.isStore = true) :
    (∃ v, StoresTo instr seg off v ∧ prevLookup ir seg off (r :: rest) = some (some v)) ∨
      (∀ v, ¬ StoresTo instr seg off v) ∧ prevLookup ir seg off (r :: rest) = prevLookup ir seg off rest := by
  have long := filled.stores r instr present isStore
  match listed : instr.operands with
  | [] | [_] | [_, _] => simp [listed] at long
  | seg' :: off' :: v :: others =>
      by_cases same : seg = seg' ∧ off = off'
      · obtain ⟨rfl, rfl⟩ := same
        left
        refine ⟨v, ⟨isStore, others, listed⟩, ?_⟩
        simp [prevLookup, present, listed]
      · right
        constructor
        · rintro w ⟨_, rest', operands⟩
          rw [listed] at operands
          simp only [List.cons.injEq] at operands
          exact same ⟨operands.1.symm, operands.2.1.symm⟩
        · by_cases sameSeg : seg = seg'
          · have differ : off ≠ off' := fun sameOff => same ⟨sameSeg, sameOff⟩
            simp [prevLookup, present, listed, sameSeg, differ]
          · simp [prevLookup, present, listed, sameSeg]

/-- The lookup finds what is pending, and it never fails. -/
theorem prevLookup_pendingAt (filled : MemoryFilled ir) (b : BlockRef) (seg off : Ref) (l : Nat)
    (inside : l ≤ (ir.iterInstrs b).length) :
    ∃ found, prevLookup ir seg off (pendingAt ir b l) = some found ∧
      ∀ value, found = some value ↔ ∃ s, Pending ir b s l seg off value := by
  induction l with
  | zero =>
      refine ⟨none, rfl, fun value => ?_⟩
      constructor
      · rintro ⟨⟩
      · rintro ⟨s, pending⟩
        exact absurd pending.before (Nat.not_lt_zero s)
  | succ l hypothesis =>
      obtain ⟨found, looked, exact⟩ := hypothesis (Nat.le_of_succ_le inside)
      have listed := List.getElem?_eq_getElem inside
      obtain ⟨instr, present⟩ := Option.isSome_iff_exists.mp
        (mem_iterInstrs_instr? (List.mem_of_getElem? listed))
      have here : At ir b l (ir.iterInstrs b)[l] instr := ⟨listed, present⟩
      -- a store that stays pending, and one that was pending before
      have keeps : ∀ value, (instr.opcode.mayClobberMemory = false) → (∀ v, ¬ StoresTo instr seg off v) →
          ((∃ s, Pending ir b s (l + 1) seg off value) ↔ ∃ s, Pending ir b s l seg off value) := by
        intro value quiet other
        constructor
        · rintro ⟨s, pending⟩
          have before : s < l := by
            rcases Nat.lt_succ_iff_lt_or_eq.mp pending.before with before | rfl
            · exact before
            · obtain ⟨_, _, isHere, stores⟩ := pending.store
              obtain ⟨rfl, rfl⟩ := here.unique isHere
              exact absurd stores (other value)
          exact ⟨s, before, pending.store, fun p above below => pending.latest p above (by omega),
            fun p above below => pending.unclobbered p above (by omega)⟩
        · rintro ⟨s, pending⟩
          refine ⟨s, Nat.lt_succ_of_lt pending.before, pending.store, ?_, ?_⟩
          · intro p above below r i isAt v
            rcases Nat.lt_succ_iff_lt_or_eq.mp below with below | rfl
            · exact pending.latest p above below r i isAt v
            · obtain ⟨rfl, rfl⟩ := here.unique isAt
              exact other v
          · intro p above below r i isAt
            rcases Nat.lt_succ_iff_lt_or_eq.mp below with below | rfl
            · exact pending.unclobbered p above below r i isAt
            · obtain ⟨rfl, rfl⟩ := here.unique isAt
              exact quiet
      rw [pendingAt_succ here]
      unfold pendAfter
      by_cases clobbers : instr.opcode.mayClobberMemory = true
      · have notStore := not_isStore_of_clobbers clobbers
        rw [if_pos clobbers, notStore]
        refine ⟨none, rfl, fun value => ?_⟩
        constructor
        · rintro ⟨⟩
        · rintro ⟨s, pending⟩
          exfalso
          rcases Nat.lt_succ_iff_lt_or_eq.mp pending.before with before | rfl
          · have quiet := pending.unclobbered l before (Nat.lt_succ_self l) _ instr here
            rw [clobbers] at quiet
            cases quiet
          · obtain ⟨_, _, isHere, stores, _⟩ := pending.store
            obtain ⟨rfl, rfl⟩ := here.unique isHere
            rw [notStore] at stores
            cases stores
      · have quiet : instr.opcode.mayClobberMemory = false := Bool.not_eq_true _ ▸ clobbers
        rw [if_neg clobbers]
        by_cases isStore : instr.opcode.isStore = true
        · rw [if_pos isStore]
          rcases prevLookup_cons filled (pendingAt ir b l) present isStore with
            ⟨v, stores, stops⟩ | ⟨other, passes⟩
          · refine ⟨some v, stops, fun value => ?_⟩
            constructor
            · intro same
              obtain rfl := Option.some.inj same
              refine ⟨l, Nat.lt_succ_self l, ⟨_, instr, here, stores⟩, ?_, ?_⟩
              · intro p above below
                omega
              · intro p above below
                omega
            · rintro ⟨s, pending⟩
              rcases Nat.lt_succ_iff_lt_or_eq.mp pending.before with before | rfl
              · exact absurd stores (pending.latest l before (Nat.lt_succ_self l) _ instr here v)
              · obtain ⟨_, _, isHere, _, rest, operands⟩ := pending.store
                obtain ⟨rfl, rfl⟩ := here.unique isHere
                obtain ⟨_, rest', operands'⟩ := stores
                rw [operands] at operands'
                simp only [List.cons.injEq] at operands'
                rw [operands'.2.2.1]
          · exact ⟨found, passes.trans looked, fun value =>
              (exact value).trans (keeps value quiet other).symm⟩
        · have other : ∀ v, ¬ StoresTo instr seg off v := fun v stores => isStore stores.1
          rw [if_neg isStore]
          exact ⟨found, looked, fun value => (exact value).trans (keeps value quiet other).symm⟩

/-- Only one store is pending for given operands. -/
theorem Pending.unique {s t : Nat} {other : Ref} (first : Pending ir b s l seg off value)
    (second : Pending ir b t l seg off other) : value = other := by
  obtain ⟨_, _, isFirst, stores⟩ := first.store
  obtain ⟨_, _, isSecond, stores'⟩ := second.store
  rcases Nat.lt_trichotomy s t with less | same | more
  · exact absurd stores' (first.latest t less second.before _ _ isSecond other)
  · subst same
    obtain ⟨rfl, rfl⟩ := isFirst.unique isSecond
    obtain ⟨_, rest, operands⟩ := stores
    obtain ⟨_, rest', operands'⟩ := stores'
    rw [operands] at operands'
    simp only [List.cons.injEq] at operands'
    exact operands'.2.2.1
  · exact absurd stores (second.latest s more first.before _ _ isFirst value)

theorem mem_pendingAt {l : Nat} {s : Ref} (inside : s ∈ pendingAt ir b l) :
    ∃ instr, ir.instr? s = some instr ∧ instr.opcode.isStore = true := by
  induction l with
  | zero => cases inside
  | succ l hypothesis =>
      unfold pendingAt at inside
      split at inside
      · rename_i r instr found
        obtain ⟨r', _, isPair⟩ := Option.bind_eq_some_iff.mp found
        obtain ⟨instr', present, same⟩ := Option.map_eq_some_iff.mp isPair
        obtain ⟨rfl, rfl⟩ := Prod.mk.inj same
        have older : s ∈ (if instr'.opcode.mayClobberMemory then [] else pendingAt ir b l) →
            ∃ instr, ir.instr? s = some instr ∧ instr.opcode.isStore = true := by
          split
          · exact fun none => absurd none List.not_mem_nil
          · exact hypothesis
        simp only [pendAfter] at inside
        by_cases isStore : instr'.opcode.isStore = true
        · rw [if_pos isStore] at inside
          rcases List.mem_cons.mp inside with rfl | inside
          · exact ⟨instr', present, isStore⟩
          · exact older inside
        · rw [if_neg isStore] at inside
          exact older inside
      · exact hypothesis inside

theorem prevLookup_congr {cur : IR} {stores : List Ref}
    (same : ∀ s ∈ stores, cur.instr? s = ir.instr? s) :
    prevLookup cur seg off stores = prevLookup ir seg off stores := by
  induction stores with
  | nil => rfl
  | cons s rest hypothesis =>
      rw [prevLookup, prevLookup, same s List.mem_cons_self,
        hypothesis fun t inside => same t (List.mem_cons_of_mem s inside)]

end Pending

section Pass

variable {ir cur : IR} {b : BlockRef} {r : Ref} {instr : Instr}

/-- Only loads change. -/
def KeepsOthers (ir cur : IR) : Prop :=
  ∀ r instr, ir.instr? r = some instr → instr.opcode.isLoad = false → cur.instr? r = some instr

/-- A load that takes the value of a store refers to it, and every other instruction stays. -/
def Forwarded (ir next : IR) (b : BlockRef) (l : Nat) (r : Ref) (instr : Instr) : Prop :=
  (∃ s seg off value, Forwards ir b s l seg off value ∧ next.instr? r = some (toRef value instr)) ∨
    (∀ s seg off value, ¬ Forwards ir b s l seg off value) ∧ next.instr? r = some instr

theorem forwardInstr_forwarded (filled : MemoryFilled ir) {l : Nat} (here : At ir b l r instr)
    (others : KeepsOthers ir cur) (same : cur.instr? r = ir.instr? r) :
    ∃ next, forwardInstr (cur, pendingAt ir b l) r = some (next, pendingAt ir b (l + 1)) ∧
      SameOrder cur next ∧ KeepsOthers ir next ∧ (∀ s ≠ r, next.instr? s = cur.instr? s) ∧
      Forwarded ir next b l r instr := by
  have inside : l < (ir.iterInstrs b).length := (List.getElem?_eq_some_iff.mp here.listed).1
  rw [pendingAt_succ here]
  unfold forwardInstr
  simp only [same, here.present, Option.bind_eq_bind, Option.bind_some]
  by_cases isLoad : instr.opcode.isLoad = true
  · have pending : pendAfter instr r (pendingAt ir b l) = pendingAt ir b l := by
      have quiet : instr.opcode.mayClobberMemory = false ∧ instr.opcode.isStore = false := by
        revert isLoad
        cases instr.opcode <;> simp [Opcode.isLoad, Opcode.mayClobberMemory, Opcode.isStore]
      simp only [pendAfter, quiet.1, quiet.2, Bool.false_eq_true, if_false]
    have long := filled.loads r instr here.present isLoad
    match operands : instr.operands with
    | [] | [_] => simp [operands] at long
    | seg :: off :: rest =>
        obtain ⟨found, looked, exact⟩ := prevLookup_pendingAt filled b seg off l (Nat.le_of_lt inside)
        have looked' : prevLookup cur seg off (pendingAt ir b l) = some found := by
          rw [← looked]
          apply prevLookup_congr
          intro s isPending
          obtain ⟨store, present, isStore⟩ := mem_pendingAt isPending
          rw [present]
          apply others s store present
          revert isStore
          cases store.opcode <;> simp [Opcode.isLoad, Opcode.isStore]
        have load : ∃ r instr rest, At ir b l r instr ∧ instr.opcode.isLoad = true ∧
            instr.operands = seg :: off :: rest := ⟨r, instr, rest, here, isLoad, operands⟩
        simp only [isLoad, pending, looked', Bool.not_true, Bool.false_eq_true, if_false,
          List.getElem?_cons_zero, List.getElem?_cons_succ, Option.bind_some]
        cases found with
        | none =>
            refine ⟨cur, rfl, .refl cur, others, fun _ _ => rfl, .inr ⟨?_, ?_⟩⟩
            · intro s seg' off' value forwards
              obtain ⟨_, _, _, isHere, _, operands'⟩ := forwards.load
              obtain ⟨rfl, rfl⟩ := here.unique isHere
              rw [operands] at operands'
              simp only [List.cons.injEq] at operands'
              obtain ⟨rfl, rfl, _⟩ := operands'
              have known := (exact value).mpr ⟨s, forwards.pending⟩
              cases known
            · rw [same, here.present]
        | some value =>
            obtain ⟨s, isPending⟩ := (exact value).mp rfl
            refine ⟨cur.modifyInstr r (toRef value), rfl, .modifyInstr cur r _, ?_, ?_, .inl ?_⟩
            · intro t other present notLoad
              rw [instr?_modifyInstr, if_neg, others t other present notLoad]
              rintro rfl
              rw [here.present] at present
              obtain rfl := Option.some.inj present
              rw [isLoad] at notLoad
              cases notLoad
            · intro t other
              rw [instr?_modifyInstr, if_neg other]
            · refine ⟨s, seg, off, value, ⟨isPending, load⟩, ?_⟩
              rw [instr?_modifyInstr, if_pos rfl, same, here.present, Option.map_some]
  · have notLoad : instr.opcode.isLoad = false := Bool.not_eq_true _ ▸ isLoad
    simp only [notLoad, Bool.not_false, if_true]
    refine ⟨cur, rfl, .refl cur, others, fun _ _ => rfl, .inr ⟨?_, by rw [same, here.present]⟩⟩
    intro s seg off value forwards
    obtain ⟨_, _, _, isHere, isLoad', _⟩ := forwards.load
    obtain ⟨rfl, rfl⟩ := here.unique isHere
    exact isLoad isLoad'

theorem Forwarded.of_same {next later : IR} {l : Nat} (forwarded : Forwarded ir next b l r instr)
    (same : later.instr? r = next.instr? r) : Forwarded ir later b l r instr := by
  unfold Forwarded
  rw [same]
  exact forwarded

theorem forwardInstrs_forwarded (filled : MemoryFilled ir) (front : List Ref) {rest : List Ref}
    (split : ir.iterInstrs b = front ++ rest) (others : KeepsOthers ir cur)
    (same : ∀ r ∈ rest, cur.instr? r = ir.instr? r) :
    ∃ next stores, rest.foldlM forwardInstr (cur, pendingAt ir b front.length) = some (next, stores) ∧
      SameOrder cur next ∧ KeepsOthers ir next ∧ (∀ s ∉ rest, next.instr? s = cur.instr? s) ∧
      ∀ l r instr, front.length ≤ l → At ir b l r instr → Forwarded ir next b l r instr := by
  induction rest generalizing front cur with
  | nil =>
      refine ⟨cur, _, rfl, .refl cur, others, fun _ _ => rfl, fun l r instr beyond here => ?_⟩
      have inside := (List.getElem?_eq_some_iff.mp here.listed).1
      rw [split, List.append_nil] at inside
      omega
  | cons r rest hypothesis =>
      have listed : (ir.iterInstrs b)[front.length]? = some r := by
        rw [split]
        simp
      obtain ⟨instr, present⟩ := Option.isSome_iff_exists.mp
        (mem_iterInstrs_instr? (List.mem_of_getElem? listed))
      have here : At ir b front.length r instr := ⟨listed, present⟩
      have distinct : r ∉ rest := by
        have nodup := iterInstrs_nodup ir b
        rw [split] at nodup
        exact (List.nodup_cons.mp (List.nodup_append.mp nodup).2.1).1
      obtain ⟨middle, ran, order, others', frame, first⟩ := forwardInstr_forwarded filled here others
        (same r List.mem_cons_self)
      have length : (front ++ [r]).length = front.length + 1 := by simp
      obtain ⟨next, stores, later, order', others'', frame', rest'⟩ := hypothesis
        (front ++ [r]) (by rw [split]; simp) others' (fun s inside => by
          rw [frame s (fun isR => distinct (isR ▸ inside))]
          exact same s (List.mem_cons_of_mem r inside))
      rw [length] at later rest'
      refine ⟨next, stores, by rw [List.foldlM_cons, ran]; exact later, order.trans order', others'', ?_, ?_⟩
      · intro s outside
        obtain ⟨notFirst, notLater⟩ := not_or.mp (mt List.mem_cons.mpr outside)
        rw [frame' s notLater, frame s notFirst]
      · intro l s i beyond isAt
        rcases Nat.eq_or_lt_of_le beyond with rfl | beyond
        · obtain ⟨rfl, rfl⟩ := here.unique isAt
          exact first.of_same (frame' r distinct)
        · exact rest' l s i beyond isAt

/-- The pass forwards exactly what is pending, and it never fails. -/
theorem forwardStoreToLoad_forwarded (filled : MemoryFilled ir) :
    ∃ next, forwardStoreToLoad ir = some next ∧
      ∀ b l r instr, At ir b l r instr → Forwarded ir next b l r instr := by
  have all : ∀ (bs : List BlockRef) (cur : IR), bs.Nodup → SameOrder ir cur → KeepsOthers ir cur →
      (∀ b ∈ bs, ∀ r ∈ ir.iterInstrs b, cur.instr? r = ir.instr? r) →
      ∃ next, bs.foldlM forwardBlock cur = some next ∧
        (∀ b ∉ bs, ∀ r ∈ ir.iterInstrs b, next.instr? r = cur.instr? r) ∧
        ∀ b ∈ bs, ∀ l r instr, At ir b l r instr → Forwarded ir next b l r instr := by
    intro bs
    induction bs with
    | nil => exact fun cur _ _ _ _ => ⟨cur, rfl, fun _ _ _ _ => rfl, fun b inside => by cases inside⟩
    | cons b bs hypothesis =>
        intro cur distinct order others same
        obtain ⟨fresh, distinct⟩ := List.nodup_cons.mp distinct
        obtain ⟨middle, stores, ran, order', others', frame, here⟩ := forwardInstrs_forwarded
          filled [] rfl others (same b List.mem_cons_self)
        have away : ∀ c ≠ b, ∀ r ∈ ir.iterInstrs c, middle.instr? r = cur.instr? r := by
          intro c other r listed
          apply frame
          intro inside
          exact other (Option.some.inj ((mem_iterInstrs listed).symm.trans (mem_iterInstrs inside)))
        have isBlock : forwardBlock cur b = some middle := by
          unfold forwardBlock
          rw [order.instrs b]
          exact congrArg (fun ran => ran.bind fun state => some state.1) ran
        obtain ⟨next, later, frame', rest⟩ := hypothesis middle distinct (order.trans order') others'
          (fun c inside r listed => by
            rw [away c (fun same => fresh (same ▸ inside)) r listed]
            exact same c (List.mem_cons_of_mem b inside) r listed)
        refine ⟨next, by rw [List.foldlM_cons, isBlock]; exact later, ?_, ?_⟩
        · intro c outside r listed
          obtain ⟨notFirst, notLater⟩ := not_or.mp (mt List.mem_cons.mpr outside)
          rw [frame' c notLater r listed, away c notFirst r listed]
        · intro c inside l r instr isAt
          rcases List.mem_cons.mp inside with rfl | inside
          · apply (here l r instr (Nat.zero_le l) isAt).of_same
            exact frame' c fresh r (List.mem_of_getElem? isAt.listed)
          · exact rest c inside l r instr isAt
  obtain ⟨next, ran, _, forwarded⟩ := all ir.iterBlocks ir (List.nodup_range.filter _) (.refl ir)
    (fun r instr present _ => present) (fun _ _ _ _ => rfl)
  refine ⟨next, ran, fun b l r instr isAt => forwarded b ?_ l r instr isAt⟩
  have listed := List.mem_of_getElem? isAt.listed
  apply mem_iterBlocks.mpr
  unfold iterInstrs at listed
  cases found : ir.block? b with
  | some block => rfl
  | none => simp [found] at listed

end Pass

end Dis86.Opt
