import Dis86.Opt.MemSymbol

namespace Dis86.Opt
open Lib IR

variable {ir cur next : IR} {store : Name → BlockRef → Option Ref} {owner : Ref → Option Name}

theorem localWord?_symbols (same : cur.symbols = ir.symbols) (instr : Instr) :
    localWord? cur instr = localWord? ir instr := by
  simp only [localWord?, same]

/-- Every instruction that passes the test of the pass is an access. -/
theorem access?_of_localWord? (slots : LocalSlots ir) {r : Ref} {instr : Instr} {name : Name}
    (present : ir.instr? r = some instr)
    (opcode : instr.opcode = .writeVar16 ∨ instr.opcode = .readVar16)
    (word : localWord? ir instr = some (some name)) :
    ∃ slot access, access? ir r = some access ∧ name = localName ir slot ∧
      (access = .write slot r ∧ instr.opcode = .writeVar16 ∨
        access = .read slot r ∧ instr.opcode = .readVar16) := by
  have asAccess : ∃ access, access? ir r = some access := by
    simp only [localWord?, Option.bind_eq_bind, Option.bind_eq_some_iff] at word
    obtain ⟨op, first, word⟩ := word
    cases op with
    | symbol symref =>
        simp only at word
        split at word
        · rename_i isLocal
          obtain ⟨noEscape, region, symbol, defined, size⟩ :=
            slots.whole r instr symref present opcode first isLocal
          rcases opcode with isWrite | isRead
          · exact ⟨.write symref.id.idx r, by
              simp [access?, present, noEscape, first, isLocal, region, defined, size, isWrite]⟩
          · exact ⟨.read symref.id.idx r, by
              simp [access?, present, noEscape, first, isLocal, region, defined, size, isRead]⟩
        · simp at word
    | _ => simp at word
  obtain ⟨access, found⟩ := asAccess
  obtain ⟨_, instr', slot, present', _, _, word', kind⟩ := access?_eq found
  rw [present, Option.some.injEq] at present'
  subst present'
  rw [word, Option.some.injEq, Option.some.injEq] at word'
  exact ⟨slot, access, found, word', kind⟩

/-- The three ways in which the pass treats an instruction. -/
inductive LiftTurn (ir : IR) (b : BlockRef) (cur : IR) (r : Ref) (next : IR) : Prop where
  | skip (plain : access? ir r = none) (same : next = cur)
  | write (slot : Nat) (value : Ref) (found : access? ir r = some (.write slot r))
      (stored : (cur.modifyInstr r (toRef value)).setVar (localName ir slot) b r = some next)
  | read (slot : Nat) (vref : Ref) (middle : IR) (found : access? ir r = some (.read slot r))
      (answered : cur.getVar (localName ir slot) b = some (vref, middle))
      (same : next = middle.modifyInstr r (toRef vref))

theorem liftInstr_turn (slots : LocalSlots ir) {b : BlockRef} {r : Ref} {instr : Instr}
    (symbols : cur.symbols = ir.symbols) (present : ir.instr? r = some instr)
    (here : cur.instr? r = some instr) (result : liftInstr b cur r = some next) :
    LiftTurn ir b cur r next := by
  simp only [liftInstr, here, Option.bind_eq_bind, Option.bind_some] at result
  split at result
  · rename_i escapes
    simp only [Option.pure_def, Option.some.injEq] at result
    refine .skip ?_ result.symm
    cases found : access? ir r with
    | none => rfl
    | some access =>
        obtain ⟨_, instr', _, present', noEscape, _⟩ := access?_eq found
        rw [present, Option.some.injEq] at present'
        subst present'
        exact absurd noEscape escapes
  · have plainOf : (∀ name, localWord? ir instr ≠ some (some name)) ∨
        (instr.opcode ≠ .writeVar16 ∧ instr.opcode ≠ .readVar16) → access? ir r = none := by
      intro apart
      cases found : access? ir r with
      | none => rfl
      | some access =>
          obtain ⟨_, instr', slot, present', _, _, word, kind⟩ := access?_eq found
          rw [present, Option.some.injEq] at present'
          subst present'
          rcases apart with never | ⟨notWrite, notRead⟩
          · exact absurd word (never _)
          · rcases kind with ⟨_, isWrite⟩ | ⟨_, isRead⟩
            · exact absurd isWrite notWrite
            · exact absurd isRead notRead
    split at result
    · rename_i isWrite
      simp only [Option.bind_eq_some_iff] at result
      obtain ⟨word, isWord, result⟩ := result
      rw [localWord?_symbols symbols] at isWord
      cases word with
      | none =>
          simp only [Option.pure_def, Option.some.injEq] at result
          exact .skip (plainOf (.inl fun name => by simp [isWord])) result.symm
      | some name =>
          simp only [Option.bind_eq_some_iff] at result
          obtain ⟨value, _, stored⟩ := result
          obtain ⟨slot, access, found, rfl, kind⟩ :=
            access?_of_localWord? slots present (.inl isWrite) isWord
          rcases kind with ⟨rfl, _⟩ | ⟨_, isRead⟩
          · exact .write slot value found stored
          · simp [isWrite] at isRead
    · rename_i isRead
      simp only [Option.bind_eq_some_iff] at result
      obtain ⟨word, isWord, result⟩ := result
      rw [localWord?_symbols symbols] at isWord
      cases word with
      | none =>
          simp only [Option.pure_def, Option.some.injEq] at result
          exact .skip (plainOf (.inl fun name => by simp [isWord])) result.symm
      | some name =>
          simp only [Option.bind_eq_some_iff, Option.pure_def, Option.some.injEq, Prod.exists]
            at result
          obtain ⟨vref, middle, answered, rfl⟩ := result
          obtain ⟨slot, access, found, rfl, kind⟩ :=
            access?_of_localWord? slots present (.inr isRead) isWord
          rcases kind with ⟨_, isWrite⟩ | ⟨rfl, _⟩
          · simp [isRead] at isWrite
          · exact .read slot vref middle found answered rfl
    · rename_i notWrite notRead
      simp only [Option.pure_def, Option.some.injEq] at result
      exact .skip (plainOf (.inr ⟨notWrite, notRead⟩)) result.symm

/-- What an access becomes after the accesses before it in its block. -/
def Rendered (ir cur : IR) (owner : Ref → Option Name) (b : BlockRef) (before : List Access) :
    Access → Prop
  | .write _ r => ∃ instr, cur.instr? r = some instr ∧ instr.opcode = .ref
  | .read slot r => ∃ instr vref, cur.instr? r = some instr ∧ instr.opcode = .ref ∧
      instr.operands = [vref] ∧
      match lastWrite slot before with
      | some w => vref = w
      | none => owner vref = some (localName ir slot) ∧ home vref = some b

/-- The invariant of the pass. The seen instructions of a block form a prefix of it. -/
structure Lifting (ir cur : IR) (store : Name → BlockRef → Option Ref) (owner : Ref → Option Name)
    (seen : BlockRef → List Ref) : Prop where
  ssa : SsaInv cur store owner []
  isOpen : ∀ sym b, (cur.flow sym).closed b = false
  preds : ∀ sym, (cur.flow sym).preds = (ir.flow sym).preds
  shape : SameShape ir cur
  order : ∀ b, ∃ phis, cur.iterInstrs b = phis ++ ir.iterInstrs b ∧ ∀ r ∈ phis, (owner r).isSome
  older : ∀ r instr, ir.instr? r = some instr → owner r = none
  untouched : ∀ r b instr, ir.instr? r = some instr → home r = some b → r ∉ seen b →
    cur.instr? r = some instr
  stores : ∀ slot b, slot < ir.symbols.locals.length →
    store (localName ir slot) b = lastWrite slot ((seen b).filterMap (access? ir))
  lifted : ∀ b before access after, (seen b).filterMap (access? ir) = before ++ access :: after →
    Rendered ir cur owner b before access
  exist : ∀ b, ∀ r ∈ seen b, (ir.instr? r).isSome ∧ home r = some b
  present : ∀ r instr, ir.instr? r = some instr → (cur.instr? r).isSome

theorem Rendered.mono {owner' : Ref → Option Name} {b : BlockRef} {before : List Access}
    {access : Access} (rendered : Rendered ir cur owner b before access)
    (kept : ∀ instr, cur.instr? access.ref = some instr → next.instr? access.ref = some instr)
    (owned : ∀ sym r, owner r = some sym → owner' r = some sym) :
    Rendered ir next owner' b before access := by
  cases access with
  | write slot r =>
      obtain ⟨instr, found, isRef⟩ := rendered
      exact ⟨instr, kept instr found, isRef⟩
  | read slot r =>
      obtain ⟨instr, vref, found, isRef, operands, answer⟩ := rendered
      refine ⟨instr, vref, kept instr found, isRef, operands, ?_⟩
      split at answer
      · exact answer
      · exact ⟨owned _ vref answer.1, answer.2⟩

/-- A read between two accesses keeps the invariant. -/
theorem Lifting.evolve {seen : BlockRef → List Ref} {owner' : Ref → Option Name}
    {read : Option Name} (inv : Lifting ir cur store owner seen)
    (ssa : SsaInv next store owner' []) (evolves : Evolves read cur owner next owner') :
    Lifting ir next store owner' seen where
  ssa := ssa
  isOpen := fun sym b => by
    rw [evolves.closed]
    exact inv.isOpen sym b
  preds := fun sym => (evolves.preds sym).trans (inv.preds sym)
  shape := inv.shape.trans evolves.shape
  order := fun b => by
    obtain ⟨phis, order, owned⟩ := inv.order b
    obtain ⟨phis', order', owned'⟩ := evolves.order b
    refine ⟨phis' ++ phis, by rw [order', order, List.append_assoc], fun r inside => ?_⟩
    rcases List.mem_append.mp inside with inside | inside
    · exact owned' r inside
    · obtain ⟨sym, owns⟩ := Option.isSome_iff_exists.mp (owned r inside)
      rw [evolves.owned sym r owns]
      rfl
  older := fun r instr present => by
    have free := inv.older r instr present
    cases owned' : owner' r with
    | none => rfl
    | some sym =>
        have found := inv.present r instr present
        obtain ⟨now, here⟩ := Option.isSome_iff_exists.mp found
        have kept := (evolves.kept r now here free).2
        simp [kept] at owned'
  untouched := fun r b instr present place unseen => by
    have here := inv.untouched r b instr present place unseen
    exact (evolves.kept r instr here (inv.older r instr present)).1
  stores := inv.stores
  lifted := fun b before access after split => by
    refine (inv.lifted b before access after split).mono (fun instr found => ?_) evolves.owned
    have inside : access ∈ (seen b).filterMap (access? ir) := by simp [split]
    obtain ⟨r, listed, isAccess⟩ := List.mem_filterMap.mp inside
    obtain ⟨same, instr', _, present, _⟩ := access?_eq isAccess
    rw [same] at found ⊢
    exact (evolves.kept r instr found (inv.older r instr' present)).1
  exist := inv.exist
  present := fun r instr present => by
    obtain ⟨now, here⟩ := Option.isSome_iff_exists.mp (inv.present r instr present)
    rw [(evolves.kept r now here (inv.older r instr present)).1]
    rfl

theorem split_last {α : Type} {earlier before after : List α} {last middle : α}
    (split : earlier ++ [last] = before ++ middle :: after) :
    (after = [] ∧ middle = last ∧ before = earlier) ∨
      ∃ rest, after = rest ++ [last] ∧ earlier = before ++ middle :: rest := by
  rcases List.eq_nil_or_concat after with rfl | ⟨rest, final, rfl⟩
  · left
    have parts := List.append_inj' split rfl
    simp only [List.cons.injEq, and_true] at parts
    exact ⟨rfl, parts.2.symm, parts.1.symm⟩
  · right
    rw [List.concat_eq_append, ← List.cons_append, ← List.append_assoc] at split
    have parts := List.append_inj' split rfl
    simp only [List.cons.injEq, and_true] at parts
    exact ⟨rest, by rw [List.concat_eq_append, parts.2], parts.1⟩

/-- The next instruction of a block joins the seen ones once it is rendered. -/
theorem Lifting.extend {seen : BlockRef → List Ref} {store' : Name → BlockRef → Option Ref}
    {b : BlockRef} {r : Ref} {instr : Instr} (inv : Lifting ir cur store owner seen)
    (present : ir.instr? r = some instr) (place : home r = some b) (unseen : r ∉ seen b)
    (ssa : SsaInv next store' owner []) (closed : ∀ sym, (next.flow sym).closed = (cur.flow sym).closed)
    (preds : ∀ sym, (next.flow sym).preds = (cur.flow sym).preds) (shape : SameShape cur next)
    (order : ∀ c, next.iterInstrs c = cur.iterInstrs c)
    (others : ∀ s, s ≠ r → next.instr? s = cur.instr? s) (exists' : (next.instr? r).isSome)
    (stores : ∀ slot c, slot < ir.symbols.locals.length → store' (localName ir slot) c =
      if c = b then ((access? ir r).bind (Access.writes slot)).or (store (localName ir slot) c)
      else store (localName ir slot) c)
    (rendered : ∀ access, access? ir r = some access →
      Rendered ir next owner b ((seen b).filterMap (access? ir)) access) :
    Lifting ir next store' owner (Function.update seen b (seen b ++ [r])) := by
  have grow : ∀ c s, s ∉ Function.update seen b (seen b ++ [r]) c → home s = some c →
      s ∉ seen c ∧ s ≠ r := by
    intro c s out at'
    by_cases here : c = b
    · subst here
      simp only [Function.update_self, List.mem_append, List.mem_singleton, not_or] at out
      exact out
    · rw [Function.update_of_ne here] at out
      refine ⟨out, ?_⟩
      rintro rfl
      rw [place, Option.some.injEq] at at'
      exact here at'.symm
  refine ⟨ssa, ?_, ?_, inv.shape.trans shape, ?_, inv.older, ?_, ?_, ?_, ?_, ?_⟩
  · intro sym c
    rw [closed]
    exact inv.isOpen sym c
  · intro sym
    rw [preds, inv.preds]
  · intro c
    rw [order]
    exact inv.order c
  · intro s c instr' present' at' out
    obtain ⟨unseen', different⟩ := grow c s out at'
    rw [others s different]
    exact inv.untouched s c instr' present' at' unseen'
  · intro slot c inside
    rw [stores slot c inside]
    by_cases here : c = b
    · subst here
      rw [if_pos rfl, Function.update_self, List.filterMap_append, inv.stores slot c inside]
      cases found : access? ir r with
      | none => simp [found]
      | some access => simp [found, lastWrite_append]
    · rw [if_neg here, Function.update_of_ne here]
      exact inv.stores slot c inside
  · intro c before access after split
    have old : ∀ rest, (seen c).filterMap (access? ir) = before ++ access :: rest →
        Rendered ir next owner c before access := by
      intro rest split
      refine (inv.lifted c before access rest split).mono (fun instr found => ?_) fun _ _ h => h
      have inside : access ∈ (seen c).filterMap (access? ir) := by simp [split]
      obtain ⟨s, listed, isAccess⟩ := List.mem_filterMap.mp inside
      obtain ⟨same, _⟩ := access?_eq isAccess
      rw [same] at found ⊢
      have different : s ≠ r := by
        rintro rfl
        have at' := (inv.exist c s listed).2
        rw [place, Option.some.injEq] at at'
        subst at'
        exact unseen listed
      rw [others s different]
      exact found
    by_cases here : c = b
    · subst here
      rw [Function.update_self, List.filterMap_append] at split
      cases found : access? ir r with
      | none =>
          simp only [List.filterMap_cons, found, List.filterMap_nil, List.append_nil] at split
          exact old after split
      | some last =>
          simp only [List.filterMap_cons, found, List.filterMap_nil] at split
          rcases split_last split with ⟨_, rfl, rfl⟩ | ⟨rest, _, split⟩
          · exact rendered access found
          · exact old rest split
    · rw [Function.update_of_ne here] at split
      exact old after split
  · intro c s listed
    by_cases here : c = b
    · subst here
      rw [Function.update_self] at listed
      rcases List.mem_append.mp listed with listed | last
      · exact inv.exist c s listed
      · simp only [List.mem_singleton] at last
        subst last
        exact ⟨by simp [present], place⟩
    · rw [Function.update_of_ne here] at listed
      exact inv.exist c s listed
  · intro s instr' present'
    by_cases same : s = r
    · rw [same]
      exact exists'
    · rw [others s same]
      exact inv.present s instr' present'

/-- An access is no phi, so nobody owns it, and changing it keeps the invariant of the phis. -/
theorem ssa_modifyInstr {r : Ref} (f : Instr → Instr) (ssa : SsaInv cur store owner [])
    (free : owner r = none) : SsaInv (cur.modifyInstr r f) store owner [] := by
  refine ssa.of_views (flow_modifyInstr cur r f) ?_ ?_
  · funext b
    exact incompletePhis_modifyInstr cur r f b
  · intro s instr found owns
    have different : s ≠ r := by
      rintro rfl
      exact owns free
    rw [instr?_modifyInstr, if_neg different]
    exact found

/-- One instruction of a block is lifted. -/
theorem Lifting.liftInstr (slots : LocalSlots ir) {seen : BlockRef → List Ref} {b : BlockRef} {r : Ref}
    {instr : Instr} (inv : Lifting ir cur store owner seen) (present : ir.instr? r = some instr)
    (place : home r = some b) (unseen : r ∉ seen b) (result : liftInstr b cur r = some next) :
    ∃ store' owner', Lifting ir next store' owner' (Function.update seen b (seen b ++ [r])) := by
  have here := inv.untouched r b instr present place unseen
  cases liftInstr_turn slots inv.shape.symbols present here result with
  | skip plain same =>
      subst same
      refine ⟨store, owner, inv.extend present place unseen inv.ssa (fun _ => rfl) (fun _ => rfl)
        (.refl _) (fun _ => rfl) (fun _ _ => rfl) (by simp [here]) ?_ ?_⟩
      · intro slot c _
        simp [plain]
      · intro access found
        simp [plain] at found
  | write slot value found stored =>
      have free := inv.older r instr present
      have ssa := ssa_modifyInstr (toRef value) inv.ssa free
      obtain ⟨flow, flowOther, instrs, waiting⟩ := setVar_view stored
      have flows := flow_modifyInstr cur r (toRef value)
      have edges : ∀ sym, (next.flow sym).closed = (cur.flow sym).closed ∧
          (next.flow sym).preds = (cur.flow sym).preds := by
        intro sym
        by_cases same : sym = localName ir slot
        · rw [same, flow, flows]
          exact ⟨rfl, rfl⟩
        · rw [flowOther sym same, flows]
          exact ⟨rfl, rfl⟩
      have now : next.instr? r = some (toRef value instr) := by
        rw [instrs, instr?_modifyInstr, if_pos rfl, here]
        rfl
      have slotIn : slot < ir.symbols.locals.length := by
        obtain ⟨_, _, other, _, _, inside, _, ⟨same, _⟩ | ⟨same, _⟩⟩ := access?_eq found
        · simp only [Access.write.injEq, and_true] at same
          rwa [same]
        · simp at same
      refine ⟨fun sym c => if localName ir slot = sym ∧ b = c then some r else store sym c, owner,
        inv.extend present place unseen (ssa.define (.inl ?_) (fun _ _ => rfl) flow flowOther waiting
          instrs) (fun sym => (edges sym).1) (fun sym => (edges sym).2)
        ((SameShape.modifyInstr cur r _).trans (.setVar stored)) ?_ ?_ (by simp [now]) ?_ ?_⟩
      · intro c isSealed
        rw [flows, inv.isOpen] at isSealed
        simp at isSealed
      · intro c
        rw [iterInstrs_setVar stored, iterInstrs_modifyInstr]
      · intro s different
        rw [instrs, instr?_modifyInstr, if_neg different]
      · intro other c otherIn
        simp only [found, Option.bind_some, Access.writes]
        by_cases same : slot = other
        · subst same
          by_cases at' : c = b
          · simp [at']
          · have away : b ≠ c := fun h => at' h.symm
            simp [at', away]
        · have different : localName ir slot ≠ localName ir other := by
            intro names
            exact same (slots.localName_injective slotIn otherIn names)
          simp [same, different]
      · intro access isAccess
        rw [found, Option.some.injEq] at isAccess
        subst isAccess
        exact ⟨toRef value instr, now, rfl⟩
  | read slot vref middle found answered same =>
      subst same
      obtain ⟨owner', ssa, evolves, resolved⟩ := getVar_sound inv.ssa answered
      have mid := inv.evolve ssa evolves
      have free := mid.older r instr present
      have atMiddle := mid.untouched r b instr present place unseen
      have now : (middle.modifyInstr r (toRef vref)).instr? r = some (toRef vref instr) := by
        rw [instr?_modifyInstr, if_pos rfl, atMiddle]
        rfl
      have slotIn : slot < ir.symbols.locals.length := by
        obtain ⟨_, _, other, _, _, inside, _, ⟨same, _⟩ | ⟨same, _⟩⟩ := access?_eq found
        · simp at same
        · simp only [Access.read.injEq, and_true] at same
          rwa [same]
      refine ⟨store, owner', mid.extend present place unseen (ssa_modifyInstr _ ssa free)
        (fun sym => by rw [flow_modifyInstr]) (fun sym => by rw [flow_modifyInstr])
        (.modifyInstr middle r _) (iterInstrs_modifyInstr middle r _) ?_ (by simp [now]) ?_ ?_⟩
      · intro s different
        rw [instr?_modifyInstr, if_neg different]
      · intro other c _
        simp [found, Access.writes]
      · intro access isAccess
        rw [found, Option.some.injEq] at isAccess
        subst isAccess
        refine ⟨toRef vref instr, vref, now, rfl, rfl, ?_⟩
        have stores := mid.stores slot b slotIn
        cases resolved with
        | here defined =>
            split
            · rename_i w last
              rw [last] at stores
              have stored := ssa.stored _ b w stores
              rw [defined, Option.some.injEq] at stored
              exact stored
            · rename_i none'
              rw [none'] at stores
              exact ssa.merged _ b vref stores defined
        | up climb _ =>
            have isOpen := mid.isOpen (localName ir slot) b
            rw [climb.isClosed] at isOpen
            simp at isOpen

/-- A phi is no access. -/
theorem Lifting.skip_phi {seen : BlockRef → List Ref} (inv : Lifting ir cur store owner seen)
    {b : BlockRef} {r : Ref} (owns : (owner r).isSome) (result : Opt.liftInstr b cur r = some next) :
    next = cur := by
  obtain ⟨sym, owned⟩ := Option.isSome_iff_exists.mp owns
  obtain ⟨instr, found, isPhi⟩ := inv.ssa.phi sym r owned
  simp only [Opt.liftInstr, found, Option.bind_eq_bind, Option.bind_some, isPhi] at result
  split at result <;> simpa using result.symm

/-- The phis at the front of a block are skipped. -/
theorem Lifting.skip_phis {seen : BlockRef → List Ref} (inv : Lifting ir cur store owner seen)
    {b : BlockRef} {phis : List Ref} (owns : ∀ r ∈ phis, (owner r).isSome)
    (result : phis.foldlM (Opt.liftInstr b) cur = some next) : next = cur := by
  induction phis generalizing cur with
  | nil => simpa using result.symm
  | cons r rest ih =>
      simp only [List.foldlM_cons, Option.bind_eq_bind, Option.bind_eq_some_iff] at result
      obtain ⟨middle, first, others⟩ := result
      have same := inv.skip_phi (owns r List.mem_cons_self) first
      subst same
      exact ih inv (fun s inside => owns s (List.mem_cons_of_mem _ inside)) others

/-- The unseen instructions of a block are lifted in order. -/
theorem Lifting.liftInstrs (slots : LocalSlots ir) {seen : BlockRef → List Ref} {b : BlockRef}
    {rest : List Ref} (inv : Lifting ir cur store owner seen)
    (split : ir.iterInstrs b = seen b ++ rest)
    (result : rest.foldlM (Opt.liftInstr b) cur = some next) :
    ∃ store' owner', Lifting ir next store' owner' (Function.update seen b (ir.iterInstrs b)) := by
  induction rest generalizing cur store owner seen with
  | nil =>
      simp only [List.foldlM_nil, Option.pure_def, Option.some.injEq] at result
      subst result
      rw [List.append_nil] at split
      rw [split, Function.update_eq_self]
      exact ⟨store, owner, inv⟩
  | cons r rest ih =>
      simp only [List.foldlM_cons, Option.bind_eq_bind, Option.bind_eq_some_iff] at result
      obtain ⟨middle, first, others⟩ := result
      have listed : r ∈ ir.iterInstrs b := by simp [split]
      obtain ⟨instr, present⟩ := Option.isSome_iff_exists.mp (mem_iterInstrs_instr? listed)
      have unseen : r ∉ seen b := by
        have distinct := ir.iterInstrs_nodup b
        rw [split] at distinct
        intro inside
        exact (List.nodup_append.mp distinct).2.2 r inside r List.mem_cons_self rfl
      obtain ⟨store', owner', inv'⟩ :=
        inv.liftInstr slots present (mem_iterInstrs listed) unseen first
      obtain ⟨store'', owner'', inv''⟩ := ih inv' (by simp [split]) others
      rw [Function.update_idem] at inv''
      exact ⟨store'', owner'', inv''⟩

/-- A block that has not been lifted yet still has its own operations. -/
theorem Lifting.clobbers {seen : BlockRef → List Ref} (inv : Lifting ir cur store owner seen)
    {b : BlockRef} (unseen : seen b = []) : Opt.clobbers cur b = Opt.clobbers ir b := by
  obtain ⟨phis, order, owned⟩ := inv.order b
  have quiet : (phis.any fun r => (cur.instr? r).any fun instr => instr.opcode.mayClobberMemory) =
      false := by
    rw [List.any_eq_false]
    intro r inside
    obtain ⟨sym, owns⟩ := Option.isSome_iff_exists.mp (owned r inside)
    obtain ⟨instr, found, isPhi⟩ := inv.ssa.phi sym r owns
    simp [found, isPhi, Opcode.mayClobberMemory]
  rw [Opt.clobbers, order, List.any_append, quiet, Bool.false_or, Opt.clobbers]
  have same : ∀ r ∈ ir.iterInstrs b, cur.instr? r = ir.instr? r := by
    intro r listed
    obtain ⟨instr, present⟩ := Option.isSome_iff_exists.mp (mem_iterInstrs_instr? listed)
    rw [present, inv.untouched r b instr present (mem_iterInstrs listed) (by simp [unseen])]
  rw [Bool.eq_iff_iff, List.any_eq_true, List.any_eq_true]
  exact exists_congr fun r => and_congr_right fun listed => by rw [same r listed]

/-- The instructions of a block that the pass rewrites. -/
def liftedInstrs (ir : IR) (b : BlockRef) : List Ref :=
  if clobbers ir b then [] else ir.iterInstrs b

/-- One block is lifted or left alone. -/
theorem Lifting.liftBlock (slots : LocalSlots ir) {seen : BlockRef → List Ref} {b : BlockRef}
    (inv : Lifting ir cur store owner seen) (unseen : seen b = [])
    (result : liftBlock cur b = some next) :
    ∃ store' owner', Lifting ir next store' owner' (Function.update seen b (liftedInstrs ir b)) := by
  simp only [Opt.liftBlock, inv.clobbers unseen] at result
  simp only [liftedInstrs]
  split at result
  · rename_i clobbering
    rw [Option.some.injEq] at result
    subst result
    rw [if_pos clobbering, ← unseen, Function.update_eq_self]
    exact ⟨store, owner, inv⟩
  · rename_i quiet
    obtain ⟨phis, order, owned⟩ := inv.order b
    rw [order, List.foldlM_append] at result
    simp only [Option.bind_eq_bind, Option.bind_eq_some_iff] at result
    obtain ⟨middle, first, others⟩ := result
    have same := inv.skip_phis owned first
    subst same
    rw [if_neg quiet]
    exact inv.liftInstrs slots (by simp [unseen]) others

/-- The blocks are lifted in order. -/
theorem Lifting.liftBlocks (slots : LocalSlots ir) {seen : BlockRef → List Ref}
    {blocks : List BlockRef} (inv : Lifting ir cur store owner seen) (distinct : blocks.Nodup)
    (unseen : ∀ b ∈ blocks, seen b = []) (result : blocks.foldlM Opt.liftBlock cur = some next) :
    ∃ store' owner' seen', Lifting ir next store' owner' seen' ∧
      (∀ b ∈ blocks, seen' b = liftedInstrs ir b) ∧ ∀ b, b ∉ blocks → seen' b = seen b := by
  induction blocks generalizing cur store owner seen with
  | nil =>
      simp only [List.foldlM_nil, Option.pure_def, Option.some.injEq] at result
      subst result
      exact ⟨store, owner, seen, inv, by simp, fun _ _ => rfl⟩
  | cons b rest ih =>
      simp only [List.foldlM_cons, Option.bind_eq_bind, Option.bind_eq_some_iff] at result
      obtain ⟨middle, first, others⟩ := result
      obtain ⟨fresh, distinct⟩ := List.nodup_cons.mp distinct
      obtain ⟨store', owner', inv'⟩ := inv.liftBlock slots (unseen b List.mem_cons_self) first
      obtain ⟨store'', owner'', seen', inv'', done, kept⟩ := ih inv' distinct (by
        intro c inside
        have away : c ≠ b := by
          rintro rfl
          exact fresh inside
        rw [Function.update_of_ne away]
        exact unseen c (List.mem_cons_of_mem _ inside)) others
      refine ⟨store'', owner'', seen', inv'', ?_, ?_⟩
      · intro c inside
        rcases List.mem_cons.mp inside with rfl | inside
        · rw [kept c fresh, Function.update_self]
        · exact done c inside
      · intro c out
        simp only [List.mem_cons, not_or] at out
        rw [kept c out.2, Function.update_of_ne out.1]

/-- What the whole pass leaves behind. -/
structure Lifted (ir next : IR) (store : Name → BlockRef → Option Ref) (owner : Ref → Option Name) :
    Prop where
  ssa : SsaInv next store owner []
  allSealed : next.AllSealed
  preds : ∀ sym, (next.flow sym).preds = (ir.flow sym).preds
  stores : ∀ slot b, slot < ir.symbols.locals.length →
    store (localName ir slot) b = if clobbers ir b then none else lastWrite slot (accesses ir b)
  rendered : ∀ b before access after, clobbers ir b = false →
    accesses ir b = before ++ access :: after → Rendered ir next owner b before access
  kept : ∀ b r, clobbers ir b = true → r ∈ ir.iterInstrs b → next.instr? r = ir.instr? r
  older : ∀ r, (ir.instr? r).isSome → owner r = none

/-- Sealing a list of blocks closes them all and keeps what is not owned. -/
theorem sealBlocks_sound {blocks : List BlockRef} (ssa : SsaInv cur store owner [])
    (result : blocks.foldlM sealBlock cur = some next) :
    ∃ owner', SsaInv next store owner' [] ∧ SameShape cur next ∧
      (∀ sym, (next.flow sym).preds = (cur.flow sym).preds) ∧
      (∀ sym b, b ∈ blocks ∨ (cur.flow sym).closed b = true → (next.flow sym).closed b = true) ∧
      (∀ r instr, cur.instr? r = some instr → owner r = none →
        next.instr? r = some instr ∧ owner' r = none) ∧
      ∀ sym r, owner r = some sym → owner' r = some sym := by
  induction blocks generalizing cur owner with
  | nil =>
      simp only [List.foldlM_nil, Option.pure_def, Option.some.injEq] at result
      subst result
      exact ⟨owner, ssa, .refl _, fun _ => rfl, fun _ _ h => h.resolve_left (by simp),
        fun _ _ found free => ⟨found, free⟩, fun _ _ h => h⟩
  | cons b rest ih =>
      simp only [List.foldlM_cons, Option.bind_eq_bind, Option.bind_eq_some_iff] at result
      obtain ⟨middle, first, others⟩ := result
      obtain ⟨owner', ssa', seals⟩ := sealBlock_sound ssa first
      obtain ⟨owner'', ssa'', shape, preds, closed, kept, owned⟩ := ih ssa' others
      refine ⟨owner'', ssa'', seals.shape.trans shape, fun sym => (preds sym).trans (seals.preds sym),
        fun sym c case' => closed sym c ?_, fun r instr found free => ?_,
        fun sym r h => owned sym r (seals.owned sym r h)⟩
      · rw [seals.closed]
        by_cases same : c = b
        · simp [same]
        · rw [Function.update_of_ne same]
          rcases case' with inside | isClosed
          · exact .inl ((List.mem_cons.mp inside).resolve_left same)
          · exact .inr isClosed
      · obtain ⟨found', free'⟩ := seals.kept r instr found free
        exact kept r instr found' free'

/-- Reopening all blocks starts the pass. -/
theorem Lifting.start (slots : LocalSlots ir) : Lifting ir ir.unsealAllBlocks
    (fun sym b => (ir.flow sym).defined b) (fun _ => none) fun _ => [] := by
  have defined : ∀ sym, (ir.unsealAllBlocks.flow sym).defined = (ir.flow sym).defined := by
    intro sym
    funext b
    simp only [flow, block?_unsealAllBlocks]
    cases ir.block? b <;> rfl
  have instrs : ∀ r, ir.unsealAllBlocks.instr? r = ir.instr? r := by
    intro r
    cases r with
    | instr b idx =>
        simp only [instr?, block?_unsealAllBlocks]
        cases ir.block? b <;> rfl
    | _ => rfl
  have waiting : ∀ b, ir.unsealAllBlocks.incompletePhis b = [] := by
    intro b
    rw [← slots.settled b]
    simp only [incompletePhis, block?_unsealAllBlocks]
    cases ir.block? b <;> rfl
  refine ⟨⟨?_, ?_, ?_, ?_, ?_, ?_⟩, ?_, ?_, .unseal ir _, ?_, ?_, ?_, ?_, ?_, ?_, ?_⟩
  · intro sym b r found
    rw [defined]
    exact found
  · intro sym b r free found
    rw [defined, free] at found
    simp at found
  · intro sym r owned
    simp at owned
  · intro sym r b inside
    simp [waiting] at inside
  · intro sym r inside
    simp at inside
  · intro sym r b owned
    simp at owned
  · intro sym b
    simp only [flow, block?_unsealAllBlocks]
    cases ir.block? b <;> simp
  · intro sym
    funext b
    simp only [flow, block?_unsealAllBlocks]
    cases ir.block? b <;> rfl
  · intro b
    refine ⟨[], ?_, by simp⟩
    simp only [iterInstrs, block?_unsealAllBlocks]
    cases ir.block? b <;> rfl
  · intro r instr _
    rfl
  · intro r b instr present _ _
    rw [instrs, present]
  · intro slot b _
    simpa [lastWrite] using slots.unnamed slot b
  · intro b before access after split
    simp at split
  · intro b r inside
    simp at inside
  · intro r instr present
    rw [instrs, present]
    rfl

/-- The pass leaves every read and every write of a local either lifted or in memory form. -/
theorem memSymbolToRef_lifted (slots : LocalSlots ir) (result : memSymbolToRef ir = some next) :
    ∃ store owner, Lifted ir next store owner := by
  simp only [memSymbolToRef, Option.bind_eq_bind, Option.bind_eq_some_iff] at result
  obtain ⟨middle, lifting, sealing⟩ := result
  have start := Lifting.start slots
  rw [start.shape.iterBlocks] at lifting
  have distinct : ir.iterBlocks.Nodup := List.nodup_range.filter _
  obtain ⟨store, owner, seen, inv, done, kept⟩ :=
    start.liftBlocks slots distinct (fun _ _ => rfl) lifting
  have seenAll : ∀ b, seen b = liftedInstrs ir b := by
    intro b
    by_cases live : b ∈ ir.iterBlocks
    · exact done b live
    · rw [kept b live, liftedInstrs]
      rw [mem_iterBlocks, Bool.not_eq_true, Option.isSome_eq_false_iff,
        Option.isNone_iff_eq_none] at live
      simp [iterInstrs, live]
  obtain ⟨owner', ssa, shape, preds, closed, keeps, owned⟩ := sealBlocks_sound inv.ssa sealing
  refine ⟨store, owner', ssa, ?_, ?_, ?_, ?_, ?_, ?_⟩
  · intro b block present
    have live : b ∈ middle.iterBlocks := by
      rw [mem_iterBlocks, ← shape.live, present]
      rfl
    have isClosed := closed (.var "") b (.inl live)
    simpa [flow, present] using isClosed
  · intro sym
    rw [preds, inv.preds]
  · intro slot b inside
    rw [inv.stores slot b inside, seenAll b, liftedInstrs, accesses]
    split <;> rfl
  · intro b before access after quiet split
    have split' : (seen b).filterMap (access? ir) = before ++ access :: after := by
      rw [seenAll b, liftedInstrs, if_neg (by simp [quiet])]
      exact split
    refine (inv.lifted b before access after split').mono (fun instr found => ?_) owned
    have inside : access ∈ (seen b).filterMap (access? ir) := by simp [split']
    obtain ⟨r, listed, isAccess⟩ := List.mem_filterMap.mp inside
    obtain ⟨same, instr', _, present, _⟩ := access?_eq isAccess
    rw [same] at found ⊢
    exact (keeps r instr found (inv.older r instr' present)).1
  · intro b r clobbering listed
    obtain ⟨instr, present⟩ := Option.isSome_iff_exists.mp (mem_iterInstrs_instr? listed)
    have unseen : r ∉ seen b := by
      rw [seenAll b, liftedInstrs, if_pos clobbering]
      simp
    have here := inv.untouched r b instr present (mem_iterInstrs listed) unseen
    rw [present]
    exact (keeps r instr here (inv.older r instr present)).1
  · intro r present
    obtain ⟨instr, found⟩ := Option.isSome_iff_exists.mp present
    obtain ⟨now, here⟩ := Option.isSome_iff_exists.mp (inv.present r instr found)
    exact (keeps r now here (inv.older r instr found)).2

end Dis86.Opt
