import Dis86.Sym.StackCollect

namespace Dis86.Sym
open IR

variable {ir : IR} {r : Ref} {table : Table} {map : SymbolMap} {off : Int} {size : Nat}

section Tables

variable {symbols : List SymbolDef}

/-- Symbols that are apart do not share an offset. -/
theorem unique_of_apart (apart : SymbolDef.Apart symbols) {i j : Nat} {a b : SymbolDef}
    (isA : symbols[i]? = some a) (isB : symbols[j]? = some b) (insideA : a.start ≤ off ∧ off < a.stop)
    (insideB : b.start ≤ off ∧ off < b.stop) : i = j := by
  obtain ⟨leftA, rfl⟩ := List.getElem?_eq_some_iff.mp isA
  obtain ⟨leftB, rfl⟩ := List.getElem?_eq_some_iff.mp isB
  have pairs := List.pairwise_iff_getElem.mp apart
  rcases Nat.lt_trichotomy i j with less | same | more
  · have := pairs i j leftA leftB less
    omega
  · exact same
  · have := pairs j i leftB leftA more
    omega

/-- A reference points to a symbol that contains its offset. -/
theorem findRef_eq_some {symref : SymbolRef} (found : findRef map table off size = some symref) :
    ∃ symbol, (map.getTable table)[symref.id.idx]? = some symbol ∧ symbol.start ≤ off ∧
      off < symbol.stop ∧ symref = ⟨⟨table, symref.id.idx⟩, ⟨off - symbol.start, size⟩⟩ := by
  unfold findRef at found
  simp only [Option.bind_eq_bind, Option.bind_eq_some_iff, Option.pure_def, Option.some.injEq] at found
  obtain ⟨idx, isFirst, symbol, isSymbol, rfl⟩ := found
  obtain ⟨bound, contains, _⟩ := List.findIdx?_eq_some_iff_getElem.mp isFirst
  obtain ⟨_, rfl⟩ := List.getElem?_eq_some_iff.mp isSymbol
  have inside := of_decide_eq_true contains
  exact ⟨_, isSymbol, inside.1, inside.2, rfl⟩

theorem findRef_isSome {symbol : SymbolDef} (inside : symbol ∈ map.getTable table)
    (contains : symbol.start ≤ off ∧ off < symbol.stop) :
    ∃ symref, findRef map table off size = some symref := by
  unfold findRef
  cases first : (map.getTable table).findIdx? fun symbol => symbol.start ≤ off ∧ off < symbol.stop with
  | none =>
      have missing := List.findIdx?_eq_none_iff.mp first symbol inside
      exact absurd contains (of_decide_eq_false missing)
  | some idx =>
      obtain ⟨bound, _, _⟩ := List.findIdx?_eq_some_iff_getElem.mp first
      rw [Option.bind_eq_bind, Option.bind_some, List.getElem?_eq_getElem bound]
      exact ⟨_, rfl⟩

end Tables

section Rewriting

variable {access : StackAccess} {cur next : IR}

theorem symbols_modifyInstr (ir : IR) (r : Ref) (f : Instr → Instr) :
    (ir.modifyInstr r f).symbols = ir.symbols := by
  cases r <;> rfl

theorem symbolAt?_modifyInstr {instr : Instr} {symref : SymbolRef} {f : Instr → Instr}
    (present : ir.instr? r = some instr) (first : (f instr).operands[0]? = some (.symbol symref)) :
    symbolAt? (ir.modifyInstr r f) r = some symref := by
  simp only [symbolAt?, instr?_modifyInstr, if_pos, present, Option.map_some, Option.bind_eq_bind,
    Option.bind_some, first]

/-- A rewritten access refers to its symbol, and nothing else changes. -/
theorem rewriteAccess_eq_some (ran : rewriteAccess cur access = some next) :
    ∃ symref, findRef cur.symbols access.table access.off access.size = some symref ∧
      symbolAt? next access.memRef = some symref ∧ next.symbols = cur.symbols ∧
      ∀ s ≠ access.memRef, next.instr? s = cur.instr? s := by
  unfold rewriteAccess at ran
  simp only [Option.bind_eq_bind, Option.bind_eq_some_iff] at ran
  obtain ⟨symref, found, instr, present, opcode, _, rest⟩ := ran
  refine ⟨symref, found, ?_⟩
  split at rest
  · obtain rfl := Option.some.inj rest
    refine ⟨symbolAt?_modifyInstr present rfl, symbols_modifyInstr .., fun s other => ?_⟩
    rw [instr?_modifyInstr, if_neg other]
  · obtain ⟨value, _, isNext⟩ := Option.bind_eq_some_iff.mp rest
    obtain rfl := Option.some.inj isNext
    refine ⟨symbolAt?_modifyInstr present rfl, symbols_modifyInstr .., fun s other => ?_⟩
    rw [instr?_modifyInstr, if_neg other]

/-- An instruction that the pass can turn into one on a variable. -/
def Rewritable (instr : Instr) : Prop :=
  (instr.opcode.isLoad || instr.opcode.isStore) = true ∧ instr.opcode ≠ .store32 ∧
    (instr.opcode.isStore = true → 3 ≤ instr.operands.length)

theorem rewriteAccess_isSome {instr : Instr} {symref : SymbolRef}
    (found : findRef cur.symbols access.table access.off access.size = some symref)
    (present : cur.instr? access.memRef = some instr) (rewritable : Rewritable instr) :
    ∃ next, rewriteAccess cur access = some next := by
  obtain ⟨kind, narrow, stored⟩ := rewritable
  have variableOp : ∃ opcode, varOpcode instr.opcode = some opcode := by
    revert kind narrow
    cases instr.opcode <;> simp [varOpcode, Opcode.isLoad, Opcode.isStore]
  obtain ⟨opcode, isOpcode⟩ := variableOp
  unfold rewriteAccess
  simp only [found, present, isOpcode, Option.bind_eq_bind, Option.bind_some]
  by_cases isLoad : instr.opcode.isLoad = true
  · exact ⟨_, if_pos isLoad⟩
  · have isStore : instr.opcode.isStore = true := by simpa [isLoad] using kind
    have long := stored isStore
    rw [if_neg isLoad, List.getElem?_eq_getElem (by omega)]
    exact ⟨_, rfl⟩

/-- All accesses refer to their symbols in the end. -/
theorem rewriteAll_eq_some {as : List StackAccess} (distinct : (as.map StackAccess.memRef).Nodup)
    (ran : as.foldlM rewriteAccess cur = some next) :
    next.symbols = cur.symbols ∧ (∀ r, r ∉ as.map StackAccess.memRef → next.instr? r = cur.instr? r) ∧
      ∀ a ∈ as, ∃ symref, findRef cur.symbols a.table a.off a.size = some symref ∧
        symbolAt? next a.memRef = some symref := by
  induction as generalizing cur with
  | nil =>
      obtain rfl := Option.some.inj ran
      simp
  | cons access as hypothesis =>
      rw [List.foldlM_cons] at ran
      obtain ⟨middle, first, rest⟩ := Option.bind_eq_some_iff.mp ran
      obtain ⟨symref, found, refers, symbols, frame⟩ := rewriteAccess_eq_some first
      obtain ⟨fresh, distinct⟩ := List.nodup_cons.mp distinct
      obtain ⟨allSymbols, allFrame, all⟩ := hypothesis distinct rest
      refine ⟨allSymbols.trans symbols, fun r other => ?_, fun a inside => ?_⟩
      · obtain ⟨notFirst, notLater⟩ := not_or.mp (mt List.mem_cons.mpr other)
        rw [allFrame r notLater, frame r notFirst]
      · rcases List.mem_cons.mp inside with rfl | inside
        · refine ⟨symref, found, ?_⟩
          unfold symbolAt? at refers ⊢
          rw [allFrame _ fresh]
          exact refers
        · rw [← symbols]
          exact all a inside

theorem rewriteAll_isSome {as : List StackAccess} (distinct : (as.map StackAccess.memRef).Nodup)
    (ready : ∀ a ∈ as, (∃ symref, findRef cur.symbols a.table a.off a.size = some symref) ∧
      ∃ instr, cur.instr? a.memRef = some instr ∧ Rewritable instr) :
    ∃ next, as.foldlM rewriteAccess cur = some next := by
  induction as generalizing cur with
  | nil => exact ⟨cur, rfl⟩
  | cons access as hypothesis =>
      obtain ⟨⟨symref, found⟩, instr, present, rewritable⟩ := ready access List.mem_cons_self
      obtain ⟨middle, first⟩ := rewriteAccess_isSome found present rewritable
      obtain ⟨_, _, _, symbols, frame⟩ := rewriteAccess_eq_some first
      obtain ⟨fresh, distinct⟩ := List.nodup_cons.mp distinct
      have rest : ∃ next, as.foldlM rewriteAccess middle = some next := by
        apply hypothesis distinct
        intro a inside
        have other : a.memRef ≠ access.memRef := by
          intro same
          exact fresh (same ▸ List.mem_map_of_mem inside)
        rw [symbols, frame _ other]
        exact ready a (List.mem_cons_of_mem _ inside)
      obtain ⟨next, rest⟩ := rest
      exact ⟨next, by rw [List.foldlM_cons, first]; exact rest⟩

end Rewriting

end Dis86.Sym
