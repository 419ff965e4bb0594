import Dis86.IR.Flow
import Dis86.Sym.StackSymbols

namespace Dis86.Sym
open IR

variable {ir next : IR} {a b : StackAccess} {found : List (StackAccess × SymbolDef)}

theorem mem_accesses (inside : a ∈ accesses ir) : accessAt? ir a.memRef = some a := by
  obtain ⟨r, _, accessed⟩ := List.mem_filterMap.mp inside
  rw [accessAt?_memRef accessed]
  exact accessed

theorem memRefs_nodup (ir : IR) : ((accesses ir).map StackAccess.memRef).Nodup := by
  apply List.pairwise_map.mpr
  apply List.pairwise_filterMap.mpr
  apply (refs_nodup ir).imp
  intro r s differ a isA b isB same
  rw [accessAt?_memRef isA, accessAt?_memRef isB] at same
  exact differ same

/-- What the sweep collects: the accesses in order, each with its symbol. -/
structure Collected (ir : IR) (found : List (StackAccess × SymbolDef)) : Prop where
  order : found.map Prod.fst = accesses ir
  symbols : ∀ entry ∈ found, entry.1.symbol? = some entry.2

/-- Accesses of a table that overlap start together or end together. -/
def AlignedIn (ir : IR) (table : Table) : Prop :=
  ∀ a ∈ accesses ir, ∀ b ∈ accesses ir, a.table = table → b.table = table → a.off < b.off →
    b.off < a.stop → a.stop = b.stop

/-- A symbol covers the bytes of an access. -/
def Covers (symbol : SymbolDef) (access : StackAccess) : Prop :=
  symbol.start ≤ access.off ∧ access.stop ≤ symbol.stop

theorem symbol?_bytes {symbol : SymbolDef} (made : a.symbol? = some symbol) :
    symbol.start = a.off ∧ symbol.stop = a.stop := by
  obtain ⟨off, size⟩ := symbol?_eq_some made
  rw [SymbolDef.start, SymbolDef.stop, StackAccess.stop, off, size]
  exact ⟨rfl, rfl⟩

namespace Collected

variable {table : Table} {symbol : SymbolDef}

theorem mem_tableOf (collected : Collected ir found) (inside : symbol ∈ tableOf table found) :
    ∃ a ∈ accesses ir, a.table = table ∧ symbol.start = a.off ∧ symbol.stop = a.stop := by
  obtain ⟨⟨a, made⟩, filtered, rfl⟩ := List.mem_map.mp inside
  obtain ⟨isFound, isTable⟩ := List.mem_filter.mp filtered
  refine ⟨a, ?_, of_decide_eq_true isTable, symbol?_bytes (collected.symbols _ isFound)⟩
  rw [← collected.order]
  exact List.mem_map_of_mem isFound

theorem exists_symbol (collected : Collected ir found) (inside : a ∈ accesses ir)
    (isTable : a.table = table) :
    ∃ symbol ∈ tableOf table found, symbol.start = a.off ∧ symbol.stop = a.stop := by
  rw [← collected.order] at inside
  obtain ⟨⟨_, made⟩, isFound, rfl⟩ := List.mem_map.mp inside
  exact ⟨made, List.mem_map_of_mem (List.mem_filter.mpr ⟨isFound, decide_eq_true isTable⟩),
    symbol?_bytes (collected.symbols _ isFound)⟩

theorem sized (collected : Collected ir found) (inside : symbol ∈ tableOf table found) :
    symbol.Sized := by
  obtain ⟨a, isAccess, _, starts, stops⟩ := collected.mem_tableOf inside
  have size := accessAt?_size (mem_accesses isAccess)
  simp only [SymbolDef.Sized, SymbolDef.start, SymbolDef.stop, StackAccess.stop] at *
  omega

theorem aligned_iff (collected : Collected ir found) :
    SymbolDef.Aligned (tableOf table found) ↔ AlignedIn ir table := by
  constructor
  · intro aligned a isA b isB inA inB less inside
    obtain ⟨s, isS, sStart, sStop⟩ := collected.exists_symbol isA inA
    obtain ⟨t, isT, tStart, tStop⟩ := collected.exists_symbol isB inB
    rw [← sStop, ← tStop]
    exact aligned s isS t isT (by omega) (by omega)
  · intro aligned s isS t isT less inside
    obtain ⟨a, isA, inA, sStart, sStop⟩ := collected.mem_tableOf isS
    obtain ⟨b, isB, inB, tStart, tStop⟩ := collected.mem_tableOf isT
    rw [sStop, tStop]
    exact aligned a isA b isB inA inB (by omega) (by omega)

/-- A table covers its accesses if and only if they are aligned. -/
theorem coalesce_iff (collected : Collected ir found) :
    (∃ out, SymbolDef.coalesce (tableOf table found) = some out ∧
        ∀ a ∈ accesses ir, a.table = table → ∃ symbol ∈ out, Covers symbol a) ↔ AlignedIn ir table := by
  rw [← collected.aligned_iff, ← SymbolDef.coalesce_covers_iff fun _ inside => collected.sized inside]
  apply exists_congr
  intro out
  apply and_congr_right
  intro _
  constructor
  · intro covered symbol inside
    obtain ⟨a, isAccess, isTable, starts, stops⟩ := collected.mem_tableOf inside
    obtain ⟨cover, isOut, low, high⟩ := covered a isAccess isTable
    exact ⟨cover, isOut, by unfold SymbolDef.Inside; omega⟩
  · intro covered a isAccess isTable
    obtain ⟨symbol, inside, starts, stops⟩ := collected.exists_symbol isAccess isTable
    obtain ⟨cover, isOut, low, high⟩ := covered symbol inside
    exact ⟨cover, isOut, by unfold Covers; omega⟩

end Collected

theorem table_cases (a : StackAccess) : a.table = .param ∨ a.table = .local := by
  unfold StackAccess.table
  split <;> simp

theorem table_eq_param : a.table = .param ↔ 0 < a.off := by
  unfold StackAccess.table
  split <;> simp_all

/-- In one table the segment does not wrap around between two accesses. -/
theorem overlaps_iff (isA : a ∈ accesses ir) (isB : b ∈ accesses ir) (together : a.table = b.table) :
    a.Overlaps b ↔ a.off < b.stop ∧ b.off < a.stop := by
  obtain ⟨lowA, highA⟩ := accessAt?_off (mem_accesses isA)
  obtain ⟨lowB, highB⟩ := accessAt?_off (mem_accesses isB)
  have sizeA := accessAt?_size (mem_accesses isA)
  have sizeB := accessAt?_size (mem_accesses isB)
  have sides : 0 < a.off ↔ 0 < b.off := by rw [← table_eq_param, together, table_eq_param]
  unfold StackAccess.Overlaps StackAccess.stop
  constructor
  · rintro ⟨i, belowA, j, belowB, same⟩
    have same := congrArg BitVec.toNat same
    rw [BitVec.toNat_ofInt, BitVec.toNat_ofInt] at same
    omega
  · rintro ⟨startsA, startsB⟩
    by_cases less : a.off ≤ b.off
    · refine ⟨(b.off - a.off).toNat, by omega, 0, by omega, congrArg (BitVec.ofInt 16) ?_⟩
      omega
    · refine ⟨0, by omega, (a.off - b.off).toNat, by omega, congrArg (BitVec.ofInt 16) ?_⟩
      omega

theorem Symbolizable.alignedIn (symbolizable : Symbolizable ir) (table : Table) :
    AlignedIn ir table :=
  fun a isA b isB inA inB => symbolizable.aligned a isA b isB (inA.trans inB.symm)

/-- The pass collects the accesses if and only if it can read and name them. -/
theorem collected_iff (ready : StackReady ir) :
    (∃ found, collect ir ir.refs = some found ∧ Collected ir found) ↔
      ∀ a ∈ accesses ir, Readable ir a.memRef ∧ a.off ≤ 32765 := by
  have present : ∀ r ∈ ir.refs, ∃ instr, ir.instr? r = some instr := fun r => mem_refs_instr?
  have isSome := collect_isSome ready present
  rw [show accesses ir = ir.refs.filterMap (accessAt? ir) from rfl, ← isSome]
  apply exists_congr
  intro found
  constructor
  · exact And.left
  · intro collected
    obtain ⟨order, symbols⟩ := collect_eq_some ready present collected
    exact ⟨collected, order, symbols⟩

/-- The two tables that the pass builds. -/
structure Coalesced (found : List (StackAccess × SymbolDef)) (symbols : SymbolMap) : Prop where
  params : SymbolDef.coalesce (tableOf .param found) = some symbols.params
  locals : SymbolDef.coalesce (tableOf .local found) = some symbols.locals

theorem Coalesced.getTable {symbols : SymbolMap} (coalesced : Coalesced found symbols)
    (a : StackAccess) :
    SymbolDef.coalesce (tableOf a.table found) = some (symbols.getTable a.table) := by
  rcases table_cases a with isParam | isLocal
  · rw [isParam]
    exact coalesced.params
  · rw [isLocal]
    exact coalesced.locals

/-- What a run of the pass consists of. -/
theorem symbolizeStack_eq_some (ready : StackReady ir) (ran : symbolizeStack ir = some next) :
    ∃ found, Collected ir found ∧ (∀ a ∈ accesses ir, Readable ir a.memRef ∧ a.off ≤ 32765) ∧
      Coalesced found next.symbols ∧
      ∀ a ∈ accesses ir, ∃ symref, findRef next.symbols a.table a.off a.size = some symref ∧
        symbolAt? next a.memRef = some symref := by
  unfold symbolizeStack at ran
  simp only [Option.bind_eq_bind, Option.bind_eq_some_iff, ready.params, ready.locals,
    List.nil_append] at ran
  obtain ⟨found, isFound, params, isParams, locals, isLocals, rewritten⟩ := ran
  have present : ∀ r ∈ ir.refs, ∃ instr, ir.instr? r = some instr := fun r => mem_refs_instr?
  obtain ⟨order, made⟩ := collect_eq_some ready present isFound
  have collected : Collected ir found := ⟨order, made⟩
  rw [order] at rewritten
  obtain ⟨symbols, _, refers⟩ := rewriteAll_eq_some (memRefs_nodup ir) rewritten
  refine ⟨found, collected, (collected_iff ready).mp ⟨found, isFound, collected⟩, ?_, ?_⟩
  · rw [symbols]
    exact ⟨isParams, isLocals⟩
  · rw [symbols]
    exact refers

/-- An access in a symbol that is apart from the others is in no other one. -/
theorem covers_unique {symbols : List SymbolDef} (apart : SymbolDef.Apart symbols) {i j : Nat}
    {s t : SymbolDef} (isS : symbols[i]? = some s) (isT : symbols[j]? = some t)
    (isAccess : a ∈ accesses ir) (inS : Covers s a) (inT : Covers t a) : i = j := by
  have size := accessAt?_size (mem_accesses isAccess)
  unfold Covers StackAccess.stop at inS inT
  have insideS : s.start ≤ a.off ∧ a.off < s.stop := by omega
  have insideT : t.start ≤ a.off ∧ a.off < t.stop := by omega
  exact unique_of_apart apart isS isT insideS insideT

/-- The symbol of an access in the result. -/
theorem findRef_covers {symbols : SymbolMap} {symref : SymbolRef} {idx : Nat} {symbol : SymbolDef}
    (apart : SymbolDef.Apart (symbols.getTable a.table)) (isAccess : a ∈ accesses ir)
    (refers : findRef symbols a.table a.off a.size = some symref)
    (isSymbol : (symbols.getTable a.table)[idx]? = some symbol) (covers : Covers symbol a) :
    symref = ⟨⟨a.table, idx⟩, ⟨a.off - symbol.start, a.size⟩⟩ := by
  obtain ⟨other, isOther, low, high, shape⟩ := findRef_eq_some refers
  have size := accessAt?_size (mem_accesses isAccess)
  unfold Covers StackAccess.stop at covers
  have same := unique_of_apart apart isOther isSymbol ⟨low, high⟩ ⟨covers.1, by omega⟩
  rw [same] at isOther shape
  obtain rfl := Option.some.inj (isOther.symm.trans isSymbol)
  exact shape

section Overlapping

variable {s t : SymbolRef}

/-- Overlapping regions of one symbol are overlapping bytes of memory. -/
theorem overlaps_iff_regions
    (apart : ∀ a : StackAccess, SymbolDef.Apart (next.symbols.getTable a.table))
    (covered : ∀ a ∈ accesses ir, ∃ idx : Nat, ∃ symbol : SymbolDef,
      (next.symbols.getTable a.table)[idx]? = some symbol ∧ Covers symbol a)
    (isA : a ∈ accesses ir) (isB : b ∈ accesses ir) (together : a.table = b.table)
    (isS : findRef next.symbols a.table a.off a.size = some s)
    (isT : findRef next.symbols b.table b.off b.size = some t) :
    a.Overlaps b ↔ s.id = t.id ∧ Region.Overlaps s.region t.region := by
  obtain ⟨i, symbol, isSymbol, coversA⟩ := covered a isA
  obtain ⟨j, other, isOther, coversB⟩ := covered b isB
  rw [overlaps_iff isA isB together, findRef_covers (apart a) isA isS isSymbol coversA,
    findRef_covers (apart b) isB isT isOther coversB]
  simp only [Region.Overlaps, SymbolId.mk.injEq, together, true_and]
  rw [← together] at isOther
  constructor
  · rintro ⟨startsA, startsB⟩
    -- the later of the two starts lies in both symbols
    have same : i = j := by
      have inside : symbol.start ≤ max a.off b.off ∧ max a.off b.off < symbol.stop := by
        unfold Covers StackAccess.stop at *
        have := accessAt?_size (mem_accesses isA)
        omega
      have insideOther : other.start ≤ max a.off b.off ∧ max a.off b.off < other.stop := by
        unfold Covers StackAccess.stop at *
        have := accessAt?_size (mem_accesses isB)
        omega
      exact unique_of_apart (apart a) isSymbol isOther inside insideOther
    subst same
    obtain rfl := Option.some.inj (isSymbol.symm.trans isOther)
    unfold StackAccess.stop at *
    omega
  · rintro ⟨same, regions⟩
    subst same
    obtain rfl := Option.some.inj (isSymbol.symm.trans isOther)
    unfold StackAccess.stop at *
    omega

end Overlapping

/-- The pass gives disjoint symbols that cover the accesses if and only if the accesses can be read
and named, those of one table that overlap start or end together, and no two tables overlap. -/
theorem symbolizeStack_iff (ready : StackReady ir) :
    (∃ next, symbolizeStack ir = some next ∧ Symbolized ir next) ↔ Symbolizable ir := by
  constructor
  · rintro ⟨next, ran, symbolized⟩
    obtain ⟨found, collected, readable, coalesced, refers⟩ := symbolizeStack_eq_some ready ran
    refine ⟨fun a inside => (readable a inside).1.narrow, fun a inside => (readable a inside).1.negatable,
      fun a inside => (readable a inside).2, ?_, ?_⟩
    · intro a isA b isB together
      have aligned : AlignedIn ir a.table := by
        apply collected.coalesce_iff.mp
        refine ⟨_, coalesced.getTable a, fun c isC isTable => ?_⟩
        obtain ⟨idx, ⟨symbol, isSymbol, covers⟩, _⟩ := symbolized.covered c isC
        rw [isTable] at isSymbol
        exact ⟨symbol, List.mem_of_getElem? isSymbol, covers⟩
      exact aligned a isA b isB rfl together.symm
    · intro a isA b isB differ overlaps
      obtain ⟨s, t, isS, isT, same, _⟩ := (symbolized.overlaps a isA b isB).mp overlaps
      obtain ⟨s', refersA, isS'⟩ := refers a isA
      obtain ⟨t', refersB, isT'⟩ := refers b isB
      obtain rfl := Option.some.inj (isS.symm.trans isS')
      obtain rfl := Option.some.inj (isT.symm.trans isT')
      obtain ⟨_, _, _, _, shapeA⟩ := findRef_eq_some refersA
      obtain ⟨_, _, _, _, shapeB⟩ := findRef_eq_some refersB
      rw [shapeA, shapeB] at same
      exact differ (congrArg SymbolId.table same)
  · intro symbolizable
    obtain ⟨found, isFound, collected⟩ := (collected_iff ready).mpr fun a inside =>
      ⟨⟨symbolizable.narrow a inside, symbolizable.negatable a inside⟩, symbolizable.nameable a inside⟩
    obtain ⟨params, isParams, coversParams⟩ :=
      collected.coalesce_iff.mpr (symbolizable.alignedIn .param)
    obtain ⟨locals, isLocals, coversLocals⟩ :=
      collected.coalesce_iff.mpr (symbolizable.alignedIn .local)
    obtain ⟨base, isBase⟩ : ∃ base : IR,
        base = { ir with symbols := { ir.symbols with params, locals } } := ⟨_, rfl⟩
    have tables : base.symbols.params = params ∧ base.symbols.locals = locals := by
      rw [isBase]
      exact ⟨rfl, rfl⟩
    have covered : ∀ a ∈ accesses ir, ∃ symbol ∈ base.symbols.getTable a.table, Covers symbol a := by
      intro a inside
      rcases table_cases a with isParam | isLocal
      · rw [isParam, SymbolMap.getTable, tables.1]
        exact coversParams a inside isParam
      · rw [isLocal, SymbolMap.getTable, tables.2]
        exact coversLocals a inside isLocal
    have rewritten : ∃ next, (accesses ir).foldlM rewriteAccess base = some next := by
      apply rewriteAll_isSome (memRefs_nodup ir)
      intro a inside
      obtain ⟨symbol, isSymbol, low, high⟩ := covered a inside
      have size := accessAt?_size (mem_accesses inside)
      obtain ⟨instr, addr, rest, k, present, operands, kind, _, _⟩ :=
        accessAt?_eq_some (mem_accesses inside)
      refine ⟨findRef_isSome isSymbol ⟨low, by unfold StackAccess.stop at high; omega⟩, instr, ?_, kind,
        symbolizable.narrow a inside instr present, ready.stored a.memRef instr present⟩
      rw [isBase]
      exact present
    obtain ⟨next, rewritten⟩ := rewritten
    obtain ⟨symbols, _, refers⟩ := rewriteAll_eq_some (memRefs_nodup ir) rewritten
    have ran : symbolizeStack ir = some next := by
      unfold symbolizeStack
      simp only [isFound, ready.params, ready.locals, List.nil_append, isParams, isLocals,
        Option.bind_eq_bind, Option.bind_some, collected.order, ← isBase]
      exact rewritten
    rw [← symbols] at tables covered refers
    have apartParams := SymbolDef.coalesce_apart isParams
    have apartLocals := SymbolDef.coalesce_apart isLocals
    rw [← tables.1] at apartParams
    rw [← tables.2] at apartLocals
    have apart : ∀ a : StackAccess, SymbolDef.Apart (next.symbols.getTable a.table) := by
      intro a
      rcases table_cases a with isParam | isLocal
      · rw [isParam]
        exact apartParams
      · rw [isLocal]
        exact apartLocals
    have indexed : ∀ a ∈ accesses ir, ∃ idx : Nat, ∃ symbol : SymbolDef,
        (next.symbols.getTable a.table)[idx]? = some symbol ∧ Covers symbol a := by
      intro a inside
      obtain ⟨symbol, isSymbol, covers⟩ := covered a inside
      obtain ⟨idx, isIdx⟩ := List.getElem?_of_mem isSymbol
      exact ⟨idx, symbol, isIdx, covers⟩
    refine ⟨next, ran, ⟨apartParams, apartLocals⟩, ?_, ?_⟩
    · intro a inside
      obtain ⟨idx, symbol, isSymbol, covers⟩ := indexed a inside
      refine ⟨idx, ⟨symbol, isSymbol, covers⟩, ?_⟩
      rintro other ⟨t, isT, inT⟩
      exact covers_unique (apart a) isT isSymbol inside inT covers
    · intro a isA b isB
      obtain ⟨s, refersA, isS⟩ := refers a isA
      obtain ⟨t, refersB, isT⟩ := refers b isB
      by_cases together : a.table = b.table
      · rw [overlaps_iff_regions apart indexed isA isB together refersA refersB, isS, isT]
        simp
      · obtain ⟨_, _, _, _, shapeA⟩ := findRef_eq_some refersA
        obtain ⟨_, _, _, _, shapeB⟩ := findRef_eq_some refersB
        constructor
        · exact fun overlaps => absurd overlaps (symbolizable.separate a isA b isB together)
        · rintro ⟨s', t', isS', isT', same, _⟩
          obtain rfl := Option.some.inj (isS.symm.trans isS')
          obtain rfl := Option.some.inj (isT.symm.trans isT')
          rw [shapeA, shapeB] at same
          exact absurd (congrArg SymbolId.table same) together

/-- The addresses of two loads lie below the initial stack pointer. -/
def twoLoads (consts : List (BitVec 16)) (first second : Opcode) : IR :=
  { IR.new with
    consts
    blocks := [some ⟨"block", fun _ => none, [],
      ⟨[⟨.u16, none, Attribute.NONE, .sub, [.init .SP, .const 0]⟩,
        ⟨.u16, none, Attribute.NONE, .sub, [.init .SP, .const 1]⟩,
        ⟨.u16, none, Attribute.NONE, first, [.init .SS, .instr 0 0]⟩,
        ⟨.u16, none, Attribute.NONE, second, [.init .SS, .instr 0 1]⟩],
        [0, 1, 2, 3], by simp, by decide⟩, true, []⟩] }

theorem stackReady_of_allInstrs (params : ir.symbols.params = []) (locals : ir.symbols.locals = [])
    (checked : ∀ r ∈ ir.allInstrs, ∀ instr ∈ ir.instr? r,
      ((instr.opcode.isLoad || instr.opcode.isStore) = true → 2 ≤ instr.operands.length) ∧
      (instr.opcode.isStore = true → 3 ≤ instr.operands.length) ∧
      ∀ addr ∈ instr.operands[1]?, ∀ source ∈ ir.instr? addr, 1 ≤ source.operands.length ∧
        (source.opcode = .add ∨ source.opcode = .sub → 2 ≤ source.operands.length)) :
    StackReady ir where
  params := params
  locals := locals
  memory r instr present := (checked r (mem_allInstrs present) instr present).1
  stored r instr present := (checked r (mem_allInstrs present) instr present).2.1
  addressed r instr addr present _ second source isSource :=
    (checked r (mem_allInstrs present) instr present).2.2 addr second source isSource

theorem not_negatesLowest (known : 0x8000 ∉ ir.consts) (r : Ref) : ¬ NegatesLowest ir r := by
  rintro ⟨_, _, _, c, _, _, _, _, _, lowest⟩
  cases c with
  | const i => exact known (List.mem_of_getElem? lowest)
  | _ => cases lowest

/-- The last two of four bytes. -/
def endingStack : IR := twoLoads [8, 6] .load32 .load16

theorem endingStack_symbolized : Symbolizable endingStack ∧
    ∃ next, symbolizeStack endingStack = some next ∧ Symbolized endingStack next := by
  have symbolizable : Symbolizable endingStack := by
    have both : accesses endingStack = [⟨.instr 0 2, -8, 4⟩, ⟨.instr 0 3, -6, 2⟩] := by decide +kernel
    constructor
    all_goals rw [both]
    · decide
    · exact fun a _ lowest => not_negatesLowest (by decide) a.memRef lowest
    · decide
    · decide
    · decide
  have ready : StackReady endingStack := stackReady_of_allInstrs rfl rfl (by decide)
  exact ⟨symbolizable, (symbolizeStack_iff ready).mpr symbolizable⟩

/-- The second of four bytes. -/
def nestedStack : IR := twoLoads [8, 7] .load32 .load8

/-- The symbol of the four bytes shrinks to two. -/
theorem nestedStack_shrinks : StackReady nestedStack ∧
    ¬ ∃ next, symbolizeStack nestedStack = some next ∧ Symbolized nestedStack next := by
  refine ⟨stackReady_of_allInstrs rfl rfl (by decide), ?_⟩
  rintro ⟨next, ran, symbolized⟩
  have shrunk : (symbolizeStack nestedStack).map
      (fun next => next.symbols.locals.map fun symbol => (symbol.start, symbol.stop)) =
        some [(-8, -6)] := by decide +kernel
  rw [ran] at shrunk
  have table := Option.some.inj shrunk
  have inside : ⟨.instr 0 2, -8, 4⟩ ∈ accesses nestedStack := by decide +kernel
  obtain ⟨idx, ⟨symbol, isSymbol, _, high⟩, _⟩ := symbolized.covered _ inside
  have listed : (symbol.start, symbol.stop) ∈ [((-8 : Int), (-6 : Int))] := by
    rw [← table]
    exact List.mem_map_of_mem (List.mem_of_getElem? isSymbol)
  obtain ⟨_, stops⟩ := Prod.mk.inj (List.mem_singleton.mp listed)
  rw [stops] at high
  exact absurd high (by decide)

end Dis86.Sym
