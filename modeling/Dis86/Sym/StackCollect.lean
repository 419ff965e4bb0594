import Dis86.Lib.Lists
import Dis86.Sym.Stack

namespace Dis86.Sym
open IR Lib

variable {ir : IR} {r : Ref} {access : StackAccess}

/-- What an access is made of. -/
theorem accessAt?_eq_some (found : accessAt? ir r = some access) :
    ∃ instr addr rest k, ir.instr? r = some instr ∧ instr.operands = .init .SS :: addr :: rest ∧
      (instr.opcode.isLoad || instr.opcode.isStore) = true ∧ addressOffset? ir addr = some k ∧
      access = ⟨r, k.toInt, accessSize instr.opcode⟩ := by
  unfold accessAt? at found
  obtain ⟨instr, present, rest⟩ := Option.bind_eq_some_iff.mp found
  split at rest
  · rename_i addr others operands
    split at rest
    · rename_i kind
      obtain ⟨k, offset, same⟩ := Option.map_eq_some_iff.mp rest
      exact ⟨instr, addr, others, k, present, operands, kind, offset, same.symm⟩
    · cases rest
  · cases rest

theorem accessAt?_memRef (found : accessAt? ir r = some access) : access.memRef = r := by
  obtain ⟨_, _, _, _, _, _, _, _, rfl⟩ := accessAt?_eq_some found
  rfl

theorem accessAt?_off (found : accessAt? ir r = some access) :
    -2 ^ 15 ≤ access.off ∧ access.off < 2 ^ 15 := by
  obtain ⟨_, _, _, k, _, _, _, _, rfl⟩ := accessAt?_eq_some found
  exact ⟨BitVec.le_toInt k, BitVec.toInt_lt⟩

theorem accessAt?_size (found : accessAt? ir r = some access) :
    access.size = 1 ∨ access.size = 2 ∨ access.size = 4 := by
  obtain ⟨instr, _, _, _, _, _, _, _, rfl⟩ := accessAt?_eq_some found
  simp only [accessSize]
  split <;> simp

/-- An address has an offset in the source, except where that panics. -/
theorem stackOffset?_of_address {addr : Ref} {k : BitVec 16}
    (offset : addressOffset? ir addr = some k) :
    ∃ source, ir.instr? addr = some source ∧ source.operands[0]? = some (.init .SP) ∧
      (stackOffset? ir source = some (some k.toInt) ∧
          ¬ (source.opcode = .sub ∧ ∃ c, source.operands[1]? = some c ∧
            ir.constLookup c = some 0x8000) ∨
        stackOffset? ir source = none ∧ source.opcode = .sub ∧ ∃ c, source.operands[1]? = some c ∧
          ir.constLookup c = some 0x8000) := by
  unfold addressOffset? at offset
  obtain ⟨source, present, rest⟩ := Option.bind_eq_some_iff.mp offset
  refine ⟨source, present, ?_⟩
  split at rest
  · rename_i c others isAdd operands
    refine ⟨by rw [operands]; rfl, .inl ⟨?_, ?_⟩⟩
    · simp only [stackOffset?, isAdd, operands, List.getElem?_cons_succ, List.getElem?_cons_zero,
        Option.map_some, rest]
    · rintro ⟨isSub, _⟩
      rw [isAdd] at isSub
      cases isSub
  · rename_i c others isSub operands
    obtain ⟨l, known, rfl⟩ := Option.map_eq_some_iff.mp rest
    refine ⟨by rw [operands]; rfl, ?_⟩
    have second : source.operands[1]? = some c := by rw [operands]; rfl
    by_cases lowest : l = 0x8000
    · right
      subst lowest
      refine ⟨?_, isSub, c, second, known⟩
      simp only [stackOffset?, isSub, second, Option.bind_some, known]
      rfl
    · left
      constructor
      · have opposite : (-l).toInt = -l.toInt := by
          apply BitVec.toInt_neg_of_ne_intMin
          exact lowest
        have fits : fitsI16 (-l.toInt) = some (-l).toInt := by
          rw [fitsI16_eq_some, ← opposite]
          exact ⟨BitVec.le_toInt _, BitVec.toInt_lt, rfl⟩
        simp only [stackOffset?, isSub, second, Option.bind_some, known, fits, Option.map_some]
      · rintro ⟨_, d, isSecond, isLowest⟩
        obtain rfl := Option.some.inj (second.symm.trans isSecond)
        rw [known] at isLowest
        exact lowest (Option.some.inj isLowest)
  · cases rest

/-- A memory operation on the stack segment reads its address next. -/
theorem stackAccess?_eq {instr : Instr} {addr : Ref} {rest : List Ref}
    (present : ir.instr? r = some instr) (operands : instr.operands = .init .SS :: addr :: rest)
    (kind : (instr.opcode.isLoad || instr.opcode.isStore) = true) :
    stackAccess? ir r =
      match ir.instr? addr with
      | none => some none
      | some source => source.operands[0]?.bind fun first =>
          if first ≠ .init .SP then some none else (stackOffset? ir source).bind fun off =>
            match off with
            | none => some none
            | some off => instr.opcode.operationSize.map fun size => some ⟨r, off, size⟩ := by
  have isMemory : ¬ ((!instr.opcode.isLoad && !instr.opcode.isStore) = true) := by
    simp only [Bool.and_eq_true, Bool.not_eq_true', not_and, Bool.not_eq_false]
    intro notLoad
    simpa [notLoad] using kind
  unfold stackAccess?
  simp only [present, operands, Option.bind_eq_bind, Option.bind_some, if_neg isMemory,
    List.getElem?_cons_zero, List.getElem?_cons_succ, ne_eq, not_true_eq_false, if_false,
    Option.pure_def]
  cases ir.instr? addr with
  | none => rfl
  | some source =>
      apply congrArg (Option.bind source.operands[0]?)
      funext first
      split
      · rfl
      · apply congrArg (Option.bind (stackOffset? ir source))
        funext off
        cases off with
        | none => rfl
        | some off => exact (Option.map_eq_bind ..).symm

/-- An instruction that is no access is skipped. -/
theorem stackAccess?_skips (ready : StackReady ir) {instr : Instr} (present : ir.instr? r = some instr)
    (missing : accessAt? ir r = none) : stackAccess? ir r = some none := by
  by_cases kind : (instr.opcode.isLoad || instr.opcode.isStore) = true
  · obtain ⟨first, addr, rest, operands⟩ := exists_pair (ready.memory r instr present kind)
    by_cases isStack : first = .init .SS
    · subst isStack
      have noOffset : addressOffset? ir addr = none := by
        simp only [accessAt?, present, operands, Option.bind_eq_bind, Option.bind_some, if_pos kind,
          Option.map_eq_none_iff] at missing
        exact missing
      rw [stackAccess?_eq present operands kind]
      cases source? : ir.instr? addr with
      | none => rfl
      | some source =>
          obtain ⟨atLeast, two⟩ := ready.addressed r instr addr present kind
            (by rw [operands]; rfl) source source?
          have skips : source.operands[0]? = some (.init .SP) → stackOffset? ir source = some none := by
            intro isPointer
            unfold stackOffset?
            split
            · rename_i isAdd
              obtain ⟨head, c, others, listed⟩ := exists_pair (two (.inl isAdd))
              rw [listed] at isPointer
              obtain rfl := Option.some.inj isPointer
              simp only [addressOffset?, source?, Option.bind_eq_bind, Option.bind_some, isAdd,
                listed] at noOffset
              simp only [listed, List.getElem?_cons_succ, List.getElem?_cons_zero, Option.map_some,
                noOffset, Option.map_none]
            · rename_i isSub
              obtain ⟨head, c, others, listed⟩ := exists_pair (two (.inr isSub))
              rw [listed] at isPointer
              obtain rfl := Option.some.inj isPointer
              simp only [addressOffset?, source?, Option.bind_eq_bind, Option.bind_some, isSub,
                listed, Option.map_eq_none_iff] at noOffset
              simp only [listed, List.getElem?_cons_succ, List.getElem?_cons_zero, Option.bind_some,
                noOffset]
            · rfl
          simp only [List.getElem?_eq_getElem atLeast, Option.bind_some]
          split
          · rfl
          · rename_i isPointer
            have pointer : source.operands[0]? = some (.init .SP) := by
              rw [List.getElem?_eq_getElem atLeast, not_not.mp isPointer]
            rw [skips pointer]
            rfl
    · unfold stackAccess?
      simp [present, operands, isStack]
  · unfold stackAccess?
    simp only [Bool.or_eq_true, not_or, Bool.not_eq_true] at kind
    simp [present, kind.1, kind.2]

/-- What the pass needs of an instruction to read its access. -/
structure Readable (ir : IR) (r : Ref) : Prop where
  narrow : ∀ instr, ir.instr? r = some instr → instr.opcode ≠ .store32
  negatable : ¬ NegatesLowest ir r

theorem operationSize_eq {opcode : Opcode} (kind : (opcode.isLoad || opcode.isStore) = true) :
    opcode.operationSize = if opcode = .store32 then none else some (accessSize opcode) := by
  cases opcode <;> first | rfl | exact absurd kind (by decide)

/-- The pass reads an access or panics. -/
theorem stackAccess?_found (found : accessAt? ir r = some access) :
    Readable ir r ∧ stackAccess? ir r = some (some access) ∨
      ¬ Readable ir r ∧ stackAccess? ir r = none := by
  obtain ⟨instr, addr, rest, k, present, operands, kind, offset, rfl⟩ := accessAt?_eq_some found
  obtain ⟨source, isSource, pointer, cases⟩ := stackOffset?_of_address offset
  have lowest : NegatesLowest ir r ↔ source.opcode = .sub ∧ ∃ c, source.operands[1]? = some c ∧
      ir.constLookup c = some 0x8000 := by
    have second : instr.operands[1]? = some addr := by rw [operands]; rfl
    constructor
    · rintro ⟨instr', addr', source', c, present', second', isSource', isSub, isConst, known⟩
      obtain rfl := Option.some.inj (present.symm.trans present')
      obtain rfl := Option.some.inj (second.symm.trans second')
      obtain rfl := Option.some.inj (isSource.symm.trans isSource')
      exact ⟨isSub, c, isConst, known⟩
    · rintro ⟨isSub, c, isConst, known⟩
      exact ⟨instr, addr, source, c, present, second, isSource, isSub, isConst, known⟩
  have reads : stackAccess? ir r = (stackOffset? ir source).bind fun off =>
      match off with
      | none => some none
      | some off => instr.opcode.operationSize.map fun size => some ⟨r, off, size⟩ := by
    rw [stackAccess?_eq present operands kind, isSource]
    simp only [pointer, Option.bind_some, ne_eq, not_true_eq_false, if_false]
  rw [reads, operationSize_eq kind]
  rcases cases with ⟨computed, negatable⟩ | ⟨panics, isLowest⟩
  · rw [computed]
    by_cases wide : instr.opcode = .store32
    · right
      refine ⟨fun readable => readable.narrow instr present wide, ?_⟩
      rw [if_pos wide]
      rfl
    · left
      refine ⟨⟨fun other same => ?_, fun isLowest => negatable (lowest.mp isLowest)⟩, ?_⟩
      · obtain rfl := Option.some.inj (present.symm.trans same)
        exact wide
      · rw [if_neg wide]
        rfl
  · right
    refine ⟨fun readable => readable.negatable (lowest.mpr isLowest), ?_⟩
    rw [panics]
    rfl

/-- An access has the bytes of its symbol. -/
theorem symbol?_eq_some {symbol : SymbolDef} (made : access.symbol? = some symbol) :
    symbol.off = access.off ∧ symbol.size = access.size := by
  unfold StackAccess.symbol? at made
  simp only [Option.bind_eq_bind, Option.bind_eq_some_iff, Option.pure_def, Option.some.injEq] at made
  obtain ⟨_, _, _, _, rfl⟩ := made
  exact ⟨rfl, rfl⟩

/-- The two highest offsets have no name. -/
theorem symbol?_isSome (found : accessAt? ir r = some access) :
    (∃ symbol, access.symbol? = some symbol) ↔ access.off ≤ 32765 := by
  obtain ⟨low, high⟩ := accessAt?_off found
  obtain ⟨typ, inferred⟩ := SymbolDef.inferTypeFromSize_isSome.mpr (accessAt?_size found)
  have named : (∃ symbol, access.symbol? = some symbol) ↔ ∃ name, access.name? = some name := by
    unfold StackAccess.symbol?
    simp only [inferred, Option.bind_eq_bind, Option.bind_some, Option.bind_eq_some_iff, Option.pure_def,
      Option.some.injEq]
    constructor
    · rintro ⟨_, name, isName, _⟩
      exact ⟨name, isName⟩
    · rintro ⟨name, isName⟩
      exact ⟨_, name, isName, rfl⟩
  rw [named]
  unfold StackAccess.name? frameOffset
  constructor
  · rintro ⟨name, isName⟩
    obtain ⟨shifted, fits, _⟩ := Option.bind_eq_some_iff.mp isName
    have := fitsI16_eq_some.mp fits
    omega
  · intro nameable
    have fits : fitsI16 (access.off + 2) = some (access.off + 2) := fitsI16_eq_some.mpr (by omega)
    simp only [fits, Option.bind_eq_bind, Option.bind_some]
    by_cases above : 0 < access.off
    · exact ⟨_, if_pos above⟩
    · have negated : fitsI16 (-(access.off + 2)) = some (-(access.off + 2)) :=
        fitsI16_eq_some.mpr (by omega)
      rw [if_neg above, negated]
      exact ⟨_, rfl⟩

/-- The sweep collects the accesses in order. -/
theorem collect_eq_some (ready : StackReady ir) {rs : List Ref}
    (present : ∀ r ∈ rs, ∃ instr, ir.instr? r = some instr) {found : List (StackAccess × SymbolDef)}
    (collected : collect ir rs = some found) :
    found.map Prod.fst = rs.filterMap (accessAt? ir) ∧
      ∀ entry ∈ found, entry.1.symbol? = some entry.2 := by
  induction rs generalizing found with
  | nil =>
      obtain rfl := Option.some.inj collected
      simp
  | cons r rs hypothesis =>
      obtain ⟨instr, here⟩ := present r List.mem_cons_self
      have later : ∀ s ∈ rs, ∃ instr, ir.instr? s = some instr :=
        fun s inside => present s (List.mem_cons_of_mem r inside)
      unfold collect at collected
      cases accessed : accessAt? ir r with
      | none =>
          rw [stackAccess?_skips ready here accessed] at collected
          rw [List.filterMap_cons_none accessed]
          exact hypothesis later collected
      | some access =>
          rw [List.filterMap_cons_some accessed]
          rcases stackAccess?_found accessed with ⟨_, reads⟩ | ⟨_, panics⟩
          · rw [reads] at collected
            simp only [Option.bind_eq_bind, Option.bind_some, Option.bind_eq_some_iff, Option.pure_def,
              Option.some.injEq] at collected
            obtain ⟨symbol, isSymbol, others, remaining, rfl⟩ := collected
            obtain ⟨order, symbols⟩ := hypothesis later remaining
            refine ⟨by rw [List.map_cons, order], fun entry inside => ?_⟩
            rcases List.mem_cons.mp inside with rfl | inside
            · exact isSymbol
            · exact symbols entry inside
          · rw [panics] at collected
            cases collected

/-- The sweep ends if and only if it can read and name every access. -/
theorem collect_isSome (ready : StackReady ir) {rs : List Ref}
    (present : ∀ r ∈ rs, ∃ instr, ir.instr? r = some instr) :
    (∃ found, collect ir rs = some found) ↔
      ∀ a ∈ rs.filterMap (accessAt? ir), Readable ir a.memRef ∧ a.off ≤ 32765 := by
  induction rs with
  | nil => simp [collect]
  | cons r rs hypothesis =>
      obtain ⟨instr, here⟩ := present r List.mem_cons_self
      have rest := hypothesis fun s inside => present s (List.mem_cons_of_mem r inside)
      unfold collect
      cases accessed : accessAt? ir r with
      | none =>
          rw [stackAccess?_skips ready here accessed, List.filterMap_cons_none accessed]
          exact rest
      | some access =>
          rw [List.filterMap_cons_some accessed, List.forall_mem_cons, ← rest,
            accessAt?_memRef accessed, ← symbol?_isSome accessed]
          rcases stackAccess?_found accessed with ⟨readable, reads⟩ | ⟨unreadable, panics⟩
          · simp only [reads, Option.bind_eq_bind, Option.bind_some, Option.bind_eq_some_iff,
              Option.pure_def, Option.some.injEq]
            constructor
            · rintro ⟨_, symbol, isSymbol, others, remaining, _⟩
              exact ⟨⟨readable, symbol, isSymbol⟩, others, remaining⟩
            · rintro ⟨⟨_, symbol, isSymbol⟩, others, remaining⟩
              exact ⟨_, symbol, isSymbol, others, remaining, rfl⟩
          · rw [panics]
            constructor
            · rintro ⟨_, none⟩
              cases none
            · rintro ⟨⟨readable, _⟩, _⟩
              exact absurd readable unreadable

end Dis86.Sym
