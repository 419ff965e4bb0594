import Dis86.Confgen.Loading

namespace Dis86.Confgen
open Asm (Reg Seg SegOff)
open Bsl (Node Value)

/-- The registers in the order in which each comes first. -/
def distinct (regs : List Reg) : List Reg :=
  regs.foldl (fun regs reg => if reg ∈ regs then regs else regs ++ [reg]) []

def trim (text : String) : String := String.ofList (Lib.strip isWhitespace text.toList)

/-- The registers of a contract are named between commas. -/
def ContractCarried (text : String) (regs : List Reg) : Prop :=
  ∃ named : List Reg, named.map Reg.name = (splitCommas text).map trim ∧ (∀ reg ∈ named, reg ∈ contractRegs) ∧
    regs = distinct named

/-- A return type is none, or the one that its text denotes. -/
def ReturnCarried (types : TypeDatabase) (text : String) (ret : Option Typ) : Prop :=
  (text = "None" ∧ ret = none) ∨ ∃ typ, text ≠ "None" ∧ types.parseType text.toList = .ok typ ∧ ret = some typ

/-- A function has every property of its annotation. -/
structure FunctionCarried (types : TypeDatabase) (func : Function) (read : Func) : Prop where
  name : read.name = func.name
  start : func.startAddr.segOff = some read.start
  stop : func.endAddr.mapM Addr.segOff = some read.stop
  entry : func.entryStub.mapM Addr.segOff = some read.entry
  mode : read.mode = if (genFunction func).mode = "near" then .near else .far
  ret : ReturnCarried types (func.ret.getD "None") read.ret
  argsRange : ∀ n ∈ func.args, -2 ^ 15 ≤ n ∧ n < 2 ^ 15
  args : read.args = func.args.bind knownArgs
  regargs : read.regargs.map (List.map Reg.name) = func.regargs.map splitCommas
  regouts : Option.Rel ContractCarried func.regouts read.regouts
  clobbers : Option.Rel ContractCarried func.clobbers read.clobbers
  dontPopArgs : read.dontPopArgs = func.dontPopArgs
  regions : List.Forall₂ (fun (bounds : Addr × Addr) region => bounds.1.segOff = some region.start ∧
    bounds.2.segOff = some region.stop) func.regions read.regions

section Reading

variable {types : TypeDatabase} {func : Function} {read : Func}

theorem fromStrUpper_eq_some {s : String} {reg : Reg} : fromStrUpper s = some reg ↔ reg.name = s := by
  constructor
  · intro found
    have named := List.find?_some found
    exact of_decide_eq_true named
  · rintro rfl
    cases reg <;> rfl

theorem parseContractReg_eq_ok {key field name : String} {regs after : List Reg} :
    parseContractReg key field regs name = .ok after ↔ ∃ reg : Reg, reg.name = trim name ∧ reg ∈ contractRegs ∧
      after = if reg ∈ regs then regs else regs ++ [reg] := by
  unfold parseContractReg
  cases found : fromStrUpper (trim name) with
  | none =>
      have absent (reg : Reg) : reg.name ≠ trim name := by
        intro named
        rw [fromStrUpper_eq_some.mpr named] at found
        cases found
      rw [trim] at found
      simp [found, trim] at absent ⊢
      intro reg named
      exact absurd named (absent reg)
  | some reg =>
      have named := fromStrUpper_eq_some.mp found
      rw [trim] at found
      dsimp only
      rw [found]
      dsimp only
      constructor
      · intro read
        split at read
        · cases read
        · rename_i inside
          cases read
          exact ⟨reg, named, not_not.mp inside, rfl⟩
      · rintro ⟨other, same, inside, rfl⟩
        have equal : other = reg := by
          have again := fromStrUpper_eq_some.mpr (same.trans rfl)
          rw [trim] at again
          rw [found] at again
          exact (Option.some.inj again).symm
        rw [equal] at inside ⊢
        rw [if_neg (not_not.mpr inside)]

theorem contractRegs_eq_ok {key field : String} {names : List String} {regs after : List Reg} :
    names.foldlM (parseContractReg key field) regs = .ok after ↔
      ∃ named : List Reg, named.map Reg.name = names.map trim ∧ (∀ reg ∈ named, reg ∈ contractRegs) ∧
        after = named.foldl (fun regs reg => if reg ∈ regs then regs else regs ++ [reg]) regs := by
  induction names generalizing regs with
  | nil =>
      constructor
      · intro done
        cases done
        exact ⟨[], rfl, List.forall_mem_nil _, rfl⟩
      · rintro ⟨named, same, _, rfl⟩
        cases named with
        | nil => rfl
        | cons reg named => cases same
  | cons name names hypothesis =>
      rw [List.foldlM_cons, Lib.except_bind_eq_ok]
      constructor
      · rintro ⟨next, one, rest⟩
        obtain ⟨reg, same, inside, rfl⟩ := parseContractReg_eq_ok.mp one
        obtain ⟨named, names, members, rfl⟩ := hypothesis.mp rest
        exact ⟨reg :: named, by simp [same, names], List.forall_mem_cons.mpr ⟨inside, members⟩, rfl⟩
      · rintro ⟨named, same, members, rfl⟩
        cases named with
        | nil => cases same
        | cons reg named =>
            obtain ⟨first, later⟩ := List.cons.inj same
            have known := List.forall_mem_cons.mp members
            exact ⟨_, parseContractReg_eq_ok.mpr ⟨reg, first, known.1, rfl⟩,
              hypothesis.mpr ⟨named, later, known.2, rfl⟩⟩

theorem parseContractRegs_eq_ok {key field : String} {text : Option String} {regs : Option (List Reg)} :
    parseContractRegs key field text = .ok regs ↔ Option.Rel ContractCarried text regs := by
  cases text with
  | none =>
      constructor
      · intro done
        cases done
        exact .none
      · intro related
        cases related
        rfl
  | some text =>
      rw [parseContractRegs, Lib.except_bind_eq_ok]
      constructor
      · rintro ⟨named, read, done⟩
        cases done
        exact .some (contractRegs_eq_ok.mp read)
      · intro related
        cases related with
        | some carried => exact ⟨_, contractRegs_eq_ok.mpr carried, rfl⟩

theorem parseSegOff_eq_ok {key field : String} {addr : Addr} {place : SegOff} :
    parseSegOff key field addr = .ok place ↔ addr.segOff = some place := by
  unfold parseSegOff
  cases addr.segOff <;> simp

theorem mapM_segOff {key field : String} {given : Option Addr} {place : Option SegOff} :
    given.mapM (parseSegOff key field) = .ok place ↔ given.mapM Addr.segOff = some place := by
  cases given with
  | none =>
      constructor <;>
        · intro done
          cases done
          rfl
  | some addr =>
      have texts : (some addr).mapM (parseSegOff key field) = some <$> parseSegOff key field addr := by
        cases parsed : parseSegOff key field addr <;> simp [Option.mapM, parsed]
      have values : (some addr).mapM Addr.segOff = some <$> addr.segOff := by
        cases parsed : addr.segOff <;> simp [Option.mapM, parsed]
      rw [texts, values, parseSegOff]
      cases addr.segOff with
      | none => constructor <;> intro wrong <;> cases wrong
      | some found =>
          constructor
          · intro done
            cases done
            rfl
          · intro done
            cases done
            rfl

theorem parseRegion_eq_ok {key : String} {index : Nat} {bounds : Addr × Addr} {region : FuncRegion} :
    parseRegion key index bounds = .ok region ↔
      bounds.1.segOff = some region.start ∧ bounds.2.segOff = some region.stop := by
  unfold parseRegion
  cases bounds.1.segOff with
  | none =>
      constructor
      · intro wrong
        cases wrong
      · rintro ⟨wrong, _⟩
        cases wrong
  | some start =>
      cases bounds.2.segOff with
      | none =>
          constructor
          · intro wrong
            cases wrong
          · rintro ⟨_, wrong⟩
            cases wrong
      | some stop =>
          constructor
          · intro done
            cases done
            exact ⟨rfl, rfl⟩
          · rintro ⟨first, second⟩
            cases first
            cases second
            rfl

/-- A list is read entry by entry. -/
theorem mapM_eq_ok {E A B : Type} {f : A → Except E B} {l : List A} {bs : List B} :
    l.mapM f = .ok bs ↔ List.Forall₂ (fun a b => f a = .ok b) l bs := by
  induction l generalizing bs with
  | nil =>
      constructor
      · intro done
        cases done
        exact .nil
      · intro related
        cases related
        rfl
  | cons a l hypothesis =>
      rw [List.mapM_cons, Lib.except_bind_eq_ok]
      constructor
      · rintro ⟨b, one, rest⟩
        obtain ⟨bs, others, done⟩ := Lib.except_bind_eq_ok.mp rest
        cases done
        exact .cons one (hypothesis.mp others)
      · intro related
        cases related with
        | cons one others => exact ⟨_, one, Lib.except_bind_eq_ok.mpr ⟨_, hypothesis.mpr others, rfl⟩⟩

theorem parseRegions_eq_ok {key : String} {bounds : List (Addr × Addr)} {regions : List FuncRegion} :
    parseRegions key bounds = .ok regions ↔
      List.Forall₂ (fun (bounds : Addr × Addr) region => bounds.1.segOff = some region.start ∧
        bounds.2.segOff = some region.stop) bounds regions := by
  have indexed (k : Nat) : (bounds.zipIdx k).mapM (fun entry => parseRegion key entry.2 entry.1) = .ok regions ↔
      List.Forall₂ (fun (bounds : Addr × Addr) region => bounds.1.segOff = some region.start ∧
        bounds.2.segOff = some region.stop) bounds regions := by
    rw [mapM_eq_ok]
    induction bounds generalizing k regions with
    | nil => simp
    | cons first bounds hypothesis =>
        rw [List.zipIdx_cons]
        constructor
        · intro related
          cases related with
          | cons one others => exact .cons (parseRegion_eq_ok.mp one) ((hypothesis (k + 1)).mp others)
        · intro related
          cases related with
          | cons one others => exact .cons (parseRegion_eq_ok.mpr one) ((hypothesis (k + 1)).mpr others)
  exact indexed 0

theorem parseMode_genFunction {key : String} {mode : CallMode} :
    parseMode key (genFunction func).mode = .ok mode ↔
      mode = if (genFunction func).mode = "near" then .near else .far := by
  have known : (genFunction func).mode = "near" ∨ (genFunction func).mode = "far" := by
    unfold genFunction
    dsimp only
    split
    · rename_i mode flags found
      obtain ⟨before, after, whole, _⟩ := List.lookup_eq_some_iff.mp found
      have listed : (func.flags, mode, flags) ∈ retUnknownModes := by
        rw [whole]
        exact List.mem_append_right _ List.mem_cons_self
      simp only [retUnknownModes, List.mem_cons, Prod.mk.injEq, List.not_mem_nil, or_false] at listed
      rcases listed with first | second | third
      · exact .inl first.2.1
      · exact .inl second.2.1
      · exact .inr third.2.1
    · split
      · exact .inl rfl
      · exact .inr rfl
  rcases known with near | far
  · rw [near, if_pos rfl]
    exact ⟨fun done => (Except.ok.inj done).symm, fun same => same ▸ rfl⟩
  · rw [far, if_neg (by decide)]
    exact ⟨fun done => (Except.ok.inj done).symm, fun same => same ▸ rfl⟩

theorem parseArgs_eq_ok {key : String} {args : Option Int} {count : Int} :
    parseArgs key args = .ok count ↔ (∀ n ∈ args, -2 ^ 15 ≤ n ∧ n < 2 ^ 15) ∧ count = args.getD (-1) := by
  cases args with
  | none =>
      constructor
      · intro done
        cases done
        exact ⟨by simp, rfl⟩
      · rintro ⟨_, rfl⟩
        rfl
  | some n =>
      rw [parseArgs]
      split
      · rename_i fits
        constructor
        · intro done
          cases done
          exact ⟨by simpa using fits, rfl⟩
        · rintro ⟨_, rfl⟩
          rfl
      · rename_i outside
        constructor
        · intro wrong
          cases wrong
        · rintro ⟨fits, _⟩
          exact absurd (fits n rfl) outside

theorem parseRet_eq_ok {key text : String} {ret : Option Typ} :
    parseRet types key text = .ok ret ↔ ReturnCarried types text ret := by
  unfold parseRet ReturnCarried
  split
  · rename_i nothing
    constructor
    · intro done
      cases done
      exact .inl ⟨nothing, rfl⟩
    · rintro (⟨_, rfl⟩ | ⟨typ, wrong, _⟩)
      · rfl
      · exact absurd nothing wrong
  · rename_i something
    cases parsed : types.parseType text.toList with
    | ok typ =>
        constructor
        · intro done
          cases done
          exact .inr ⟨typ, something, rfl, rfl⟩
        · rintro (⟨wrong, _⟩ | ⟨typ', _, same, rfl⟩)
          · exact absurd wrong something
          · cases same
            rfl
    | error err =>
        constructor
        · intro wrong
          cases wrong
        · rintro (⟨wrong, _⟩ | ⟨typ', _, same, _⟩)
          · exact absurd wrong something
          · cases same

theorem parseRegargs_eq_ok {text : Option String} {regs : Option (List Reg)} :
    parseRegargs text = .ok regs ↔ regs.map (List.map Reg.name) = text.map splitCommas := by
  cases text with
  | none =>
      constructor
      · intro done
        cases done
        rfl
      · intro same
        cases regs with
        | none => rfl
        | some regs => cases same
  | some text =>
      have one (name : String) (reg : Reg) :
          (fromStrUpper name).elim (Except.error (FunctionError.register name)) Except.ok = .ok reg ↔
            reg.name = name := by
        rw [← fromStrUpper_eq_some]
        cases fromStrUpper name <;> simp
      have named (names : List String) (regs : List Reg) :
          List.Forall₂ (fun name (reg : Reg) => reg.name = name) names regs ↔ regs.map Reg.name = names := by
        have turned : (fun name (reg : Reg) => reg.name = name) = fun name reg => name = reg.name := by
          funext name reg
          exact propext eq_comm
        rw [turned, ← @List.forall₂_map_right_iff _ _ _ Eq Reg.name, List.forall₂_eq_eq_eq]
        exact eq_comm
      rw [parseRegargs, Lib.except_bind_eq_ok]
      simp only [mapM_eq_ok, one, named]
      cases regs with
      | none =>
          constructor
          · rintro ⟨regs, _, wrong⟩
            cases wrong
          · intro wrong
            cases wrong
      | some regs =>
          constructor
          · rintro ⟨others, same, done⟩
            cases done
            exact congrArg some same
          · intro same
            exact ⟨regs, Option.some.inj same, rfl⟩

/-- A function is read if and only if its annotation is carried. -/
theorem readFunction_iff : readFunction types (genFunction func) = .ok read ↔ FunctionCarried types func read := by
  have counted : knownArgs ((genFunction func).args.getD (-1)) = func.args.bind knownArgs := by
    have same : (genFunction func).args = func.args := rfl
    rw [same]
    cases func.args <;> rfl
  unfold readFunction
  simp only [Lib.except_bind_eq_ok, parseRegions_eq_ok, parseContractRegs_eq_ok, parseSegOff_eq_ok, mapM_segOff,
    parseMode_genFunction, parseArgs_eq_ok, parseRet_eq_ok, parseRegargs_eq_ok]
  constructor
  · rintro ⟨regions, bounds, regouts, outs, clobbers, lost, start, begins, stop, ends, entry, stub, mode, called, args,
      ⟨range, total⟩, ret, returned, regargs, passed, done⟩
    cases done
    exact {
      name := rfl
      start := begins
      stop := ends
      entry := stub
      mode := called
      ret := returned
      argsRange := range
      args := (congrArg knownArgs total).trans counted
      regargs := passed
      regouts := outs
      clobbers := lost
      dontPopArgs := rfl
      regions := bounds }
  · intro carried
    refine ⟨read.regions, carried.regions, read.regouts, carried.regouts, read.clobbers, carried.clobbers, read.start,
      carried.start, read.stop, carried.stop, read.entry, carried.entry, read.mode, carried.mode, _,
      ⟨carried.argsRange, rfl⟩, read.ret, carried.ret, read.regargs, carried.regargs, ?_⟩
    rw [counted, ← carried.args, show (genFunction func).name = read.name from carried.name.symm,
      show (genFunction func).dontPopArgs = read.dontPopArgs from carried.dontPopArgs.symm]
    rfl

/-- An indirect call has the start, the return and the argument count of its annotation. -/
structure IndirectCarried (types : TypeDatabase) (func : Function) (call : Indirect) : Prop where
  read : ∃ read, FunctionCarried types func read ∧ read.regions = [] ∧ read.regouts = none ∧ read.clobbers = none ∧
    read.mode = .far ∧ read.start = call.addr ∧ read.ret = some call.ret ∧ read.args = some call.args

theorem readIndirect_eq_ok {call : Indirect} : readIndirect read = .ok call ↔
    read.regions = [] ∧ read.regouts = none ∧ read.clobbers = none ∧ read.mode = .far ∧ read.start = call.addr ∧
      read.ret = some call.ret ∧ read.args = some call.args := by
  unfold readIndirect
  split
  · rename_i some
    constructor
    · intro wrong
      cases wrong
    · rintro ⟨none, _⟩
      exact absurd none some
  split
  · rename_i contract
    constructor
    · intro wrong
      cases wrong
    · rintro ⟨_, outs, lost, _⟩
      rw [outs, lost] at contract
      simp at contract
  split
  · rename_i near
    constructor
    · intro wrong
      cases wrong
    · rintro ⟨_, _, _, far, _⟩
      exact absurd far near
  rename_i whole plain far
  simp only [not_or, Option.not_isSome_iff_eq_none, not_not] at whole plain far
  cases returned : read.ret with
  | none =>
      constructor
      · intro wrong
        cases wrong
      · rintro ⟨_, _, _, _, _, wrong, _⟩
        cases wrong
  | some ret =>
      cases counted : read.args with
      | none =>
          constructor
          · intro wrong
            cases wrong
          · rintro ⟨_, _, _, _, _, _, wrong⟩
            cases wrong
      | some args =>
          constructor
          · intro done
            cases done
            exact ⟨whole, plain.1, plain.2, far, rfl, rfl, rfl⟩
          · rintro ⟨_, _, _, _, place, same, count⟩
            cases same
            cases count
            rw [place]

/-- The functions that are call locations. -/
def indirectFunctions (functions : List Function) : List Function :=
  functions.filter (·.flags = indirectCallLocation)

/-- The functions and the indirect calls are read in their order, each once. -/
theorem parseFunctions_iff {functions : List Function} {cfg cfg' : Config} :
    parseFunctions types cfg (genFunctions functions) = .ok cfg' ↔ ∃ reads calls,
      List.Forall₂ (FunctionCarried types) (directFunctions functions) reads ∧
      List.Forall₂ (IndirectCarried types) (indirectFunctions functions) calls ∧
      cfg' = { cfg with funcs := cfg.funcs ++ reads, indirects := cfg.indirects ++ calls } := by
  induction functions generalizing cfg with
  | nil =>
      constructor
      · intro done
        cases done
        exact ⟨[], [], .nil, .nil, by simp⟩
      · rintro ⟨reads, calls, none, nothing, rfl⟩
        cases none
        cases nothing
        simp [genFunctions, parseFunctions, pure, Except.pure]
  | cons func functions hypothesis =>
      rw [parseFunctions, genFunctions, List.map_cons, List.foldlM_cons, Lib.except_bind_eq_ok]
      have rest (next : Config) : (functions.map genFunction).foldlM (parseFunction types) next = .ok cfg' ↔ _ :=
        @hypothesis next
      simp only [rest]
      have located : (genFunction func).indirectCallLocation = decide (func.flags = indirectCallLocation) := rfl
      by_cases indirect : func.flags = indirectCallLocation
      · have skipped : directFunctions (func :: functions) = directFunctions functions :=
          List.filter_cons_of_neg (by simp [indirect])
        have listed : indirectFunctions (func :: functions) = func :: indirectFunctions functions :=
          List.filter_cons_of_pos (by simp [indirect])
        rw [skipped, listed]
        constructor
        · rintro ⟨next, one, reads, calls, direct, others, rfl⟩
          obtain ⟨read, readOk, one⟩ := Lib.except_bind_eq_ok.mp one
          rw [located, if_pos (decide_eq_true indirect)] at one
          obtain ⟨call, called, done⟩ := Lib.except_bind_eq_ok.mp one
          cases done
          exact ⟨reads, call :: calls, direct,
            .cons ⟨read, readFunction_iff.mp readOk, readIndirect_eq_ok.mp called⟩ others, by simp⟩
        · rintro ⟨reads, calls, direct, others, rfl⟩
          cases others with
          | @cons _ call _ calls first others =>
              obtain ⟨read, carried, shape⟩ := first
              refine ⟨{ cfg with indirects := cfg.indirects ++ [call] }, ?_, reads, calls, direct, others, by simp⟩
              refine Lib.except_bind_eq_ok.mpr ⟨read, readFunction_iff.mpr carried, ?_⟩
              rw [located, if_pos (decide_eq_true indirect)]
              exact Lib.except_bind_eq_ok.mpr ⟨call, readIndirect_eq_ok.mpr shape, rfl⟩
      · have listed : directFunctions (func :: functions) = func :: directFunctions functions :=
          List.filter_cons_of_pos (by simp [indirect])
        have skipped : indirectFunctions (func :: functions) = indirectFunctions functions :=
          List.filter_cons_of_neg (by simp [indirect])
        rw [skipped, listed]
        constructor
        · rintro ⟨next, one, reads, calls, direct, others, rfl⟩
          obtain ⟨read, readOk, one⟩ := Lib.except_bind_eq_ok.mp one
          rw [located, if_neg (by simp [indirect])] at one
          cases one
          exact ⟨read :: reads, calls, .cons (readFunction_iff.mp readOk) direct, others, by simp⟩
        · rintro ⟨reads, calls, direct, others, rfl⟩
          cases direct with
          | @cons _ read _ reads first direct =>
              refine ⟨{ cfg with funcs := cfg.funcs ++ [read] }, ?_, reads, calls, direct, others, by simp⟩
              refine Lib.except_bind_eq_ok.mpr ⟨read, readFunction_iff.mpr first, ?_⟩
              rw [located, if_neg (by simp [indirect])]
              rfl

end Reading

structure CodeSegCarried (cs : CodeSegment) (read : CodeSeg) : Prop where
  name : read.name = cs.name
  seg : Seg.fromStr (formatInt 10 0 cs.seg).toList = some read.seg

structure MemberCarried (types : TypeDatabase) (mbr : Member) (read : StructMember) : Prop where
  name : read.name = mbr.name
  off : ∃ off, readHex mbr.off = some off ∧ read.off = off.toNat
  typ : types.parseType (typeStr mbr.typ).toList = .ok read.typ

/-- Members follow one another without a gap. -/
def Laid : Nat → List StructMember → Nat → Prop
  | cursor, [], stop => cursor = stop
  | cursor, member :: members, stop =>
      member.off = cursor ∧ ∃ size, member.typ.sizeInBytes = some size ∧ Laid (cursor + size) members stop

structure StructureCarried (types : TypeDatabase) (struct : Structure) (read : Struct) : Prop where
  name : read.name = struct.name
  size : read.size = struct.size
  positive : 0 < struct.size
  small : struct.size < 2 ^ 16
  members : List.Forall₂ (MemberCarried types) struct.members read.members
  laid : Laid 0 read.members read.size

/-- Each structure is read with the types before it. -/
def StructuresCarried : TypeDatabase → List Structure → TypeDatabase → Prop
  | types, [], after => after = types
  | types, struct :: structures, after =>
      ∃ read, StructureCarried types struct read ∧ StructuresCarried (types.appendStruct read) structures after

/-- A type that is no annotation and has no brackets is unknown. -/
def GlobalTypeCarried (types : TypeDatabase) (text : String) (typ : Typ) : Prop :=
  types.parseType text.toList = .ok typ ∨
    (∃ err, types.parseType text.toList = .error err) ∧ text.toList.any isBracket = false ∧ typ = .unknown

structure GlobalCarried (types : TypeDatabase) (var : Global) (read : ConfigGlobal) : Prop where
  name : read.name = var.name
  off : readHex var.off = some read.offset
  typ : GlobalTypeCarried types (typeStr var.typ) read.typ
  bounds : hasUnknownArrayBound read.typ = false
  size : isArray read.typ = true → read.typ.sizeInBytes ≠ none
  inside : ∀ size ∈ read.typ.sizeInBytes, read.offset.toNat + size ≤ 0x10000

structure TextCarried (types : TypeDatabase) (var : TextData) (read : TextSectionRegion) : Prop where
  name : read.name = var.name
  start : var.startAddr.segOff = some read.start
  stop : var.endAddr.segOff = some read.stop
  typ : Option.Rel (fun typ read => types.parseType (typeStr typ).toList = .ok read) var.typ read.typ
  access : var.accessAt.mapM Addr.segOff = some read.access

/-- What is read from a configuration file is what the annotations say, in their order. -/
structure Carries (data : Annotations) (loaded : Loaded) : Prop where
  codeSegs : List.Forall₂ CodeSegCarried data.codeSegments loaded.config.codeSegs
  structures : StructuresCarried .new data.structures loaded.types
  functions : List.Forall₂ (FunctionCarried loaded.types) (directFunctions data.functions) loaded.config.funcs
  indirects : List.Forall₂ (IndirectCarried loaded.types) (indirectFunctions data.functions) loaded.config.indirects
  globals : List.Forall₂ (GlobalCarried loaded.types) data.dataSection loaded.globals
  textSection : List.Forall₂ (TextCarried loaded.types) data.textSection loaded.config.textSection

section Tables

variable {types : TypeDatabase}

theorem required_eq_ok {A : Type} {given : Option A} {error : ConfigError} {a : A} :
    required given error = .ok a ↔ given = some a := by
  cases given <;> simp [required]

theorem ofType_eq_ok {A : Type} {error : TypeError → ConfigError} {x : Except TypeError A} {a : A} :
    ofType error x = .ok a ↔ x = .ok a := by
  cases x <;> simp [ofType, Except.mapError]

theorem codeSeg_iff {entry : CodeSegment × Nat} {read : CodeSeg} :
    parseCodeSeg (codeSegmentEntry entry) = .ok read ↔ CodeSegCarried entry.1 read := by
  have node : (codeSegmentEntry entry).2.asNode =
      some (.ofEntries [("seg", .str (formatInt 10 0 entry.1.seg)), ("name", .str entry.1.name)]) := rfl
  have seg : (Node.ofEntries [("seg", .str (formatInt 10 0 entry.1.seg)), ("name", .str entry.1.name)]).getStr "seg" =
      some (formatInt 10 0 entry.1.seg) := getStr_ofEntries (by decide)
  have name : (Node.ofEntries [("seg", .str (formatInt 10 0 entry.1.seg)), ("name", .str entry.1.name)]).getStr "name" =
      some entry.1.name := getStr_ofEntries (by decide)
  rw [parseCodeSeg, node]
  simp only [required_some, seg, name, Lib.except_bind_eq_ok, required_eq_ok]
  constructor
  · rintro ⟨place, found, done⟩
    cases done
    exact ⟨rfl, found⟩
  · intro carried
    refine ⟨read.seg, carried.seg, ?_⟩
    rw [← carried.name]
    rfl

/-- A segment is written in decimal and read in hexadecimal, so it is kept if it has a single digit and no other. -/
theorem codeSegment_kept (cs : CodeSegment) (index : Nat) :
    parseCodeSeg (codeSegmentEntry (cs, index)) = .ok ⟨.normal (.ofInt 16 cs.seg), cs.name⟩ ↔
      0 ≤ cs.seg ∧ cs.seg < 10 := by
  rw [codeSeg_iff, ← seg_decimal]
  exact ⟨fun carried => carried.seg, fun kept => ⟨rfl, kept⟩⟩

theorem member_iff {name : String} {mbr : Member} {read : StructMember} :
    parseMember types name (memberEntry mbr) = .ok read ↔ MemberCarried types mbr read := by
  have node : (memberEntry mbr).2.asNode = some (.ofEntries [("type", .str (typeStr mbr.typ)),
      ("off", .str ("0x" ++ formatInt 16 2 mbr.off))]) := rfl
  have typed : (Node.ofEntries [("type", .str (typeStr mbr.typ)),
      ("off", .str ("0x" ++ formatInt 16 2 mbr.off))]).getStr "type" = some (typeStr mbr.typ) :=
    getStr_ofEntries (by decide)
  have offset : (Node.ofEntries [("type", .str (typeStr mbr.typ)),
      ("off", .str ("0x" ++ formatInt 16 2 mbr.off))]).getStr "off" = some ("0x" ++ formatInt 16 2 mbr.off) :=
    getStr_ofEntries (by decide)
  rw [parseMember, node]
  simp only [required_some, typed, offset, Lib.except_bind_eq_ok, required_eq_ok, ofType_eq_ok,
    parseU16_formatInt (show 2 ≤ 4 by omega)]
  constructor
  · rintro ⟨off, found, typ, parsed, done⟩
    cases done
    exact ⟨rfl, ⟨off, found, rfl⟩, parsed⟩
  · intro carried
    obtain ⟨off, found, same⟩ := carried.off
    refine ⟨off, found, read.typ, carried.typ, ?_⟩
    rw [← same, show (memberEntry mbr).1 = read.name from carried.name.symm]
    rfl

theorem Laid.le {cursor stop : Nat} {members : List StructMember} (laid : Laid cursor members stop) :
    cursor ≤ stop := by
  induction members generalizing cursor with
  | nil => exact le_of_eq laid
  | cons member members hypothesis =>
      obtain ⟨_, size, _, later⟩ := laid
      exact (Nat.le_add_right cursor size).trans (hypothesis later)

theorem laid_iff {name : String} {cursor stop : Nat} {members : List StructMember} (small : stop < 2 ^ 64) :
    members.foldlM (memberEnd name) cursor = .ok stop ↔ Laid cursor members stop := by
  induction members generalizing cursor with
  | nil =>
      constructor
      · intro done
        cases done
        rfl
      · intro same
        rw [show cursor = stop from same]
        rfl
  | cons member members hypothesis =>
      rw [List.foldlM_cons, Lib.except_bind_eq_ok]
      constructor
      · rintro ⟨next, one, rest⟩
        unfold memberEnd at one
        split at one
        · cases one
        · rename_i begins
          obtain ⟨size, sized, one⟩ := Lib.except_bind_eq_ok.mp one
          split at one
          · cases one
            exact ⟨not_not.mp begins, size, required_eq_ok.mp sized, hypothesis.mp rest⟩
          · cases one
      · rintro ⟨begins, size, sized, later⟩
        refine ⟨cursor + size, ?_, hypothesis.mpr later⟩
        have bounded := later.le
        rw [memberEnd, if_neg (not_not.mpr begins), sized, required_some, if_pos (by omega)]
        rfl

theorem structure_iff {struct : Structure} {read : Struct} :
    parseStruct types (structureEntry struct) = .ok read ↔ StructureCarried types struct read := by
  have node : (structureEntry struct).2.asNode = some (.ofEntries [("size", .str (formatInt 10 0 struct.size)),
      ("members", .node (.ofEntries (struct.members.map memberEntry)))]) := rfl
  have size : (Node.ofEntries [("size", .str (formatInt 10 0 struct.size)),
      ("members", .node (.ofEntries (struct.members.map memberEntry)))]).getStr "size" =
        some (formatInt 10 0 struct.size) := getStr_ofEntries (by decide)
  have mbrs : (Node.ofEntries [("size", .str (formatInt 10 0 struct.size)),
      ("members", .node (.ofEntries (struct.members.map memberEntry)))]).getNode "members" =
        some (.ofEntries (struct.members.map memberEntry)) := getNode_ofEntries (by decide)
  have each (members : List StructMember) :
      (struct.members.map memberEntry).mapM (parseMember types struct.name) = .ok members ↔
        List.Forall₂ (MemberCarried types) struct.members members := by
    rw [mapM_eq_ok, List.forall₂_map_left_iff]
    simp only [member_iff]
  rw [parseStruct, node, show (structureEntry struct).1 = struct.name from rfl]
  simp only [required_some, size, mbrs, Node.entries_ofEntries,
    fromStrRadix_formatInt (show 1 < 10 by omega) (show 10 ≤ 16 by omega), Lib.except_bind_eq_ok, required_eq_ok]
  constructor
  · rintro ⟨number, sized, done⟩
    split at sized
    · rename_i small
      obtain rfl := Option.some.inj sized
      rw [Int.toNat_natCast] at done
      split at done
      · cases done
      · rename_i positive
        obtain ⟨members, parsed, done⟩ := Lib.except_bind_eq_ok.mp done
        obtain ⟨cursor, laid, done⟩ := Lib.except_bind_eq_ok.mp done
        split at done
        · rename_i fits
          cases done
          rw [fits] at laid
          have bound : struct.size < 2 ^ 16 := by omega
          exact ⟨rfl, rfl, Nat.pos_of_ne_zero positive, bound, (each members).mp parsed,
            (laid_iff (bound.trans (by decide))).mp laid⟩
        · cases done
    · cases sized
  · intro carried
    have positive := carried.positive
    have small := carried.small
    refine ⟨struct.size, ?_, ?_⟩
    · rw [if_pos (by omega), Int.toNat_natCast]
    · rw [if_neg (by omega)]
      refine Lib.except_bind_eq_ok.mpr ⟨read.members, (each _).mpr carried.members, ?_⟩
      have laid := carried.laid
      rw [carried.size] at laid
      refine Lib.except_bind_eq_ok.mpr ⟨struct.size, (laid_iff (small.trans (by decide))).mpr laid, ?_⟩
      rw [if_pos rfl, ← carried.name, ← carried.size]
      rfl

theorem structures_iff {structures : List Structure} {after : TypeDatabase} :
    (structures.map structureEntry).foldlM appendParsed types = .ok after ↔
      StructuresCarried types structures after := by
  induction structures generalizing types with
  | nil =>
      constructor
      · intro done
        cases done
        rfl
      · intro same
        rw [show after = types from same]
        rfl
  | cons struct structures hypothesis =>
      rw [List.map_cons, List.foldlM_cons, Lib.except_bind_eq_ok]
      constructor
      · rintro ⟨next, one, rest⟩
        obtain ⟨read, parsed, done⟩ := Lib.except_bind_eq_ok.mp one
        cases done
        exact ⟨read, structure_iff.mp parsed, hypothesis.mp rest⟩
      · rintro ⟨read, carried, later⟩
        exact ⟨_, Lib.except_bind_eq_ok.mpr ⟨read, structure_iff.mpr carried, rfl⟩, hypothesis.mpr later⟩

theorem globalType_eq_ok {key text : String} {typ : Typ} :
    globalType types key text = .ok typ ↔ GlobalTypeCarried types text typ := by
  unfold globalType GlobalTypeCarried
  cases parsed : types.parseType text.toList with
  | ok known =>
      dsimp only
      constructor
      · intro done
        cases done
        exact .inl rfl
      · rintro (same | ⟨⟨err, wrong⟩, _⟩)
        · cases same
          rfl
        · cases wrong
  | error err =>
      dsimp only
      cases brackets : text.toList.any isBracket with
      | true =>
          constructor
          · intro wrong
            cases wrong
          · rintro (wrong | ⟨_, wrong, _⟩) <;> cases wrong
      | false =>
          constructor
          · intro done
            cases done
            exact .inr ⟨⟨err, rfl⟩, rfl, rfl⟩
          · rintro (wrong | ⟨_, _, rfl⟩)
            · cases wrong
            · rfl

theorem global_iff {var : Global} {read : ConfigGlobal} :
    parseGlobal types (globalEntry var) = .ok read ↔ GlobalCarried types var read := by
  have node : (globalEntry var).2.asNode = some (.ofEntries [("off", .str ("0x" ++ formatInt 16 4 var.off)),
      ("type", .str (typeStr var.typ))]) := rfl
  have offset : (Node.ofEntries [("off", .str ("0x" ++ formatInt 16 4 var.off)),
      ("type", .str (typeStr var.typ))]).getStr "off" = some ("0x" ++ formatInt 16 4 var.off) :=
    getStr_ofEntries (by decide)
  have typed : (Node.ofEntries [("off", .str ("0x" ++ formatInt 16 4 var.off)),
      ("type", .str (typeStr var.typ))]).getStr "type" = some (typeStr var.typ) := getStr_ofEntries (by decide)
  rw [parseGlobal, node]
  simp only [required_some, offset, typed, Lib.except_bind_eq_ok, required_eq_ok, globalType_eq_ok,
    parseU16_formatInt (show 4 ≤ 4 by omega)]
  constructor
  · rintro ⟨off, found, typ, carried, done⟩
    split at done
    · cases done
    rename_i bounds
    split at done
    · cases done
    rename_i sized
    split at done
    · rename_i inside
      cases done
      exact ⟨rfl, found, carried, Bool.eq_false_iff.mpr bounds, fun array none_ => sized ⟨array, none_⟩, inside⟩
    · cases done
  · intro carried
    refine ⟨read.offset, carried.off, read.typ, carried.typ, ?_⟩
    rw [if_neg (Bool.eq_false_iff.mp carried.bounds), if_neg fun wrong => carried.size wrong.1 wrong.2,
      if_pos carried.inside, show (globalEntry var).1 = read.name from carried.name.symm]
    rfl

/-- The properties of a piece of data are found under their keys. -/
theorem text_fields (var : TextData) {f : Node} (node : (textEntry var).2.asNode = some f) :
    f.getStr "start" = some var.startAddr.str ∧ f.getStr "end" = some var.endAddr.str ∧
      f.getStr "type" = var.typ.map typeStr ∧ f.getStr "access" = var.accessAt.map Addr.str := by
  cases node
  refine ⟨getStr_ofEntries (by decide), getStr_ofEntries (by decide), ?_, ?_⟩
  · rw [getStr_ofEntries (by decide)]
    cases var.typ <;> cases var.accessAt <;> rfl
  · rw [getStr_ofEntries (by decide)]
    cases var.typ <;> cases var.accessAt <;> rfl

theorem mapM_required {A B C : Type} {given : Option A} {spell : A → B} {read : B → Option C} {error : B → ConfigError}
    {found : Option C} : ((given.map spell).mapM fun b => required (read b) (error b)) = .ok found ↔
      given.mapM (fun a => read (spell a)) = some found := by
  cases given with
  | none =>
      constructor <;>
        · intro done
          cases done
          rfl
  | some a =>
      cases value : read (spell a) <;> simp [Option.mapM, required, value]

theorem mapM_ofType {A B C : Type} {given : Option A} {spell : A → B} {read : B → Except TypeError C}
    {error : B → TypeError → ConfigError} {found : Option C} :
    ((given.map spell).mapM fun b => ofType (error b) (read b)) = .ok found ↔
      Option.Rel (fun a c => read (spell a) = .ok c) given found := by
  cases given with
  | none =>
      constructor
      · intro done
        cases done
        exact .none
      · intro related
        cases related
        rfl
  | some a =>
      cases value : read (spell a) with
      | error err =>
          constructor
          · intro wrong
            simp [Option.mapM, ofType, Except.mapError, value] at wrong
          · intro related
            cases related with
            | some wrong =>
                rw [value] at wrong
                cases wrong
      | ok c =>
          constructor
          · intro done
            simp [Option.mapM, ofType, Except.mapError, value] at done
            rw [← done]
            exact .some value
          · intro related
            cases related with
            | some same =>
                rw [value] at same
                cases same
                simp [Option.mapM, ofType, Except.mapError, value]

theorem text_iff {var : TextData} {read : TextSectionRegion} :
    parseText types (textEntry var) = .ok read ↔ TextCarried types var read := by
  obtain ⟨f, node⟩ : ∃ f, (textEntry var).2.asNode = some f := ⟨_, rfl⟩
  obtain ⟨start, stop, typed, access⟩ := text_fields var node
  rw [parseText, node]
  simp only [required_some, start, stop, typed, access, segOff_str, Lib.except_bind_eq_ok, required_eq_ok,
    mapM_ofType, mapM_required]
  constructor
  · rintro ⟨first, begins, last, ends, typ, related, place, accessed, done⟩
    split at done
    · cases done
    · cases done
      exact ⟨rfl, begins, ends, related, accessed⟩
  · intro carried
    refine ⟨read.start, carried.start, read.stop, carried.stop, read.typ, carried.typ, read.access, carried.access, ?_⟩
    have declared : ¬(read.typ = none ∧ read.access ≠ none) := by
      rintro ⟨untyped, accessed⟩
      have related := carried.typ
      rw [untyped] at related
      cases shape : var.typ with
      | some typ =>
          rw [shape] at related
          cases related
      | none =>
          have found := carried.access
          rw [var.hole shape] at found
          exact accessed (Option.some.inj found).symm
    rw [if_neg declared, show (textEntry var).1 = read.name from carried.name.symm]
    rfl

/-- A list of entries that are read one by one. -/
theorem mapM_entries {A B : Type} {l : List A} {entry : A → String × Value}
    {read : String × Value → Except ConfigError B} {Carried : A → B → Prop} {found : List B}
    (each : ∀ a b, read (entry a) = .ok b ↔ Carried a b) :
    (l.map entry).mapM read = .ok found ↔ List.Forall₂ Carried l found := by
  rw [mapM_eq_ok, List.forall₂_map_left_iff]
  simp only [each]

theorem codeSegs_iff {codeSegments : List CodeSegment} {found : List CodeSeg} :
    (codeSegments.zipIdx.map codeSegmentEntry).mapM parseCodeSeg = .ok found ↔
      List.Forall₂ CodeSegCarried codeSegments found := by
  have each (entry : CodeSegment × Nat) (read : CodeSeg) :
      parseCodeSeg (codeSegmentEntry entry) = .ok read ↔ CodeSegCarried entry.1 read := codeSeg_iff
  rw [mapM_entries each, ← List.forall₂_map_left_iff, List.zipIdx_map_fst]

end Tables

section Configuration

variable {data : Annotations}

/-- A table of the file is found under its path. -/
theorem confNode_getNode (name : String) {path : String} {entries : List (String × Value)}
    (same : path = "dis86" ++ "." ++ name) (plain : isKey name = true)
    (listed : (confTables data).lookup name = some (.node (.ofEntries entries))) :
    (confNode data).getNode path = some (.ofEntries entries) := by
  have nonempty : name ≠ "" := by
    rintro rfl
    cases plain
  have outer : (confNode data).getNode "dis86" = some (.ofEntries (confTables data)) :=
    getNode_ofEntries (by decide)
  rw [same, Node.getNode_eq, Node.getGeneric_dot (by decide) nonempty, outer, Option.bind_some, ← Node.getNode_eq,
    getNode_ofEntries plain, listed]
  rfl

theorem parseStructs_confNode {types : TypeDatabase} :
    parseStructs (confNode data) = .ok types ↔ StructuresCarried .new data.structures types := by
  have table : (confNode data).getNode "dis86.structures" = some (.ofEntries (data.structures.map structureEntry)) :=
    confNode_getNode "structures" rfl (by decide) rfl
  rw [parseStructs, table, required_some, Node.entries_ofEntries, structures_iff]

theorem parseCodeSegs_confNode {found : List CodeSeg} :
    parseCodeSegs (confNode data) = .ok found ↔ List.Forall₂ CodeSegCarried data.codeSegments found := by
  have table : (confNode data).getNode "dis86.code_segments" =
      some (.ofEntries (data.codeSegments.zipIdx.map codeSegmentEntry)) :=
    confNode_getNode "code_segments" rfl (by decide) rfl
  rw [parseCodeSegs, table, required_some, Node.entries_ofEntries, codeSegs_iff]

variable {types : TypeDatabase}

theorem parseFunctions_confNode {cfg cfg' : Config} :
    parseFunctionsNode (confNode data) types cfg = .ok cfg' ↔ ∃ reads calls,
      List.Forall₂ (FunctionCarried types) (directFunctions data.functions) reads ∧
      List.Forall₂ (IndirectCarried types) (indirectFunctions data.functions) calls ∧
      cfg' = { cfg with funcs := cfg.funcs ++ reads, indirects := cfg.indirects ++ calls } := by
  have table : (confNode data).getNode "dis86.functions" =
      some (.ofEntries ((genFunctions data.functions).map functionEntry)) :=
    confNode_getNode "functions" rfl (by decide) rfl
  have each : (fun cfg func => parseFunctionNode types cfg (functionEntry func)) =
      fun cfg func => (parseFunction types cfg func).mapError FunctionError.configError := by
    funext cfg func
    exact parseFunction_entry func types cfg
  rw [parseFunctionsNode, table, required_some, Node.entries_ofEntries, List.foldlM_map, each, ← mapError_foldlM,
    ← parseFunctions_iff]
  exact mapError_eq_ok _

theorem parseGlobals_confNode {found : List ConfigGlobal} :
    parseGlobals (confNode data) types = .ok found ↔ List.Forall₂ (GlobalCarried types) data.dataSection found := by
  have table : (confNode data).getNode "dis86.globals" = some (.ofEntries (data.dataSection.map globalEntry)) :=
    confNode_getNode "globals" rfl (by decide) rfl
  have each (var : Global) (read : ConfigGlobal) :
      parseGlobal types (globalEntry var) = .ok read ↔ GlobalCarried types var read := global_iff
  rw [parseGlobals, table, required_some, Node.entries_ofEntries, mapM_entries each]

theorem parseTextSection_confNode {found : List TextSectionRegion} :
    parseTextSection (confNode data) types = .ok found ↔ List.Forall₂ (TextCarried types) data.textSection found := by
  have table : (confNode data).getNode "dis86.text_section" = some (.ofEntries (data.textSection.map textEntry)) :=
    confNode_getNode "text_section" rfl (by decide) rfl
  have each (var : TextData) (read : TextSectionRegion) :
      parseText types (textEntry var) = .ok read ↔ TextCarried types var read := text_iff
  rw [parseTextSection, table, required_some, Node.entries_ofEntries, mapM_entries each]

theorem parseType_known (types : TypeDatabase) {text : List Char} {typ : Typ}
    (found : types.basetype? (Lib.strip isWhitespace text) = some typ) : types.parseType text = .ok typ := by
  unfold TypeDatabase.parseType
  dsimp only
  simp only [found]

/-- A file with an entry in every table. -/
def sampleFile : Annotations where
  codeSegments := [⟨1, "main"⟩]
  functions := [{
    reimpl := false, name := "F_scale", ret := some "u16", args := some 2, startAddr := ⟨false, 1, 0x10⟩
    endAddr := none, entryStub := none, regargs := none, regouts := some "DX,ES", clobbers := none, flags := "NEAR"
    dontPopArgs := true, regions := [(⟨false, 1, 0x10⟩, ⟨false, 1, 0x24⟩)], legacy := fun _ => rfl }]
  structures := [⟨"point_t", 4, [⟨"x", ⟨['u', '1', '6'], []⟩, 0⟩, ⟨"y", ⟨['u', '1', '6'], []⟩, 2⟩]⟩]
  dataSection := [⟨"g_origin", ⟨['p', 'o', 'i', 'n', 't', '_', 't'], []⟩, 0x40⟩]
  textSection := [⟨"jumps", ⟨false, 1, 0x24⟩, ⟨false, 1, 0x28⟩, none, none, fun _ => rfl⟩]

def sampleTypes : TypeDatabase := .appendStruct .new ⟨"point_t", 4, [⟨"x", .u16, 0⟩, ⟨"y", .u16, 2⟩]⟩

def sampleLoaded : Loaded where
  types := sampleTypes
  config := {
    codeSegs := [⟨.normal 1, "main"⟩]
    funcs := [{
      name := "F_scale", start := ⟨.normal 1, 0x10⟩, stop := none, entry := none, mode := .near, ret := some .u16
      args := some 2, regargs := none, regouts := some [.DX, .ES], clobbers := none, dontPopArgs := true
      regions := [⟨⟨.normal 1, 0x10⟩, ⟨.normal 1, 0x24⟩⟩] }]
    indirects := []
    textSection := [⟨"jumps", ⟨.normal 1, 0x24⟩, ⟨.normal 1, 0x28⟩, none, none⟩] }
  globals := [⟨"g_origin", 0x40, .struct 0 4⟩]

theorem sampleFile_words : sampleFile.Words where
  codeSegments := by
    intro cs listed
    rw [List.mem_singleton.mp listed]
    exact word_of_plain (by decide) rfl
  functions := by
    intro func listed
    obtain rfl := List.mem_singleton.mp listed
    exact ⟨word_of_plain (by decide) rfl, word_of_plain (by decide) rfl,
      word_of_plain (by decide) rfl, by simp [genFunction], by
        intro regs outs
        cases outs
        exact word_of_plain (by decide) rfl, by simp [genFunction]⟩
  structures := by
    intro struct listed
    obtain rfl := List.mem_singleton.mp listed
    refine ⟨word_of_plain (by decide) rfl, ?_⟩
    intro mbr member
    simp only [List.mem_cons, List.not_mem_nil, or_false] at member
    rcases member with rfl | rfl
    · exact ⟨word_of_plain (by decide) rfl, word_of_plain (by decide) rfl⟩
    · exact ⟨word_of_plain (by decide) rfl, word_of_plain (by decide) rfl⟩
  dataSection := by
    intro var listed
    obtain rfl := List.mem_singleton.mp listed
    exact ⟨word_of_plain (by decide) rfl, word_of_plain (by decide) rfl⟩
  textSection := by
    intro var listed
    obtain rfl := List.mem_singleton.mp listed
    exact ⟨word_of_plain (by decide) rfl, by simp⟩

theorem sampleFile_carried : Carries sampleFile sampleLoaded where
  codeSegs := .cons ⟨rfl, by decide⟩ .nil
  structures := by
    have word : TypeDatabase.new.parseType (typeStr ⟨['u', '1', '6'], []⟩).toList = .ok .u16 :=
      parseType_known _ (by decide)
    exact ⟨⟨"point_t", 4, [⟨"x", .u16, 0⟩, ⟨"y", .u16, 2⟩]⟩, ⟨rfl, rfl, by decide, by decide,
      .cons ⟨rfl, ⟨0, by decide, rfl⟩, word⟩ (.cons ⟨rfl, ⟨2, by decide, rfl⟩, word⟩ .nil),
      rfl, 2, rfl, rfl, 2, rfl, rfl⟩, rfl⟩
  functions := by
    have word : sampleTypes.parseType "u16".toList = .ok .u16 := parseType_known _ (by decide)
    have outs : ContractCarried "DX,ES" [.DX, .ES] := ⟨[.DX, .ES], by decide, by decide, rfl⟩
    refine .cons ?_ .nil
    exact {
      name := rfl, start := rfl, stop := rfl, entry := rfl, mode := by decide
      ret := .inr ⟨.u16, by decide, word, rfl⟩
      argsRange := by simp, args := by decide, regargs := rfl, regouts := .some outs, clobbers := .none
      dontPopArgs := rfl, regions := .cons ⟨rfl, rfl⟩ .nil }
  indirects := .nil
  globals := by
    have point : sampleTypes.parseType (typeStr ⟨['p', 'o', 'i', 'n', 't', '_', 't'], []⟩).toList =
      .ok (.struct 0 4) := parseType_known _ (by decide)
    exact .cons ⟨rfl, by decide, .inl point, rfl, by decide, by decide⟩ .nil
  textSection := .cons ⟨rfl, rfl, rfl, .none, rfl⟩ .nil

end Configuration

end Dis86.Confgen
