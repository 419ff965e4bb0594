import Dis86.Confgen.Backends
import Dis86.Lib.Lists

namespace Dis86.Confgen
open Asm (Seg SegOff)

section Flags

variable {macros : String → Option (BitVec 32)} {func : Function}

/-- The flags that stand in for unknown ones mean the mode that stands in. -/
theorem retUnknown_value (macros : String → Option (BitVec 32)) {mode flags : String}
    (found : retUnknownModes.lookup func.flags = some (mode, flags)) :
    ∃ value, flagsValue macros flags = some value ∧ (Hydra.isNear value = true ↔ mode = "near") ∧
      Hydra.dontPopArgs value = false ∧ ¬mentionsDontPopArgs flags ∧ flags ≠ "" := by
  have listed : (func.flags, mode, flags) ∈ retUnknownModes := by
    obtain ⟨before, after, same, _⟩ := List.lookup_eq_some_iff.mp found
    rw [same]
    simp
  have near : flagsValue macros "NEAR" = some 2 := flagsValue_word rfl
  have zero : flagsValue macros "0" = some 0 := flagsValue_word rfl
  simp only [retUnknownModes, List.mem_cons, Prod.mk.injEq, List.not_mem_nil, or_false] at listed
  rcases listed with ⟨-, rfl, rfl⟩ | ⟨-, rfl, rfl⟩ | ⟨-, rfl, rfl⟩
  · exact ⟨2, near, by decide⟩
  · exact ⟨2, near, by decide⟩
  · exact ⟨0, zero, by decide⟩

theorem stubsAgree_iff : StubsAgree macros func (genFunction func) (withDontPopArgs func (stubFlags func)) ↔
    FlagsAgree macros func := by
  unfold StubsAgree FlagsAgree
  rw [flagsValue_stub]
  cases found : retUnknownModes.lookup func.flags with
  | some modes =>
      obtain ⟨mode, flags⟩ := modes
      obtain ⟨value, known, near, pops, unmentioned, filled⟩ := retUnknown_value macros found
      have given : (genFunction func).mode = mode := by
        rw [genFunction, found]
      have standIn : stubFlags func = flags := by
        rw [stubFlags, found]
      rw [given, standIn]
      apply iff_of_true
      · by_cases popping : func.dontPopArgs = true
        · rw [if_pos ⟨popping, unmentioned⟩, if_neg filled, known]
          refine ⟨value ||| 1, rfl, ?_, iff_of_true (dontPopArgs_withDontPopArgs value) popping⟩
          rw [isNear_withDontPopArgs, near]
        · rw [if_neg fun adds => popping adds.1, known]
          exact ⟨value, rfl, near, iff_of_false (by simp [pops]) popping⟩
      · exact .inl rfl
  | none =>
      have given : (genFunction func).mode = "near" ↔ func.flags = "NEAR" := by
        simp only [genFunction, found]
        split <;> simp [*]
      have standIn : stubFlags func = func.flags := by
        rw [stubFlags, found]
      have named : func.flags = "NEAR" → flagsValue macros func.flags = some 2 := by
        intro same
        rw [same]
        exact flagsValue_word rfl
      have popped : (genFunction func).dontPopArgs = func.dontPopArgs := rfl
      rw [given, standIn, popped]
      by_cases adds : func.dontPopArgs = true ∧ ¬mentionsDontPopArgs func.flags
      · rw [if_pos adds]
        by_cases empty : func.flags = ""
        · rw [if_pos empty]
          apply iff_of_true
          · exact ⟨1, rfl, by rw [empty]; decide, iff_of_true rfl adds.1⟩
          · exact .inr (.inl ⟨empty, adds.1⟩)
        · rw [if_neg empty]
          cases known : flagsValue macros func.flags with
          | none => simp [empty]
          | some value =>
              constructor
              · intro ⟨_, same, near, pops⟩
                obtain rfl := Option.some.inj same
                rw [isNear_withDontPopArgs] at near
                exact .inr (.inr ⟨value, rfl, near.mp, fun _ => adds.1, fun _ mentioned => absurd mentioned adds.2⟩)
              · rintro (unknown | ⟨isEmpty, -⟩ | ⟨_, same, near, -, -⟩)
                · cases unknown
                · exact absurd isEmpty empty
                · obtain rfl := Option.some.inj same
                  refine ⟨value ||| 1, rfl, ?_, iff_of_true (dontPopArgs_withDontPopArgs value) adds.1⟩
                  rw [isNear_withDontPopArgs]
                  constructor
                  · exact near
                  · intro same
                    rw [Option.some.inj (known.symm.trans (named same))]
                    rfl
      · rw [if_neg adds]
        have mentioned : func.dontPopArgs = true → mentionsDontPopArgs func.flags := by
          intro popping
          by_contra absent
          exact adds ⟨popping, absent⟩
        constructor
        · intro ⟨value, known, near, pops⟩
          exact .inr (.inr ⟨value, known, near.mp, pops.mp, fun popping _ => pops.mpr popping⟩)
        · rintro (unknown | ⟨isEmpty, popping⟩ | ⟨value, known, near, pops, popped⟩)
          · cases unknown
          · have absent : ¬mentionsDontPopArgs func.flags := by
              rw [isEmpty]
              decide
            exact absurd (mentioned popping) absent
          · refine ⟨value, known, ⟨near, fun same => ?_⟩, pops, fun popping => popped popping (mentioned popping)⟩
            rw [Option.some.inj (known.symm.trans (named same))]
            rfl

end Flags

/-- The address at which a function is looked up. -/
def Function.lookupAddr (func : Function) : Addr := func.entryStub.getD func.startAddr

/-- An entry belongs to a function in an overlay, or to the function itself. -/
def EntryAgrees (func : Function) : Prop :=
  func.entryStub = none ∨ func.startAddr.overlay = true ∨ func.entryStub = some func.startAddr

/-- The description that is read for a function. -/
structure Reads (func : Function) (read : Func) : Prop where
  name : read.name = func.name
  entry : func.lookupAddr.segOff = some read.entryAddr
  start : func.startAddr.segOff = some read.start
  mode : read.mode = .near ↔ (genFunction func).mode = "near"
  dontPopArgs : read.dontPopArgs = func.dontPopArgs
  args : read.args.map BitVec.toNat = func.args.bind fun args => if args < 0 then none else some args.toNat

section Reading

variable {db : TypeDatabase} {func : Function} {read : Func}

theorem parseSegOff_ok {key field : String} {addr : Addr} {place : SegOff}
    (ok : parseSegOff key field addr = .ok place) : addr.segOff = some place := by
  unfold parseSegOff at ok
  cases read : addr.segOff with
  | none => rw [read] at ok; cases ok
  | some place' => rw [read] at ok; rw [Except.ok.inj ok]

theorem parseMode_ok {key text : String} {mode : CallMode} (ok : parseMode key text = .ok mode) :
    mode = .near ↔ text = "near" := by
  unfold parseMode at ok
  split at ok
  · rw [← Except.ok.inj ok]
    simp
  · rw [← Except.ok.inj ok]
    simp
  · cases ok

theorem parseArgs_ok {key : String} {args : Option Int} {count : Int} (ok : parseArgs key args = .ok count) :
    (knownArgs count).map BitVec.toNat = args.bind fun args => if args < 0 then none else some args.toNat := by
  cases args with
  | none =>
      rw [← Except.ok.inj ok]
      rfl
  | some args =>
      simp only [parseArgs] at ok
      split at ok
      · obtain rfl := Except.ok.inj ok
        by_cases negative : args < 0
        · rw [knownArgs, if_neg (by omega), Option.bind_some, if_pos negative]
          rfl
        · rw [knownArgs, if_pos (by omega), Option.bind_some, if_neg negative, Option.map_some, BitVec.toNat_ofInt]
          congr 1
          omega
      · cases ok

theorem readFunction_ok (ok : readFunction db (genFunction func) = .ok read) : Reads func read := by
  unfold readFunction at ok
  obtain ⟨regions, -, ok⟩ := Lib.except_bind_eq_ok.mp ok
  obtain ⟨regouts, -, ok⟩ := Lib.except_bind_eq_ok.mp ok
  obtain ⟨clobbers, -, ok⟩ := Lib.except_bind_eq_ok.mp ok
  obtain ⟨start, readStart, ok⟩ := Lib.except_bind_eq_ok.mp ok
  obtain ⟨stop, -, ok⟩ := Lib.except_bind_eq_ok.mp ok
  obtain ⟨entry, readEntry, ok⟩ := Lib.except_bind_eq_ok.mp ok
  obtain ⟨mode, readMode, ok⟩ := Lib.except_bind_eq_ok.mp ok
  obtain ⟨args, readArgs, ok⟩ := Lib.except_bind_eq_ok.mp ok
  obtain ⟨ret, -, ok⟩ := Lib.except_bind_eq_ok.mp ok
  obtain ⟨regargs, -, ok⟩ := Lib.except_bind_eq_ok.mp ok
  obtain rfl := Except.ok.inj ok
  constructor
  · rfl
  · cases given : func.entryStub with
    | none =>
        have stub : (genFunction func).entry = none := given
        rw [stub] at readEntry
        obtain rfl := Except.ok.inj readEntry
        rw [Function.lookupAddr, given]
        exact parseSegOff_ok readStart
    | some addr =>
        have stub : (genFunction func).entry = some addr := given
        rw [stub] at readEntry
        obtain ⟨place, readAddr, same⟩ := Lib.except_bind_eq_ok.mp readEntry
        obtain rfl := Except.ok.inj same
        rw [Function.lookupAddr, given]
        exact parseSegOff_ok readAddr
  · exact parseSegOff_ok readStart
  · exact parseMode_ok readMode
  · rfl
  · exact parseArgs_ok readArgs

/-- The functions that are no call locations. -/
def directFunctions (functions : List Function) : List Function :=
  functions.filter (·.flags ≠ indirectCallLocation)

/-- The functions are read in their order, and the others are indirect calls. -/
theorem parseFunctions_ok {functions : List Function} {cfg cfg' : Config}
    (ok : parseFunctions db cfg (genFunctions functions) = .ok cfg') :
    ∃ reads, cfg'.funcs = cfg.funcs ++ reads ∧ List.Forall₂ Reads (directFunctions functions) reads := by
  induction functions generalizing cfg with
  | nil =>
      obtain rfl := Except.ok.inj ok
      exact ⟨[], (List.append_nil _).symm, .nil⟩
  | cons func functions ih =>
      rw [parseFunctions, genFunctions, List.map_cons, List.foldlM_cons] at ok
      obtain ⟨next, one, rest⟩ := Lib.except_bind_eq_ok.mp ok
      obtain ⟨reads, same, all⟩ := ih rest
      unfold parseFunction at one
      obtain ⟨read, readOk, one⟩ := Lib.except_bind_eq_ok.mp one
      have located : (genFunction func).indirectCallLocation = decide (func.flags = indirectCallLocation) := rfl
      rw [located] at one
      by_cases indirect : func.flags = indirectCallLocation
      · have skipped : directFunctions (func :: functions) = directFunctions functions :=
          List.filter_cons_of_neg (by simp [indirect])
        rw [if_pos (decide_eq_true indirect)] at one
        obtain ⟨call, -, one⟩ := Lib.except_bind_eq_ok.mp one
        obtain rfl := Except.ok.inj one
        rw [skipped]
        exact ⟨reads, same, all⟩
      · have listed : directFunctions (func :: functions) = func :: directFunctions functions :=
          List.filter_cons_of_pos (by simp [indirect])
        rw [if_neg (by simp [indirect])] at one
        obtain rfl := Except.ok.inj one
        rw [listed]
        refine ⟨read :: reads, ?_, .cons (readFunction_ok readOk) all⟩
        rw [same, List.append_assoc]
        rfl

end Reading

/-- The entry of a function and its stubs describe the same calling convention, and the stub with its name leads to
the function that is looked up at its address. -/
def BackendsAgree (macros : String → Option (BitVec 32)) (cfg : Config) (func : Function) : Prop :=
  ∃ read ∈ cfg.funcs, read.name = func.name ∧ ∀ stub ∈ stubsOf func,
    (∃ value, flagsValue macros stub.flags = some value ∧ (Hydra.isNear value = true ↔ read.mode = .near) ∧
      (Hydra.dontPopArgs value = true ↔ read.dontPopArgs = true)) ∧
    read.args.map BitVec.toNat = stub.args ∧
    (stub.name = func.name → cfg.funcLookup stub.place = some read)

section Places

variable {func : Function} {read : Func} {stub : FuncData}

theorem Addr.place_eq {addr : Addr} {place : SegOff} (read : addr.segOff = some place) (stub : FuncData)
    (at_ : stub.addr = addr) : stub.place = place := by
  obtain ⟨seg, kind, sameSeg, sameOff⟩ := Addr.segOff_eq_some read
  obtain ⟨placeSeg, off⟩ := place
  simp only at kind sameOff
  rw [FuncData.place, at_, sameSeg, sameOff, kind]
  simp

/-- The stub with the name of the function, and the flags and the arguments of all of them. -/
theorem stubsOf_cases (direct : func.flags ≠ indirectCallLocation) (inside : stub ∈ stubsOf func) :
    stub.flags = withDontPopArgs func (stubFlags func) ∧
    stub.args = (func.args.bind fun args => if args < 0 then none else some args.toNat) ∧
    (stub.name = func.name → stub.addr =
      if func.startAddr.overlay then func.entryStub.getD func.startAddr else func.startAddr) := by
  have longer : func.name ++ "_OVERLAY" ≠ func.name := by
    intro same
    have lengths := congrArg String.length same
    rw [String.length_append] at lengths
    have more : "_OVERLAY".length = 8 := rfl
    omega
  unfold stubsOf at inside
  rw [if_neg direct] at inside
  cases overlay : func.startAddr.overlay <;> cases entry : func.entryStub <;>
    simp only [overlay, entry, List.mem_cons, List.not_mem_nil, or_false] at inside
  · subst inside
    exact ⟨rfl, rfl, fun _ => rfl⟩
  · subst inside
    exact ⟨rfl, rfl, fun _ => rfl⟩
  · subst inside
    exact ⟨rfl, rfl, fun _ => rfl⟩
  · rcases inside with rfl | rfl
    · exact ⟨rfl, rfl, fun _ => rfl⟩
    · exact ⟨rfl, rfl, fun same => absurd same longer⟩

theorem exists_namedStub (direct : func.flags ≠ indirectCallLocation) :
    ∃ stub ∈ stubsOf func, stub.name = func.name := by
  unfold stubsOf
  rw [if_neg direct]
  cases func.startAddr.overlay <;> cases func.entryStub <;> exact ⟨_, List.mem_cons_self, rfl⟩

/-- The stub with the name of the function is at the address of its lookup exactly when its entry agrees. -/
theorem namedStub_place (reads : Reads func read) (direct : func.flags ≠ indirectCallLocation)
    (inside : stub ∈ stubsOf func) (named : stub.name = func.name) :
    stub.place = read.entryAddr ↔ EntryAgrees func := by
  have located := (stubsOf_cases direct inside).2.2 named
  have entry := reads.entry
  rw [Function.lookupAddr] at entry
  unfold EntryAgrees
  cases stubbed : func.entryStub with
  | none =>
      rw [stubbed] at located entry
      rw [Option.getD_none, ite_self] at located
      exact iff_of_true (Addr.place_eq entry stub located) (.inl rfl)
  | some addr =>
      rw [stubbed, Option.getD_some] at located entry
      by_cases overlay : func.startAddr.overlay = true
      · rw [if_pos overlay] at located
        exact iff_of_true (Addr.place_eq entry stub located) (.inr (.inl overlay))
      · rw [if_neg overlay] at located
        rw [Addr.place_eq reads.start stub located]
        constructor
        · intro same
          rw [← same] at entry
          exact .inr (.inr (congrArg some (Addr.segOff_inj entry reads.start)))
        · rintro (absent | inOverlay | same)
          · cases absent
          · exact absurd inOverlay overlay
          · rw [Option.some.inj same] at entry
            exact Option.some.inj (reads.start.symm.trans entry)

end Places

theorem names_reads {functions : List Function} {reads : List Func} (all : List.Forall₂ Reads functions reads) :
    reads.map Func.name = functions.map Function.name := by
  induction all with
  | nil => rfl
  | cons first _ ih => rw [List.map_cons, List.map_cons, first.name, ih]

theorem funcLookup_eq_some {cfg : Config} {addr : SegOff} {read : Func} (found : cfg.funcLookup addr = some read) :
    read ∈ cfg.funcs ∧ addr = read.entryAddr := by
  unfold Config.funcLookup at found
  have test := List.find?_some found
  exact ⟨List.mem_of_find?_eq_some found, of_decide_eq_true test⟩

/-- A function and what is read for it, among functions with different names. -/
theorem agree_iff {macros : String → Option (BitVec 32)} {cfg : Config} {func : Function} {read : Func}
    (direct : func.flags ≠ indirectCallLocation) (inside : read ∈ cfg.funcs) (reads : Reads func read)
    (only : ∀ other ∈ cfg.funcs, other.name = read.name → other = read) :
    BackendsAgree macros cfg func ↔
      FlagsAgree macros func ∧ EntryAgrees func ∧ cfg.funcLookup read.entryAddr = some read := by
  obtain ⟨named, stubbed, name⟩ := exists_namedStub direct
  constructor
  · intro ⟨read', inside', sameName, agree⟩
    obtain rfl := only read' inside' (sameName.trans reads.name.symm)
    obtain ⟨flags, -, found⟩ := agree named stubbed
    obtain ⟨value, known, near, pops⟩ := flags
    have located := found name
    have entry : named.place = read'.entryAddr := (funcLookup_eq_some located).2
    refine ⟨?_, (namedStub_place reads direct stubbed name).mp entry, entry ▸ located⟩
    rw [← stubsAgree_iff, ← (stubsOf_cases direct stubbed).1]
    refine ⟨value, known, near.trans reads.mode, ?_⟩
    rw [pops, reads.dontPopArgs]
    rfl
  · intro ⟨flags, entry, located⟩
    refine ⟨read, inside, reads.name, fun stub stubbed => ?_⟩
    obtain ⟨stubFlags, stubArgs, -⟩ := stubsOf_cases direct stubbed
    obtain ⟨value, known, near, pops⟩ := stubsAgree_iff.mpr flags
    rw [stubFlags, stubArgs]
    refine ⟨⟨value, known, near.trans reads.mode.symm, ?_⟩, reads.args, fun name => ?_⟩
    · rw [pops, reads.dontPopArgs]
      rfl
    · rw [(namedStub_place reads direct stubbed name).mpr entry]
      exact located

/-- The back ends agree on every function exactly when the flags and the entries do and no two functions are looked up
at one address. The call locations have no stub, and no function is read for them. -/
theorem backends_agree_iff (macros : String → Option (BitVec 32)) (db : TypeDatabase) (codeSegs : List CodeSeg)
    (functions : List Function) (unique : (functions.map Function.name).Nodup) (cfg : Config)
    (loaded : parseFunctions db ⟨codeSegs, [], [], []⟩ (genFunctions functions) = .ok cfg) :
    ((∀ func ∈ functions, func.flags = indirectCallLocation →
        stubsOf func = [] ∧ ∀ read ∈ cfg.funcs, read.name ≠ func.name) ∧
      ∀ func ∈ functions, func.flags ≠ indirectCallLocation → BackendsAgree macros cfg func) ↔
    (∀ func ∈ functions, func.flags ≠ indirectCallLocation → FlagsAgree macros func ∧ EntryAgrees func) ∧
      ∀ func ∈ functions, ∀ other ∈ functions, func.flags ≠ indirectCallLocation →
        other.flags ≠ indirectCallLocation → func.lookupAddr = other.lookupAddr → func.name = other.name := by
  obtain ⟨reads, same, all⟩ := parseFunctions_ok loaded
  obtain rfl : cfg.funcs = reads := same
  have direct : ∀ func, func ∈ directFunctions functions ↔ func ∈ functions ∧ func.flags ≠ indirectCallLocation := by
    intro func
    rw [directFunctions, List.mem_filter, decide_eq_true_eq]
  have readOf : ∀ func ∈ functions, func.flags ≠ indirectCallLocation → ∃ read ∈ cfg.funcs, Reads func read :=
    fun func inside located => Lib.exists_partner all ((direct func).mpr ⟨inside, located⟩)
  have only : ∀ read ∈ cfg.funcs, ∀ other ∈ cfg.funcs, other.name = read.name → other = read := by
    intro read inside other inside' sameName
    have names : (cfg.funcs.map Func.name).Nodup := by
      rw [names_reads all]
      exact unique.sublist (List.filter_sublist.map _)
    exact List.inj_on_of_nodup_map names inside' inside sameName
  have agree : ∀ func ∈ functions, ∀ located : func.flags ≠ indirectCallLocation, ∀ read ∈ cfg.funcs,
      Reads func read → (BackendsAgree macros cfg func ↔
        FlagsAgree macros func ∧ EntryAgrees func ∧ cfg.funcLookup read.entryAddr = some read) :=
    fun func _ located read inside is => agree_iff located inside is (only read inside)
  constructor
  · rintro ⟨-, agreed⟩
    constructor
    · intro func inside located
      obtain ⟨read, found, is⟩ := readOf func inside located
      obtain ⟨flags, entry, -⟩ := (agree func inside located read found is).mp (agreed func inside located)
      exact ⟨flags, entry⟩
    · intro func inside other inside' located located' sameAddr
      obtain ⟨read, found, is⟩ := readOf func inside located
      obtain ⟨read', found', is'⟩ := readOf other inside' located'
      obtain ⟨-, -, first⟩ := (agree func inside located read found is).mp (agreed func inside located)
      obtain ⟨-, -, second⟩ := (agree other inside' located' read' found' is').mp (agreed other inside' located')
      have entry : read.entryAddr = read'.entryAddr := by
        have one := is.entry
        rw [sameAddr, is'.entry] at one
        exact (Option.some.inj one).symm
      rw [entry, second] at first
      rw [← is.name, ← is'.name, Option.some.inj first]
  · intro ⟨formed, apart⟩
    constructor
    · intro func inside located
      refine ⟨if_pos located, fun read found sameName => ?_⟩
      obtain ⟨other, listed, is⟩ := Lib.exists_partner_right all found
      obtain ⟨inside', located'⟩ := (direct other).mp listed
      have same : other = func := List.inj_on_of_nodup_map unique inside' inside (is.name.symm.trans sameName)
      exact located' (same ▸ located)
    · intro func inside located
      obtain ⟨read, found, is⟩ := readOf func inside located
      obtain ⟨flags, entry⟩ := formed func inside located
      refine (agree func inside located read found is).mpr ⟨flags, entry, ?_⟩
      cases first : cfg.funcLookup read.entryAddr with
      | none =>
          have missing := List.find?_eq_none.mp first read found
          exact absurd (decide_eq_true rfl) missing
      | some read' =>
          obtain ⟨found', entry'⟩ := funcLookup_eq_some first
          obtain ⟨other, listed, is'⟩ := Lib.exists_partner_right all found'
          obtain ⟨inside', located'⟩ := (direct other).mp listed
          have sameAddr : func.lookupAddr = other.lookupAddr :=
            Addr.segOff_inj is.entry (entry' ▸ is'.entry)
          have sameName := apart func inside other inside' located located' sameAddr
          rw [only read found read' found' (is'.name.trans (sameName.symm.trans is.name.symm))]

/-- A function that pops its arguments and returns near. -/
def nearRetImm (flags : String) (dontPopArgs : Bool) (legacy : flags = "DONT_POP_ARGS" → dontPopArgs = true) :
    Function where
  reimpl := true
  name := "near_ret_imm"
  ret := none
  args := some 2
  startAddr := ⟨false, 0, 0x1234⟩
  endAddr := some ⟨false, 0, 0x1300⟩
  entryStub := none
  regargs := none
  regouts := none
  clobbers := none
  flags
  dontPopArgs
  regions := []
  legacy

/-- What is read for it. -/
def nearRetImmRead (mode : CallMode) (dontPopArgs : Bool) : Config where
  codeSegs := []
  funcs := [{ name := "near_ret_imm", start := ⟨.normal 0, 0x1234⟩, stop := some ⟨.normal 0, 0x1300⟩, entry := none,
              mode, ret := none, args := some 2, regargs := none, regouts := none, clobbers := none, dontPopArgs,
              regions := [] }]
  indirects := []
  textSection := []

theorem backends_agree_near_ret_imm :
    BackendsAgree (fun _ => none) (nearRetImmRead .near true) (nearRetImm "NEAR" true fun _ => rfl) := by
  have loaded : parseFunctions .new ⟨[], [], [], []⟩ (genFunctions [nearRetImm "NEAR" true fun _ => rfl]) =
      .ok (nearRetImmRead .near true) := by rfl
  have near : flagsValue (fun _ => none) "NEAR" = some 2 := flagsValue_word rfl
  have agree := backends_agree_iff (fun _ => none) .new [] [nearRetImm "NEAR" true fun _ => rfl]
    (List.nodup_singleton _) (nearRetImmRead .near true) loaded
  refine (agree.mpr ⟨?_, ?_⟩).2 _ List.mem_cons_self (by decide)
  · intro func inside _
    rw [List.mem_singleton.mp inside]
    exact ⟨.inr (.inr ⟨2, near, by decide⟩), .inl rfl⟩
  · intro func inside other inside' _ _ _
    rw [List.mem_singleton.mp inside, List.mem_singleton.mp inside']

/-- Both flags in one text are a far function that leaves its arguments for the one side, and a near one that pops
them for the other. -/
theorem combined_flags_disagree :
    parseFunctions .new ⟨[], [], [], []⟩ (genFunctions [nearRetImm "NEAR | DONT_POP_ARGS" false (by decide)]) =
      .ok (nearRetImmRead .far false) ∧
    ¬BackendsAgree (fun _ => none) (nearRetImmRead .far false)
      (nearRetImm "NEAR | DONT_POP_ARGS" false (by decide)) := by
  constructor
  · rfl
  · rintro ⟨read, inside, -, agree⟩
    have direct : (nearRetImm "NEAR | DONT_POP_ARGS" false (by decide)).flags ≠ indirectCallLocation := by decide
    obtain ⟨stub, stubbed, -⟩ := exists_namedStub direct
    obtain ⟨⟨value, known, near, -⟩, -, -⟩ := agree stub stubbed
    have combined : flagsValue (fun _ => none) stub.flags = some 3 := by
      rw [(stubsOf_cases direct stubbed).1]
      have alone : flagsValue (fun _ => none) "NEAR" = some 2 := flagsValue_word rfl
      have both : flagsValue (fun _ => none) ("NEAR" ++ " | " ++ dontPopArgsName) = _ :=
        flagsValue_withDontPopArgs "NEAR"
      rw [alone] at both
      exact both
    obtain rfl := Option.some.inj (combined.symm.trans known)
    have far : read.mode = .far := by
      rw [List.mem_singleton.mp inside]
    rw [far] at near
    exact absurd (near.mp (by decide)) (by decide)

end Dis86.Confgen
