import Mathlib.Control.Traversable.Instances
import Dis86.Confgen.Emitted

namespace Dis86.Confgen
open Asm (Seg SegOff)
open Bsl (Node Value)

/-- Why a configuration is not loaded. -/
inductive ConfigError where
  | text (failure : Bsl.Failure)
  | noTable (table : String)
  | noProperties (table : String)
  | missing (property key : String)
  | malformed (key field text : String)
  | noRegionProperties (func key : String)
  | missingRegion (property func key : String)
  | malformedRegion (func key field text : String)
  | emptyRegions (func : String)
  | contractRegister (key field name : String)
  | unsupportedRegister (name key field : String)
  | mode (mode key : String)
  | ret (key ret : String) (err : TypeError)
  | register (name : String)
  | indirectRegions (key : String)
  | indirectContract (key : String)
  | indirectMode (key : String)
  | indirectRet (key : String)
  | indirectArgs (key : String)
  | zeroSize (name : String)
  | noMembers (name : String)
  | memberType (name key text : String) (err : TypeError)
  | memberStart (name key : String) (off : BitVec 16) (cursor : Nat)
  | memberSize (name key : String)
  | layoutOverflow (name : String)
  | structSize (name : String) (cursor : Nat) (size : BitVec 16)
  | globalType (key text : String) (err : TypeError)
  | unknownBound (key : String)
  | arrayOverflow (key : String)
  | globalLayout (key : String) (off : BitVec 16)
  | textType (key text : String) (err : TypeError)
  | accessWithoutType (key : String)
deriving DecidableEq, Repr

/-- An index stands for its key, and a number for its text. -/
def FunctionError.configError : FunctionError → ConfigError
  | .region key index field addr => .malformedRegion key ("_" ++ formatInt 10 0 index) field addr.str
  | .contractRegister key field name => .contractRegister key field name
  | .unsupportedRegister name key field => .unsupportedRegister name key field
  | .segOff key field addr => .malformed key field addr.str
  | .mode text key => .mode text key
  | .args key n => .malformed key "args" (formatInt 10 0 n)
  | .ret key text err => .ret key text err
  | .register name => .register name
  | .indirectRegions key => .indirectRegions key
  | .indirectContract key => .indirectContract key
  | .indirectMode key => .indirectMode key
  | .indirectRet key => .indirectRet key
  | .indirectArgs key => .indirectArgs key

def required {A : Type} (given : Option A) (error : ConfigError) : Except ConfigError A := given.elim (.error error) .ok

def parseCodeSeg (entry : String × Value) : Except ConfigError CodeSeg := do
  let f ← required entry.2.asNode (.noProperties "code_seg")
  let segStr ← required (f.getStr "seg") (.missing "seg" entry.1)
  let name ← required (f.getStr "name") (.missing "name" entry.1)
  let seg ← required (Seg.fromStr segStr.toList) (.malformed entry.1 "end" segStr)
  return ⟨seg, name⟩

def parseCodeSegs (root : Node) : Except ConfigError (List CodeSeg) := do
  let codeSegs ← required (root.getNode "dis86.code_segments") (.noTable "code_segments")
  codeSegs.entries.mapM parseCodeSeg

def parseRegionNode (func : String) (entry : String × Value) : Except ConfigError FuncRegion := do
  let region ← required entry.2.asNode (.noRegionProperties func entry.1)
  let startStr ← required (region.getStr "start") (.missingRegion "start" func entry.1)
  let endStr ← required (region.getStr "end") (.missingRegion "end" func entry.1)
  let start ← required (SegOff.fromStr startStr.toList) (.malformedRegion func entry.1 "start" startStr)
  let stop ← required (SegOff.fromStr endStr.toList) (.malformedRegion func entry.1 "end" endStr)
  return ⟨start, stop⟩

def parseRegionsNode (func : Node) (key : String) : Except ConfigError (List FuncRegion) :=
  match func.getNode "regions" with
  | none => .ok []
  | some regions => do
      let parsed ← regions.entries.mapM (parseRegionNode key)
      if parsed = [] then .error (.emptyRegions key) else return parsed

/-- An empty text stands for an address that is absent. -/
def parseOptional (key field text : String) : Except ConfigError (Option SegOff) :=
  if text = "" then .ok none
  else some <$> required (SegOff.fromStr text.toList) (.malformed key field text)

def parseArgsText (key text : String) : Except ConfigError Int :=
  if text = "None" then .ok (-1) else required (parseI16 text.toList) (.malformed key "args" text)

/-- The properties that must be there are looked up before the first of them is read. -/
def readFunctionNode (types : TypeDatabase) (key : String) (f : Node) : Except ConfigError Func := do
  let startStr ← required (f.getStr "start") (.missing "start" key)
  let regions ← parseRegionsNode f key
  let endStr ← match f.getStr "end" with
    | some stop => .ok stop
    | none => if regions = [] then .error (.missing "end" key) else .ok ""
  let entryStr := (f.getStr "entry").getD ""
  let modeStr ← required (f.getStr "mode") (.missing "mode" key)
  let retStr ← required (f.getStr "ret") (.missing "ret" key)
  let argsStr ← required (f.getStr "args") (.missing "args" key)
  let regouts ← (parseContractRegs key "regouts" (f.getStr "regouts")).mapError FunctionError.configError
  let clobbers ← (parseContractRegs key "clobbers" (f.getStr "clobbers")).mapError FunctionError.configError
  let start ← required (SegOff.fromStr startStr.toList) (.malformed key "start" startStr)
  let stop ← parseOptional key "end" endStr
  let entry ← parseOptional key "entry" entryStr
  let mode ← (parseMode key modeStr).mapError FunctionError.configError
  let args ← parseArgsText key argsStr
  let ret ← (parseRet types key retStr).mapError FunctionError.configError
  let regargs ← (parseRegargs (f.getStr "regargs")).mapError FunctionError.configError
  return { name := key, start, stop, entry, mode, ret, args := knownArgs args, regargs, regouts, clobbers,
           dontPopArgs := (f.getStr "dont_pop_args").isSome, regions }

def parseFunctionNode (types : TypeDatabase) (cfg : Config) (entry : String × Value) : Except ConfigError Config := do
  let f ← required entry.2.asNode (.noProperties "function")
  let func ← readFunctionNode types entry.1 f
  if (f.getStr "indirect_call_location").isSome then
    return { cfg with indirects := cfg.indirects ++ [← (readIndirect func).mapError FunctionError.configError] }
  else return { cfg with funcs := cfg.funcs ++ [func] }

def parseFunctionsNode (root : Node) (types : TypeDatabase) (cfg : Config) : Except ConfigError Config := do
  let func ← required (root.getNode "dis86.functions") (.noTable "functions")
  func.entries.foldlM (parseFunctionNode types) cfg

/-- The variable that is read for a global. -/
structure ConfigGlobal where
  name : String
  offset : BitVec 16
  typ : Typ
deriving DecidableEq, Repr

def ofType {A : Type} (error : TypeError → ConfigError) : Except TypeError A → Except ConfigError A :=
  Except.mapError error

def parseMember (types : TypeDatabase) (name : String) (entry : String × Value) : Except ConfigError StructMember := do
  let mbr ← required entry.2.asNode (.noProperties "member")
  let offStr ← required (mbr.getStr "off") (.missing "off" entry.1)
  let typeStr ← required (mbr.getStr "type") (.missing "type" entry.1)
  let off ← required (parseU16 offStr.toList) (.malformed entry.1 "off" offStr)
  let typ ← ofType (.memberType name entry.1 typeStr) (types.parseType typeStr.toList)
  return ⟨entry.1, typ, off.toNat⟩

/-- A member begins where the one before it ends. -/
def memberEnd (name : String) (cursor : Nat) (member : StructMember) : Except ConfigError Nat :=
  if member.off ≠ cursor then .error (.memberStart name member.name (.ofNat 16 member.off) cursor)
  else do
    let size ← required member.typ.sizeInBytes (.memberSize name member.name)
    if cursor + size < 2 ^ 64 then return cursor + size else .error (.layoutOverflow name)

def parseStruct (types : TypeDatabase) (entry : String × Value) : Except ConfigError Struct := do
  let s ← required entry.2.asNode (.noProperties "structure")
  let sizeStr ← required (s.getStr "size") (.missing "size" entry.1)
  let size ← required (fromStrRadix 10 (2 ^ 16) sizeStr.toList) (.malformed entry.1 "start" sizeStr)
  if size = 0 then .error (.zeroSize entry.1)
  else do
    let mbrs ← required (s.getNode "members") (.noMembers entry.1)
    let members ← mbrs.entries.mapM (parseMember types entry.1)
    let cursor ← members.foldlM (memberEnd entry.1) 0
    if cursor = size then return ⟨entry.1, size, members⟩
    else .error (.structSize entry.1 cursor (.ofNat 16 size))

/-- The types of a structure are those before it. -/
def appendParsed (types : TypeDatabase) (entry : String × Value) : Except ConfigError TypeDatabase := do
  return types.appendStruct (← parseStruct types entry)

def parseStructs (root : Node) : Except ConfigError TypeDatabase := do
  let structures ← required (root.getNode "dis86.structures") (.noTable "structures")
  structures.entries.foldlM appendParsed .new

def hasUnknownArrayBound : Typ → Bool
  | .array _ .unknown => true
  | .array base (.known _) => hasUnknownArrayBound base
  | .guestPtr base _ | .ptr base => hasUnknownArrayBound base
  | _ => false

def isArray : Typ → Bool
  | .array _ _ => true
  | _ => false

/-- A type that is no annotation is unknown. -/
def globalType (types : TypeDatabase) (key text : String) : Except ConfigError Typ :=
  match types.parseType text.toList with
  | .ok typ => .ok typ
  | .error err => if text.toList.any isBracket then .error (.globalType key text err) else .ok .unknown

def parseGlobal (types : TypeDatabase) (entry : String × Value) : Except ConfigError ConfigGlobal := do
  let g ← required entry.2.asNode (.noProperties "global")
  let offStr ← required (g.getStr "off") (.missing "off" entry.1)
  let typeStr ← required (g.getStr "type") (.missing "type" entry.1)
  let off ← required (parseU16 offStr.toList) (.malformed entry.1 "off" offStr)
  let typ ← globalType types entry.1 typeStr
  if hasUnknownArrayBound typ then .error (.unknownBound entry.1)
  else if isArray typ ∧ typ.sizeInBytes = none then .error (.arrayOverflow entry.1)
  else if ∀ size ∈ typ.sizeInBytes, off.toNat + size ≤ 0x10000 then return ⟨entry.1, off, typ⟩
  else .error (.globalLayout entry.1 off)

def parseGlobals (root : Node) (types : TypeDatabase) : Except ConfigError (List ConfigGlobal) := do
  let glob ← required (root.getNode "dis86.globals") (.noTable "globals")
  glob.entries.mapM (parseGlobal types)

def parseText (types : TypeDatabase) (entry : String × Value) : Except ConfigError TextSectionRegion := do
  let f ← required entry.2.asNode (.noProperties "text_section")
  let startStr ← required (f.getStr "start") (.missing "start" entry.1)
  let endStr ← required (f.getStr "end") (.missing "end" entry.1)
  let start ← required (SegOff.fromStr startStr.toList) (.malformed entry.1 "start" startStr)
  let stop ← required (SegOff.fromStr endStr.toList) (.malformed entry.1 "end" endStr)
  let typ ← (f.getStr "type").mapM fun text => ofType (.textType entry.1 text) (types.parseType text.toList)
  let access ← (f.getStr "access").mapM fun text =>
    required (SegOff.fromStr text.toList) (.malformed entry.1 "access" text)
  if typ = none ∧ access ≠ none then .error (.accessWithoutType entry.1)
  else return ⟨entry.1, start, stop, typ, access⟩

def parseTextSection (root : Node) (types : TypeDatabase) : Except ConfigError (List TextSectionRegion) := do
  let func ← required (root.getNode "dis86.text_section") (.noTable "text_section")
  func.entries.mapM (parseText types)

/-- A configuration with its types and its globals. -/
structure Loaded where
  types : TypeDatabase
  config : Config
  globals : List ConfigGlobal

/-- A configuration is read from the text of its file. -/
def fromText (text : List Char) : Except ConfigError Loaded := do
  let root ← (Bsl.bslParseNew text).mapError .text
  let types ← parseStructs root
  let codeSegs ← parseCodeSegs root
  let config ← parseFunctionsNode root types { codeSegs, funcs := [], indirects := [], textSection := [] }
  let globals ← parseGlobals root types
  let textSection ← parseTextSection root types
  return { types, config := { config with textSection }, globals }

section Errors

variable {E F A B : Type} {f : A → Except E B} (g : E → F)

theorem mapError_bind (x : Except E A) : (x >>= f).mapError g = x.mapError g >>= fun a => (f a).mapError g := by
  cases x <;> rfl

theorem mapError_eq_ok {x : Except E A} {a : A} : x.mapError g = .ok a ↔ x = .ok a := by
  cases x <;> simp [Except.mapError]

theorem mapError_mapM (l : List A) : (l.mapM f).mapError g = l.mapM fun a => (f a).mapError g := by
  induction l with
  | nil => rfl
  | cons a l hypothesis =>
      rw [List.mapM_cons, List.mapM_cons, mapError_bind, ← hypothesis]
      congr 1
      funext b
      rw [mapError_bind]
      rfl

theorem mapError_foldlM {S : Type} {step : S → A → Except E S} (l : List A) (s : S) :
    (l.foldlM step s).mapError g = l.foldlM (fun s a => (step s a).mapError g) s := by
  induction l generalizing s with
  | nil => rfl
  | cons a l hypothesis =>
      rw [List.foldlM_cons, List.foldlM_cons, mapError_bind]
      congr 1
      funext s
      exact hypothesis s

theorem except_ok_bind (a : A) : (Except.ok a >>= f) = f a := rfl

theorem mapError_pure (a : A) : (pure a : Except E A).mapError g = .ok a := rfl

theorem required_some (a : A) (error : ConfigError) (f : A → Except ConfigError B) :
    (required (some a) error >>= f) = f a := rfl

theorem mapM_ne_nil {l : List A} {bs : List B} (some : l ≠ []) (ran : l.mapM f = .ok bs) : bs ≠ [] := by
  cases l with
  | nil => exact absurd rfl some
  | cons a l =>
      rw [List.mapM_cons] at ran
      obtain ⟨b, _, ran⟩ := Lib.except_bind_eq_ok.mp ran
      obtain ⟨bs, _, ran⟩ := Lib.except_bind_eq_ok.mp ran
      cases ran
      exact List.cons_ne_nil _ _

end Errors

section Fields

/-- A key that is not taken for a path. -/
def isKey (key : String) : Bool := key ≠ "" && !key.toList.contains '.'

variable {entries : List (String × Value)} {key : String}

theorem getStr_ofEntries (plain : isKey key = true) :
    (Node.ofEntries entries).getStr key = (entries.lookup key).bind Value.asStr := by
  simp only [isKey, Bool.and_eq_true, decide_eq_true_eq, Bool.not_eq_true', List.contains_iff_mem,
    Bool.eq_false_iff, ne_eq] at plain
  rw [Node.getStr_eq, Node.getGeneric_key plain.1 plain.2, Node.get_ofEntries]

theorem getNode_ofEntries (plain : isKey key = true) :
    (Node.ofEntries entries).getNode key = (entries.lookup key).bind Value.asNode := by
  simp only [isKey, Bool.and_eq_true, decide_eq_true_eq, Bool.not_eq_true', List.contains_iff_mem,
    Bool.eq_false_iff, ne_eq] at plain
  rw [Node.getNode_eq, Node.getGeneric_key plain.1 plain.2, Node.get_ofEntries]

theorem lookup_flag (on : Bool) (name value : String) :
    (if on = true then [(name, Value.str value)] else []).lookup key =
      if on = true ∧ key = name then some (.str value) else none := by
  cases on <;> by_cases same : key = name <;> simp [same]

theorem lookup_property {A : Type} (given : Option A) (name : String) (spell : A → String) :
    (given.elim [] fun a => [(name, Value.str (spell a))]).lookup key =
      if key = name then given.map fun a => .str (spell a) else none := by
  cases given <;> by_cases same : key = name <;> simp [same]

end Fields

section Functions

variable (func : BslFunction) (types : TypeDatabase)

theorem lookup_regions (key : String) : (if func.regions = [] then []
      else [("regions", Value.node (.ofEntries (func.regions.zipIdx.map regionEntry)))]).lookup key =
    if func.regions ≠ [] ∧ key = "regions" then some (.node (.ofEntries (func.regions.zipIdx.map regionEntry)))
    else none := by
  by_cases none_ : func.regions = [] <;> by_cases same : key = "regions" <;> simp [none_, same]

theorem lookup_extra (key : String) : (extraEntries func).lookup key =
    ((((((((if func.dontPopArgs = true ∧ key = "dont_pop_args" then some (Value.str "1") else none).or
      (if func.indirectCallLocation = true ∧ key = "indirect_call_location" then some (.str "1") else none)).or
      (if key = "entry" then func.entry.map fun entry => .str entry.str else none)).or
      (if key = "regargs" then func.regargs.map .str else none)).or
      (if key = "regouts" then func.regouts.map .str else none)).or
      (if key = "clobbers" then func.clobbers.map .str else none)).or
      (if func.retKindUnknown = true ∧ key = "ret_kind_unknown" then some (.str "1") else none)).or
      (if func.regions ≠ [] ∧ key = "regions" then some (.node (.ofEntries (func.regions.zipIdx.map regionEntry)))
        else none)) := by
  rw [extraEntries, List.lookup_append, List.lookup_append, List.lookup_append, List.lookup_append,
    List.lookup_append, List.lookup_append, List.lookup_append, lookup_flag, lookup_flag, lookup_property,
    lookup_property, lookup_property, lookup_property, lookup_flag, lookup_regions]

theorem lookup_functionEntries {key : String} (other : key ∉ ["start", "end", "mode", "ret", "args"]) :
    (functionEntries func).lookup key = (extraEntries func).lookup key := by
  have absent : key ∉ ([("start", Value.str func.start.str), ("end", .str (func.stop.elim "" Addr.str)),
      ("mode", .str func.mode), ("ret", .str func.ret),
      ("args", .str (func.args.elim "None" (formatInt 10 0)))] : List (String × Value)).map Prod.fst := other
  rw [functionEntries, List.lookup_append, Lib.lookup_eq_none absent]
  rfl

/-- The properties of a function are found under their keys. -/
structure Fields (func : BslFunction) (f : Node) : Prop where
  start : f.getStr "start" = some func.start.str
  stop : f.getStr "end" = some (func.stop.elim "" Addr.str)
  mode : f.getStr "mode" = some func.mode
  ret : f.getStr "ret" = some func.ret
  args : f.getStr "args" = some (func.args.elim "None" (formatInt 10 0))
  dontPopArgs : (f.getStr "dont_pop_args").isSome = func.dontPopArgs
  indirect : (f.getStr "indirect_call_location").isSome = func.indirectCallLocation
  entry : f.getStr "entry" = func.entry.map Addr.str
  regargs : f.getStr "regargs" = func.regargs
  regouts : f.getStr "regouts" = func.regouts
  clobbers : f.getStr "clobbers" = func.clobbers
  regions : f.getNode "regions" =
    if func.regions = [] then none else some (.ofEntries (func.regions.zipIdx.map regionEntry))

theorem function_fields : Fields func (.ofEntries (functionEntries func)) := by
  have mapped (given : Option String) : (given.map Value.str).bind Value.asStr = given := by cases given <;> rfl
  constructor
  · exact getStr_ofEntries (by decide)
  · exact getStr_ofEntries (by decide)
  · exact getStr_ofEntries (by decide)
  · exact getStr_ofEntries (by decide)
  · exact getStr_ofEntries (by decide)
  · rw [getStr_ofEntries (by decide), lookup_functionEntries func (by decide), lookup_extra]
    cases func.dontPopArgs <;> simp [Value.asStr]
  · rw [getStr_ofEntries (by decide), lookup_functionEntries func (by decide), lookup_extra]
    cases func.indirectCallLocation <;> simp [Value.asStr]
  · rw [getStr_ofEntries (by decide), lookup_functionEntries func (by decide), lookup_extra]
    cases func.entry <;> simp [Value.asStr]
  · rw [getStr_ofEntries (by decide), lookup_functionEntries func (by decide), lookup_extra]
    simp [mapped]
  · rw [getStr_ofEntries (by decide), lookup_functionEntries func (by decide), lookup_extra]
    simp [mapped]
  · rw [getStr_ofEntries (by decide), lookup_functionEntries func (by decide), lookup_extra]
    simp [mapped]
  · rw [getNode_ofEntries (by decide), lookup_functionEntries func (by decide), lookup_extra]
    by_cases nothing : func.regions = [] <;> simp [nothing, Value.asNode]

theorem parseRegion_entry (key : String) (region : (Addr × Addr) × Nat) :
    parseRegionNode key (regionEntry region) =
      (parseRegion key region.2 region.1).mapError FunctionError.configError := by
  have start : (Node.ofEntries [("start", .str region.1.1.str), ("end", .str region.1.2.str)]).getStr "start" =
      some region.1.1.str := getStr_ofEntries (by decide)
  have stop : (Node.ofEntries [("start", .str region.1.1.str), ("end", .str region.1.2.str)]).getStr "end" =
      some region.1.2.str := getStr_ofEntries (by decide)
  have node : (regionEntry region).2.asNode =
      some (.ofEntries [("start", .str region.1.1.str), ("end", .str region.1.2.str)]) := rfl
  rw [parseRegionNode, node]
  simp only [required_some, start, stop, segOff_str]
  rw [parseRegion]
  cases region.1.1.segOff <;> cases region.1.2.segOff <;> rfl

theorem parseRegions_entry (key : String) (f : Node) (fields : Fields func f) :
    parseRegionsNode f key = (parseRegions key func.regions).mapError FunctionError.configError := by
  rw [parseRegionsNode, fields.regions]
  by_cases nothing : func.regions = []
  · rw [if_pos nothing, nothing]
    rfl
  · rw [if_neg nothing]
    have each : (fun entry => parseRegionNode key (regionEntry entry)) =
        fun region => (parseRegion key region.2 region.1).mapError FunctionError.configError := by
      funext region
      exact parseRegion_entry key region
    simp only [Node.entries_ofEntries, List.mapM_map]
    rw [show (parseRegionNode key ∘ regionEntry) = fun region =>
      (parseRegion key region.2 region.1).mapError FunctionError.configError from each, ← mapError_mapM]
    cases parsed : parseRegions key func.regions with
    | error error =>
        have same : func.regions.zipIdx.mapM (fun region => parseRegion key region.2 region.1) = .error error := parsed
        rw [same]
        rfl
    | ok regions =>
        have same : func.regions.zipIdx.mapM (fun region => parseRegion key region.2 region.1) = .ok regions := parsed
        rw [same]
        have some : regions ≠ [] := by
          refine mapM_ne_nil ?_ same
          simpa using nothing
        simp [Except.mapError, bind, Except.bind, some, pure, Except.pure]

theorem segOff_entry (key field : String) (addr : Addr) :
    required (SegOff.fromStr addr.str.toList) (.malformed key field addr.str) =
      (parseSegOff key field addr).mapError FunctionError.configError := by
  rw [segOff_str, parseSegOff]
  cases addr.segOff <;> rfl

theorem optional_entry (key field : String) (given : Option Addr) :
    parseOptional key field (given.elim "" Addr.str) =
      (given.mapM (parseSegOff key field)).mapError FunctionError.configError := by
  cases given with
  | none => rfl
  | some addr =>
      rw [parseOptional, Option.elim_some, if_neg (word_addr addr).some, segOff_entry]
      have one : (some addr).mapM (parseSegOff key field) = some <$> parseSegOff key field addr := by
        cases read : parseSegOff key field addr <;> simp [Option.mapM, read]
      rw [one]
      cases parseSegOff key field addr <;> rfl

/-- No number is written like a missing one. -/
theorem formatInt_ne_none (n : Int) : formatInt 10 0 n ≠ "None" := by
  intro same
  have chars := congrArg (fun text => text.toList.head?) same
  rw [formatInt, String.toList_ofList] at chars
  have digit : ∀ c ∈ (zeroPad 0 (Nat.toDigits 10 n.natAbs)).head?, c ≠ 'N' := by
    intro c first
    obtain ⟨d, below, rfl⟩ := mem_zeroPad (by omega) (List.mem_of_mem_head? first)
    have all : ∀ k < 10, Nat.digitChar k ≠ 'N' := by decide
    exact all d below
  split at chars
  · cases chars
  · exact digit 'N' chars rfl

theorem args_entry (key : String) (args : Option Int) :
    parseArgsText key (args.elim "None" (formatInt 10 0)) =
      (parseArgs key args).mapError FunctionError.configError := by
  cases args with
  | none => rfl
  | some n =>
      rw [parseArgsText, Option.elim_some, if_neg (formatInt_ne_none n), parseI16_formatInt, parseArgs]
      split <;> rfl

theorem readFunction_entry (f : Node) (fields : Fields func f) :
    readFunctionNode types func.name f = (readFunction types func).mapError FunctionError.configError := by
  have stub : (func.entry.map Addr.str).getD "" = func.entry.elim "" Addr.str := by cases func.entry <;> rfl
  rw [readFunctionNode, readFunction]
  simp only [fields.start, fields.stop, fields.mode, fields.ret, fields.args, fields.dontPopArgs, fields.entry,
    fields.regargs, fields.regouts, fields.clobbers, required_some, except_ok_bind, mapError_bind, mapError_pure,
    parseRegions_entry func func.name f fields, segOff_entry, stub, optional_entry, args_entry]
  rfl

theorem parseFunction_entry (cfg : Config) :
    parseFunctionNode types cfg (functionEntry func) =
      (parseFunction types cfg func).mapError FunctionError.configError := by
  have fields := function_fields func
  have node : (functionEntry func).2.asNode = some (.ofEntries (functionEntries func)) := rfl
  rw [parseFunctionNode, parseFunction, node]
  simp only [required_some, mapError_bind]
  rw [show (functionEntry func).1 = func.name from rfl, readFunction_entry func types _ fields]
  congr 1
  funext read
  simp only [fields.indirect]
  split
  · rw [mapError_bind]
    rfl
  · rfl

end Functions

end Dis86.Confgen
