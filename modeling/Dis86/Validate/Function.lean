import Dis86.Analyze.FuncDetails
import Dis86.Spec.Regions

namespace Dis86.Validate
open Asm (Seg SegOff Bytes UnresolvedTransfer linearDecode hasFallthrough directTarget branchTarget)
open Analyze (AnalysisError ReturnKind)
open Lib (Outcome)

inductive Severity where
  | error | warning
deriving DecidableEq, Repr

/-- Why a function has no code segment. -/
inductive SegmentError where
  | noExecutable
  | executable (e : Mz.Error)
  | notCode (seg : Seg)
deriving DecidableEq, Repr

/-- An end that lies behind the image by the size of the file header, with the size of the image. -/
structure FileOffsetHint where
  stop : SegOff
  imageLen : Nat
  headerLen : Nat
deriving DecidableEq, Repr

/-- What is said about a function, with the values that the text names. -/
inductive Message where
  | noEnd
  | crossesSegments (start stop : SegOff)
  | invalidRange (start stop : SegOff)
  | undeclaredSegment (seg : Seg)
  | notAnalyzable (e : SegmentError)
  | covered (region : FuncRegion) (data : Option TextSectionRegion)
  | startInData (start : SegOff)
  | leavesSegment (region : FuncRegion) (seg : Seg)
  | invalidRegion (region : FuncRegion)
  | pastEnd (region : FuncRegion) (stop : SegOff)
  | regionOutsideImage (region : FuncRegion) (hint : Option FileOffsetHint)
  | regionOutsideSegment (region segment : FuncRegion)
  | overlap (previous region : FuncRegion)
  | startOutsideRegions (start : SegOff)
  | rangeOutsideImage (start stop : SegOff) (hint : Option FileOffsetHint)
  | startOutsideSegment (segment : FuncRegion)
  | endPastSegment (stop : SegOff) (segment : FuncRegion)
  | entryOutside (entry : SegOff)
  | indirectOutsideImage (addr : SegOff)
  | undecodable (region : FuncRegion) (gap : SegOff)
  | fallsIntoData (last : SegOff) (data : TextSectionRegion)
  | callTargetsData (addr : SegOff) (data : TextSectionRegion)
  | branchTargetsData (addr : SegOff) (data : TextSectionRegion)
  | farBranchTargetsData (addr : SegOff) (data : TextSectionRegion)
  | branchOutside (addr target : SegOff)
  | farBranchOutside (addr target : SegOff)
  | modesNotValidated (start stop : SegOff) (e : AnalysisError)
  | returnsNear
  | returnsFar
  | interruptReturn
  | noReturn
  | mixedReturns (kinds : List ReturnKind)
  | bothModes (target : SegOff)
  | wrongMode (mode : CallMode) (target : SegOff) (func : String) (configured : CallMode)
  | unconfiguredTarget (mode : CallMode) (target : SegOff)
  | indirectCalls (count : Nat)
deriving DecidableEq, Repr

structure Diagnostic where
  severity : Severity
  addr : SegOff
  func : String
  message : Message
deriving DecidableEq, Repr

abbrev Report := List Diagnostic

def Report.hasErrors (report : Report) : Bool :=
  report.any fun diagnostic => diagnostic.severity = .error

section

variable (cfg : Config) (binary : Binary) (func : Func)

def error (addr : SegOff) (message : Message) : Diagnostic := ⟨.error, addr, func.name, message⟩

def warning (addr : SegOff) (message : Message) : Diagnostic := ⟨.warning, addr, func.name, message⟩

/-- An error at an address, when there is one. -/
def errorIf (bad : Bool) (addr : SegOff) (message : Message) : Report :=
  if bad then [error func addr message] else []

/-- The later of two addresses. -/
def later (a b : SegOff) : SegOff := if b.lt a then a else b

/-- The highest end of the regions. -/
def maxStop (regions : List FuncRegion) : Option SegOff :=
  (regions.map FuncRegion.stop).foldl (fun best stop => some ((best.map (later · stop)).getD stop)) none

/-- Without a segment table the code segment of a function runs to its end. -/
def codeSegmentForFunction (start stop : SegOff) : Outcome SegmentError Mz.CodeSegment :=
  let hasOverlayMetadata := binary.exe.any fun exe => exe.seginfo.isSome && exe.ovr.isSome
  if start.seg matches .overlay _ || hasOverlayMetadata then
    match binary.exe with
    | none => .err .noExecutable
    | some exe =>
        match Mz.codeSegments exe with
        | .ok segments =>
            match segments.find? fun segment => segment.primary.seg = start.seg with
            | some segment => return segment
            | none => .err (.notCode start.seg)
        | .err e => .err (.executable e)
        | .panic => .panic
  else return ⟨⟨start.seg, 0, stop.off.toNat⟩, none⟩

def fileOffsetHint (stop : SegOff) : Option FileOffsetHint := do
  let exe ← binary.exe
  match stop.seg with
  | .normal seg =>
      let stopAbs := Asm.Binary.absNormal seg stop.off
      if binary.main.length < stopAbs ∧ stopAbs - binary.main.length = exe.exeStart then
        some ⟨stop, binary.main.length, exe.exeStart⟩
      else none
  | .overlay _ => none

/-- A region that declared data covers, and a start in declared data. -/
def dataDiagnostics : Report :=
  (func.effectiveRegions.filter fun region => (cfg.codeRegions [region]).isEmpty).map (fun region =>
      error func region.start (.covered region (cfg.dataRegionContaining region.start))) ++
    errorIf func (cfg.dataRegionContaining func.start).isSome func.start (.startInData func.start)

/-- What is wrong with one region, and with the pair of it and the one before it. -/
def regionDiagnostics (segment : FuncRegion) (previous : Option FuncRegion) (region : FuncRegion) :
    Report :=
  errorIf func (region.start.seg ≠ func.start.seg ∨ region.stop.seg ≠ func.start.seg) region.start
      (.leavesSegment region func.start.seg) ++
    errorIf func (region.stop.le region.start) region.start (.invalidRegion region) ++
    (func.stop.toList.flatMap fun stop =>
      errorIf func (stop.lt region.stop) region.start (.pastEnd region stop)) ++
    errorIf func (region.start.seg = region.stop.seg ∧
        binary.containsRegion region.start region.stop = false) region.start
      (.regionOutsideImage region (fileOffsetHint binary region.stop)) ++
    errorIf func (segment.contains region.start = false ∨ segment.stop.lt region.stop) region.start
      (.regionOutsideSegment region segment) ++
    previous.toList.flatMap fun previous =>
      errorIf func (previous.start.seg = region.start.seg ∧ region.start.lt previous.stop) region.start
        (.overlap previous region)

def sortedDiagnostics (segment : FuncRegion) : Option FuncRegion → List FuncRegion → Report
  | _, [] => []
  | previous, region :: rest =>
      regionDiagnostics binary func segment previous region ++
        sortedDiagnostics segment (some region) rest

/-- The explicit regions are checked in ascending order. -/
def regionsDiagnostics (segment : FuncRegion) : Report :=
  if func.regions = [] then []
  else
    sortedDiagnostics binary func segment none (FuncRegion.sort func.regions) ++
      errorIf func (!func.regions.any fun region => region.contains func.start) func.start
        (.startOutsideRegions func.start)

/-- An entry lies in the code, or in the stub segment of an overlay. -/
def entryDiagnostics (codeSeg : Mz.CodeSegment) (codeRegions : List FuncRegion) : Report :=
  match func.entry with
  | none => []
  | some entry =>
      let inPrimary := codeRegions.any fun region => region.contains entry
      let inStub := codeSeg.stub.any fun stub =>
        entry.seg = stub.seg && stub.skipOff ≤ entry.off.toNat &&
          entry.off.toNat < stub.skipOff + stub.size
      if inPrimary || inStub then [] else [error func entry (.entryOutside entry)]

def indirectDiagnostics : Report :=
  (cfg.indirects.filter fun indirect =>
    indirect.addr.seg = func.start.seg &&
      (func.effectiveRegions.any fun region => region.contains indirect.addr) &&
      !binary.containsAddr indirect.addr).map fun indirect =>
    error func indirect.addr (.indirectOutsideImage indirect.addr)

/-- The address at which the decoding of a range fails. A range that is empty, inverted or between
segments has nothing to decode. -/
def firstUndecodableAddr (start stop : SegOff) : Outcome Empty (Option SegOff) :=
  if start.seg ≠ stop.seg ∨ stop.le start then return none
  else do
    let (l, failure) ← linearDecode binary.toBinary start stop
    return failure.map fun _ => ((l.getLast?).map fun last => last.1.endAddr).getD start

def firstUndecodable : List FuncRegion → Outcome Empty (Option (FuncRegion × SegOff))
  | [] => return none
  | region :: rest => do
      match ← firstUndecodableAddr binary region.start region.stop with
      | some gap => return some (region, gap)
      | none => firstUndecodable rest

/-- The last instruction of a code region that falls through into declared data. -/
def firstDataFallthrough : List FuncRegion → Outcome Empty (Option (SegOff × TextSectionRegion))
  | [] => return none
  | region :: rest =>
      match cfg.dataRegionContaining region.stop with
      | none => firstDataFallthrough rest
      | some data => do
          let (l, failure) ← linearDecode binary.toBinary region.start region.stop
          match failure, l.getLast? with
          | none, some (last, _) =>
              if hasFallthrough last.opcode then return some (last.addr, data)
              else firstDataFallthrough rest
          | _, _ => firstDataFallthrough rest

/-- A branch must not go into declared data, and should stay in the code regions. -/
def branchDiagnostic (codeRegions : List FuncRegion) (addr target : SegOff)
    (intoData : SegOff → TextSectionRegion → Message) (outside : SegOff → SegOff → Message) : Report :=
  match cfg.dataRegionContaining target with
  | some data => [error func addr (intoData addr data)]
  | none =>
      if codeRegions.any fun region => region.contains target then []
      else [warning func addr (outside addr target)]

/-- The declared data that an instruction calls. -/
def calledData (ins : Asm.Instr) : Option TextSectionRegion :=
  if ins.opcode matches .CALL | .CALLF then (directTarget ins).bind cfg.dataRegionContaining else none

/-- A call into declared data is reported as a call, and every other transfer as a branch. -/
def targetDiagnostics (codeRegions : List FuncRegion) (ins : Asm.Instr) : Report :=
  match calledData cfg ins with
  | some data => [error func ins.addr (.callTargetsData ins.addr data)]
  | none =>
      match branchTarget ins with
      | some (.relative target _) =>
          branchDiagnostic cfg func codeRegions ins.addr target .branchTargetsData .branchOutside
      | some (.unresolved (.farDirect seg off)) =>
          branchDiagnostic cfg func codeRegions ins.addr ⟨.normal seg, off⟩
            .farBranchTargetsData .farBranchOutside
      | _ => []

def validateBranchTargets (codeRegions : List FuncRegion) : List FuncRegion → Outcome Empty Report
  | [] => return []
  | region :: rest => do
      let (l, _) ← linearDecode binary.toBinary region.start region.stop
      let report ← validateBranchTargets codeRegions rest
      return l.flatMap (fun pair => targetDiagnostics cfg func codeRegions pair.1) ++ report

def validateReturnMode (kind : Option ReturnKind) (ignored : List ReturnKind) : Report :=
  (match kind, func.mode with
    | some .near, .far => [error func func.start .returnsNear]
    | some .far, .near => [error func func.start .returnsFar]
    | some .interrupt, _ => [warning func func.start .interruptReturn]
    | none, _ => [warning func func.start .noReturn]
    | _, _ => []) ++
    if ignored = [] then [] else [warning func func.start (.mixedReturns ignored)]

/-- The call of a target in one mode. -/
def callDiagnostics (target : SegOff) (mode : CallMode) : Report :=
  match cfg.funcLookup target with
  | some called =>
      if called.mode = mode then []
      else [error func func.start (.wrongMode mode target called.name called.mode)]
  | none => [warning func func.start (.unconfiguredTarget mode target)]

def validateDirectCalls (kinds : List (SegOff × List CallMode)) : Report :=
  kinds.flatMap fun (target, modes) =>
    if .near ∈ modes ∧ .far ∈ modes then [error func func.start (.bothModes target)]
    else modes.flatMap (callDiagnostics cfg func target)

/-- The modes of the returns and calls that the analysis finds. A body that it cannot analyze is not
validated further. -/
def validateModes (codeSeg : Mz.CodeSegment) (stop : SegOff) (analysisRegions : List FuncRegion) :
    Outcome Empty Report :=
  match Analyze.buildWithRegions func.start (some stop) analysisRegions codeSeg binary with
  | .err e => return [warning func func.start (.modesNotValidated func.start stop e)]
  | .panic => .panic
  | .ok details =>
      let returns :=
        if details.returnKind.isSome ∨ details.ignoredReturnKinds ≠ [] then
          validateReturnMode func details.returnKind details.ignoredReturnKinds
        else [warning func func.start .noReturn]
      return returns ++ validateDirectCalls cfg func details.directCallKinds ++
        if details.indirectCalls ≠ 0
        then [warning func func.start (.indirectCalls details.indirectCalls)] else []

/-- What is checked once the ranges are known to be right: the entry, the indirect calls, and then the
instructions. -/
def validateBody (localIndirects : Bool) (codeSeg : Mz.CodeSegment) (stop : SegOff) : Outcome Empty Report := do
  let regions := func.effectiveRegions
  let codeRegions := cfg.codeRegions regions
  let report := entryDiagnostics func codeSeg codeRegions ++
    if localIndirects then indirectDiagnostics cfg binary func else []
  match ← firstUndecodable binary codeRegions with
  | some (region, gap) => return report ++ [error func gap (.undecodable region gap)]
  | none =>
      match ← firstDataFallthrough cfg binary codeRegions with
      | some (last, data) => return report ++ [error func last (.fallsIntoData last data)]
      | none => do
          let targets ← validateBranchTargets cfg binary func codeRegions codeRegions
          let analysisRegions :=
            if func.regions = [] ∧ cfg.hasDataInRegions regions = false then [] else codeRegions
          let modes ← validateModes cfg binary func codeSeg stop analysisRegions
          return report ++ targets ++ modes

/-- The ranges of a function are checked against its code segment, whose end has been computed. -/
def validateRanges (localIndirects : Bool) (codeSeg : Mz.CodeSegment) (segment : FuncRegion) (stop : SegOff) :
    Outcome Empty Report :=
  let dataErrors := dataDiagnostics cfg func
  let regionErrors := regionsDiagnostics binary func segment
  let report := dataErrors ++ regionErrors
  if func.regions = [] ∧ binary.containsRegion func.start stop = false then
    return report ++ [error func func.start
      (.rangeOutsideImage func.start stop (fileOffsetHint binary stop))]
  else if segment.contains func.start = false then
    return report ++ [error func func.start (.startOutsideSegment segment)]
  else if func.regions = [] ∧ segment.stop.lt stop then
    return report ++ [error func func.start (.endPastSegment stop segment)]
  else if regionErrors ≠ [] ∨ dataErrors ≠ [] then return report
  else do return report ++ (← validateBody cfg binary func localIndirects codeSeg stop)

/-- The report about a function. Indirect calls are only looked at when one function is validated. -/
def validateFunction (localIndirects : Bool) : Outcome Empty Report :=
  match func.stop.or (maxStop func.regions) with
  | none => return [error func func.start .noEnd]
  | some stop =>
      if func.start.seg ≠ stop.seg then
        return [error func func.start (.crossesSegments func.start stop)]
      else if stop.le func.start then
        return [error func func.start (.invalidRange func.start stop)]
      else
        let declared : Report :=
          match func.start.seg with
          | .normal seg =>
              errorIf func (cfg.codeSegLookup (.normal seg)).isNone func.start
                (.undeclaredSegment (.normal seg))
          | .overlay _ => []
        let bodyEnd := (func.regions.map FuncRegion.stop).foldl later stop
        match codeSegmentForFunction binary func.start bodyEnd with
        | .err e => return declared ++ [error func func.start (.notAnalyzable e)]
        | .panic => .panic
        | .ok codeSeg =>
            match codeSeg.stop with
            | .ok segStop => do
                let segment : FuncRegion := ⟨codeSeg.start, segStop⟩
                return declared ++ (← validateRanges cfg binary func localIndirects codeSeg segment stop)
            | _ => .panic

end

end Dis86.Validate
