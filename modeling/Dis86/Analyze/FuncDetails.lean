import Dis86.Asm.Linear
import Dis86.Config.Regions
import Dis86.Mz.Exe
import Dis86.Asm.Instr
import Dis86.Config.Tables

namespace Dis86.Analyze
open Asm (Reg Seg SegOff UnresolvedTransfer branchTarget decodeOne)
open Lib (Outcome)

inductive ReturnKind where
  | near | far | interrupt
deriving DecidableEq, Repr

/-- Where control goes after an instruction. -/
inductive Next where
  | fallthrough (target : SegOff)
  | ret (kind : ReturnKind)
  | jump (targets : List SegOff) (fallthrough : Option SegOff)
  | transfer
deriving DecidableEq, Repr

inductive Call where
  | direct (addr : SegOff)
  | indirect
deriving DecidableEq, Repr

/-- Why an analysis stops. -/
inductive AnalysisError where
  | unsupportedCallf (ins : Asm.Instr)
  | unsupportedCall (ins : Asm.Instr)
  | unsupportedInstr (ins : Asm.Instr)
  | startBeforeSegment (start segStart : SegOff)
  | startOutsideRegions (start : SegOff)
  | startInData (start : SegOff) (data : TextSectionRegion)
  | outsideRegions (addr : SegOff)
  | insideData (addr : SegOff) (data : TextSectionRegion)
  | decode (e : Asm.DecodeError)
  | noInstruction (loc : SegOff)
deriving DecidableEq, Repr

/-- A far call from an overlay names its segment through the segment table. -/
def determineCallf (ins : Asm.Instr) (binary : Binary) : Outcome AnalysisError Call := do
  match ← .unwrap (ins.operand? 0) with
  | .far seg off =>
      match ins.addr.seg with
      | .overlay _ => return .direct ⟨← binary.remapToSegment seg, off⟩
      | .normal _ => return .direct ⟨.normal seg, off⟩
  | .mem _ => return .indirect
  | _ => .err (.unsupportedCallf ins)

def determineCalln (ins : Asm.Instr) : Outcome AnalysisError Call := do
  match ← .unwrap (ins.operand? 0) with
  | .rel rel => return .direct (ins.relAddr rel)
  | .mem _ | .reg _ => return .indirect
  | _ => .err (.unsupportedCall ins)

/-- A far jump into the analyzed segment goes on there, and every other one leaves. -/
def unresolvedNext (kind : UnresolvedTransfer) (analyzedSeg : Seg) : Next :=
  match kind, analyzedSeg with
  | .farDirect seg off, .normal current =>
      if seg = current then .jump [⟨analyzedSeg, off⟩] none else .transfer
  | _, _ => .transfer

def jumpTargets (ins : Asm.Instr) (analyzedSeg : Seg) : Option Next :=
  (branchTarget ins).map fun target =>
    match target with
    | .relative target fallthrough => .jump [target] fallthrough
    | .unresolved kind => unresolvedNext kind analyzedSeg

structure InstrDetails where
  next : Next
  call : Option Call
deriving DecidableEq, Repr

/-- The analysis knows all instructions that are no branches, but for three. -/
def instrDetails (ins : Asm.Instr) (binary : Binary) (analyzedSeg : Seg) :
    Outcome AnalysisError InstrDetails :=
  match jumpTargets ins analyzedSeg with
  | some next => return ⟨next, none⟩
  | none =>
      match ins.opcode with
      | .CALL => return ⟨.fallthrough ins.endAddr, some (← determineCalln ins)⟩
      | .CALLF => return ⟨.fallthrough ins.endAddr, some (← determineCallf ins binary)⟩
      | .IRET => return ⟨.ret .interrupt, none⟩
      | .RET => return ⟨.ret .near, none⟩
      | .RETF => return ⟨.ret .far, none⟩
      | .HLT | .INTO | .INVAL => .err (.unsupportedInstr ins)
      | _ => return ⟨.fallthrough ins.endAddr, none⟩

/-- What an analysis works on. The end of the segment has been computed. -/
structure Input where
  binary : Binary
  stop : Option SegOff
  regions : List FuncRegion
  segStart : SegOff
  segStop : SegOff
  data : List TextSectionRegion

/-- What an analysis has found so far, with the addresses that wait, the lowest one first. -/
structure Found where
  discovered : List SegOff
  queued : List SegOff
  endAddrInferred : SegOff
  directCallKinds : List (SegOff × List CallMode)
  indirectCalls : Nat
  returnKind : Option ReturnKind
  ignoredReturnKinds : List ReturnKind

namespace Input

def segContains (input : Input) (addr : SegOff) : Bool :=
  addr.seg = input.segStart.seg && input.segStart.off ≤ addr.off && addr.off < input.segStop.off

def regionFor (input : Input) (addr : SegOff) : Option FuncRegion :=
  input.regions.find? fun region => region.contains addr

def dataRegionContaining (input : Input) (addr : SegOff) : Option TextSectionRegion :=
  input.data.find? fun region => region.contains addr

end Input

/-- The lowest of the addresses. -/
def lowest (addrs : List SegOff) : Option SegOff :=
  addrs.foldl (fun best addr =>
    match best with
    | some other => if addr.lt other then some addr else best
    | none => some addr) none

def nextDataStart (data : List TextSectionRegion) (addr : SegOff) : Option SegOff :=
  lowest ((data.filter fun region =>
    region.start.seg = addr.seg && addr.lt region.start && addr.lt region.stop).map
      TextSectionRegion.start)

def pushesCs (ins : Asm.Instr) : Bool :=
  ins.opcode = .PUSH && ins.operand? 0 = some (.reg .CS)

/-- An address is placed before the higher ones. -/
def queueInsert (addr : SegOff) : List SegOff → List SegOff
  | [] => [addr]
  | next :: rest => if addr.lt next then addr :: next :: rest else next :: queueInsert addr rest

/-- An address is queued once only. -/
def Found.insert (found : Found) (addr : SegOff) : Found :=
  if addr ∈ found.discovered then found
  else
    { found with
      discovered := addr :: found.discovered
      queued := queueInsert addr found.queued }

def insertMode (mode : CallMode) (modes : List CallMode) : List CallMode :=
  if mode ∈ modes then modes
  else match mode with
    | .near => .near :: modes
    | .far => modes ++ [.far]

/-- The targets are ordered, and so are the modes of a target. -/
def insertCall (target : SegOff) (mode : CallMode) :
    List (SegOff × List CallMode) → List (SegOff × List CallMode)
  | [] => [(target, [mode])]
  | (other, modes) :: rest =>
      if target = other then (other, insertMode mode modes) :: rest
      else if target.lt other then (target, [mode]) :: (other, modes) :: rest
      else (other, modes) :: insertCall target mode rest

/-- A near call right behind a push of CS is a far call. -/
def Found.addCall (found : Found) (ins : Asm.Instr) (pushCsPending : Bool) : Option Call → Found
  | some (.direct addr) =>
      let mode : CallMode := if ins.opcode = .CALLF ∨ ins.opcode = .CALL ∧ pushCsPending = true
        then .far else .near
      { found with directCallKinds := insertCall addr mode found.directCallKinds }
  | some .indirect => { found with indirectCalls := found.indirectCalls + 1 }
  | none => found

/-- The first return decides, and other kinds are recorded once. -/
def Found.addReturn (found : Found) (kind : ReturnKind) : Found :=
  match found.returnKind with
  | none => { found with returnKind := some kind }
  | some winning =>
      if winning ≠ kind ∧ kind ∉ found.ignoredReturnKinds then
        { found with ignoredReturnKinds := found.ignoredReturnKinds ++ [kind] }
      else found

namespace Input

/-- The bytes of one instruction end with the segment, the region, or the next declared data. -/
def decodeEnd (input : Input) (region : Option FuncRegion) (addr : SegOff) : SegOff :=
  let bound := match region with
    | some region =>
        if region.stop.seg = input.segStop.seg ∧ region.stop.lt input.segStop then region.stop
        else input.segStop
    | none => input.segStop
  match nextDataStart input.data addr with
  | some dataStart => if dataStart.lt bound then dataStart else bound
  | none => bound

def decodeOneInstr (input : Input) (loc stop : SegOff) : Outcome AnalysisError Asm.Instr := do
  let bin ← input.binary.regionIter loc stop
  match (decodeOne bin).1 with
  | .ok (some (ins, _)) => return ins
  | .ok none => .err (.noInstruction loc)
  | .err e => .err (.decode e)
  | .panic => .panic

/-- An ordinary instruction ends its block at declared data, at the end of its region, at the
annotated end, or with the segment. -/
def fallsThrough (input : Input) (region : Option FuncRegion) (target : SegOff) : Bool :=
  if (input.dataRegionContaining target).isSome then false
  else match region with
    | some region => region.contains target
    | none =>
        if input.stop.any fun stop => stop.le target then false else input.segContains target

/-- A target outside the segment or the regions, or in declared data, is not followed. -/
def follows (input : Input) (target : SegOff) : Bool :=
  (input.dataRegionContaining target).isNone && input.segContains target &&
    (input.regions.isEmpty || (input.regionFor target).isSome)

def followsFallthrough (input : Input) (target : SegOff) : Bool :=
  (input.dataRegionContaining target).isNone &&
    if input.regions.isEmpty then input.segContains target else (input.regionFor target).isSome

/-- The region of an address, when there are regions. -/
def currentRegion (input : Input) (addr : SegOff) : Outcome AnalysisError (Option FuncRegion) :=
  if input.regions.isEmpty then return none
  else match input.regionFor addr with
    | some region => return some region
    | none => .err (.outsideRegions addr)

/-- One instruction of a block, and the address of the next one when the block goes on. -/
def walkInstr (input : Input) (found : Found) (addr : SegOff) (pushCsPending : Bool) :
    Outcome AnalysisError (Found × Option (SegOff × Bool)) := do
  let region ← input.currentRegion addr
  match input.dataRegionContaining addr with
  | some data => .err (.insideData addr data)
  | none => do
      let ins ← input.decodeOneInstr addr (input.decodeEnd region addr)
      let found := if found.endAddrInferred.lt ins.endAddr
        then { found with endAddrInferred := ins.endAddr } else found
      let details ← instrDetails ins input.binary input.segStart.seg
      let found := found.addCall ins pushCsPending details.call
      match details.next with
      | .fallthrough target =>
          if input.fallsThrough region target then return (found, some (target, pushesCs ins))
          else return (found, none)
      | .ret kind => return (found.addReturn kind, none)
      | .jump targets fallthrough =>
          let found := (targets.filter input.follows).foldl Found.insert found
          let found := (fallthrough.toList.filter input.followsFallthrough).foldl Found.insert found
          return (found, none)
      | .transfer => return (found, none)

/-- The fuel is the number of instructions. -/
def walkBlock (input : Input) :
    Nat → Found → SegOff → Bool → Outcome AnalysisError Found
  | 0, _, _, _ => .panic
  | fuel + 1, found, addr, pushCsPending => do
      let (found, next) ← input.walkInstr found addr pushCsPending
      match next with
      | some (addr, pushCsPending) => walkBlock input fuel found addr pushCsPending
      | none => return found

/-- A block has no more instructions than a segment has addresses. -/
def blockFuel : Nat := 65537

/-- The fuel is the number of blocks. -/
def walkQueue (input : Input) : Nat → Found → Outcome AnalysisError Found
  | 0, _ => .panic
  | fuel + 1, found =>
      match found.queued with
      | [] => return found
      | loc :: queued => do
          let found ← input.walkBlock blockFuel { found with queued } loc false
          walkQueue input fuel found

end Input

/-- The start of every block lies in the code segment or in the segment of the function. -/
def queueFuel : Nat := 131073

/-- The blocks that are reached from the start of a function. -/
def buildWithRegionsAndData (funcStart : SegOff) (stop : Option SegOff) (regions : List FuncRegion)
    (codeSeg : Mz.CodeSegment) (binary : Binary) (data : List TextSectionRegion) :
    Outcome AnalysisError Found := do
  .check (¬ funcStart.lt codeSeg.start) (.startBeforeSegment funcStart codeSeg.start)
  let segStop ← match codeSeg.stop with
    | .ok segStop => .ok segStop
    | _ => .panic
  let input : Input := ⟨binary, stop, regions, codeSeg.start, segStop, data⟩
  .check (regions = [] ∨ (input.regionFor funcStart).isSome) (.startOutsideRegions funcStart)
  match input.dataRegionContaining funcStart with
  | some data => .err (.startInData funcStart data)
  | none => input.walkQueue queueFuel ⟨[funcStart], [funcStart], funcStart, [], 0, none, []⟩

def buildWithRegions (funcStart : SegOff) (stop : Option SegOff) (regions : List FuncRegion)
    (codeSeg : Mz.CodeSegment) (binary : Binary) : Outcome AnalysisError Found :=
  buildWithRegionsAndData funcStart stop regions codeSeg binary []

end Dis86.Analyze
