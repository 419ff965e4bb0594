import Dis86.Config.Tables
import Dis86.Config.TypeDatabase
import Dis86.Lib.Text

namespace Dis86.Confgen
open Asm (Reg Seg SegOff)

/-- An address of an annotation. -/
structure Addr where
  overlay : Bool
  seg : Int
  off : Int
deriving DecidableEq, Repr

/-- A number that was written in hexadecimal, read as sixteen bits. -/
def readHex (n : Int) : Option (BitVec 16) := if 0 ≤ n ∧ n < 2 ^ 16 then some (.ofInt 16 n) else none

/-- The text of an address, read back. -/
def Addr.segOff (addr : Addr) : Option SegOff := do
  let seg ← readHex addr.seg
  let off ← readHex addr.off
  return ⟨if addr.overlay then .overlay seg else .normal seg, off⟩

theorem readHex_eq_some {n : Int} {bits : BitVec 16} (read : readHex n = some bits) : n = bits.toNat := by
  unfold readHex at read
  split at read
  · obtain rfl := Option.some.inj read
    rw [BitVec.toNat_ofInt]
    omega
  · cases read

theorem Addr.segOff_eq_some {addr : Addr} {place : SegOff} (read : addr.segOff = some place) :
    ∃ seg, place.seg = (if addr.overlay then .overlay seg else .normal seg) ∧ addr.seg = seg.toNat ∧
      addr.off = place.off.toNat := by
  unfold segOff at read
  rw [Option.bind_eq_bind, Option.bind_eq_some_iff] at read
  obtain ⟨seg, readSeg, read⟩ := read
  rw [Option.bind_eq_some_iff] at read
  obtain ⟨off, readOff, read⟩ := read
  obtain rfl := Option.some.inj read
  exact ⟨seg, rfl, readHex_eq_some readSeg, readHex_eq_some readOff⟩

/-- Different addresses are not read as the same one. -/
theorem Addr.segOff_inj {a b : Addr} {place : SegOff} (first : a.segOff = some place)
    (second : b.segOff = some place) : a = b := by
  obtain ⟨seg, kind, aSeg, aOff⟩ := segOff_eq_some first
  obtain ⟨seg', kind', bSeg, bOff⟩ := segOff_eq_some second
  obtain ⟨overlay, _, _⟩ := a
  obtain ⟨overlay', _, _⟩ := b
  rw [kind] at kind'
  cases overlay <;> cases overlay' <;> simp_all

/-- The properties of a function in the configuration file. -/
structure BslFunction where
  name : String
  start : Addr
  stop : Option Addr
  mode : String
  ret : String
  args : Option Int
  dontPopArgs : Bool
  indirectCallLocation : Bool
  entry : Option Addr
  regargs : Option String
  regouts : Option String
  clobbers : Option String
  retKindUnknown : Bool
  regions : List (Addr × Addr)
deriving DecidableEq, Repr

/-- Why the functions are not read. -/
inductive FunctionError where
  | region (key : String) (index : Nat) (field : String) (addr : Addr)
  | contractRegister (key field name : String)
  | unsupportedRegister (name key field : String)
  | segOff (key field : String) (addr : Addr)
  | mode (mode key : String)
  | args (key : String) (args : Int)
  | ret (key ret : String) (err : TypeError)
  | register (name : String)
  | indirectRegions (key : String)
  | indirectContract (key : String)
  | indirectMode (key : String)
  | indirectRet (key : String)
  | indirectArgs (key : String)
deriving DecidableEq, Repr

def allRegs : List Reg :=
  [.AX, .CX, .DX, .BX, .SP, .BP, .SI, .DI, .AL, .CL, .DL, .BL, .AH, .CH, .DH, .BH, .ES, .CS, .SS, .DS, .IP, .FLAGS]

def fromStrUpper (s : String) : Option Reg := allRegs.find? fun reg => reg.name = s

/-- The registers that a caller can see. -/
def contractRegs : List Reg := [.CX, .DX, .BX, .SI, .DI, .ES, .SS, .DS]

def splitCommas (text : String) : List String := (text.toList.splitOn ',').map String.ofList

/-- A register of a contract is listed once. -/
def parseContractReg (key field : String) (regs : List Reg) (name : String) : Except FunctionError (List Reg) :=
  let name := String.ofList (Lib.strip isWhitespace name.toList)
  match fromStrUpper name with
  | none => .error (.contractRegister key field name)
  | some reg =>
      if reg ∉ contractRegs then .error (.unsupportedRegister name key field)
      else .ok (if reg ∈ regs then regs else regs ++ [reg])

def parseContractRegs (key field : String) : Option String → Except FunctionError (Option (List Reg))
  | none => .ok none
  | some value => do return some (← (splitCommas value).foldlM (parseContractReg key field) [])

def parseRegion (key : String) (index : Nat) (bounds : Addr × Addr) : Except FunctionError FuncRegion := do
  let start ← (bounds.1.segOff).elim (.error (.region key index "start" bounds.1)) .ok
  let stop ← (bounds.2.segOff).elim (.error (.region key index "end" bounds.2)) .ok
  return ⟨start, stop⟩

def parseRegions (key : String) (regions : List (Addr × Addr)) : Except FunctionError (List FuncRegion) :=
  regions.zipIdx.mapM fun (bounds, index) => parseRegion key index bounds

def parseSegOff (key field : String) (addr : Addr) : Except FunctionError SegOff :=
  addr.segOff.elim (.error (.segOff key field addr)) .ok

def parseMode (key : String) : String → Except FunctionError CallMode
  | "near" => .ok .near
  | "far" => .ok .far
  | mode => .error (.mode mode key)

/-- An argument count of sixteen bits with a sign. Without one it is unknown. -/
def parseArgs (key : String) : Option Int → Except FunctionError Int
  | none => .ok (-1)
  | some args => if -2 ^ 15 ≤ args ∧ args < 2 ^ 15 then .ok args else .error (.args key args)

def parseRet (db : TypeDatabase) (key ret : String) : Except FunctionError (Option Typ) :=
  if ret = "None" then .ok none
  else match db.parseType ret.toList with
    | .ok typ => .ok (some typ)
    | .error err => .error (.ret key ret err)

def parseRegargs : Option String → Except FunctionError (Option (List Reg))
  | none => .ok none
  | some value => do
      return some (← (splitCommas value).mapM fun name => (fromStrUpper name).elim (.error (.register name)) .ok)

/-- A negative argument count stands for an unknown one. -/
def knownArgs (args : Int) : Option (BitVec 16) := if 0 ≤ args then some (.ofInt 16 args) else none

/-- The description of a function, before it is known to be one. -/
def readFunction (db : TypeDatabase) (f : BslFunction) : Except FunctionError Func := do
  let regions ← parseRegions f.name f.regions
  let regouts ← parseContractRegs f.name "regouts" f.regouts
  let clobbers ← parseContractRegs f.name "clobbers" f.clobbers
  let start ← parseSegOff f.name "start" f.start
  let stop ← f.stop.mapM (parseSegOff f.name "end")
  let entry ← f.entry.mapM (parseSegOff f.name "entry")
  let mode ← parseMode f.name f.mode
  let args ← parseArgs f.name f.args
  let ret ← parseRet db f.name f.ret
  let regargs ← parseRegargs f.regargs
  return { name := f.name, start, stop, entry, mode, ret, args := knownArgs args, regargs, regouts, clobbers,
           dontPopArgs := f.dontPopArgs, regions }

/-- The description of an indirect call, which declares its return and its arguments. -/
def readIndirect (func : Func) : Except FunctionError Indirect :=
  if func.regions ≠ [] then .error (.indirectRegions func.name)
  else if func.regouts.isSome ∨ func.clobbers.isSome then .error (.indirectContract func.name)
  else if func.mode ≠ .far then .error (.indirectMode func.name)
  else match func.ret, func.args with
    | none, _ => .error (.indirectRet func.name)
    | some _, none => .error (.indirectArgs func.name)
    | some ret, some args => .ok ⟨func.start, ret, args⟩

def parseFunction (db : TypeDatabase) (cfg : Config) (f : BslFunction) : Except FunctionError Config := do
  let func ← readFunction db f
  if f.indirectCallLocation then
    return { cfg with indirects := cfg.indirects ++ [← readIndirect func] }
  else return { cfg with funcs := cfg.funcs ++ [func] }

def parseFunctions (db : TypeDatabase) (cfg : Config) (functions : List BslFunction) : Except FunctionError Config :=
  functions.foldlM (parseFunction db) cfg

end Dis86.Confgen
