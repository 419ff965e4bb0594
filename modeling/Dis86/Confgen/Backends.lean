import Dis86.Config.Functions
import Dis86.Hydra.CallStub

namespace Dis86.Confgen
open Asm (Seg SegOff)

/-- The flags that an analysis writes when it does not know how a function returns, with the mode for the decompiler
and the flags for C that stand in. -/
def retUnknownModes : List (String × String × String) :=
  [("RET_UNKNOWN", "near", "NEAR"), ("RET_UNKNOWN_CONFIG_NEAR", "near", "NEAR"), ("RET_UNKNOWN_CONFIG_FAR", "far", "0")]

def indirectCallLocation : String := "INDIRECT_CALL_LOCATION"

/-- The annotation of a function. The flags of a number are its digits. -/
structure Function where
  reimpl : Bool
  name : String
  ret : Option String
  args : Option Int
  startAddr : Addr
  endAddr : Option Addr
  entryStub : Option Addr
  regargs : Option String
  regouts : Option String
  clobbers : Option String
  flags : String
  dontPopArgs : Bool
  regions : List (Addr × Addr)
  legacy : flags = "DONT_POP_ARGS" → dontPopArgs = true

/-- The entry of a function in the configuration file. -/
def genFunction (func : Function) : BslFunction where
  name := func.name
  start := func.startAddr
  stop := func.endAddr
  mode := match retUnknownModes.lookup func.flags with
    | some (mode, _) => mode
    | none => if func.flags = "NEAR" then "near" else "far"
  ret := func.ret.getD "None"
  args := func.args
  dontPopArgs := func.dontPopArgs
  indirectCallLocation := func.flags = indirectCallLocation
  entry := func.entryStub
  regargs := func.regargs
  regouts := func.regouts
  clobbers := func.clobbers
  retKindUnknown := (retUnknownModes.lookup func.flags).isSome
  regions := func.regions

def genFunctions (functions : List Function) : List BslFunction := functions.map genFunction

/-- A call stub of the header. Without a count of its arguments it defines nothing. -/
structure FuncData where
  name : String
  ret : String
  args : Option Nat
  addr : Addr
  flags : String
  retUnknown : Bool
  interim : String
deriving DecidableEq, Repr

def dontPopArgsName : String := "DONT_POP_ARGS"

/-- The name occurs somewhere in the flags. -/
def mentionsDontPopArgs (flags : String) : Prop := dontPopArgsName.toList <:+: flags.toList

instance (flags : String) : Decidable (mentionsDontPopArgs flags) :=
  inferInstanceAs (Decidable (dontPopArgsName.toList <:+: flags.toList))

/-- The flags of a stub, before the arguments are looked at. -/
def stubFlags (func : Function) : String :=
  match retUnknownModes.lookup func.flags with
  | some (_, flags) => flags
  | none => func.flags

/-- A callee that pops its arguments adds its flag to the others. -/
def withDontPopArgs (func : Function) (flags : String) : String :=
  if func.dontPopArgs ∧ ¬mentionsDontPopArgs flags then
    if flags = "0" ∨ flags = "" then dontPopArgsName else flags ++ " | " ++ dontPopArgsName
  else flags

def FuncData.new (func : Function) (name : String) (entry : Addr) : FuncData where
  name
  ret := func.ret.getD "u32"
  args := func.args.bind fun args => if args < 0 then none else some args.toNat
  addr := entry
  flags := withDontPopArgs func (stubFlags func)
  retUnknown := (retUnknownModes.lookup func.flags).isSome
  interim := match retUnknownModes.lookup func.flags with
    | some (mode, _) => mode.toUpper
    | none => ""

/-- A function in an overlay has a stub for its entry and one for itself. -/
def stubsOf (func : Function) : List FuncData :=
  if func.flags = indirectCallLocation then []
  else match func.startAddr.overlay, func.entryStub with
    | true, some entry => [.new func func.name entry, .new func (func.name ++ "_OVERLAY") func.startAddr]
    | _, _ => [.new func func.name func.startAddr]

def buildFuncData (functions : List Function) : List FuncData := functions.flatMap stubsOf

/-- The address of a stub. Its numbers are kept in sixteen bits. -/
def FuncData.place (stub : FuncData) : SegOff where
  seg := if stub.addr.overlay then .overlay (.ofInt 16 stub.addr.seg) else .normal (.ofInt 16 stub.addr.seg)
  off := .ofInt 16 stub.addr.off

/-- The operands of the compiler. All but the names of the stubs and zero are given by the other macros. -/
def operandValue (macros : String → Option (BitVec 32)) (text : String) : Option (BitVec 32) :=
  if text = "0" then some 0
  else if text = "NEAR" then some 2
  else if text = dontPopArgsName then some 1
  else macros text

/-- The operands of a bitmask. -/
def operands (text : String) : List String :=
  (text.toList.splitOn '|').map fun part => String.ofList (Lib.strip isWhitespace part)

/-- The value that the compiler gives the flags of a stub. Others than a bitmask are one operand. -/
def flagsValue (macros : String → Option (BitVec 32)) (text : String) : Option (BitVec 32) :=
  ((operands text).mapM (operandValue macros)).map fun values => values.foldr (· ||| ·) 0

section Flags

variable {macros : String → Option (BitVec 32)}

theorem splitOn_cut (front back : List Char) :
    (front ++ '|' :: back).splitOn '|' = front.splitOn '|' ++ back.splitOn '|' :=
  List.splitOnP_append_cons _ _ (by simp)

theorem splitOn_one {part : List Char} (whole : '|' ∉ part) : part.splitOn '|' = [part] := by
  apply List.splitOnP_eq_singleton
  intro c inside
  rw [beq_eq_false_iff_ne]
  rintro rfl
  exact whole inside

/-- A space after the flags changes no operand. -/
theorem splitOn_blank (text : List Char) : ((text ++ [' ']).splitOn '|').map (Lib.strip isWhitespace) =
    (text.splitOn '|').map (Lib.strip isWhitespace) := by
  have blank : Lib.Blank isWhitespace [' '] := by
    intro c inside
    rw [List.mem_singleton.mp inside]
    rfl
  induction size : text.length using Nat.strong_induction_on generalizing text with
  | _ n ih =>
      by_cases bar : '|' ∈ text
      · obtain ⟨front, back, rfl, _⟩ := List.eq_append_cons_of_mem bar
        have shorter : back.length < n := by
          rw [← size, List.length_append, List.length_cons]
          omega
        rw [List.append_assoc, List.cons_append, splitOn_cut, splitOn_cut, List.map_append, List.map_append,
          ih back.length shorter back rfl]
      · have longer : '|' ∉ text ++ [' '] := by
          simp [bar]
        rw [splitOn_one bar, splitOn_one longer, List.map_singleton, List.map_singleton, Lib.strip_append_blank blank]

/-- A word is one operand. -/
theorem operands_word {text : String} (word : text.toList.all (fun c => c ≠ '|' && !isWhitespace c) = true) :
    operands text = [text] := by
  have letter : ∀ c ∈ text.toList, c ≠ '|' ∧ isWhitespace c = false := by
    intro c inside
    have found := List.all_eq_true.mp word c inside
    rw [Bool.and_eq_true, decide_eq_true_eq, Bool.not_eq_true'] at found
    exact found
  have whole : '|' ∉ text.toList := fun inside => (letter _ inside).1 rfl
  have bare : Lib.Bare isWhitespace text.toList :=
    ⟨fun c first => (letter c (List.mem_of_mem_head? first)).2, fun c last => (letter c (List.mem_of_getLast? last)).2⟩
  rw [operands, splitOn_one whole, List.map_singleton, bare.strip_eq, String.ofList_toList]

theorem operands_withDontPopArgs (flags : String) :
    operands (flags ++ " | " ++ dontPopArgsName) = operands flags ++ [dontPopArgsName] := by
  have letters : (flags ++ " | " ++ dontPopArgsName).toList =
      (flags.toList ++ [' ']) ++ '|' :: (" " ++ dontPopArgsName).toList := by
    simp [String.toList_append]
  have added : (" " ++ dontPopArgsName).toList.splitOn '|' = [(" " ++ dontPopArgsName).toList] :=
    splitOn_one (by decide)
  have name : String.ofList (Lib.strip isWhitespace (" " ++ dontPopArgsName).toList) = dontPopArgsName := by
    decide
  have front := congrArg (List.map String.ofList) (splitOn_blank flags.toList)
  rw [List.map_map, List.map_map] at front
  rw [operands, letters, splitOn_cut, added, List.map_append, List.map_singleton, name]
  exact congrArg (· ++ [dontPopArgsName]) front

theorem flagsValue_word {text : String} (word : text.toList.all (fun c => c ≠ '|' && !isWhitespace c) = true) :
    flagsValue macros text = operandValue macros text := by
  rw [flagsValue, operands_word word]
  cases found : operandValue macros text <;> simp [found]

theorem foldr_or (values : List (BitVec 32)) (last : BitVec 32) :
    values.foldr (· ||| ·) last = values.foldr (· ||| ·) 0 ||| last := by
  induction values with
  | nil => exact BitVec.zero_or.symm
  | cons value rest ih => rw [List.foldr_cons, List.foldr_cons, ih, BitVec.or_assoc]

/-- The added flag is set, and the others are kept. -/
theorem flagsValue_withDontPopArgs (flags : String) :
    flagsValue macros (flags ++ " | " ++ dontPopArgsName) = (flagsValue macros flags).map (· ||| 1) := by
  have added : operandValue macros dontPopArgsName = some 1 := rfl
  have one : (1 : BitVec 32) ||| 0 = 1 := rfl
  rw [flagsValue, flagsValue, operands_withDontPopArgs, List.mapM_append]
  cases known : (operands flags).mapM (operandValue macros) with
  | none => simp
  | some values =>
      simp only [List.mapM_cons, List.mapM_nil, added, Option.bind_eq_bind, Option.bind_some, Option.pure_def,
        Option.map_some, List.foldr_append, List.foldr_cons, List.foldr_nil]
      rw [foldr_or, one]

theorem isNear_withDontPopArgs (value : BitVec 32) : Hydra.isNear (value ||| 1) = Hydra.isNear value := by
  have other : (1 : BitVec 32) &&& 2 = 0#32 := rfl
  rw [Hydra.isNear, Hydra.isNear, BitVec.and_or_distrib_right, other, BitVec.or_zero]

theorem dontPopArgs_withDontPopArgs (value : BitVec 32) : Hydra.dontPopArgs (value ||| 1) = true := by
  have set : ((value ||| 1) &&& 1).getLsbD 0 = true := by simp
  rw [Hydra.dontPopArgs, decide_eq_true_eq]
  intro clear
  rw [clear] at set
  cases set

/-- The value of the flags that a stub is given. -/
theorem flagsValue_stub (func : Function) (flags : String) :
    flagsValue macros (withDontPopArgs func flags) =
      if func.dontPopArgs = true ∧ ¬mentionsDontPopArgs flags then
        if flags = "" then some 1 else (flagsValue macros flags).map (· ||| 1)
      else flagsValue macros flags := by
  have alone : flagsValue macros dontPopArgsName = some 1 := flagsValue_word rfl
  have zero : flagsValue macros "0" = some 0 := flagsValue_word rfl
  unfold withDontPopArgs
  split
  · by_cases empty : flags = ""
    · rw [if_pos (.inr empty), if_pos empty, alone]
    · rw [if_neg empty]
      by_cases plain : flags = "0"
      · rw [if_pos (.inl plain), alone, plain, zero]
        rfl
      · rw [if_neg (by simp [plain, empty]), flagsValue_withDontPopArgs]
  · rfl

end Flags

/-- The flags of the annotation mean the same for both sides. As a bitmask they set `NEAR` only if they are that name
and nothing else, and they set the flag of a callee that pops its arguments only if the annotation says so. -/
def FlagsAgree (macros : String → Option (BitVec 32)) (func : Function) : Prop :=
  (retUnknownModes.lookup func.flags).isSome ∨ func.flags = "" ∧ func.dontPopArgs = true ∨
    ∃ value, flagsValue macros func.flags = some value ∧
      (Hydra.isNear value = true → func.flags = "NEAR") ∧
      (Hydra.dontPopArgs value = true → func.dontPopArgs = true) ∧
      (func.dontPopArgs = true → mentionsDontPopArgs func.flags → Hydra.dontPopArgs value = true)

/-- The stubs of a function have the mode of its entry, and pop the arguments when it says so. -/
def StubsAgree (macros : String → Option (BitVec 32)) (func : Function) (entry : BslFunction) (flags : String) : Prop :=
  ∃ value, flagsValue macros flags = some value ∧ (Hydra.isNear value = true ↔ entry.mode = "near") ∧
    (Hydra.dontPopArgs value = true ↔ entry.dontPopArgs = true)

end Dis86.Confgen
