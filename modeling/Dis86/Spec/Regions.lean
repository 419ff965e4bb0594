import Dis86.Asm.Instr
import Dis86.Asm.Linear
import Dis86.Config.Regions
import Dis86.Asm.Boundary

namespace Dis86
open Asm (SegOff Bytes DecodeError linearDecode hasFallthrough directTarget)
open Lib (Outcome)

/-- The function to work on, with the regions of its body. -/
structure Spec where
  func : Option Func
  name : String
  start : SegOff
  stop : SegOff
  regions : List FuncRegion
deriving DecidableEq, Repr

/-- A function without an end panics. -/
def Spec.fromFunc {E : Type} (func : Func) : Outcome E Spec := do
  let regions := func.effectiveRegions
  let stop ← .unwrap (func.stop.or (regions.getLast?.map FuncRegion.stop))
  return ⟨some func, func.name, func.start, stop, regions⟩

inductive Cause where
  | callTargetInData | decodeError
deriving DecidableEq, Repr

/-- What a failure says. -/
inductive FailureMessage where
  | startInData (data : TextSectionRegion)
  | startOutside
  | decodeFailed (start stop : SegOff) (e : DecodeError)
  | fallsIntoData (data : TextSectionRegion)
  | targetsData (data : TextSectionRegion)
deriving DecidableEq, Repr

structure DecodeFailure where
  addr : SegOff
  cause : Cause
  message : FailureMessage
deriving DecidableEq, Repr

/-- The declared data into which the last instruction of a chunk falls through. -/
def fallsInto (cfg : Config) (l : List (Asm.Instr × Bytes)) (stop : SegOff) :
    Option (Asm.Instr × TextSectionRegion) := do
  let data ← cfg.dataRegionContaining stop
  let (last, _) ← l.getLast?
  if hasFallthrough last.opcode then some (last, data) else none

def decodeChunk (binary : Binary) (cfg : Config) (start stop : SegOff) :
    Outcome DecodeFailure (List (Asm.Instr × Bytes)) := do
  let (l, failure) ← linearDecode binary.toBinary start stop
  match failure with
  | some (e, addr) => .err ⟨addr, .decodeError, .decodeFailed start stop e⟩
  | none =>
      match fallsInto cfg l stop with
      | some (last, data) => .err ⟨last.addr, .callTargetInData, .fallsIntoData data⟩
      | none => return l

def decodeChunks (binary : Binary) (cfg : Config) :
    List (SegOff × SegOff) → Outcome DecodeFailure (List (Asm.Instr × Bytes))
  | [] => return []
  | (start, stop) :: chunks => do
      let l ← decodeChunk binary cfg start stop
      let later ← decodeChunks binary cfg chunks
      return l ++ later

/-- The declared data that an instruction calls or jumps to. -/
def targetData (cfg : Config) (ins : Asm.Instr) : Option TextSectionRegion :=
  (directTarget ins).bind cfg.dataRegionContaining

def checkTargets (cfg : Config) : List (Asm.Instr × Bytes) → Outcome DecodeFailure Unit
  | [] => return ()
  | (ins, _) :: l =>
      match targetData cfg ins with
      | some data => .err ⟨ins.addr, .callTargetInData, .targetsData data⟩
      | none => checkTargets cfg l

/-- The region of the entry is decoded first and is split at the start, when that is inside it. -/
def entryChunks (entry : FuncRegion) (start : SegOff) : List (SegOff × SegOff) :=
  (start, entry.stop) :: if entry.start.lt start then [(entry.start, start)] else []

/-- The other regions follow in ascending order. -/
def otherChunks (codeRegions : List FuncRegion) (entry : FuncRegion) : List (SegOff × SegOff) :=
  (FuncRegion.sort (codeRegions.filter (· ≠ entry))).map fun region => (region.start, region.stop)

def decodeRegions (binary : Binary) (cfg : Config) (spec : Spec) :
    Outcome DecodeFailure (List (Asm.Instr × Bytes)) :=
  match cfg.dataRegionContaining spec.start with
  | some data => .err ⟨spec.start, .callTargetInData, .startInData data⟩
  | none =>
      let codeRegions := cfg.codeRegions spec.regions
      match codeRegions.find? fun region => region.contains spec.start with
      | none => .err ⟨spec.start, .decodeError, .startOutside⟩
      | some entry => do
          let l ← decodeChunks binary cfg (entryChunks entry spec.start ++ otherChunks codeRegions entry)
          checkTargets cfg l
          return l

open Asm (RegionIter Decodes)

section

variable {E : Type} {binary : Binary} {cfg : Config}

theorem linearDecode_eq_ok {start stop : SegOff} {l : List (Asm.Instr × Bytes)} :
    linearDecode binary.toBinary start stop = (.ok (l, none) : Outcome E _) ↔
      ∃ bin, binary.regionIter start stop = (.ok bin : Outcome E _) ∧ Decodes bin l := by
  rw [linearDecode, Outcome.bind_eq_ok]
  refine exists_congr fun bin => and_congr_right fun made => ?_
  refine Asm.decodeLoop_iff (Asm.regionIter_fits made) ?_ l
  rw [RegionIter.length_rest, RegionIter.bytesRemaining]
  omega

/-- A chunk decodes to instructions, and the last one does not fall through into declared data. -/
structure ChunkDecodes (binary : Binary) (cfg : Config) (start stop : SegOff)
    (l : List (Asm.Instr × Bytes)) : Prop where
  decoded : linearDecode binary.toBinary start stop = (.ok (l, none) : Outcome DecodeFailure _)
  ends : fallsInto cfg l stop = none

theorem decodeChunk_eq_ok {start stop : SegOff} {l : List (Asm.Instr × Bytes)} :
    decodeChunk binary cfg start stop = .ok l ↔ ChunkDecodes binary cfg start stop l := by
  rw [decodeChunk, Outcome.bind_eq_ok]
  constructor
  · rintro ⟨⟨found, failure⟩, decoded, same⟩
    cases failure with
    | some failed => cases same
    | none =>
        simp only at same
        split at same
        · cases same
        · obtain rfl := Outcome.ok.inj same
          exact ⟨decoded, by assumption⟩
  · rintro ⟨decoded, ends⟩
    exact ⟨_, decoded, by simp only [ends, pure]⟩

theorem fallsInto_append {l₁ l₂ : List (Asm.Instr × Bytes)} {stop : SegOff}
    (ends : fallsInto cfg (l₁ ++ l₂) stop = none) : fallsInto cfg l₂ stop = none := by
  unfold fallsInto at ends ⊢
  rw [List.getLast?_append] at ends
  cases last : l₂.getLast? with
  | none => cases cfg.dataRegionContaining stop <;> rfl
  | some pair => rwa [last, Option.some_or] at ends

/-- The chunks decode to their instructions one after another. -/
theorem decodeChunks_eq_ok {chunks : List (SegOff × SegOff)} {l : List (Asm.Instr × Bytes)} :
    decodeChunks binary cfg chunks = .ok l ↔
      ∃ parts, List.Forall₂ (fun chunk part => ChunkDecodes binary cfg chunk.1 chunk.2 part) chunks parts ∧
        l = parts.flatten := by
  induction chunks generalizing l with
  | nil =>
      simp only [decodeChunks, List.forall₂_nil_left_iff, exists_eq_left, List.flatten_nil]
      exact ⟨fun same => (Outcome.ok.inj same).symm, fun same => same ▸ rfl⟩
  | cons chunk chunks hypothesis =>
      simp only [decodeChunks, Outcome.bind_eq_ok, decodeChunk_eq_ok, hypothesis]
      constructor
      · rintro ⟨first, decodes, later, ⟨parts, others, rfl⟩, same⟩
        obtain rfl := Outcome.ok.inj same
        exact ⟨first :: parts, .cons decodes others, rfl⟩
      · rintro ⟨parts, decodes, rfl⟩
        cases decodes with
        | cons first others => exact ⟨_, first, _, ⟨_, others, rfl⟩, rfl⟩

theorem checkTargets_eq_ok {l : List (Asm.Instr × Bytes)} :
    checkTargets cfg l = .ok () ↔ ∀ pair ∈ l, targetData cfg pair.1 = none := by
  induction l with
  | nil => exact iff_of_true rfl (by simp)
  | cons pair l hypothesis =>
      rw [checkTargets, List.forall_mem_cons, ← hypothesis]
      cases targetData cfg pair.1 <;> simp

/-- The regions of a function decode when every chunk decodes to instructions that do not go into
declared data. -/
theorem decodeRegions_ok_iff {spec : Spec} {entry : FuncRegion}
    (free : cfg.dataRegionContaining spec.start = none)
    (found : (cfg.codeRegions spec.regions).find? (fun region => region.contains spec.start) =
      some entry) :
    (∃ l, decodeRegions binary cfg spec = .ok l) ↔
      ∀ chunk ∈ entryChunks entry spec.start ++ otherChunks (cfg.codeRegions spec.regions) entry,
        ∃ l, ChunkDecodes binary cfg chunk.1 chunk.2 l ∧ ∀ pair ∈ l, targetData cfg pair.1 = none := by
  simp only [decodeRegions, free, found, Outcome.bind_eq_ok, decodeChunks_eq_ok]
  constructor
  · rintro ⟨_, _, ⟨parts, decodes, rfl⟩, _, checked, _⟩ chunk member
    obtain ⟨i, inside, rfl⟩ := List.getElem_of_mem member
    have part_inside : i < parts.length := decodes.length_eq ▸ inside
    refine ⟨parts[i], (List.forall₂_iff_get.mp decodes).2 i inside part_inside, fun pair held => ?_⟩
    exact checkTargets_eq_ok.mp checked pair (List.mem_flatten.mpr ⟨_, List.getElem_mem _, held⟩)
  · intro each
    choose! part decodes free using each
    refine ⟨_, _, ⟨_, List.forall₂_map_right_iff.mpr (List.forall₂_same.mpr decodes), rfl⟩, (),
      checkTargets_eq_ok.mpr fun pair held => ?_, rfl⟩
    obtain ⟨_, listed, inside⟩ := List.mem_flatten.mp held
    obtain ⟨chunk, member, rfl⟩ := List.mem_map.mp listed
    exact free chunk member pair inside

end

/-- The code region that holds the start of a function is decoded from its own beginning, and its
instructions come to the start. -/
def StartsInstruction (binary : Binary) (cfg : Config) (func : Func) : Prop :=
  ∃ entry bin, (cfg.codeRegions func.effectiveRegions).find? (fun region => region.contains func.start) =
      some entry ∧
    binary.regionIter entry.start entry.stop = (.ok bin : Outcome DecodeFailure _) ∧
    bin.Reaches func.start

end Dis86
