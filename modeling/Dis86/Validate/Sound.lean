import Dis86.Spec.Regions
import Dis86.Validate.Function

namespace Dis86.Validate
open Asm (SegOff Bytes RegionIter Decodes linearDecode directTarget branchTarget branchDestination)
open Lib (Outcome)

section Reports

@[simp] theorem hasErrors_nil : Report.hasErrors [] = false := rfl

@[simp] theorem hasErrors_append (a b : Report) :
    Report.hasErrors (a ++ b) = (a.hasErrors || b.hasErrors) := List.any_append

@[simp] theorem hasErrors_error (func : Func) (addr : SegOff) (message : Message) :
    Report.hasErrors [error func addr message] = true := rfl

@[simp] theorem hasErrors_warning (func : Func) (addr : SegOff) (message : Message) :
    Report.hasErrors [warning func addr message] = false := rfl

theorem hasErrors_flatMap {A : Type} {l : List A} {f : A → Report}
    (clean : Report.hasErrors (l.flatMap f) = false) : ∀ a ∈ l, (f a).hasErrors = false := by
  intro a member
  simp only [Report.hasErrors, List.any_flatMap, List.any_eq_false] at clean ⊢
  simpa using clean a member

end Reports

variable {cfg : Config} {binary : Binary} {func : Func}

/-- What a decoding is does not depend on who asks for it. -/
theorem linearDecode_transfer {E F : Type} {start stop : SegOff} {l : List (Asm.Instr × Bytes)}
    (decoded : linearDecode binary.toBinary start stop = (.ok (l, none) : Outcome E _)) :
    linearDecode binary.toBinary start stop = (.ok (l, none) : Outcome F _) := by
  obtain ⟨bin, made, decodes⟩ := linearDecode_eq_ok.mp decoded
  exact linearDecode_eq_ok.mpr ⟨bin, Asm.regionIter_transfer made, decodes⟩

theorem firstUndecodable_none {regions : List FuncRegion}
    (formed : ∀ region ∈ regions, region.start.seg = region.stop.seg ∧
      region.start.off.toNat < region.stop.off.toNat)
    (passed : firstUndecodable binary regions = .ok none) :
    ∀ region ∈ regions, ∃ l,
      linearDecode binary.toBinary region.start region.stop = (.ok (l, none) : Outcome Empty _) := by
  induction regions with
  | nil => nofun
  | cons region regions hypothesis =>
      obtain ⟨gap, probed, passed⟩ := Outcome.bind_eq_ok.mp passed
      cases gap with
      | some gap => cases passed
      | none =>
          refine List.forall_mem_cons.mpr ⟨?_, hypothesis (fun region member =>
            formed region (List.mem_cons_of_mem _ member)) passed⟩
          obtain ⟨seg, less⟩ := formed region List.mem_cons_self
          unfold firstUndecodableAddr at probed
          split at probed
          · rename_i empty
            rcases empty with apart | empty
            · exact absurd seg apart
            · have le := (le_iff_off seg.symm).mp empty
              omega
          · obtain ⟨⟨l, failure⟩, decoded, same⟩ := Outcome.bind_eq_ok.mp probed
            cases failure with
            | some failed => simp [pure] at same
            | none => exact ⟨l, decoded⟩

theorem firstDataFallthrough_none {regions : List FuncRegion}
    (passed : firstDataFallthrough cfg binary regions = .ok none) :
    ∀ region ∈ regions, ∀ l,
      linearDecode binary.toBinary region.start region.stop = (.ok (l, none) : Outcome Empty _) →
        fallsInto cfg l region.stop = none := by
  induction regions with
  | nil => nofun
  | cons region regions hypothesis =>
      rw [firstDataFallthrough] at passed
      cases data : cfg.dataRegionContaining region.stop with
      | none =>
          rw [data] at passed
          refine List.forall_mem_cons.mpr ⟨fun l _ => ?_, hypothesis passed⟩
          simp [fallsInto, data]
      | some data =>
          rw [data] at passed
          obtain ⟨⟨found, failure⟩, decoded, passed⟩ := Outcome.bind_eq_ok.mp passed
          have skipped : firstDataFallthrough cfg binary regions = .ok none ∧
              (failure = none → fallsInto cfg found region.stop = none) := by
            simp only at passed
            split at passed
            · rename_i last raw _ ended
              split at passed
              · cases passed
              · rename_i stays
                exact ⟨passed, fun _ => by simp [fallsInto, data, ended, stays]⟩
            · rename_i other
              refine ⟨passed, fun whole => ?_⟩
              cases ended : found.getLast? with
              | none => simp [fallsInto, data, ended]
              | some pair => exact absurd ended (other pair.1 pair.2 whole)
          refine List.forall_mem_cons.mpr ⟨fun l decoded' => ?_, hypothesis skipped.1⟩
          rw [decoded] at decoded'
          obtain ⟨rfl, rfl⟩ := Prod.mk.inj (Outcome.ok.inj decoded')
          exact skipped.2 rfl

theorem branchDiagnostic_clean {codeRegions : List FuncRegion} {addr target : SegOff}
    {intoData : SegOff → TextSectionRegion → Message} {outside : SegOff → SegOff → Message}
    (clean : (branchDiagnostic cfg func codeRegions addr target intoData outside).hasErrors = false) :
    cfg.dataRegionContaining target = none := by
  unfold branchDiagnostic at clean
  split at clean
  · simp at clean
  · assumption

/-- The validator and the decoder look at the same targets. -/
theorem targetDiagnostics_clean {codeRegions : List FuncRegion} {ins : Asm.Instr}
    (clean : (targetDiagnostics cfg func codeRegions ins).hasErrors = false) :
    targetData cfg ins = none := by
  unfold targetDiagnostics at clean
  split at clean
  · simp at clean
  · rename_i uncalled
    refine Decidable.byCases (ite_eq_right_iff.mp uncalled) fun other => ?_
    have direct : directTarget ins = branchDestination ins := if_neg other
    rw [targetData, direct, branchDestination]
    cases branch : branchTarget ins with
    | none => rfl
    | some target =>
        rw [branch] at clean
        cases target with
        | relative target fallthrough => exact branchDiagnostic_clean clean
        | unresolved kind =>
            cases kind with
            | farDirect seg off => exact branchDiagnostic_clean clean
            | farIndirect => rfl
            | nearIndirect => rfl

theorem validateBranchTargets_clean {codeRegions regions : List FuncRegion} {report : Report}
    (made : validateBranchTargets cfg binary func codeRegions regions = .ok report)
    (clean : report.hasErrors = false) :
    ∀ region ∈ regions, ∀ l failure,
      linearDecode binary.toBinary region.start region.stop = (.ok (l, failure) : Outcome Empty _) →
        ∀ pair ∈ l, targetData cfg pair.1 = none := by
  induction regions generalizing report with
  | nil => nofun
  | cons region regions hypothesis =>
      obtain ⟨⟨found, failed⟩, decoded, made⟩ := Outcome.bind_eq_ok.mp made
      obtain ⟨others, made', same⟩ := Outcome.bind_eq_ok.mp made
      obtain rfl := Outcome.ok.inj same
      rw [hasErrors_append, Bool.or_eq_false_iff] at clean
      refine List.forall_mem_cons.mpr ⟨fun l failure decoded' pair member => ?_, hypothesis made' clean.2⟩
      rw [decoded] at decoded'
      obtain ⟨rfl, rfl⟩ := Prod.mk.inj (Outcome.ok.inj decoded')
      exact targetDiagnostics_clean (hasErrors_flatMap clean.1 pair member)

/-- What the decoding of a function needs. -/
structure Checked (binary : Binary) (cfg : Config) (func : Func) : Prop where
  free : cfg.dataRegionContaining func.start = none
  inside : ∃ region ∈ func.effectiveRegions, region.contains func.start = true
  decodes : ∀ code ∈ cfg.codeRegions func.effectiveRegions, ∃ l,
    ChunkDecodes binary cfg code.start code.stop l ∧ ∀ pair ∈ l, targetData cfg pair.1 = none

theorem checked_of_validateBody {localIndirects : Bool} {codeSeg : Mz.CodeSegment} {stop : SegOff}
    {report : Report}
    (made : validateBody cfg binary func localIndirects codeSeg stop = .ok report)
    (clean : report.hasErrors = false) :
    ∀ code ∈ cfg.codeRegions func.effectiveRegions, ∃ l,
      ChunkDecodes binary cfg code.start code.stop l ∧ ∀ pair ∈ l, targetData cfg pair.1 = none := by
  obtain ⟨undecodable, probed, made⟩ := Outcome.bind_eq_ok.mp made
  cases undecodable with
  | some found =>
      obtain rfl := Outcome.ok.inj made
      simp at clean
  | none =>
      obtain ⟨falls, followed, made⟩ := Outcome.bind_eq_ok.mp made
      cases falls with
      | some found =>
          obtain rfl := Outcome.ok.inj made
          simp at clean
      | none =>
          obtain ⟨targets, checked, made⟩ := Outcome.bind_eq_ok.mp made
          obtain ⟨modes, _, made⟩ := Outcome.bind_eq_ok.mp made
          obtain rfl := Outcome.ok.inj made
          simp only [hasErrors_append, Bool.or_eq_false_iff] at clean
          intro code member
          obtain ⟨l, decoded⟩ := firstUndecodable_none
            (fun region member => Config.codeRegions_formed member) probed code member
          refine ⟨l, ⟨linearDecode_transfer decoded, ?_⟩, ?_⟩
          · exact firstDataFallthrough_none followed code member l decoded
          · exact validateBranchTargets_clean checked clean.1.2 code member l none decoded

/-- All of a report are errors. -/
def Errors (report : Report) : Prop := ∀ diagnostic ∈ report, diagnostic.severity = .error

theorem Errors.nil : Errors [] := fun _ member => absurd member List.not_mem_nil

theorem Errors.append {a b : Report} (first : Errors a) (second : Errors b) : Errors (a ++ b) :=
  List.forall_mem_append.mpr ⟨first, second⟩

theorem Errors.flatMap {A : Type} {l : List A} {f : A → Report} (each : ∀ a, Errors (f a)) :
    Errors (l.flatMap f) := by
  intro diagnostic member
  obtain ⟨a, _, inside⟩ := List.mem_flatMap.mp member
  exact each a diagnostic inside

theorem Errors.eq_nil {report : Report} (errors : Errors report) (clean : report.hasErrors = false) :
    report = [] := by
  refine List.eq_nil_iff_forall_not_mem.mpr fun diagnostic member => ?_
  have wrong := List.any_eq_false.mp clean diagnostic member
  exact wrong (decide_eq_true (errors diagnostic member))

theorem errors_errorIf (bad : Bool) (addr : SegOff) (message : Message) :
    Errors (errorIf func bad addr message) := by
  intro diagnostic member
  unfold errorIf at member
  split at member
  · obtain rfl := List.mem_singleton.mp member
    rfl
  · cases member

@[simp] theorem errorIf_eq_nil {bad : Bool} {addr : SegOff} {message : Message} :
    errorIf func bad addr message = [] ↔ bad = false := by
  cases bad <;> simp [errorIf]

theorem errors_dataDiagnostics : Errors (dataDiagnostics cfg func) := by
  refine Errors.append (fun diagnostic member => ?_) (errors_errorIf _ _ _)
  obtain ⟨_, _, rfl⟩ := List.mem_map.mp member
  rfl

theorem errors_regionDiagnostics (segment : FuncRegion) (previous : Option FuncRegion)
    (region : FuncRegion) : Errors (regionDiagnostics binary func segment previous region) := by
  refine Errors.append (.append (.append (.append (.append ?_ ?_) ?_) ?_) ?_) ?_
  · exact errors_errorIf _ _ _
  · exact errors_errorIf _ _ _
  · exact .flatMap fun _ => errors_errorIf _ _ _
  · exact errors_errorIf _ _ _
  · exact errors_errorIf _ _ _
  · exact .flatMap fun _ => errors_errorIf _ _ _

theorem errors_sortedDiagnostics (segment : FuncRegion) (previous : Option FuncRegion)
    (regions : List FuncRegion) : Errors (sortedDiagnostics binary func segment previous regions) := by
  induction regions generalizing previous with
  | nil =>
      rw [sortedDiagnostics]
      exact .nil
  | cons region regions hypothesis =>
      rw [sortedDiagnostics]
      exact (errors_regionDiagnostics segment previous region).append (hypothesis (some region))

theorem errors_regionsDiagnostics (segment : FuncRegion) :
    Errors (regionsDiagnostics binary func segment) := by
  unfold regionsDiagnostics
  split
  · exact .nil
  · exact (errors_sortedDiagnostics _ _ _).append (errors_errorIf _ _ _)

theorem validateRanges_clean {localIndirects : Bool} {codeSeg : Mz.CodeSegment} {segment : FuncRegion}
    {stop : SegOff} {report : Report}
    (made : validateRanges cfg binary func localIndirects codeSeg segment stop = .ok report)
    (clean : report.hasErrors = false) :
    cfg.dataRegionContaining func.start = none ∧
      (func.regions = [] ∨ ∃ region ∈ func.regions, region.contains func.start = true) ∧
      ∃ body, validateBody cfg binary func localIndirects codeSeg stop = .ok body ∧
        body.hasErrors = false := by
  unfold validateRanges at made
  simp only at made
  split at made
  · obtain rfl := Outcome.ok.inj made
    simp at clean
  · split at made
    · obtain rfl := Outcome.ok.inj made
      simp at clean
    · split at made
      · obtain rfl := Outcome.ok.inj made
        simp at clean
      · have ranges : ∀ body : Report, (dataDiagnostics cfg func ++
            regionsDiagnostics binary func segment ++ body).hasErrors = false →
            dataDiagnostics cfg func = [] ∧ regionsDiagnostics binary func segment = [] := by
          intro body clean
          simp only [hasErrors_append, Bool.or_eq_false_iff] at clean
          exact ⟨errors_dataDiagnostics.eq_nil clean.1.1,
            (errors_regionsDiagnostics segment).eq_nil clean.1.2⟩
        split at made
        · rename_i wrong
          obtain rfl := Outcome.ok.inj made
          have nothing := ranges [] (by rwa [List.append_nil])
          simp [nothing] at wrong
        · obtain ⟨body, ran, made⟩ := Outcome.bind_eq_ok.mp made
          obtain rfl := Outcome.ok.inj made
          obtain ⟨no_data, no_region⟩ := ranges body clean
          rw [hasErrors_append, Bool.or_eq_false_iff] at clean
          refine ⟨?_, ?_, body, ran, clean.2⟩
          · have free := errorIf_eq_nil.mp (List.append_eq_nil_iff.mp no_data).2
            simpa using free
          · by_cases whole : func.regions = []
            · exact .inl whole
            · rw [regionsDiagnostics, if_neg whole] at no_region
              have inside := errorIf_eq_nil.mp (List.append_eq_nil_iff.mp no_region).2
              rw [Bool.not_eq_false', List.any_eq_true] at inside
              exact .inr inside

theorem effectiveRegions_start {stop : SegOff} (whole : func.regions = []) (known : func.stop = some stop)
    (seg : func.start.seg = stop.seg) (order : stop.le func.start = false) :
    ∃ region ∈ func.effectiveRegions, region.contains func.start = true := by
  rw [Func.effectiveRegions, if_pos whole, known]
  refine ⟨_, List.mem_singleton_self _, (FuncRegion.contains_iff _ _).mpr ⟨rfl, le_rfl, ?_⟩⟩
  by_contra beyond
  have le := (le_iff_off seg.symm).mpr (Nat.le_of_not_lt beyond)
  rw [le] at order
  cases order

theorem validateFunction_clean {localIndirects : Bool} {report : Report}
    (made : validateFunction cfg binary func localIndirects = .ok report)
    (clean : report.hasErrors = false) : Checked binary cfg func := by
  unfold validateFunction at made
  split at made
  · obtain rfl := Outcome.ok.inj made
    simp at clean
  · rename_i stop known
    split at made
    · obtain rfl := Outcome.ok.inj made
      simp at clean
    · rename_i seg
      split at made
      · obtain rfl := Outcome.ok.inj made
        simp at clean
      · rename_i order
        simp only at made
        split at made
        · obtain rfl := Outcome.ok.inj made
          simp at clean
        · cases made
        · split at made
          · obtain ⟨ranges, ran, made⟩ := Outcome.bind_eq_ok.mp made
            obtain rfl := Outcome.ok.inj made
            rw [hasErrors_append, Bool.or_eq_false_iff] at clean
            obtain ⟨free, held, body, validated, body_clean⟩ := validateRanges_clean ran clean.2
            refine ⟨free, ?_, checked_of_validateBody validated body_clean⟩
            rcases held with whole | held
            · refine effectiveRegions_start whole ?_ (not_not.mp seg) (Bool.eq_false_iff.mpr order)
              rw [whole] at known
              exact (Option.or_none ▸ known :)
            · exact Func.effectiveRegions_contains held
          · cases made

namespace Checked

variable (checked : Checked binary cfg func)
include checked

/-- A function that was validated has a specification. -/
theorem fromFunc {E : Type} : ∃ stop, Spec.fromFunc func =
    (.ok ⟨some func, func.name, func.start, stop, func.effectiveRegions⟩ : Outcome E _) := by
  obtain ⟨region, member, _⟩ := checked.inside
  have last := List.getLast?_eq_getLast_of_ne_nil (List.ne_nil_of_mem member)
  rw [Spec.fromFunc, last]
  cases func.stop with
  | some stop => exact ⟨stop, rfl⟩
  | none => exact ⟨_, rfl⟩

/-- The start of a function that was validated lies in a code region. -/
theorem entry : ∃ entry,
    (cfg.codeRegions func.effectiveRegions).find? (fun region => region.contains func.start) =
      some entry := by
  obtain ⟨code, member, contains⟩ := Config.codeRegions_contains checked.inside checked.free
  exact Option.isSome_iff_exists.mp (List.find?_isSome.mpr ⟨code, member, contains⟩)

/-- The two chunks of the region of the entry decode just when its instructions come to the start. -/
theorem entryChunks_iff {entry : FuncRegion}
    (found : (cfg.codeRegions func.effectiveRegions).find? (fun region => region.contains func.start) =
      some entry) :
    (∀ chunk ∈ entryChunks entry func.start, ∃ l, ChunkDecodes binary cfg chunk.1 chunk.2 l ∧
        ∀ pair ∈ l, targetData cfg pair.1 = none) ↔ StartsInstruction binary cfg func := by
  obtain ⟨l, whole, untargeted⟩ := checked.decodes entry (List.mem_of_find?_eq_some found)
  obtain ⟨bin, made, decodes⟩ := linearDecode_eq_ok.mp whole.decoded
  have contains := List.find?_some found
  obtain ⟨seg, low, high⟩ := (FuncRegion.contains_iff _ _).mp contains
  obtain ⟨part, tail, part_made, tail_made, cut, place⟩ := Asm.regionIter_cut made seg low high.le
  have starts : StartsInstruction binary cfg func ↔ bin.Reaches func.start := by
    refine ⟨?_, fun reaches => ⟨entry, bin, found, made, reaches⟩⟩
    rintro ⟨other, bin', found', made', reaches⟩
    obtain rfl := Option.some.inj (found.symm.trans found')
    obtain rfl := Outcome.ok.inj (made.symm.trans made')
    exact reaches
  rw [starts, ← cut.decodes_part_iff decodes place]
  constructor
  · intro each
    by_cases inside : entry.start.lt func.start
    · obtain ⟨l₁, beginning, _⟩ := each (entry.start, func.start) (by simp [entryChunks, inside])
      obtain ⟨part', part_made', decodes_part⟩ := linearDecode_eq_ok.mp beginning.decoded
      obtain rfl := Outcome.ok.inj (part_made.symm.trans part_made')
      exact ⟨l₁, decodes_part⟩
    · have le : func.start.off.toNat ≤ entry.start.off.toNat := by
        rw [lt_iff_rankOf, not_lt, rankOf_le_iff seg] at inside
        exact inside
      refine ⟨[], .done ?_⟩
      rw [cut.part_rest, Nat.sub_eq_zero_of_le le]
      rfl
  · rintro ⟨l₁, decodes_part⟩
    obtain ⟨l₂, decodes_tail, rfl⟩ := cut.decodes_tail decodes decodes_part
    have first : ∃ l, ChunkDecodes binary cfg func.start entry.stop l ∧
        ∀ pair ∈ l, targetData cfg pair.1 = none :=
      ⟨l₂, ⟨linearDecode_eq_ok.mpr ⟨tail, tail_made, decodes_tail⟩, fallsInto_append whole.ends⟩,
        (List.forall_mem_append.mp untargeted).2⟩
    have second : ∃ l, ChunkDecodes binary cfg entry.start func.start l ∧
        ∀ pair ∈ l, targetData cfg pair.1 = none := by
      refine ⟨l₁, ⟨linearDecode_eq_ok.mpr ⟨part, part_made, decodes_part⟩, ?_⟩,
        (List.forall_mem_append.mp untargeted).1⟩
      simp [fallsInto, checked.free]
    unfold entryChunks
    refine List.forall_mem_cons.mpr ⟨first, ?_⟩
    split
    · exact List.forall_mem_singleton.mpr second
    · exact List.forall_mem_nil _

/-- A function that was validated decodes just when its code region comes to its start. -/
theorem decodeRegions_iff : (∃ spec l, Spec.fromFunc func = (.ok spec : Outcome DecodeFailure _) ∧
    decodeRegions binary cfg spec = .ok l) ↔ StartsInstruction binary cfg func := by
  obtain ⟨stop, made⟩ := checked.fromFunc (E := DecodeFailure)
  obtain ⟨entry, found⟩ := checked.entry
  rw [← checked.entryChunks_iff found, made]
  have others : ∀ chunk ∈ otherChunks (cfg.codeRegions func.effectiveRegions) entry, ∃ l,
      ChunkDecodes binary cfg chunk.1 chunk.2 l ∧ ∀ pair ∈ l, targetData cfg pair.1 = none := by
    intro chunk member
    obtain ⟨code, listed, rfl⟩ := List.mem_map.mp member
    rw [FuncRegion.sort, (List.perm_insertionSort _ _).mem_iff] at listed
    exact checked.decodes code (List.mem_filter.mp listed).1
  have ok : (∃ l, decodeRegions binary cfg
      ⟨some func, func.name, func.start, stop, func.effectiveRegions⟩ = .ok l) ↔ _ :=
    decodeRegions_ok_iff checked.free found
  constructor
  · rintro ⟨spec, l, same, ran⟩
    obtain rfl := Outcome.ok.inj same
    exact fun chunk member => ok.mp ⟨l, ran⟩ chunk (List.mem_append_left _ member)
  · intro each
    obtain ⟨l, ran⟩ := ok.mpr (List.forall_mem_append.mpr ⟨each, others⟩)
    exact ⟨_, l, rfl, ran⟩

end Checked

/-- Without a reported error a function decodes just when the instructions of its code region come to
its start. -/
theorem validateFunction_sound_iff (cfg : Config) (binary : Binary) (func : Func)
    (localIndirects : Bool) (report : Report)
    (made : validateFunction cfg binary func localIndirects = .ok report)
    (clean : report.hasErrors = false) :
    (∃ spec l, Spec.fromFunc func = (.ok spec : Outcome DecodeFailure _) ∧
      decodeRegions binary cfg spec = .ok l) ↔ StartsInstruction binary cfg func :=
  (validateFunction_clean made clean).decodeRegions_iff

/-- A near function with one region of four bytes, which starts at the second of them. -/
def insideRegion : Func :=
  ⟨"inside", ⟨.normal 0, 1⟩, some ⟨.normal 0, 4⟩, none, .near, none, some 0, none, none, none, false,
    [⟨⟨.normal 0, 0⟩, ⟨.normal 0, 4⟩⟩]⟩

def oneSegment : Config := ⟨[⟨.normal 0, "main"⟩], [insideRegion], [], []⟩

/-- MOV AX,0x9090 and RET. -/
def moveBytes : Binary := ⟨⟨[0xb8, 0x90, 0x90, 0xc3], []⟩, none, none⟩

/-- Three times NOP, and RET. -/
def nopBytes : Binary := ⟨⟨[0x90, 0x90, 0x90, 0xc3], []⟩, none, none⟩

theorem validateFunction_sound_nop : ∃ spec l,
    Spec.fromFunc insideRegion = (.ok spec : Outcome DecodeFailure _) ∧
      decodeRegions nopBytes oneSegment spec = .ok l := by
  have first : Asm.decodeOne ⟨[0x90, 0x90, 0x90, 0xc3], .normal 0, 0, 0⟩ =
      (.ok (some (⟨none, .NOP, [], ⟨.normal 0, 0⟩, 1, 0⟩, [0x90])),
        ⟨[0x90, 0x90, 0x90, 0xc3], .normal 0, 0, 1⟩) := by decide +kernel
  have starts : StartsInstruction nopBytes oneSegment insideRegion :=
    ⟨⟨⟨.normal 0, 0⟩, ⟨.normal 0, 4⟩⟩, _, by decide +kernel, rfl, .next first (.here rfl)⟩
  exact (validateFunction_sound_iff oneSegment nopBytes insideRegion true [] (by decide +kernel)
    rfl).mpr starts

/-- A function that starts inside the immediate value of a MOV passes the validation, and the MOV is
cut off when it is decoded. -/
theorem validateFunction_misses_cut : ¬ ∀ (cfg : Config) (binary : Binary) (func : Func)
    (localIndirects : Bool) (report : Report),
    validateFunction cfg binary func localIndirects = .ok report → report.hasErrors = false →
      ∃ spec l, Spec.fromFunc func = (.ok spec : Outcome DecodeFailure _) ∧
        decodeRegions binary cfg spec = .ok l := by
  intro sound
  obtain ⟨spec, l, made, decoded⟩ :=
    sound oneSegment moveBytes insideRegion true [] (by decide +kernel) rfl
  have spec_eq : spec = ⟨some insideRegion, "inside", ⟨.normal 0, 1⟩, ⟨.normal 0, 4⟩,
      [⟨⟨.normal 0, 0⟩, ⟨.normal 0, 4⟩⟩]⟩ := (Outcome.ok.inj made).symm
  have failed : decodeRegions moveBytes oneSegment spec = .err ⟨⟨.normal 0, 0⟩, .decodeError,
      .decodeFailed ⟨.normal 0, 0⟩ ⟨.normal 0, 1⟩ .beyondRegion⟩ := by
    rw [spec_eq]
    decide +kernel
  rw [failed] at decoded
  cases decoded

end Dis86.Validate
