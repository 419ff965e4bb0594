import Dis86.Hydra.Snapshot

namespace Dis86.Hydra
open Lib

/-- A short run of bits is altered beside the field of the checksum. -/
structure Burst (start n : Nat) (file file' : List U8) : Prop where
  short : n ≤ 32
  changed : file ≠ file'
  agree : Crc.AgreeOutside start n (Crc.bytesBits file) (Crc.bytesBits file')
  beside : start + n ≤ 8 * 0x38 ∨ 8 * 0x3c ≤ start

namespace Burst

variable {start n : Nat} {file file' : List U8}

theorem length (burst : Burst start n file file') : file.length = file'.length := by
  have bits := burst.agree.length
  rw [Crc.bytesBits_length, Crc.bytesBits_length] at bits
  omega

/-- The bytes of the field stay. -/
theorem field (burst : Burst start n file file') (i : Nat) (low : 0x38 ≤ i) (high : i < 0x3c) :
    file[i]? = file'[i]? := by
  apply Crc.getElem?_of_bits
  intro j inside
  rcases burst.beside with early | late
  · exact burst.agree.after _ (by omega)
  · exact burst.agree.before _ (by omega)

theorem crc_field (burst : Burst start n file file') :
    hydsnapGet32 (file.take hydsnapHdrLen) 0x38 = hydsnapGet32 (file'.take hydsnapHdrLen) 0x38 := by
  have same (i : Nat) (low : 0x38 ≤ i) (high : i < 0x3c) :
      peek (file.take hydsnapHdrLen) i = peek (file'.take hydsnapHdrLen) i := by
    unfold peek hydsnapHdrLen
    rw [List.getD_eq_getElem?_getD, List.getD_eq_getElem?_getD, List.getElem?_take_of_lt (by omega),
      List.getElem?_take_of_lt (by omega), burst.field i low high]
  unfold hydsnapGet32
  rw [same 0x38 (by decide) (by decide), same (0x38 + 1) (by decide) (by decide),
    same (0x38 + 2) (by decide) (by decide), same (0x38 + 3) (by decide) (by decide)]

theorem consumed_ne (burst : Burst start n file file') :
    consumed file ≠ consumed file' := by
  intro same
  have parts (f : List U8) : f = f.take 0x38 ++ ((f.drop 0x38).take 4 ++ f.drop 0x3c) := by
    rw [show f.drop 0x3c = (f.drop 0x38).drop 4 by rw [List.drop_drop], List.take_append_drop,
      List.take_append_drop]
  have heads : (file.take 0x38 ++ [0, 0, 0, 0]).length = (file'.take 0x38 ++ [0, 0, 0, 0]).length := by
    simp [burst.length]
  have split := List.append_inj same heads
  have middle : (file.drop 0x38).take 4 = (file'.drop 0x38).take 4 := by
    apply List.ext_getElem?
    intro i
    by_cases inside : i < 4
    · rw [List.getElem?_take_of_lt inside, List.getElem?_take_of_lt inside, List.getElem?_drop,
        List.getElem?_drop, burst.field _ (by omega) (by omega)]
    · simp [inside]
  apply burst.changed
  rw [parts file, parts file', List.append_cancel_right split.1, middle, split.2]

theorem consumed_agree (burst : Burst start n file file') (long : 0x3c ≤ file.length) :
    Crc.AgreeOutside start n (Crc.bytesBits (consumed file)) (Crc.bytesBits (consumed file')) := by
  have bits (f : List U8) (room : 0x3c ≤ f.length) : Crc.bytesBits (consumed f) =
      (Crc.bytesBits f).take (8 * 0x38) ++ Crc.bytesBits [0, 0, 0, 0] ++
        (Crc.bytesBits f).drop (8 * 0x3c) := by
    rw [(Crc.bytesBits_cut f 0x38 (by omega)).1, (Crc.bytesBits_cut f 0x3c room).2,
      ← Crc.bytesBits_append, ← Crc.bytesBits_append]
    rfl
  rw [bits file long, bits file' (burst.length ▸ long)]
  apply burst.agree.replace _ (by rw [Crc.bytesBits_length]; rfl) (by decide) burst.beside
  rw [Crc.bytesBits_length]
  omega

/-- The checksum of the altered file is another one. -/
theorem crc_ne (burst : Burst start n file file') (long : hydsnapHdrLen ≤ file.length) :
    hydsnapCrc32Snapshot (file.take hydsnapHdrLen) (file.drop hydsnapHdrLen) ≠
      hydsnapCrc32Snapshot (file'.take hydsnapHdrLen) (file'.drop hydsnapHdrLen) := by
  have room : 0x3c ≤ file.length := Nat.le_trans (by decide) long
  have head (f : List U8) (same : f.length = file.length) :
      (f.take hydsnapHdrLen).length = hydsnapHdrLen := by
    rw [List.length_take]
    omega
  rw [hydsnapCrc32Snapshot_eq _ _ (head file rfl),
    hydsnapCrc32Snapshot_eq _ _ (head file' burst.length.symm), List.take_append_drop,
    List.take_append_drop]
  intro same
  exact Crc.foldl_feed_ne _ (by decide) burst.short (burst.consumed_agree room)
    (fun bits => burst.consumed_ne (Crc.bytesBits_injective bits)) (BitVec.not_inj.mp same)

end Burst

section
variable {ctx : HostCtx} {dr : Registers} {file : List U8}

@[simp] theorem window_length (mem : Lowmem) (n : Nat) : (mem.window n).length = n := by
  simp [Lowmem.window]

/-- A written file has a header of the fixed length and then the guest window. -/
theorem hostSnapshotWriteFile_eq (ctx : HostCtx) (dr : Registers) :
    ∃ crc, hostSnapshotWriteFile ctx dr =
        some (hydsnapPut32 (hydsnapHeader ctx dr) 0x38 crc ++ ctx.lm.window lowmemGuestSize) ∧
      hydsnapCrc32Snapshot (hydsnapPut32 (hydsnapHeader ctx dr) 0x38 crc)
        (ctx.lm.window lowmemGuestSize) = crc := by
  have room := ctx.connected
  refine ⟨_, ?_, hydsnapCrc32Snapshot_put32 _ _ _⟩
  simp only [hostSnapshotWriteFile]
  rw [if_neg (by omega)]

/-- What is known of a written file. -/
structure Written (ctx : HostCtx) (dr : Registers) (file : List U8) : Prop where
  length : file.length = hydsnapHdrLen + lowmemGuestSize
  header : ∃ crc, file.take hydsnapHdrLen = hydsnapPut32 (hydsnapHeader ctx dr) 0x38 crc
  blob : file.drop hydsnapHdrLen = ctx.lm.window lowmemGuestSize
  crc : hydsnapCrc32Snapshot (file.take hydsnapHdrLen) (file.drop hydsnapHdrLen) =
    hydsnapGet32 (file.take hydsnapHdrLen) 0x38

theorem Written.of_write (wrote : hostSnapshotWriteFile ctx dr = some file) :
    Written ctx dr file := by
  obtain ⟨crc, same, sound⟩ := hostSnapshotWriteFile_eq ctx dr
  have shape := Option.some.inj (wrote.symm.trans same)
  have length : (hydsnapPut32 (hydsnapHeader ctx dr) 0x38 crc).length = hydsnapHdrLen := by
    rw [hydsnapPut32_length, hydsnapHeader_length]
  refine ⟨?_, ⟨crc, ?_⟩, ?_, ?_⟩
  · rw [shape, List.length_append, length, window_length]
  · rw [shape, List.take_left' length]
  · rw [shape, List.drop_left' length]
  · rw [shape, List.take_left' length, List.drop_left' length, sound, header_crc]

namespace Written

theorem size (written : Written ctx dr file) :
    (hydsnapGet32 (file.take hydsnapHdrLen) 0x34).toNat = lowmemGuestSize := by
  obtain ⟨crc, head⟩ := written.header
  rw [head, header_guestSize]

theorem read (written : Written ctx dr file) :
    hostSnapshotReadFile file =
      some (file.take hydsnapHdrLen, ctx.lm.window lowmemGuestSize) := by
  have length := written.length
  have size := written.size
  have crc := written.crc
  obtain ⟨_, head⟩ := written.header
  rw [hostSnapshotReadFile_eq_some, size, written.blob]
  rw [written.blob] at crc
  refine ⟨by omega, rfl, ?_, ?_, by decide, by decide, ?_, window_length _ _, crc⟩
  · rw [head, header_magic]
  · rw [head, header_version]
  · rw [List.take_of_length_le (by rw [window_length])]

/-- A truncated file is rejected by the reads. -/
theorem truncated (written : Written ctx dr file) {k : Nat} (short : k < file.length) :
    hostSnapshotReadFile (file.take k) = none := by
  cases read : hostSnapshotReadFile (file.take k) with
  | none => rfl
  | some found =>
      obtain ⟨hdr, mem⟩ := found
      obtain ⟨long, rfl, _, _, _, _, rfl, full, _⟩ := hostSnapshotReadFile_eq_some.mp read
      rw [List.length_take] at long
      rw [List.take_take, Nat.min_eq_left (by omega), written.size] at full
      simp only [List.length_take, List.length_drop] at full
      have length := written.length
      omega

theorem burst (written : Written ctx dr file) {start n : Nat} {file' hdr mem : List U8}
    (burst : Burst start n file file') (read : hostSnapshotReadFile file' = some (hdr, mem)) :
    mem.length ≠ lowmemGuestSize := by
  intro whole
  obtain ⟨long, rfl, _, _, _, _, cut, full, sound⟩ := hostSnapshotReadFile_eq_some.mp read
  have length := written.length
  have same := burst.length
  have rest : mem = file'.drop hydsnapHdrLen := by
    rw [cut, List.take_of_length_le]
    rw [← full, whole, List.length_drop]
    omega
  apply burst.crc_ne (by omega)
  rw [written.crc, burst.crc_field, ← sound, rest]

end Written

end

/-- A written snapshot is restored as it was, and a truncated or altered one changes nothing. -/
theorem snapshot_faithful (writeRegs : DosdebugWriteRegs) (ctx : HostCtx) (dr : Registers) :
    ∃ file, hostSnapshotWriteFile ctx dr = some file ∧
      ((∀ dr live, writeRegs dr live = (true, dr)) →
        ∀ s : HostState, ∃ t, (hostStateRestore writeRegs file).run s = .ok () t ∧
        t.regs = dr ∧ t.ctx.mzPsp = ctx.mzPsp ∧ t.ctx.codeLoadOffset = ctx.codeLoadOffset ∧
        t.ctx.dataSectionSeg = ctx.dataSectionSeg ∧
        t.conf = ⟨ctx.codeLoadOffset, ctx.dataSectionSeg⟩ ∧
        ∀ i < lowmemGuestSize, t.ctx.lm.byte i = ctx.lm.byte i) ∧
      (∀ (s : HostState) (k : Nat), k < file.length →
        ∃ fail, (hostStateRestore writeRegs (file.take k)).run s = .error fail s) ∧
      ∀ (s : HostState) (start n : Nat) (file' : List U8), Burst start n file file' →
        ∃ fail, (hostStateRestore writeRegs file').run s = .error fail s := by
  obtain ⟨_, wrote, _⟩ := hostSnapshotWriteFile_eq ctx dr
  have written := Written.of_write wrote
  refine ⟨_, wrote, ?_, ?_, ?_⟩
  · intro writes s
    obtain ⟨_, head⟩ := written.header
    obtain ⟨t, ran, regs, psp, load, data, conf, lm⟩ :=
      hostStateRestore_some (s := s) writes written.read (window_length _ _)
    rw [head] at regs psp load data conf
    obtain ⟨samePsp, sameLoad, sameData⟩ := header_loader ctx dr _
    rw [header_regs] at regs
    rw [samePsp] at psp
    rw [sameLoad] at load conf
    rw [sameData] at data conf
    refine ⟨t, ran, regs, psp, load, data, conf, fun i inside => ?_⟩
    rw [lm]
    simp [Lowmem.copy, Lowmem.window, inside]
  · intro s k short
    exact ⟨_, hostStateRestore_none (written.truncated short)⟩
  · intro s start n file' burst
    cases read : hostSnapshotReadFile file' with
    | none => exact ⟨_, hostStateRestore_none read⟩
    | some found => exact ⟨_, hostStateRestore_size read (written.burst burst read)⟩

theorem snapshot_faithful_zero :
    ∃ file, hostSnapshotWriteFile
        ⟨⟨lowmemGuestSize, by decide, fun _ => 0⟩, Nat.le_refl _, 0x1000, 0x1010, 0x0200⟩
        Registers.zero = some file ∧
      ∀ s : HostState, ∃ t, (hostStateRestore (fun dr _ => (true, dr)) file).run s = .ok () t ∧
        t.ctx.codeLoadOffset = 0x1010 :=
  let ⟨file, wrote, restored, _, _⟩ := snapshot_faithful (fun dr _ => (true, dr))
    ⟨⟨lowmemGuestSize, by decide, fun _ => 0⟩, Nat.le_refl _, 0x1000, 0x1010, 0x0200⟩
    Registers.zero
  ⟨file, wrote, fun s =>
    let ⟨t, ran, _, _, load, _⟩ := restored (fun _ _ => rfl) s
    ⟨t, ran, load⟩⟩

end Dis86.Hydra
