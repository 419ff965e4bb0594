import Dis86.Hydra.Machine
import Dis86.Lib.Crc

namespace Dis86.Hydra
open Lib

def hydsnapMagic : List U8 := [0x48, 0x59, 0x44, 0x53, 0x4e, 0x41, 0x50, 0x00]

def hydsnapVersion : U32 := 1

def hydsnapHdrLen : Nat := 0x40

/-- The conventional memory is followed by the high memory area. -/
def lowmemGuestSize : Nat := 0x100000 + 0x10000

/-- Bytes are copied over the ones at an offset. -/
def poke (p : List U8) (off : Nat) (bytes : List U8) : List U8 :=
  p.take off ++ bytes ++ p.drop (off + bytes.length)

def peek (p : List U8) (off : Nat) : U8 := p.getD off 0

def hydsnapPut16 (p : List U8) (off : Nat) (v : U16) : List U8 :=
  (p.set off (v.setWidth 8)).set (off + 1) ((v >>> 8).setWidth 8)

def hydsnapPut32 (p : List U8) (off : Nat) (v : U32) : List U8 :=
  let p := (p.set off (v.setWidth 8)).set (off + 1) ((v >>> 8).setWidth 8)
  (p.set (off + 2) ((v >>> 16).setWidth 8)).set (off + 3) ((v >>> 24).setWidth 8)

def hydsnapGet16 (p : List U8) (off : Nat) : U16 :=
  (peek p off).setWidth 16 ||| (peek p (off + 1)).setWidth 16 <<< 8

def hydsnapGet32 (p : List U8) (off : Nat) : U32 :=
  (peek p off).setWidth 32 ||| (peek p (off + 1)).setWidth 32 <<< 8 |||
    (peek p (off + 2)).setWidth 32 <<< 16 ||| (peek p (off + 3)).setWidth 32 <<< 24

def crcPoly : U32 := 0xedb88320

def hydsnapCrc32Update (crc : U32) (data : List U8) : U32 :=
  data.foldl (fun crc byte => (Crc.step crcPoly)^[8] (crc ^^^ byte.setWidth 32)) crc

/-- The field of the checksum counts as zero. -/
def hydsnapCrc32Snapshot (hdr data : List U8) : U32 :=
  let crc := hydsnapCrc32Update 0xffffffff (poke hdr 0x38 [0, 0, 0, 0])
  ~~~ hydsnapCrc32Update crc data

def Registers.values (dr : Registers) : List U16 :=
  [dr.ax, dr.bx, dr.cx, dr.dx, dr.si, dr.di, dr.bp, dr.sp, dr.ip, dr.cs, dr.ds, dr.es, dr.ss,
    dr.flags]

def hydsnapFillRegrange (hdr : List U8) (dr : Registers) : List U8 :=
  dr.values.zipIdx.foldl (fun hdr v => hydsnapPut16 hdr (0x0c + 2 * v.2) v.1) hdr

def hydsnapReadRegrange (hdr : List U8) : Registers where
  ax := hydsnapGet16 hdr 0x0c
  bx := hydsnapGet16 hdr 0x0e
  cx := hydsnapGet16 hdr 0x10
  dx := hydsnapGet16 hdr 0x12
  si := hydsnapGet16 hdr 0x14
  di := hydsnapGet16 hdr 0x16
  bp := hydsnapGet16 hdr 0x18
  sp := hydsnapGet16 hdr 0x1a
  ip := hydsnapGet16 hdr 0x1c
  cs := hydsnapGet16 hdr 0x1e
  ds := hydsnapGet16 hdr 0x20
  es := hydsnapGet16 hdr 0x22
  ss := hydsnapGet16 hdr 0x24
  flags := hydsnapGet16 hdr 0x26

/-- A host connects only to a mapping that holds the whole guest window. -/
structure HostCtx where
  lm : Lowmem
  connected : lowmemGuestSize ≤ lm.size
  mzPsp : U16
  codeLoadOffset : U16
  dataSectionSeg : U16

/-- The parts of the configuration that follow the host's layout. -/
structure HydraConf where
  codeLoadOffset : U16
  dataSectionSeg : U16
deriving DecidableEq, Repr

/-- The guest's registers are reached through the debugger. -/
structure HostState where
  ctx : HostCtx
  regs : Registers
  conf : HydraConf
  datasectionBaseptr : Option U32

def Lowmem.window (mem : Lowmem) (n : Nat) : List U8 := (List.range n).map mem.byte

/-- Bytes are copied to the bottom of the memory. -/
def Lowmem.copy (mem : Lowmem) (bytes : List U8) : Lowmem :=
  { mem with byte := fun i => bytes.getD i (mem.byte i) }

def Lowmem.hostaddr (mem : Lowmem) (addr : U32) : Option U32 :=
  if addr.toNat < mem.size then some addr else none

/-- The header before its checksum is known. -/
def hydsnapHeader (ctx : HostCtx) (dr : Registers) : List U8 :=
  let hdr := poke (List.replicate hydsnapHdrLen 0) 0 hydsnapMagic
  let hdr := hydsnapPut32 hdr 0x08 hydsnapVersion
  let hdr := hydsnapFillRegrange hdr dr
  let hdr := hydsnapPut16 hdr 0x28 ctx.mzPsp
  let hdr := hydsnapPut16 hdr 0x2a ctx.codeLoadOffset
  let hdr := hydsnapPut16 hdr 0x2c ctx.dataSectionSeg
  hydsnapPut32 hdr 0x34 (.ofNat 32 lowmemGuestSize)

/-- The written bytes, when the file can be written at all. -/
def hostSnapshotWriteFile (ctx : HostCtx) (dr : Registers) : Option (List U8) :=
  let blob := lowmemGuestSize
  if ctx.lm.size < blob then none else
  let hdr := hydsnapHeader ctx dr
  let snap := ctx.lm.window blob
  some (hydsnapPut32 hdr 0x38 (hydsnapCrc32Snapshot hdr snap) ++ snap)

/-- The header and the blob of a file that is accepted. -/
def hostSnapshotReadFile (file : List U8) : Option (List U8 × List U8) :=
  let hdr := file.take hydsnapHdrLen
  if hdr.length ≠ hydsnapHdrLen then none
  else if hdr.take 8 ≠ hydsnapMagic ∨ hydsnapGet32 hdr 0x08 ≠ hydsnapVersion then none
  else
    let blob := (hydsnapGet32 hdr 0x34).toNat
    if blob = 0 ∨ blob > 2 * 1024 * 1024 then none
    else
      let mem := (file.drop hydsnapHdrLen).take blob
      if mem.length = blob ∧ hydsnapCrc32Snapshot hdr mem = hydsnapGet32 hdr 0x38 then
        some (hdr, mem)
      else none

inductive RestoreFail where
  | loadState
  | blobSize (size guest : Nat)
  | writeRegs
deriving DecidableEq, Repr

/-- A failing restore keeps the state that it has reached. -/
abbrev Restore := EStateM RestoreFail HostState

def hostSetCodeLoad (seg : U16) : Restore Unit :=
  modify fun s =>
    { s with
      ctx := { s.ctx with codeLoadOffset := seg }
      conf := ⟨seg, s.ctx.dataSectionSeg⟩
      datasectionBaseptr := s.ctx.lm.hostaddr ((seg + s.ctx.dataSectionSeg).setWidth 32 <<< 4) }

/-- The debugger gets the registers that are asked for and the ones that are live. -/
abbrev DosdebugWriteRegs := Registers → Registers → Bool × Registers

/-- This is the restore of the dedicated mode, which reads a file of this format. -/
def hostStateRestore (dosdebugWriteRegs : DosdebugWriteRegs) (file : List U8) :
    Restore Unit := do
  let some (hdr, blob) := hostSnapshotReadFile file | throw .loadState
  if blob.length ≠ lowmemGuestSize then throw (.blobSize blob.length lowmemGuestSize)
  modify fun s => { s with ctx := { s.ctx with lm := s.ctx.lm.copy blob } }
  let dr := hydsnapReadRegrange hdr
  let (written, live) := dosdebugWriteRegs dr (← get).regs
  modify fun s => { s with regs := live }
  if ¬ written then throw .writeRegs
  modify fun s => { s with ctx := { s.ctx with mzPsp := hydsnapGet16 hdr 0x28 } }
  modify fun s =>
    { s with
      ctx := { s.ctx with dataSectionSeg := hydsnapGet16 hdr 0x2c }
      conf := { s.conf with dataSectionSeg := hydsnapGet16 hdr 0x2c } }
  hostSetCodeLoad (hydsnapGet16 hdr 0x2a)

/-- A word is put together again from its bytes. -/
theorem join16 (v : U16) :
    (v.setWidth 8 : U8).setWidth 16 ||| ((v >>> 8).setWidth 8 : U8).setWidth 16 <<< 8 = v := by
  apply BitVec.eq_of_getLsbD_eq
  intro i inside
  by_cases low : i < 8
  · simp [inside, low]
  · simp [inside, low, show i - 8 < 8 by omega, show 8 + (i - 8) = i by omega]

theorem join32 (v : U32) :
    (v.setWidth 8 : U8).setWidth 32 ||| ((v >>> 8).setWidth 8 : U8).setWidth 32 <<< 8 |||
      ((v >>> 16).setWidth 8 : U8).setWidth 32 <<< 16 |||
      ((v >>> 24).setWidth 8 : U8).setWidth 32 <<< 24 = v := by
  apply BitVec.eq_of_getLsbD_eq
  intro i inside
  by_cases first : i < 8
  · simp [inside, first, show i < 16 by omega, show i < 24 by omega]
  by_cases second : i < 16
  · simp [inside, first, second, show i < 24 by omega, show i - 8 < 8 by omega,
      show 8 + (i - 8) = i by omega]
  by_cases third : i < 24
  · simp [inside, first, second, third, show ¬ i - 8 < 8 by omega, show i - 16 < 8 by omega,
      show 16 + (i - 16) = i by omega]
  · simp [inside, first, second, third, show ¬ i - 8 < 8 by omega, show ¬ i - 16 < 8 by omega,
      show i - 24 < 8 by omega, show 24 + (i - 24) = i by omega]

section
variable (p : List U8) (off other : Nat)

theorem peek_set {x : U8} (inside : off < p.length) :
    peek (p.set off x) other = if off = other then x else peek p other := by
  unfold peek
  rw [List.getD_eq_getElem?_getD, List.getD_eq_getElem?_getD, List.getElem?_set, if_pos inside]
  split <;> rfl

theorem peek_set_of_ne {x : U8} (ne : off ≠ other) : peek (p.set off x) other = peek p other := by
  unfold peek
  rw [List.getD_eq_getElem?_getD, List.getD_eq_getElem?_getD, List.getElem?_set_ne ne]

@[simp] theorem hydsnapPut16_length (v : U16) : (hydsnapPut16 p off v).length = p.length := by
  simp [hydsnapPut16]

@[simp] theorem hydsnapPut32_length (v : U32) : (hydsnapPut32 p off v).length = p.length := by
  simp [hydsnapPut32]

theorem peek_put16 {v : U16} (apart : other < off ∨ off + 2 ≤ other) :
    peek (hydsnapPut16 p off v) other = peek p other := by
  unfold hydsnapPut16
  rw [peek_set_of_ne _ _ _ (by omega), peek_set_of_ne _ _ _ (by omega)]

theorem peek_put32 {v : U32} (apart : other < off ∨ off + 4 ≤ other) :
    peek (hydsnapPut32 p off v) other = peek p other := by
  unfold hydsnapPut32
  rw [peek_set_of_ne _ _ _ (by omega), peek_set_of_ne _ _ _ (by omega),
    peek_set_of_ne _ _ _ (by omega), peek_set_of_ne _ _ _ (by omega)]

theorem get16_put16 {v : U16} (inside : off + 2 ≤ p.length) :
    hydsnapGet16 (hydsnapPut16 p off v) off = v := by
  unfold hydsnapGet16 hydsnapPut16
  rw [peek_set_of_ne _ _ _ (by omega), peek_set _ _ _ (by omega), if_pos rfl,
    peek_set _ _ _ (by rw [List.length_set]; omega), if_pos rfl]
  exact join16 v

theorem get32_put32 {v : U32} (inside : off + 4 ≤ p.length) :
    hydsnapGet32 (hydsnapPut32 p off v) off = v := by
  unfold hydsnapGet32 hydsnapPut32
  rw [peek_set_of_ne _ _ _ (by omega), peek_set_of_ne _ _ _ (by omega),
    peek_set_of_ne _ _ _ (by omega), peek_set _ _ _ (by omega), if_pos rfl,
    peek_set_of_ne _ _ _ (by omega), peek_set_of_ne _ _ _ (by omega),
    peek_set _ _ _ (by rw [List.length_set]; omega), if_pos rfl,
    peek_set_of_ne _ _ _ (by omega), peek_set _ _ _ (by simp only [List.length_set]; omega),
    if_pos rfl, peek_set _ _ _ (by simp only [List.length_set]; omega), if_pos rfl]
  exact join32 v

theorem get16_put16_apart {v : U16} (apart : other + 2 ≤ off ∨ off + 2 ≤ other) :
    hydsnapGet16 (hydsnapPut16 p off v) other = hydsnapGet16 p other := by
  unfold hydsnapGet16
  rw [peek_put16 _ _ _ (by omega), peek_put16 _ _ _ (by omega)]

theorem get16_put32_apart {v : U32} (apart : other + 2 ≤ off ∨ off + 4 ≤ other) :
    hydsnapGet16 (hydsnapPut32 p off v) other = hydsnapGet16 p other := by
  unfold hydsnapGet16
  rw [peek_put32 _ _ _ (by omega), peek_put32 _ _ _ (by omega)]

theorem get32_put16_apart {v : U16} (apart : other + 4 ≤ off ∨ off + 2 ≤ other) :
    hydsnapGet32 (hydsnapPut16 p off v) other = hydsnapGet32 p other := by
  unfold hydsnapGet32
  rw [peek_put16 _ _ _ (by omega), peek_put16 _ _ _ (by omega), peek_put16 _ _ _ (by omega),
    peek_put16 _ _ _ (by omega)]

theorem get32_put32_apart {v : U32} (apart : other + 4 ≤ off ∨ off + 4 ≤ other) :
    hydsnapGet32 (hydsnapPut32 p off v) other = hydsnapGet32 p other := by
  unfold hydsnapGet32
  rw [peek_put32 _ _ _ (by omega), peek_put32 _ _ _ (by omega), peek_put32 _ _ _ (by omega),
    peek_put32 _ _ _ (by omega)]

end

section
variable (ctx : HostCtx) (dr : Registers) (crc : U32)

theorem hydsnapHeader_length : (hydsnapHeader ctx dr).length = hydsnapHdrLen := by
  simp [hydsnapHeader, hydsnapFillRegrange, Registers.values, List.zipIdx, poke, hydsnapMagic,
    hydsnapHdrLen]

theorem header_regs :
    hydsnapReadRegrange (hydsnapPut32 (hydsnapHeader ctx dr) 0x38 crc) = dr := by
  cases dr
  simp [hydsnapReadRegrange, hydsnapHeader, hydsnapFillRegrange, Registers.values, List.zipIdx,
    poke, hydsnapMagic, hydsnapHdrLen, get16_put16, get16_put16_apart, get16_put32_apart]

theorem header_loader :
    hydsnapGet16 (hydsnapPut32 (hydsnapHeader ctx dr) 0x38 crc) 0x28 = ctx.mzPsp ∧
    hydsnapGet16 (hydsnapPut32 (hydsnapHeader ctx dr) 0x38 crc) 0x2a = ctx.codeLoadOffset ∧
    hydsnapGet16 (hydsnapPut32 (hydsnapHeader ctx dr) 0x38 crc) 0x2c = ctx.dataSectionSeg := by
  simp [hydsnapHeader, hydsnapFillRegrange, Registers.values, List.zipIdx, poke, hydsnapMagic,
    hydsnapHdrLen, get16_put16, get16_put16_apart, get16_put32_apart]

theorem header_magic : (hydsnapPut32 (hydsnapHeader ctx dr) 0x38 crc).take 8 = hydsnapMagic := by
  simp [hydsnapHeader, hydsnapFillRegrange, Registers.values, List.zipIdx, poke, hydsnapMagic,
    hydsnapHdrLen, hydsnapPut16, hydsnapPut32]

theorem header_version :
    hydsnapGet32 (hydsnapPut32 (hydsnapHeader ctx dr) 0x38 crc) 0x08 = hydsnapVersion := by
  simp [hydsnapHeader, hydsnapFillRegrange, Registers.values, List.zipIdx, poke, hydsnapMagic,
    hydsnapHdrLen, get32_put32, get32_put16_apart, get32_put32_apart]

theorem header_guestSize :
    (hydsnapGet32 (hydsnapPut32 (hydsnapHeader ctx dr) 0x38 crc) 0x34).toNat =
      lowmemGuestSize := by
  rw [get32_put32_apart _ _ _ (by decide), hydsnapHeader]
  rw [get32_put32 _ _ (by simp [hydsnapFillRegrange, Registers.values, List.zipIdx, poke,
    hydsnapMagic, hydsnapHdrLen])]
  rfl

theorem header_crc :
    hydsnapGet32 (hydsnapPut32 (hydsnapHeader ctx dr) 0x38 crc) 0x38 = crc :=
  get32_put32 _ _ (by rw [hydsnapHeader_length]; decide)

end

/-- The checksum feeds the bits of the header and of the blob. -/
theorem hydsnapCrc32Update_eq (crc : U32) (data : List U8) :
    hydsnapCrc32Update crc data = (Crc.bytesBits data).foldl (Crc.feed crcPoly) crc := by
  induction data generalizing crc with
  | nil => rfl
  | cons x data ih =>
      have entered := Crc.foldl_feed crcPoly crc (Crc.bitsOf x) (by simp)
      rw [Crc.word_bitsOf, Crc.bitsOf_length] at entered
      rw [Crc.bytesBits, List.flatMap_cons, List.foldl_append, entered]
      exact ih _

/-- The bytes that the checksum consumes. -/
def consumed (file : List U8) : List U8 := file.take 0x38 ++ [0, 0, 0, 0] ++ file.drop 0x3c

theorem hydsnapCrc32Snapshot_eq (hdr mem : List U8) (long : hdr.length = hydsnapHdrLen) :
    hydsnapCrc32Snapshot hdr mem =
      ~~~ (Crc.bytesBits (consumed (hdr ++ mem))).foldl (Crc.feed crcPoly) 0xffffffff := by
  have sizes : 0x38 ≤ hdr.length ∧ 0x3c ≤ hdr.length := by
    rw [long]
    decide
  have joined : consumed (hdr ++ mem) = poke hdr 0x38 [0, 0, 0, 0] ++ mem := by
    simp [consumed, poke, List.take_append_of_le_length sizes.1,
      List.drop_append_of_le_length sizes.2]
  rw [joined, Crc.bytesBits_append, List.foldl_append, ← hydsnapCrc32Update_eq,
    ← hydsnapCrc32Update_eq]
  rfl

/-- The checksum does not depend on the bytes in its own field. -/
theorem hydsnapCrc32Snapshot_put32 (hdr mem : List U8) (crc : U32) :
    hydsnapCrc32Snapshot (hydsnapPut32 hdr 0x38 crc) mem = hydsnapCrc32Snapshot hdr mem := by
  have blank : poke (hydsnapPut32 hdr 0x38 crc) 0x38 [0, 0, 0, 0] = poke hdr 0x38 [0, 0, 0, 0] := by
    simp [poke, hydsnapPut32, List.take_set_of_le, List.drop_set]
  unfold hydsnapCrc32Snapshot
  rw [blank]

theorem hostSnapshotReadFile_eq_some {file hdr mem : List U8} :
    hostSnapshotReadFile file = some (hdr, mem) ↔
      hydsnapHdrLen ≤ file.length ∧ hdr = file.take hydsnapHdrLen ∧ hdr.take 8 = hydsnapMagic ∧
      hydsnapGet32 hdr 0x08 = hydsnapVersion ∧ (hydsnapGet32 hdr 0x34).toNat ≠ 0 ∧
      (hydsnapGet32 hdr 0x34).toNat ≤ 2 * 1024 * 1024 ∧
      mem = (file.drop hydsnapHdrLen).take (hydsnapGet32 hdr 0x34).toNat ∧
      mem.length = (hydsnapGet32 hdr 0x34).toNat ∧
      hydsnapCrc32Snapshot hdr mem = hydsnapGet32 hdr 0x38 := by
  constructor
  · intro read
    simp only [hostSnapshotReadFile] at read
    split at read
    · cases read
    rename_i long
    split at read
    · cases read
    rename_i marked
    split at read
    · cases read
    rename_i sized
    split at read
    · rename_i sound
      obtain ⟨rfl, rfl⟩ := Prod.mk.inj (Option.some.inj read)
      simp only [not_or, not_not] at marked sized long
      rw [List.length_take] at long
      exact ⟨by omega, rfl, marked.1, marked.2, sized.1, by omega, rfl, sound.1, sound.2⟩
    · cases read
  · rintro ⟨long, rfl, magic, version, some_, bounded, rfl, full, sound⟩
    have length : (file.take hydsnapHdrLen).length = hydsnapHdrLen := by
      rw [List.length_take]
      omega
    simp only [hostSnapshotReadFile, length, magic, version, ne_eq, not_true_eq_false, or_self,
      if_false, some_, false_or]
    rw [if_neg (by omega), if_pos ⟨full, sound⟩]

section
variable {writeRegs : DosdebugWriteRegs} {s : HostState} {file : List U8}

/-- A file that is not accepted stops the restore at once. -/
theorem hostStateRestore_none (rejected : hostSnapshotReadFile file = none) :
    (hostStateRestore writeRegs file).run s = .error .loadState s := by
  simp only [hostStateRestore, rejected]
  rfl

/-- A blob of another size than the guest window stops the restore before the copy. -/
theorem hostStateRestore_size {hdr mem : List U8}
    (read : hostSnapshotReadFile file = some (hdr, mem)) (odd : mem.length ≠ lowmemGuestSize) :
    (hostStateRestore writeRegs file).run s =
      .error (.blobSize mem.length lowmemGuestSize) s := by
  simp only [hostStateRestore, read, if_pos odd]
  rfl

theorem hostStateRestore_some {hdr mem : List U8}
    (writes : ∀ dr live, writeRegs dr live = (true, dr))
    (read : hostSnapshotReadFile file = some (hdr, mem)) (full : mem.length = lowmemGuestSize) :
    ∃ t, (hostStateRestore writeRegs file).run s = .ok () t ∧
      t.regs = hydsnapReadRegrange hdr ∧ t.ctx.mzPsp = hydsnapGet16 hdr 0x28 ∧
      t.ctx.codeLoadOffset = hydsnapGet16 hdr 0x2a ∧
      t.ctx.dataSectionSeg = hydsnapGet16 hdr 0x2c ∧
      t.conf = ⟨hydsnapGet16 hdr 0x2a, hydsnapGet16 hdr 0x2c⟩ ∧
      t.ctx.lm = s.ctx.lm.copy mem := by
  simp only [hostStateRestore, read, full, writes, ne_eq, not_true_eq_false, if_false]
  exact ⟨_, rfl, rfl, rfl, rfl, rfl, rfl, rfl⟩

end

end Dis86.Hydra
