import Dis86.Lib.Answers
import Dis86.Hydra.Machine
import Mathlib.Data.Fin.Basic

namespace Dis86.Native
open Lib
open Hydra (U8 U16 U32)

/-- A reading of the monotonic clock. -/
structure Timespec where
  sec : BitVec 64
  nsec : BitVec 64
deriving DecidableEq, Repr

/-- The counters answer at the ports from 0x40 on. -/
abbrev Channel := Fin 3

def pitHz : BitVec 64 := 1193182

/-- The three channels share the time at which they started to count. -/
structure PitDev where
  start : Timespec
  reload : Channel → U16
  readHi : Channel → U8
  writeHi : Channel → U8
  rw : Channel → U8
  latch : Channel → U16
  latched : Channel → U8

/-- Before any control word every channel is read and written low byte first. -/
def portDevicesInit (now : Timespec) : PitDev where
  start := now
  reload _ := 0
  readHi _ := 0
  writeHi _ := 0
  rw _ := 3
  latch _ := 0
  latched _ := 0

def pitElapsedTicks (p : PitDev) (now : Timespec) : BitVec 64 :=
  let ns := (now.sec - p.start.sec) * 1000000000 + (now.nsec - p.start.nsec)
  let sec := ns / 1000000000
  let rem := ns % 1000000000
  (sec % 4000000000) * pitHz + rem * pitHz / 1000000000

/-- A reload of zero is the full period. -/
def pitPeriod (p : PitDev) (ch : Channel) : U32 := if p.reload ch ≠ 0 then (p.reload ch).setWidth 32 else 0x10000

def pitCount (p : PitDev) (ch : Channel) (now : Timespec) : U16 :=
  let elapsed : U16 := (pitElapsedTicks p now % (pitPeriod p ch).setWidth 64).setWidth 16
  (pitPeriod p ch - elapsed.setWidth 32).setWidth 16

def lowByte (c : U16) : U8 := c.setWidth 8

def highByte (c : U16) : U8 := (c >>> 8).setWidth 8

/-- The access mode decides which byte a read returns, and how the byte phase goes on. -/
def pitByte (rw readHi : U8) (c : U16) : Option (U8 × U8) :=
  if rw = 1 then some (lowByte c, readHi)
  else if rw = 2 then some (highByte c, readHi)
  else if rw = 3 then some (if readHi ≠ 0 then highByte c else lowByte c, readHi ^^^ 1)
  else none

/-- A pending latch is what a read returns, and the read that drains it releases it. -/
def pitRead (p : PitDev) (ch : Channel) (now : Timespec) : Option (U8 × PitDev) := do
  let c := if p.latched ch ≠ 0 then p.latch ch else pitCount p ch now
  let (byte, readHi) ← pitByte (p.rw ch) (p.readHi ch) c
  let latched := if p.latched ch ≠ 0 ∧ (p.rw ch ≠ 3 ∨ readHi = 0) then 0 else p.latched ch
  return (byte, { p with
    readHi := Function.update p.readHi ch readHi
    latched := Function.update p.latched ch latched })

/-- The top two bits of a control word select its channel, and three selects the read-back command. -/
def controlChannel (val : U8) : Option Channel :=
  if inside : ((val >>> 6) &&& 3).toNat < 3 then some ⟨((val >>> 6) &&& 3).toNat, inside⟩ else none

/-- The access mode in a control word. Zero stands for the latch command. -/
def controlMode (val : U8) : U8 := (val >>> 4) &&& 3

def pitWriteControl (p : PitDev) (val : U8) (now : Timespec) : PitDev :=
  match controlChannel val with
  | none => p
  | some ch =>
      if controlMode val = 0 then
        { p with
          latch := Function.update p.latch ch (pitCount p ch now)
          latched := Function.update p.latched ch 1
          readHi := Function.update p.readHi ch 0 }
      else
        { p with
          rw := Function.update p.rw ch (controlMode val)
          readHi := Function.update p.readHi ch 0
          writeHi := Function.update p.writeHi ch 0
          latched := Function.update p.latched ch 0 }

/-- A completed reload starts the clock again. -/
def pitWriteCounter (p : PitDev) (ch : Channel) (val : U8) (now : Timespec) : Option PitDev :=
  if p.rw ch = 1 then some { p with reload := Function.update p.reload ch (val.setWidth 16), start := now }
  else if p.rw ch = 2 then
    some { p with reload := Function.update p.reload ch (val.setWidth 16 <<< 8), start := now }
  else if p.rw ch ≠ 3 then none
  else if p.writeHi ch = 0 then
    some { p with
      reload := Function.update p.reload ch ((p.reload ch &&& 0xff00) ||| val.setWidth 16)
      writeHi := Function.update p.writeHi ch 1 }
  else
    some { p with
      reload := Function.update p.reload ch ((p.reload ch &&& 0x00ff) ||| (val.setWidth 16 <<< 8))
      writeHi := Function.update p.writeHi ch 0
      start := now }

inductive PitCommand where
  | control (val : U8)
  | write (ch : Channel) (val : U8)
  | read (ch : Channel)
deriving DecidableEq, Repr

/-- A port access at some time. -/
structure PitOp where
  now : Timespec
  command : PitCommand
deriving DecidableEq, Repr

/-- A read answers its channel with a byte. -/
def pitStep (p : PitDev) (op : PitOp) : Option (List (Channel × U8) × PitDev) :=
  match op.command with
  | .control val => some ([], pitWriteControl p val op.now)
  | .write ch val => (pitWriteCounter p ch val op.now).map fun p => ([], p)
  | .read ch => (pitRead p ch op.now).map fun (byte, p) => ([(ch, byte)], p)

/-- The channel that a port access addresses. -/
def PitOp.channel (op : PitOp) : Option Channel :=
  match op.command with
  | .control val => controlChannel val
  | .write ch _ | .read ch => some ch

/-- A counter write that completes a reload starts the shared clock at its own time. -/
def PitDev.Restarts (p : PitDev) (op : PitOp) : Prop :=
  match op.command with
  | .write ch _ => (p.rw ch ≠ 3 ∨ p.writeHi ch ≠ 0) ∧ op.now ≠ p.start
  | _ => False

/-- What a read of one channel depends on. -/
structure ChannelView where
  start : Timespec
  reload : U16
  readHi : U8
  writeHi : U8
  rw : U8
  latch : U16
  latched : U8

def PitDev.view (ch : Channel) (p : PitDev) : ChannelView :=
  ⟨p.start, p.reload ch, p.readHi ch, p.writeHi ch, p.rw ch, p.latch ch, p.latched ch⟩

/-- Every channel has an access mode. -/
def PitDev.Programmed (p : PitDev) : Prop := ∀ ch, p.rw ch = 1 ∨ p.rw ch = 2 ∨ p.rw ch = 3

section Steps

variable {p q : PitDev} {ch : Channel}

theorem pitCount_congr (same : p.view ch = q.view ch) (now : Timespec) : pitCount p ch now = pitCount q ch now := by
  have start : p.start = q.start := congrArg ChannelView.start same
  have reload : p.reload ch = q.reload ch := congrArg ChannelView.reload same
  rw [pitCount, pitCount, pitPeriod, pitPeriod, pitElapsedTicks, pitElapsedTicks, start, reload]

/-- A count is its period less the ticks that have elapsed of it. -/
theorem toNat_count (ticks : BitVec 64) {period : U32} {reload : U16} (same : period.toNat = reload.toNat)
    (positive : 0 < reload.toNat) :
    ((period - ((ticks % period.setWidth 64).setWidth 16).setWidth 32).setWidth 16).toNat =
      reload.toNat - ticks.toNat % reload.toNat := by
  have small := reload.isLt
  have less : ticks.toNat % reload.toNat < reload.toNat := Nat.mod_lt _ positive
  simp only [BitVec.toNat_setWidth, BitVec.toNat_sub, BitVec.toNat_umod, same]
  generalize reload.toNat = total at *
  rw [Nat.mod_eq_of_lt (show total < 2 ^ 64 by omega)]
  generalize ticks.toNat % total = elapsed at *
  omega

/-- A live count is never more than the programmed reload, and zero only for the full period. -/
theorem pitCount_range (p : PitDev) (ch : Channel) (now : Timespec) (some : p.reload ch ≠ 0) :
    1 ≤ (pitCount p ch now).toNat ∧ (pitCount p ch now).toNat ≤ (p.reload ch).toNat := by
  have small := (p.reload ch).isLt
  have positive : 0 < (p.reload ch).toNat := Nat.pos_of_ne_zero fun zero => some (BitVec.eq_of_toNat_eq zero)
  have period : (pitPeriod p ch).toNat = (p.reload ch).toNat := by
    rw [pitPeriod, if_pos some, BitVec.toNat_setWidth, Nat.mod_eq_of_lt (by omega)]
  have less := Nat.mod_lt (pitElapsedTicks p now).toNat positive
  have count := toNat_count (pitElapsedTicks p now) period positive
  rw [pitCount, count]
  generalize (pitElapsedTicks p now).toNat % (p.reload ch).toNat = elapsed at *
  omega

/-- An access of another channel changes nothing of a channel, and the shared start only when it starts the clock
again. -/
theorem fields_pitStep_other {op : PitOp} (other : op.channel ≠ some ch) {answers : List (Channel × U8)}
    (stepped : pitStep p op = some (answers, q)) :
    (∀ a ∈ answers, a.1 ≠ ch) ∧ { q.view ch with start := p.start } = p.view ch ∧
      (¬ p.Restarts op → q.start = p.start) := by
  obtain ⟨now, command⟩ := op
  cases command with
  | control val =>
      obtain ⟨rfl, rfl⟩ := Prod.mk.inj (Option.some.inj stepped)
      simp only [PitOp.channel] at other
      unfold pitWriteControl
      split
      · exact ⟨by simp, rfl, fun _ => rfl⟩
      · rename_i addressed
        have apart : ch ≠ _ := fun same => other (same ▸ addressed)
        split <;> simp [PitDev.view, Function.update_of_ne apart]
  | write written val =>
      obtain ⟨after, wrote, same⟩ := Option.map_eq_some_iff.mp stepped
      obtain ⟨rfl, rfl⟩ := Prod.mk.inj same
      have apart : ch ≠ written := fun same => other (same ▸ rfl)
      simp only [PitDev.Restarts, not_and, not_not]
      unfold pitWriteCounter at wrote
      split at wrote
      · rename_i single
        obtain rfl := Option.some.inj wrote
        simp [PitDev.view, Function.update_of_ne apart, single]
      · split at wrote
        · rename_i single
          obtain rfl := Option.some.inj wrote
          simp [PitDev.view, Function.update_of_ne apart, single]
        · split at wrote
          · exact absurd wrote (by simp)
          · split at wrote
            · obtain rfl := Option.some.inj wrote
              simp [PitDev.view, Function.update_of_ne apart]
            · rename_i second
              obtain rfl := Option.some.inj wrote
              simp only [PitDev.view, Function.update_of_ne apart, true_and]
              exact ⟨by simp, fun quiet => quiet (.inr second)⟩
  | read answered =>
      obtain ⟨⟨byte, after⟩, answer, same⟩ := Option.map_eq_some_iff.mp stepped
      obtain ⟨rfl, rfl⟩ := Prod.mk.inj same
      have apart : ch ≠ answered := fun same => other (same ▸ rfl)
      obtain ⟨⟨byte', readHi⟩, -, same⟩ := Option.bind_eq_some_iff.mp answer
      obtain ⟨rfl, rfl⟩ := Prod.mk.inj (Option.some.inj same)
      simp [PitDev.view, Function.update_of_ne apart, apart.symm]

/-- An access of another channel keeps the view of a channel, unless it starts the clock again. -/
theorem view_pitStep_other {op : PitOp} (other : op.channel ≠ some ch) (quiet : ¬ p.Restarts op)
    {answers : List (Channel × U8)} (stepped : pitStep p op = some (answers, q)) :
    (∀ a ∈ answers, a.1 ≠ ch) ∧ q.view ch = p.view ch := by
  obtain ⟨away, fields, start⟩ := fields_pitStep_other other stepped
  rw [← start quiet] at fields
  exact ⟨away, fields⟩

/-- An access of a channel answers and goes on alike wherever the channel looks the same. -/
theorem view_pitStep_own {op : PitOp} (own : op.channel = some ch) (same : p.view ch = q.view ch)
    {answers : List (Channel × U8)} {p' : PitDev} (stepped : pitStep p op = some (answers, p')) :
    (∀ a ∈ answers, a.1 = ch) ∧ ∃ q', pitStep q op = some (answers, q') ∧ p'.view ch = q'.view ch := by
  have count := pitCount_congr same op.now
  have fields := same
  simp only [PitDev.view, ChannelView.mk.injEq] at fields
  obtain ⟨start, reload, readHi, writeHi, rw, latch, latched⟩ := fields
  obtain ⟨now, command⟩ := op
  cases command with
  | control val =>
      obtain ⟨rfl, rfl⟩ := Prod.mk.inj (Option.some.inj stepped)
      have addressed : controlChannel val = some ch := own
      refine ⟨by simp, _, rfl, ?_⟩
      simp only [pitWriteControl, addressed]
      split <;> simp [PitDev.view, start, reload, writeHi, rw, latch, count]
  | write written val =>
      obtain rfl : written = ch := Option.some.inj own
      obtain ⟨after, wrote, rest⟩ := Option.map_eq_some_iff.mp stepped
      obtain ⟨rfl, rfl⟩ := Prod.mk.inj rest
      refine ⟨by simp, ?_⟩
      simp only [pitStep, Option.map_eq_some_iff, Prod.mk.injEq, true_and]
      unfold pitWriteCounter at wrote ⊢
      rw [rw, writeHi] at wrote
      split at wrote
      · rename_i lsb
        obtain rfl := Option.some.inj wrote
        rw [if_pos lsb]
        exact ⟨_, ⟨_, rfl, rfl⟩, by simp [PitDev.view, readHi, writeHi, rw, latch, latched]⟩
      · rename_i notLsb
        rw [if_neg notLsb]
        split at wrote
        · rename_i msb
          obtain rfl := Option.some.inj wrote
          rw [if_pos msb]
          exact ⟨_, ⟨_, rfl, rfl⟩, by simp [PitDev.view, readHi, writeHi, rw, latch, latched]⟩
        · rename_i notMsb
          rw [if_neg notMsb]
          split at wrote
          · exact absurd wrote (by simp)
          · rename_i both
            rw [if_neg both]
            split at wrote
            · rename_i first
              obtain rfl := Option.some.inj wrote
              rw [if_pos first]
              exact ⟨_, ⟨_, rfl, rfl⟩, by simp [PitDev.view, start, reload, readHi, rw, latch, latched]⟩
            · rename_i second
              obtain rfl := Option.some.inj wrote
              rw [if_neg second]
              exact ⟨_, ⟨_, rfl, rfl⟩, by simp [PitDev.view, reload, readHi, rw, latch, latched]⟩
  | read answered =>
      obtain rfl : answered = ch := Option.some.inj own
      obtain ⟨⟨byte, after⟩, answer, rest⟩ := Option.map_eq_some_iff.mp stepped
      obtain ⟨rfl, rfl⟩ := Prod.mk.inj rest
      refine ⟨by simp, ?_⟩
      obtain ⟨⟨byte', phase⟩, decided, rest⟩ := Option.bind_eq_some_iff.mp answer
      obtain ⟨rfl, rfl⟩ := Prod.mk.inj (Option.some.inj rest)
      rw [rw, readHi, latched, latch, count] at decided
      simp only [pitStep, pitRead, decided, Option.bind_eq_bind, Option.bind_some, Option.pure_def, Option.map_some]
      refine ⟨_, rfl, ?_⟩
      simp [PitDev.view, start, reload, writeHi, rw, latch, latched]

theorem controlMode_eq (val : U8) :
    controlMode val = 0 ∨ controlMode val = 1 ∨ controlMode val = 2 ∨ controlMode val = 3 := by
  have mask : (controlMode val).toNat < 4 := by
    rw [controlMode, BitVec.toNat_and]
    exact Nat.lt_of_le_of_lt Nat.and_le_right (by decide)
  rcases h : (controlMode val).toNat with _ | _ | _ | _ | n
  · exact .inl (BitVec.eq_of_toNat_eq h)
  · exact .inr (.inl (BitVec.eq_of_toNat_eq h))
  · exact .inr (.inr (.inl (BitVec.eq_of_toNat_eq h)))
  · exact .inr (.inr (.inr (BitVec.eq_of_toNat_eq h)))
  · omega

/-- No access of a programmed device fails, and the device stays programmed. -/
theorem pitStep_total (programmed : p.Programmed) (op : PitOp) :
    ∃ answers p', pitStep p op = some (answers, p') ∧ p'.Programmed := by
  obtain ⟨now, command⟩ := op
  cases command with
  | control val =>
      refine ⟨[], _, rfl, ?_⟩
      simp only [pitWriteControl]
      split
      · exact programmed
      · rename_i addressed _
        split
        · exact programmed
        · rename_i mode
          intro other
          by_cases same : other = addressed
          · subst same
            simpa using (controlMode_eq val).resolve_left mode
          · simpa [Function.update_of_ne same] using programmed other
  | write ch val =>
      have mode := programmed ch
      simp only [pitStep, pitWriteCounter]
      split
      · exact ⟨[], _, rfl, programmed⟩
      · split
        · exact ⟨[], _, rfl, programmed⟩
        · split
          · rename_i notLsb notMsb neither
            exact absurd mode (not_or.mpr ⟨notLsb, not_or.mpr ⟨notMsb, neither⟩⟩)
          · split <;> exact ⟨[], _, rfl, programmed⟩
  | read ch =>
      have decided : ∀ c, ∃ byte phase, pitByte (p.rw ch) (p.readHi ch) c = some (byte, phase) := by
        intro c
        unfold pitByte
        rcases programmed ch with lsb | msb | both
        · exact ⟨_, _, if_pos lsb⟩
        · exact ⟨_, _, by rw [msb, if_neg (by decide), if_pos rfl]⟩
        · exact ⟨_, _, by rw [both, if_neg (by decide), if_neg (by decide), if_pos rfl]⟩
      obtain ⟨byte, phase, returned⟩ := decided (if p.latched ch ≠ 0 then p.latch ch else pitCount p ch now)
      simp only [pitStep, pitRead, returned, Option.bind_eq_bind, Option.bind_some, Option.pure_def, Option.map_some]
      exact ⟨_, _, rfl, programmed⟩

end Steps

/-- A latch lasts for one read, or for two where both bytes are read. -/
def latchReads (rw : U8) : Nat := if rw = 3 then 2 else 1

/-- The byte of a count that a read returns, when as many reads have come before it. -/
def byteAfter (rw : U8) (reads : Nat) (c : U16) : U8 :=
  if rw = 1 then lowByte c else if rw = 2 then highByte c else if reads % 2 = 0 then lowByte c else highByte c

/-- A channel has returned some bytes since a count was latched. -/
structure PitDev.Drained (p : PitDev) (ch : Channel) (rw : U8) (c : U16) (reads : Nat) : Prop where
  mode : p.rw ch = rw
  phase : rw = 3 → p.readHi ch = if reads % 2 = 0 then 0 else 1
  latched : reads < latchReads rw → p.latched ch ≠ 0 ∧ p.latch ch = c
  live : latchReads rw ≤ reads → p.latched ch = 0

/-- A control word for a channel, with any access mode. -/
def PitOp.Programs (op : PitOp) (ch : Channel) : Prop := ∃ val, op.command = .control val ∧ controlChannel val = some ch

/-- A read of a channel. -/
def PitOp.reads (ch : Channel) (op : PitOp) : Bool := op.command = .read ch

section Latch

variable {p q : PitDev} {ch : Channel} {rw : U8} {c : U16} {count : Nat}

/-- A latch command freezes the count. -/
theorem drained_latch {val : U8} (addressed : controlChannel val = some ch) (latches : controlMode val = 0)
    (now : Timespec) : (pitWriteControl p val now).Drained ch (p.rw ch) (pitCount p ch now) 0 := by
  simp only [pitWriteControl, addressed, if_pos latches]
  refine ⟨rfl, by simp, by simp, fun none => ?_⟩
  unfold latchReads at none
  split at none <;> simp at none

/-- The byte phase alternates where both bytes are read. -/
theorem pitByte_drained (modes : rw = 1 ∨ rw = 2 ∨ rw = 3) {readHi : U8}
    (phase : rw = 3 → readHi = if count % 2 = 0 then 0 else 1) (x : U16) :
    ∃ next, pitByte rw readHi x = some (byteAfter rw count x, next) ∧
      (rw = 3 → next = if (count + 1) % 2 = 0 then 0 else 1) := by
  rcases modes with rfl | rfl | rfl
  · exact ⟨readHi, rfl, fun both => absurd both (by decide)⟩
  · exact ⟨readHi, rfl, fun both => absurd both (by decide)⟩
  · rw [phase rfl]
    rcases Nat.mod_two_eq_zero_or_one count with even | odd
    · have next : (count + 1) % 2 ≠ 0 := by omega
      refine ⟨1, ?_, fun _ => (if_neg next).symm⟩
      simp [pitByte, byteAfter, even]
    · have next : (count + 1) % 2 = 0 := by omega
      refine ⟨0, ?_, fun _ => (if_pos next).symm⟩
      simp [pitByte, byteAfter, odd]

/-- Before its next read a drained channel answers with the latched count, and with the live count after the latch. -/
theorem drained_read (modes : rw = 1 ∨ rw = 2 ∨ rw = 3) (drained : p.Drained ch rw c count) (now : Timespec) :
    ∃ q, pitRead p ch now =
        some (byteAfter rw count (if count < latchReads rw then c else pitCount p ch now), q) ∧
      q.Drained ch rw c (count + 1) := by
  have source : (if p.latched ch ≠ 0 then p.latch ch else pitCount p ch now) =
      if count < latchReads rw then c else pitCount p ch now := by
    by_cases pending : count < latchReads rw
    · rw [if_pos (drained.latched pending).1, if_pos pending, (drained.latched pending).2]
    · rw [if_neg (not_not.mpr (drained.live (by omega))), if_neg pending]
  obtain ⟨next, returned, phase⟩ :=
    pitByte_drained modes drained.phase (if count < latchReads rw then c else pitCount p ch now)
  simp only [pitRead, source, drained.mode, returned, Option.bind_eq_bind, Option.bind_some, Option.pure_def]
  refine ⟨_, rfl, drained.mode, fun both => ?_, fun pending => ?_, fun ended => ?_⟩
  · simp only [Function.update_self]
    exact phase both
  · have both : rw = 3 := by
      by_contra single
      rw [latchReads, if_neg single] at pending
      omega
    obtain ⟨held, same⟩ := drained.latched (by omega)
    have first : count = 0 := by
      rw [latchReads, if_pos both] at pending
      omega
    have kept : ¬(p.latched ch ≠ 0 ∧ (rw ≠ 3 ∨ next = 0)) := by
      rw [phase both, first, both]
      simp
    simp only [Function.update_self, if_neg kept]
    exact ⟨held, same⟩
  · simp only [Function.update_self]
    by_cases pending : count < latchReads rw
    · have last : rw ≠ 3 ∨ next = 0 := by
        by_cases both : rw = 3
        · rw [latchReads, if_pos both] at ended pending
          have even : (count + 1) % 2 = 0 := by omega
          exact .inr ((phase both).trans (if_pos even))
        · exact .inl both
      rw [if_pos ⟨(drained.latched pending).1, last⟩]
    · have none := drained.live (by omega)
      rw [if_neg fun held => held.1 none, none]

/-- An access other than a control word for the channel or a read of it drains nothing. -/
theorem drained_step {op : PitOp} (unprogrammed : ¬ op.Programs ch) (unread : op.reads ch = false)
    (drained : p.Drained ch rw c count) {answers : List (Channel × U8)}
    (stepped : pitStep p op = some (answers, q)) : q.Drained ch rw c count := by
  have fields : q.rw ch = p.rw ch ∧ q.readHi ch = p.readHi ch ∧ q.latched ch = p.latched ch ∧
      q.latch ch = p.latch ch := by
    by_cases other : op.channel = some ch
    · obtain ⟨now, command⟩ := op
      cases command with
      | control val => exact absurd ⟨val, rfl, other⟩ unprogrammed
      | read answered =>
          obtain rfl := Option.some.inj other
          simp [PitOp.reads] at unread
      | write written val =>
          obtain ⟨after, wrote, rest⟩ := Option.map_eq_some_iff.mp stepped
          obtain ⟨rfl, rfl⟩ := Prod.mk.inj rest
          unfold pitWriteCounter at wrote
          split at wrote
          · exact Option.some.inj wrote ▸ ⟨rfl, rfl, rfl, rfl⟩
          · split at wrote
            · exact Option.some.inj wrote ▸ ⟨rfl, rfl, rfl, rfl⟩
            · split at wrote
              · exact absurd wrote (by simp)
              · split at wrote <;> exact Option.some.inj wrote ▸ ⟨rfl, rfl, rfl, rfl⟩
    · have same := (fields_pitStep_other other stepped).2.1
      simp only [PitDev.view, ChannelView.mk.injEq] at same
      exact ⟨same.2.2.2.2.1, same.2.2.1, same.2.2.2.2.2.2, same.2.2.2.2.2.1⟩
  obtain ⟨mode, readHi, latched, latch⟩ := fields
  exact ⟨mode.trans drained.mode, fun both => readHi.trans (drained.phase both),
    fun pending => by rw [latched, latch]; exact drained.latched pending,
    fun ended => latched.trans (drained.live ended)⟩

/-- The reads of a run are counted. -/
theorem drained_run (modes : rw = 1 ∨ rw = 2 ∨ rw = 3) {ops : List PitOp} (unprogrammed : ∀ op ∈ ops, ¬ op.Programs ch)
    (drained : p.Drained ch rw c count) {answers : List (Channel × U8)}
    (ran : runAnswers pitStep p ops = some (answers, q)) : q.Drained ch rw c (count + ops.countP (PitOp.reads ch)) := by
  induction ops generalizing p count answers with
  | nil =>
      obtain ⟨rfl, rfl⟩ := Prod.mk.inj (Option.some.inj ran)
      exact drained
  | cons op rest ih =>
      obtain ⟨first, middle, more, stepped, others, rfl⟩ := runAnswers_first ran
      have remaining : ∀ op ∈ rest, ¬ op.Programs ch := fun op inside =>
        unprogrammed op (List.mem_cons_of_mem _ inside)
      cases read : op.reads ch with
      | true =>
          have command : op.command = .read ch := of_decide_eq_true read
          obtain ⟨after, answer, drained'⟩ := drained_read modes drained op.now
          have same : after = middle := by
            simp only [pitStep, command, answer, Option.map_some, Option.some.injEq, Prod.mk.injEq] at stepped
            exact stepped.2
          rw [List.countP_cons_of_pos read, Nat.add_comm _ 1, ← Nat.add_assoc]
          exact ih remaining (same ▸ drained') others
      | false =>
          rw [List.countP_cons_of_neg (by simp [read])]
          exact ih remaining (drained_step (unprogrammed op List.mem_cons_self) read drained stepped) others

end Latch

end Dis86.Native
