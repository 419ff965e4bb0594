import Dis86.Ast.AccessPath
import Dis86.Opt.Sweep
import Dis86.Opt.SymbolRun

namespace Dis86

/-- Arithmetic on offsets panics outside of its range. -/
def fitsI32 (k : Int) : Option Int := if -2 ^ 31 ≤ k ∧ k < 2 ^ 31 then some k else none

theorem fitsI32_eq_some {k l : Int} (fits : fitsI32 k = some l) : l = k := by
  unfold fitsI32 at fits
  split at fits
  · exact (Option.some.inj fits).symm
  · cases fits

/-- One access for two adjacent ones of a symbol. The outer result is missing where the source panics. -/
def SymbolRef.joinAdjacent (map : SymbolMap) (low high : SymbolRef) : Option (Option SymbolRef) := do
  let _ ← low.def? map
  let _ ← high.def? map
  if low.id ≠ high.id then return none
  if high.off ≠ (← fitsI32 (low.off + low.region.sz)) then return none
  guard (low.region.sz + high.region.sz < 2 ^ 16)
  return some ⟨low.id, low.region.off, low.region.sz + high.region.sz⟩

/-- The instruction before one of a block, without the erased ones. -/
def IR.instrPrev (ir : IR) : Ref → Option Ref
  | .instr b idx =>
      ((ir.iterInstrs b).takeWhile (· ≠ .instr b idx)).reverse.find? fun r =>
        (ir.instr? r).any fun instr => instr.opcode ≠ .nop
  | _ => none

namespace Opt
open IR
open Ast (fromTypeAndOffset)

/-- An annotated access goes into its symbol from the start on. -/
def determineAccessPath (fuel : Nat) (structs : List Struct) (map : SymbolMap) (symref : SymbolRef) :
    Option (Except String Ast.Access) := do
  let typ ← symref.getType? map
  if symref.off < 0 then
    return .error ("Negative offset " ++ toString symref.off ++ " in annotated access")
  fromTypeAndOffset fuel structs typ symref.off.toNat symref.region.sz

/-- Both accesses are halves of one value of four bytes. -/
def sameWord (access1 access2 : Ast.Access) : Bool :=
  access1.path = access2.path && access1.typ = access2.typ && (access1.typ = .u32 || access1.typ = .i32) &&
    access1.sz = 2 && access2.sz = 2

/-- The access to both halves, with the values of the high and of the low one. -/
def fuseSymbol (map : SymbolMap) (symref1 symref2 : SymbolRef) (val1 val2 : Option Ref) :
    Option (Option (SymbolRef × Ref × Ref)) := do
  if (← fitsI32 (symref1.off + 2)) = symref2.off then
    return some (← (← symref1.joinAdjacent map symref2), ← val2, ← val1)
  else if (← fitsI32 (symref2.off + 2)) = symref1.off then
    return some (← (← symref2.joinAdjacent map symref1), ← val1, ← val2)
  else return none

/-- The earlier write becomes the value that the later one writes. -/
def fuseWriteVar16 (fuel : Nat) (structs : List Struct) (ir : IR) (ref1 : Ref) : Option IR := do
  let ref1Instr ← ir.instr? ref1
  if ref1Instr.opcode ≠ .writeVar16 then return ir
  let .symbol symref1 ← ref1Instr.operands[0]? | return ir
  let _ ← symref1.def? ir.symbols
  let some ref2 := ir.instrPrev ref1 | return ir
  let ref2Instr ← ir.instr? ref2
  if ref2Instr.opcode ≠ .writeVar16 then return ir
  let .symbol symref2 ← ref2Instr.operands[0]? | return ir
  let _ ← symref2.def? ir.symbols
  if symref1.id ≠ symref2.id then return ir
  let access1 ← determineAccessPath fuel structs ir.symbols symref1
  let access2 ← determineAccessPath fuel structs ir.symbols symref2
  let (.ok access1, .ok access2) := (access1, access2) | return ir
  if !sameWord access1 access2 then return ir
  let some (symref, highVal, lowVal) ←
    fuseSymbol ir.symbols symref1 symref2 ref1Instr.operands[1]? ref2Instr.operands[1]? | return ir
  return (ir.modifyInstr ref2 fun _ => ⟨.u32, none, Attribute.NONE, .make32, [highVal, lowVal]⟩).modifyInstr ref1
    fun _ => ⟨.void, none, Attribute.MAY_ESCAPE, .writeVar32, [.symbol symref, ref2]⟩

def fuseAdjacentWritevar16ToWritevar32 (fuel : Nat) (structs : List Struct) (ir : IR) : Option IR :=
  forEachInstr (fuseWriteVar16 fuel structs) ir

/-- Both reads become halves of one value that is read before them. -/
def fuseReadVar16 (ir : IR) (highRef : Ref) : Option IR := do
  let highInstr ← ir.instr? highRef
  if highInstr.opcode ≠ .readVar16 then return ir
  let .symbol highSymref ← highInstr.operands[0]? | return ir
  let highSym ← highSymref.def? ir.symbols
  if highSymref.off ≠ 2 then return ir
  if highSymref.region.sz ≠ 2 then return ir
  if highSym.size ≠ 4 then return ir
  let some lowRef := ir.instrPrev highRef | return ir
  let lowInstr ← ir.instr? lowRef
  if lowInstr.opcode ≠ .readVar16 then return ir
  let .symbol lowSymref ← lowInstr.operands[0]? | return ir
  let _ ← lowSymref.def? ir.symbols
  if lowSymref.off ≠ 0 then return ir
  if lowSymref.region.sz ≠ 2 then return ir
  if lowSymref.id ≠ highSymref.id then return ir
  let symref ← (← lowSymref.joinAdjacent ir.symbols highSymref)
  match lowRef with
  | .instr b idx => do
      let (loadval, ir) ← ir.blockInstrInsert b ⟨.u32, none, Attribute.NONE, .readVar32, [.symbol symref]⟩ (.before idx)
      return (ir.modifyInstr lowRef fun _ => ⟨.u16, none, Attribute.NONE, .lower16, [loadval]⟩).modifyInstr highRef
        fun _ => ⟨.u16, none, Attribute.NONE, .upper16, [loadval]⟩
  | _ => none

def fuseAdjacentReadvar16ToReadvar32 (ir : IR) : Option IR := forEachInstr fuseReadVar16 ir

end Opt

end Dis86

namespace Dis86.Opt
open IR Lib
open Ast (PureUnary PureBinary)

section Spans

variable {ir : IR} {b : BlockRef} {r s : Ref}

theorem listed_instr (listed : r ∈ ir.iterInstrs b) : ∃ idx, r = .instr b idx := by
  have home := mem_iterInstrs listed
  cases r with
  | instr c idx => exact ⟨idx, by rw [Option.some.inj home]⟩
  | const | init | block | symbol | func => cases home

/-- Only erased instructions stand between an instruction and the one that is found before it. -/
theorem instrPrev_span (listed : r ∈ ir.iterInstrs b) (found : ir.instrPrev r = some s) :
    ∃ front nops back, ir.iterInstrs b = front ++ (s :: (nops ++ [r]) ++ back) ∧
      ∀ t ∈ nops, ∃ instr, ir.instr? t = some instr ∧ instr.opcode = .nop := by
  obtain ⟨idx, rfl⟩ := listed_instr listed
  obtain ⟨before, back, order⟩ := List.append_of_mem listed
  have distinct := iterInstrs_nodup ir b
  rw [order, List.nodup_append] at distinct
  have prefixed : (ir.iterInstrs b).takeWhile (· ≠ .instr b idx) = before := by
    rw [order, List.takeWhile_append_of_pos, List.takeWhile_cons_of_neg (by simp), List.append_nil]
    intro t inside
    exact decide_eq_true (distinct.2.2 t inside _ List.mem_cons_self)
  rw [IR.instrPrev, prefixed, List.find?_eq_some_iff_append] at found
  obtain ⟨_, nops, front, reversed, none⟩ := found
  rw [List.reverse_eq_iff, List.reverse_append, List.reverse_cons] at reversed
  refine ⟨front.reverse, nops.reverse, back, ?_, ?_⟩
  · rw [order, reversed]
    simp
  · intro t inside
    have skipped := none t (List.mem_reverse.mp inside)
    have member : t ∈ ir.iterInstrs b := by
      rw [order, reversed]
      simp_all
    obtain ⟨instr, present⟩ := Option.isSome_iff_exists.mp (mem_iterInstrs_instr? member)
    refine ⟨instr, present, ?_⟩
    rw [present] at skipped
    simpa using skipped

/-- The two instructions and the erased ones differ. -/
theorem span_apart {front nops back : List Ref} (order : ir.iterInstrs b = front ++ (s :: (nops ++ [r]) ++ back)) :
    r ≠ s ∧ ∀ t ∈ nops, t ≠ r ∧ t ≠ s := by
  have distinct := iterInstrs_nodup ir b
  rw [order] at distinct
  obtain ⟨first, rest⟩ := List.nodup_cons.mp distinct.of_append_right.of_append_left
  rw [List.mem_append, List.mem_singleton, not_or] at first
  refine ⟨Ne.symm first.2, fun t inside => ⟨?_, fun same => first.1 (same ▸ inside)⟩⟩
  exact (List.nodup_append.mp rest).2.2 t inside r (List.mem_singleton_self r)

end Spans

section Visits

variable {ir next : IR} {fuel : Nat} {structs : List Struct} {ref1 ref2 highRef lowRef : Ref}

theorem joinAdjacent_some {map : SymbolMap} {low high symref : SymbolRef}
    (joined : low.joinAdjacent map high = some (some symref)) :
    low.id = high.id ∧ symref.id = low.id ∧ symref.off = low.off ∧ high.off = low.off + low.region.sz := by
  obtain ⟨_, _, joined⟩ := Option.bind_eq_some_iff.mp joined
  obtain ⟨_, _, joined⟩ := Option.bind_eq_some_iff.mp joined
  by_cases same : low.id = high.id
  · rw [if_neg (not_not.mpr same)] at joined
    obtain ⟨stop, fits, joined⟩ := Option.bind_eq_some_iff.mp joined
    by_cases adjacent : high.off = stop
    · rw [if_neg (not_not.mpr adjacent)] at joined
      obtain ⟨_, _, joined⟩ := Option.bind_eq_some_iff.mp joined
      obtain rfl := Option.some.inj (Option.some.inj joined)
      exact ⟨same, rfl, rfl, adjacent.trans (fitsI32_eq_some fits)⟩
    · rw [if_pos adjacent] at joined
      cases joined
  · rw [if_pos same] at joined
    cases joined

/-- A pair of writes of adjacent words of a symbol. -/
structure WritePair (ir : IR) (ref1 ref2 : Ref) (symref : SymbolRef) (highVal lowVal : Ref) : Prop where
  before : ir.instrPrev ref1 = some ref2
  writes : ∃ instr1 instr2 symref1 symref2, ir.instr? ref1 = some instr1 ∧ ir.instr? ref2 = some instr2 ∧
    instr1.opcode = .writeVar16 ∧ instr2.opcode = .writeVar16 ∧
    instr1.operands[0]? = some (.symbol symref1) ∧ instr2.operands[0]? = some (.symbol symref2) ∧
    symref1.id = symref.id ∧ symref2.id = symref.id ∧
    (symref1.off = symref.off ∧ symref2.off = symref.off + 2 ∧ instr1.operands[1]? = some lowVal ∧
        instr2.operands[1]? = some highVal ∨
      symref2.off = symref.off ∧ symref1.off = symref.off + 2 ∧ instr2.operands[1]? = some lowVal ∧
        instr1.operands[1]? = some highVal)

/-- A visit that changes the function does not stop early. -/
theorem goes_on {stop : Prop} [Decidable stop] {later : Option IR} (changed : next ≠ ir)
    (visited : (if stop then pure ir else later) = some next) : ¬ stop ∧ later = some next := by
  split at visited
  · exact absurd (Option.some.inj visited).symm changed
  · rename_i passes
    exact ⟨passes, visited⟩

theorem fuseSymbol_some {map : SymbolMap} {symref1 symref2 symref : SymbolRef} {val1 val2 : Option Ref}
    {highVal lowVal : Ref} (fused : fuseSymbol map symref1 symref2 val1 val2 = some (some (symref, highVal, lowVal))) :
    symref1.id = symref.id ∧ symref2.id = symref.id ∧
      (symref1.off = symref.off ∧ symref2.off = symref.off + 2 ∧ val1 = some lowVal ∧ val2 = some highVal ∨
        symref2.off = symref.off ∧ symref1.off = symref.off + 2 ∧ val2 = some lowVal ∧ val1 = some highVal) := by
  rw [fuseSymbol] at fused
  obtain ⟨next1, fits1, fused⟩ := Option.bind_eq_some_iff.mp fused
  split at fused
  · rename_i adjacent
    simp only [Option.bind_eq_bind, Option.bind_eq_some_iff, Option.pure_def, Option.some.injEq, Prod.mk.injEq] at fused
    obtain ⟨_, joined, _, rfl, high, found2, low, found1, rfl, rfl, rfl⟩ := fused
    obtain ⟨same, id, off, _⟩ := joinAdjacent_some joined
    rw [fitsI32_eq_some fits1] at adjacent
    exact ⟨id.symm, same.symm.trans id.symm, .inl ⟨off.symm, by rw [off, adjacent], found1, found2⟩⟩
  · obtain ⟨next2, fits2, fused⟩ := Option.bind_eq_some_iff.mp fused
    split at fused
    · rename_i adjacent
      simp only [Option.bind_eq_bind, Option.bind_eq_some_iff, Option.pure_def, Option.some.injEq,
        Prod.mk.injEq] at fused
      obtain ⟨_, joined, _, rfl, high, found1, low, found2, rfl, rfl, rfl⟩ := fused
      obtain ⟨same, id, off, _⟩ := joinAdjacent_some joined
      rw [fitsI32_eq_some fits2] at adjacent
      exact ⟨same.symm.trans id.symm, id.symm, .inr ⟨off.symm, by rw [off, adjacent], found2, found1⟩⟩
    · cases fused

theorem fuseWriteVar16_cases (changed : next ≠ ir) (visited : fuseWriteVar16 fuel structs ir ref1 = some next) :
    ∃ ref2 symref highVal lowVal, WritePair ir ref1 ref2 symref highVal lowVal ∧
      next = (ir.modifyInstr ref2 fun _ => ⟨.u32, none, Attribute.NONE, .make32, [highVal, lowVal]⟩).modifyInstr ref1
        fun _ => ⟨.void, none, Attribute.MAY_ESCAPE, .writeVar32, [.symbol symref, ref2]⟩ := by
  have stays {p : Prop} (kept : some ir = some next) : p := absurd (Option.some.inj kept).symm changed
  obtain ⟨instr1, present1, visited⟩ := Option.bind_eq_some_iff.mp visited
  obtain ⟨opcode1, visited⟩ := goes_on changed visited
  obtain ⟨target1, first1, visited⟩ := Option.bind_eq_some_iff.mp visited
  split at visited
  · rename_i symref1
    obtain ⟨_, _, visited⟩ := Option.bind_eq_some_iff.mp visited
    split at visited
    · rename_i ref2 before
      obtain ⟨instr2, present2, visited⟩ := Option.bind_eq_some_iff.mp visited
      obtain ⟨opcode2, visited⟩ := goes_on changed visited
      obtain ⟨target2, first2, visited⟩ := Option.bind_eq_some_iff.mp visited
      split at visited
      · rename_i symref2
        obtain ⟨_, _, visited⟩ := Option.bind_eq_some_iff.mp visited
        obtain ⟨_, visited⟩ := goes_on changed visited
        obtain ⟨_, _, visited⟩ := Option.bind_eq_some_iff.mp visited
        obtain ⟨_, _, visited⟩ := Option.bind_eq_some_iff.mp visited
        split at visited
        · obtain ⟨_, visited⟩ := goes_on changed visited
          obtain ⟨_, fused, visited⟩ := Option.bind_eq_some_iff.mp visited
          split at visited
          · rename_i symref highVal lowVal
            obtain ⟨same1, same2, halves⟩ := fuseSymbol_some fused
            exact ⟨ref2, symref, highVal, lowVal, ⟨before, instr1, instr2, symref1, symref2, present1, present2,
              not_not.mp opcode1, not_not.mp opcode2, first1, first2, same1, same2, halves⟩,
              (Option.some.inj visited).symm⟩
          · exact stays visited
        · exact stays visited
      · exact stays visited
    · exact stays visited
  · exact stays visited

/-- A pair of reads of the two words of a symbol. -/
structure ReadPair (ir : IR) (highRef lowRef : Ref) (symref : SymbolRef) : Prop where
  before : ir.instrPrev highRef = some lowRef
  reads : ∃ highInstr lowInstr highSymref lowSymref, ir.instr? highRef = some highInstr ∧
    ir.instr? lowRef = some lowInstr ∧ highInstr.opcode = .readVar16 ∧ lowInstr.opcode = .readVar16 ∧
    highInstr.operands[0]? = some (.symbol highSymref) ∧ lowInstr.operands[0]? = some (.symbol lowSymref) ∧
    highSymref.id = symref.id ∧ lowSymref.id = symref.id ∧ highSymref.off = symref.off + 2 ∧
    lowSymref.off = symref.off

theorem fuseReadVar16_cases (changed : next ≠ ir) (visited : fuseReadVar16 ir highRef = some next) :
    ∃ b idx symref loadval ir₁, ReadPair ir highRef (.instr b idx) symref ∧
      ir.blockInstrInsert b ⟨.u32, none, Attribute.NONE, .readVar32, [.symbol symref]⟩ (.before idx) =
        some (loadval, ir₁) ∧
      next = (ir₁.modifyInstr (.instr b idx) fun _ => ⟨.u16, none, Attribute.NONE, .lower16, [loadval]⟩).modifyInstr
        highRef fun _ => ⟨.u16, none, Attribute.NONE, .upper16, [loadval]⟩ := by
  have stays {p : Prop} (kept : some ir = some next) : p := absurd (Option.some.inj kept).symm changed
  obtain ⟨highInstr, highPresent, visited⟩ := Option.bind_eq_some_iff.mp visited
  obtain ⟨highOpcode, visited⟩ := goes_on changed visited
  obtain ⟨_, highFirst, visited⟩ := Option.bind_eq_some_iff.mp visited
  split at visited
  · rename_i highSymref
    obtain ⟨_, _, visited⟩ := Option.bind_eq_some_iff.mp visited
    obtain ⟨highOff, visited⟩ := goes_on changed visited
    obtain ⟨_, visited⟩ := goes_on changed visited
    obtain ⟨_, visited⟩ := goes_on changed visited
    split at visited
    · rename_i lowRef before
      obtain ⟨lowInstr, lowPresent, visited⟩ := Option.bind_eq_some_iff.mp visited
      obtain ⟨lowOpcode, visited⟩ := goes_on changed visited
      obtain ⟨_, lowFirst, visited⟩ := Option.bind_eq_some_iff.mp visited
      split at visited
      · rename_i lowSymref
        obtain ⟨_, _, visited⟩ := Option.bind_eq_some_iff.mp visited
        obtain ⟨lowOff, visited⟩ := goes_on changed visited
        obtain ⟨_, visited⟩ := goes_on changed visited
        obtain ⟨same, visited⟩ := goes_on changed visited
        obtain ⟨_, joins, visited⟩ := Option.bind_eq_some_iff.mp visited
        obtain ⟨symref, joined, visited⟩ := Option.bind_eq_some_iff.mp visited
        obtain ⟨_, id, off, _⟩ := joinAdjacent_some (joins.trans (congrArg some joined))
        rw [not_not.mp lowOff] at off
        have reads : ReadPair ir highRef lowRef symref := ⟨before, highInstr, lowInstr, highSymref, lowSymref,
          highPresent, lowPresent, not_not.mp highOpcode, not_not.mp lowOpcode, highFirst, lowFirst,
          (not_not.mp same).symm.trans id.symm, id.symm, by rw [not_not.mp highOff, off]; rfl,
          (not_not.mp lowOff).trans off.symm⟩
        cases lowRef with
        | instr b idx =>
            dsimp only at visited
            obtain ⟨⟨loadval, ir₁⟩, inserted, visited⟩ := Option.bind_eq_some_iff.mp visited
            exact ⟨b, idx, symref, loadval, ir₁, reads, inserted, (Option.some.inj visited).symm⟩
        | const | init | block | symbol | func => cases visited
      · exact stays visited
    · exact stays visited
  · exact stays visited

end Visits

section Words

theorem make32_toNat (x y : BitVec 32) :
    (PureBinary.make32.value .dword .dword x y).toNat = x.toNat % 65536 * 65536 + y.toNat % 65536 := by
  have high : ((Width.word.wrap x).toNat <<< 16) % 2 ^ 32 = x.toNat % 65536 * 2 ^ 16 := by
    simp only [Width.wrap, Width.low, Width.bits, BitVec.toNat_setWidth, Nat.shiftLeft_eq]
    omega
  have low : (Width.word.wrap y).toNat = y.toNat % 65536 := by
    simp only [Width.wrap, Width.low, Width.bits, BitVec.toNat_setWidth]
    omega
  have bound : y.toNat % 65536 < 2 ^ 16 := Nat.mod_lt _ (by decide)
  rw [PureBinary.value, BitVec.toNat_or, BitVec.toNat_shiftLeft, high, low, Nat.mul_comm _ (2 ^ 16),
    ← Nat.two_pow_add_eq_or_of_lt bound]
  omega

/-- The bytes of a fused value are those of its halves. -/
theorem make32_bytes (x y : BitVec 32) :
    (∀ j < 2, byteOf (PureBinary.make32.value .dword .dword x y).toNat j = byteOf y.toNat j) ∧
      ∀ j < 2, byteOf (PureBinary.make32.value .dword .dword x y).toNat (2 + j) = byteOf x.toNat j := by
  have same {a b : Nat} (equal : a % 256 = b % 256) : BitVec.ofNat 8 a = BitVec.ofNat 8 b := by
    apply BitVec.eq_of_toNat_eq
    rwa [BitVec.toNat_ofNat, BitVec.toNat_ofNat]
  constructor
  · intro j before
    apply same
    rw [make32_toNat]
    obtain rfl | rfl : j = 0 ∨ j = 1 := by omega
    · omega
    · omega
  · intro j before
    apply same
    rw [make32_toNat]
    obtain rfl | rfl : j = 0 ∨ j = 1 := by omega
    · omega
    · omega

/-- The halves of a value that is read at once are the words that are read one by one. -/
theorem halves_read {A : Type} (m : ByteMemory A) (window : Nat → A) :
    PureUnary.lower16.value .word .dword (.ofNat 32 (m.read window 4)) = .ofNat 32 (m.read window 2) ∧
      PureUnary.upper16.value .word .dword (.ofNat 32 (m.read window 4)) =
        .ofNat 32 (m.read (fun j => window (2 + j)) 2) := by
  have split : m.read window 4 = m.read window 2 + 256 ^ 2 * m.read (fun j => window (2 + j)) 2 :=
    m.read_add window 2 2
  have low := ((m.read_eq_iff window 2 _).mp rfl).1
  have high := ((m.read_eq_iff (fun j => window (2 + j)) 2 _).mp rfl).1
  constructor
  · apply BitVec.eq_of_toNat_eq
    simp only [PureUnary.value, Width.wrap, Width.low, Width.bits, BitVec.toNat_setWidth, BitVec.toNat_ofNat]
    omega
  · apply BitVec.eq_of_toNat_eq
    simp only [PureUnary.value, Width.wrap, Width.low, Width.bits, BitVec.toNat_setWidth, BitVec.toNat_ofNat,
      BitVec.toNat_ushiftRight, Nat.shiftRight_eq_div_pow]
    omega

end Words

section Steps

variable {A : Type} [DecidableEq A] {w : Machine A} {ir : IR} {r : Ref} {instr : Instr} {symref : SymbolRef} {v : Ref}
  {σ σ' : Running A}

theorem exec_nop (opcode : instr.opcode = .nop) (σ : Running A) : w.exec r instr σ = some σ := by
  rw [Machine.exec, opcode]
  rfl

theorem exec_readVar16 (opcode : instr.opcode = .readVar16) (target : instr.operands[0]? = some (.symbol symref))
    (ran : w.exec r instr σ = some σ') : σ' = σ.define r (some (.ofNat 32 (σ.mem.read (w.window symref) 2))) := by
  rw [Machine.exec, opcode] at ran
  simp only [fixed?] at ran
  split at ran
  · rename_i operands
    rw [operands] at target
    obtain rfl := Ref.symbol.inj (Option.some.inj target)
    exact (Option.some.inj ran).symm
  · cases ran

theorem exec_writeVar16 (opcode : instr.opcode = .writeVar16) (target : instr.operands[0]? = some (.symbol symref))
    (source : instr.operands[1]? = some v) (ran : w.exec r instr σ = some σ') : ∃ x, w.eval σ v = some x ∧
      σ' = { σ.define r none with mem := σ.mem.write (w.window symref) 2 x.toNat } := by
  rw [Machine.exec, opcode] at ran
  simp only [fixed?] at ran
  split at ran
  · rename_i operands
    rw [operands] at target source
    obtain rfl := Ref.symbol.inj (Option.some.inj target)
    obtain rfl := Option.some.inj source
    obtain ⟨x, value, ran⟩ := Option.bind_eq_some_iff.mp ran
    exact ⟨x, value, (Option.some.inj ran).symm⟩
  · cases ran

theorem runList_cons (w : Machine A) (ir : IR) (r : Ref) (rest : List Ref) (σ : Running A) :
    w.runList ir (r :: rest) σ = ((ir.instr? r).bind fun instr => w.exec r instr σ).bind (w.runList ir rest) :=
  List.foldlM_cons

theorem runList_nops {nops : List Ref} (erased : ∀ r ∈ nops, ∃ instr, ir.instr? r = some instr ∧ instr.opcode = .nop)
    (σ : Running A) : w.runList ir nops σ = some σ := by
  induction nops with
  | nil => rfl
  | cons r rest hypothesis =>
      obtain ⟨instr, present, opcode⟩ := erased r List.mem_cons_self
      rw [runList_cons, present, Option.bind_some, exec_nop opcode]
      exact hypothesis fun s inside => erased s (List.mem_cons_of_mem r inside)

/-- Two instructions run, with erased ones between them. -/
theorem runList_pair {first second : Instr} {s : Ref} {nops : List Ref}
    (erased : ∀ r ∈ nops, ∃ instr, ir.instr? r = some instr ∧ instr.opcode = .nop)
    (one : ir.instr? r = some first) (two : ir.instr? s = some second) (σ : Running A) :
    w.runList ir (r :: (nops ++ [s])) σ = (w.exec r first σ).bind (w.exec s second) := by
  rw [runList_cons, one, Option.bind_some]
  congr 1
  funext σ
  rw [runList_append, runList_nops erased, Option.bind_some, runList_cons, two, Option.bind_some]
  exact Option.bind_fun_some _

end Steps

section Windows

variable {A : Type} {w : Machine A} {symref other : SymbolRef}

theorem window_low (id : other.id = symref.id) (off : other.off = symref.off) : w.window other = w.window symref := by
  funext j
  rw [Machine.window, Machine.window, id]
  rw [SymbolRef.off, SymbolRef.off] at off
  rw [off]

theorem window_high (id : other.id = symref.id) (off : other.off = symref.off + 2) :
    w.window other = fun j => w.window symref (2 + j) := by
  funext j
  rw [Machine.window, Machine.window, id]
  rw [SymbolRef.off, SymbolRef.off] at off
  rw [off, Int.natCast_add, Int.add_assoc]
  rfl

theorem window_distinct (w : Machine A) (symref : SymbolRef) :
    ∀ i < 4, ∀ j < 4, w.window symref i = w.window symref j → i = j :=
  fun i below j under => w.apart symref.id symref.region.off i j below under

/-- Two words that are written one by one are the bytes of the fused value. -/
theorem write_fused [DecidableEq A] (w : Machine A) (symref : SymbolRef) (m : ByteMemory A) (x y : BitVec 32) :
    (m.write (w.window symref) 2 y.toNat).write (fun j => w.window symref (2 + j)) 2 x.toNat =
        m.write (w.window symref) 4 (PureBinary.make32.value .dword .dword x y).toNat ∧
      (m.write (fun j => w.window symref (2 + j)) 2 x.toNat).write (w.window symref) 2 y.toNat =
        m.write (w.window symref) 4 (PureBinary.make32.value .dword .dword x y).toNat :=
  ByteMemory.write_halves (n := 2) (k := 2) (window_distinct w symref) m (make32_bytes x y).1 (make32_bytes x y).2

end Windows

/-- A pair is rewritten, and instructions may come before it. -/
theorem pair_rewrites {ir next : IR} {b : BlockRef} {r s : Ref} {front nops back : List Ref} (lead : List Ref)
    (order : ir.iterInstrs b = front ++ (s :: (nops ++ [r]) ++ back))
    (order' : next.iterInstrs b = front ++ (lead ++ s :: (nops ++ [r]) ++ back))
    (others : ∀ c, c ≠ b → next.iterInstrs c = ir.iterInstrs c)
    (kept : ∀ t, t ∉ lead → t ≠ s → t ≠ r → next.instr? t = ir.instr? t) (away : ∀ t ∈ nops, t ∉ lead)
    (erased : ∀ t ∈ nops, ∃ instr, ir.instr? t = some instr ∧ instr.opcode = .nop)
    (plain : ∀ t, t ∈ lead ∨ t = s ∨ t = r → ∀ instr, ir.instr? t = some instr ∨ next.instr? t = some instr →
      instr.opcode ≠ .phi) :
    Rewrites ir next b front (s :: (nops ++ [r])) (lead ++ s :: (nops ++ [r])) back := by
  have apart := span_apart order
  refine ⟨order, order', others, fun t => List.mem_append_right lead, ?_, ?_⟩
  · intro t outside
    simp only [List.mem_cons, List.mem_append, List.not_mem_nil, or_false, not_or] at outside
    exact kept t outside.1 outside.2.1 outside.2.2.2
  · intro t inside instr found
    simp only [List.mem_cons, List.mem_append, List.not_mem_nil, or_false] at inside
    rcases inside with first | second | among | last
    · exact plain t (.inl first) instr found
    · exact plain t (.inr (.inl second)) instr found
    · obtain ⟨nop, present, opcode⟩ := erased t among
      rw [kept t (away t among) (apart.2 t among).2 (apart.2 t among).1, or_self, present] at found
      rw [← Option.some.inj found, opcode]
      decide
    · exact plain t (.inr (.inr last)) instr found

section Writes

variable {ir : IR} {ref1 ref2 : Ref} {symref : SymbolRef} {highVal lowVal : Ref} {b : BlockRef}

/-- The function with the two writes fused. -/
def fusedWrites (ir : IR) (ref1 ref2 : Ref) (symref : SymbolRef) (highVal lowVal : Ref) : IR :=
  (ir.modifyInstr ref2 fun _ => ⟨.u32, none, Attribute.NONE, .make32, [highVal, lowVal]⟩).modifyInstr ref1
    fun _ => ⟨.void, none, Attribute.MAY_ESCAPE, .writeVar32, [.symbol symref, ref2]⟩

theorem WritePair.refines (pair : WritePair ir ref1 ref2 symref highVal lowVal) (listed : ref1 ∈ ir.iterInstrs b) :
    Refines ir (fusedWrites ir ref1 ref2 symref highVal lowVal) := by
  obtain ⟨front, nops, back, order, erased⟩ := instrPrev_span listed pair.before
  obtain ⟨instr1, instr2, symref1, symref2, present1, present2, opcode1, opcode2, target1, target2, id1, id2,
    halves⟩ := pair.writes
  have apart := span_apart order
  have view : ∀ r, (fusedWrites ir ref1 ref2 symref highVal lowVal).instr? r =
      if r = ref1 then some ⟨.void, none, Attribute.MAY_ESCAPE, .writeVar32, [.symbol symref, ref2]⟩
      else if r = ref2 then some ⟨.u32, none, Attribute.NONE, .make32, [highVal, lowVal]⟩
      else ir.instr? r := by
    intro r
    rw [fusedWrites, instr?_modifyInstr, instr?_modifyInstr, instr?_modifyInstr, if_neg apart.1, present1, present2]
    rfl
  have make32 := (view ref2).trans ((if_neg (Ne.symm apart.1)).trans (if_pos rfl))
  have write32 := (view ref1).trans (if_pos rfl)
  have skipped : ∀ r ∈ nops, (fusedWrites ir ref1 ref2 symref highVal lowVal).instr? r = ir.instr? r := by
    intro r inside
    rw [view, if_neg (apart.2 r inside).1, if_neg (apart.2 r inside).2]
  have rewrites : Rewrites ir (fusedWrites ir ref1 ref2 symref highVal lowVal) b front (ref2 :: (nops ++ [ref1]))
      (ref2 :: (nops ++ [ref1])) back := by
    have same (c : BlockRef) : (fusedWrites ir ref1 ref2 symref highVal lowVal).iterInstrs c = ir.iterInstrs c := by
      rw [fusedWrites, iterInstrs_modifyInstr, iterInstrs_modifyInstr]
    apply pair_rewrites [] order ((same b).trans order) (fun c _ => same c) ?_ (fun _ _ => List.not_mem_nil)
      erased
    · rintro r (among | rfl | rfl) instr found
      · cases among
      · rw [present2, make32] at found
        rcases found with same | same <;> obtain rfl := Option.some.inj same
        · rw [opcode2]
          decide
        · exact nofun
      · rw [present1, write32] at found
        rcases found with same | same <;> obtain rfl := Option.some.inj same
        · rw [opcode1]
          decide
        · exact nofun
    · intro r _ notFirst notSecond
      rw [view, if_neg notSecond, if_neg notFirst]
  apply rewrites.refines
  intro A _ w σ τ σ' agrees ran
  rw [runList_pair erased present2 present1] at ran
  obtain ⟨σ₁, first, second⟩ := Option.bind_eq_some_iff.mp ran
  have fused : ∃ x y, w.eval σ highVal = some x ∧ w.eval σ lowVal = some y ∧ σ' =
      { (σ.define ref2 none).define ref1 none with
        mem := σ.mem.write (w.window symref) 4 (PureBinary.make32.value .dword .dword x y).toNat } := by
    rcases halves with ⟨off1, off2, low, high⟩ | ⟨off2, off1, low, high⟩
    · obtain ⟨x, value2, rfl⟩ := exec_writeVar16 opcode2 target2 high first
      obtain ⟨y, value1, rfl⟩ := exec_writeVar16 opcode1 target1 low second
      refine ⟨x, y, value2, eval_define_none value1, ?_⟩
      rw [window_low id1 off1, window_high id2 off2, (write_fused w symref σ.mem x y).2]
      rfl
    · obtain ⟨y, value2, rfl⟩ := exec_writeVar16 opcode2 target2 low first
      obtain ⟨x, value1, rfl⟩ := exec_writeVar16 opcode1 target1 high second
      refine ⟨x, y, eval_define_none value1, value2, ?_⟩
      rw [window_low id2 off2, window_high id1 off1, (write_fused w symref σ.mem x y).1]
      rfl
  obtain ⟨x, y, high, low, rfl⟩ := fused
  have erased' : ∀ r ∈ nops, ∃ instr, (fusedWrites ir ref1 ref2 symref highVal lowVal).instr? r = some instr ∧
      instr.opcode = .nop := by
    intro r inside
    rw [skipped r inside]
    exact erased r inside
  have earlier : ref2 ∈ ir.iterInstrs b := by
    rw [order]
    exact List.mem_append_right front List.mem_cons_self
  obtain ⟨idx, rfl⟩ := listed_instr earlier
  have value : w.eval (τ.define (.instr b idx) (some (PureBinary.make32.value .dword .dword x y))) (.instr b idx) =
      some (PureBinary.make32.value .dword .dword x y) := Function.update_self ..
  have defined : Agrees ir (σ.define (.instr b idx) none)
      (τ.define (.instr b idx) (some (PureBinary.make32.value .dword .dword x y))) :=
    agrees.define (Option.isSome_of_mem present2) nofun
  have written : Agrees ir ((σ.define (.instr b idx) none).define ref1 none)
      ((τ.define (.instr b idx) (some (PureBinary.make32.value .dword .dword x y))).define ref1 none) :=
    defined.define (Option.isSome_of_mem present1) fun _ => id
  refine ⟨_, ?_, written.withMem (by rw [← agrees.mem])⟩
  rw [runList_pair erased' make32 write32]
  exact Option.bind_eq_some_iff.mpr ⟨_, Option.bind_eq_some_iff.mpr ⟨x, agrees.eval high,
    Option.bind_eq_some_iff.mpr ⟨y, agrees.eval low, rfl⟩⟩, Option.bind_eq_some_iff.mpr ⟨_, value, rfl⟩⟩

end Writes

section Reads

variable {ir ir₁ : IR} {highRef loadval : Ref} {symref : SymbolRef} {b c : BlockRef} {idx : Nat}

/-- The function with the two reads fused. -/
def fusedReads (ir₁ : IR) (highRef lowRef loadval : Ref) : IR :=
  (ir₁.modifyInstr lowRef fun _ => ⟨.u16, none, Attribute.NONE, .lower16, [loadval]⟩).modifyInstr highRef
    fun _ => ⟨.u16, none, Attribute.NONE, .upper16, [loadval]⟩

/-- A value that has not been listed may be anything. -/
theorem Agrees.fresh {A : Type} {σ τ : Running A} {r : Ref} (agrees : Agrees ir σ τ) (absent : ir.instr? r = none)
    (v : Option (BitVec 32)) : Agrees ir σ (τ.define r v) where
  mem := agrees.mem
  exit := agrees.exit
  env := by
    intro s x value
    have differ : s ≠ r := by
      rintro rfl
      have here := agrees.listed s x value
      rw [absent] at here
      cases here
    simpa only [Running.define, Function.update_of_ne differ] using agrees.env s x value
  listed := agrees.listed

theorem ReadPair.refines (pair : ReadPair ir highRef (.instr c idx) symref) (listed : highRef ∈ ir.iterInstrs b)
    (inserted : ir.blockInstrInsert c ⟨.u32, none, Attribute.NONE, .readVar32, [.symbol symref]⟩ (.before idx) =
      some (loadval, ir₁)) : Refines ir (fusedReads ir₁ highRef (.instr c idx) loadval) := by
  obtain ⟨front, nops, back, order, erased⟩ := instrPrev_span listed pair.before
  obtain ⟨highInstr, lowInstr, highSymref, lowSymref, highPresent, lowPresent, highOpcode, lowOpcode, highTarget,
    lowTarget, highId, lowId, highOff, lowOff⟩ := pair.reads
  have apart := span_apart order
  have earlier : .instr c idx ∈ ir.iterInstrs b := by
    rw [order]
    exact List.mem_append_right front List.mem_cons_self
  obtain rfl : c = b := Option.some.inj (mem_iterInstrs earlier)
  obtain ⟨home, absent, instrs, _, _⟩ := blockInstrInsert_view inserted
  have away (r : Ref) (here : (ir.instr? r).isSome) : r ≠ loadval := by
    rintro rfl
    rw [absent] at here
    cases here
  have lowAway := away _ (Option.isSome_of_mem lowPresent)
  have highAway := away _ (Option.isSome_of_mem highPresent)
  have view : ∀ r, (fusedReads ir₁ highRef (.instr c idx) loadval).instr? r =
      if r = highRef then some ⟨.u16, none, Attribute.NONE, .upper16, [loadval]⟩
      else if r = .instr c idx then some ⟨.u16, none, Attribute.NONE, .lower16, [loadval]⟩
      else if r = loadval then some ⟨.u32, none, Attribute.NONE, .readVar32, [.symbol symref]⟩
      else ir.instr? r := by
    intro r
    rw [fusedReads, instr?_modifyInstr, instr?_modifyInstr, instr?_modifyInstr, if_neg apart.1, instrs, instrs,
      if_neg lowAway, if_neg highAway, highPresent, lowPresent, instrs]
    rfl
  have upper := (view highRef).trans (if_pos rfl)
  have lower := (view (.instr c idx)).trans ((if_neg (Ne.symm apart.1)).trans (if_pos rfl))
  have load := (view loadval).trans ((if_neg (Ne.symm highAway)).trans ((if_neg (Ne.symm lowAway)).trans (if_pos rfl)))
  have nopsAway : ∀ r ∈ nops, r ∉ [loadval] := by
    intro r inside among
    obtain ⟨nop, present, _⟩ := erased r inside
    exact away r (Option.isSome_of_mem present) (List.mem_singleton.mp among)
  have skipped : ∀ r ∈ nops, (fusedReads ir₁ highRef (.instr c idx) loadval).instr? r = ir.instr? r := by
    intro r inside
    rw [view, if_neg (apart.2 r inside).1, if_neg (apart.2 r inside).2,
      if_neg fun same => nopsAway r inside (List.mem_singleton.mpr same)]
  have rewrites : Rewrites ir (fusedReads ir₁ highRef (.instr c idx) loadval) c front
      (.instr c idx :: (nops ++ [highRef])) ([loadval] ++ .instr c idx :: (nops ++ [highRef])) back := by
    have same (b : BlockRef) : (fusedReads ir₁ highRef (.instr c idx) loadval).iterInstrs b = ir₁.iterInstrs b := by
      rw [fusedReads, iterInstrs_modifyInstr, iterInstrs_modifyInstr]
    apply pair_rewrites [loadval] order ((same c).trans ?_) ?_ ?_ nopsAway erased
    · rintro r (among | rfl | rfl) instr found
      · obtain rfl := List.mem_singleton.mp among
        rw [absent, load] at found
        rcases found with none | same
        · cases none
        · obtain rfl := Option.some.inj same
          exact nofun
      · rw [lowPresent, lower] at found
        rcases found with same | same <;> obtain rfl := Option.some.inj same
        · rw [lowOpcode]
          decide
        · exact nofun
      · rw [highPresent, upper] at found
        rcases found with same | same <;> obtain rfl := Option.some.inj same
        · rw [highOpcode]
          decide
        · exact nofun
    · exact iterInstrs_insert inserted order (.inr ⟨idx, _, rfl, rfl⟩)
    · intro b other
      rw [same, iterInstrs_insert_away inserted other]
    · intro r notLoad notLow notHigh
      rw [view, if_neg notHigh, if_neg notLow, if_neg fun same => notLoad (List.mem_singleton.mpr same)]
  apply rewrites.refines
  intro A _ w σ τ σ' agrees ran
  rw [runList_pair erased lowPresent highPresent] at ran
  obtain ⟨σ₁, first, second⟩ := Option.bind_eq_some_iff.mp ran
  obtain rfl := exec_readVar16 lowOpcode lowTarget first
  obtain rfl := exec_readVar16 highOpcode highTarget second
  obtain ⟨loadIdx, rfl⟩ : ∃ loadIdx, loadval = .instr c loadIdx := by
    have loaded : loadval ∈ ir₁.iterInstrs c := by
      rw [iterInstrs_insert inserted order (.inr ⟨idx, _, rfl, rfl⟩)]
      exact List.mem_append_right front List.mem_cons_self
    exact listed_instr loaded
  have erased' : ∀ r ∈ nops, ∃ instr, (fusedReads ir₁ highRef (.instr c idx) (.instr c loadIdx)).instr? r = some instr ∧
      instr.opcode = .nop := by
    intro r inside
    rw [skipped r inside]
    exact erased r inside
  let whole : BitVec 32 := .ofNat 32 (τ.mem.read (w.window symref) 4)
  have halves := halves_read τ.mem (w.window symref)
  have one : Agrees ir σ (τ.define (.instr c loadIdx) (some whole)) := agrees.fresh absent _
  have two : Agrees ir (σ.define (.instr c idx) (some (.ofNat 32 (σ.mem.read (w.window lowSymref) 2))))
      ((τ.define (.instr c loadIdx) (some whole)).define (.instr c idx)
        (some (PureUnary.lower16.value .word .dword whole))) := by
    refine one.define (Option.isSome_of_mem lowPresent) fun x same => ?_
    rw [← same, halves.1, window_low lowId lowOff, agrees.mem]
  have three : Agrees ir
      ((σ.define (.instr c idx) (some (.ofNat 32 (σ.mem.read (w.window lowSymref) 2)))).define highRef
      (some (.ofNat 32 (σ.mem.read (w.window highSymref) 2))))
      (((τ.define (.instr c loadIdx) (some whole)).define (.instr c idx)
        (some (PureUnary.lower16.value .word .dword whole))).define highRef
        (some (PureUnary.upper16.value .word .dword whole))) := by
    refine two.define (Option.isSome_of_mem highPresent) fun x same => ?_
    rw [← same, halves.2, window_high highId highOff, agrees.mem]
  have loaded : w.eval (τ.define (.instr c loadIdx) (some whole)) (.instr c loadIdx) = some whole :=
    Function.update_self ..
  have still : w.eval ((τ.define (.instr c loadIdx) (some whole)).define (.instr c idx)
      (some (PureUnary.lower16.value .word .dword whole))) (.instr c loadIdx) = some whole :=
    (Function.update_of_ne (Ne.symm lowAway) ..).trans loaded
  refine ⟨_, ?_, three⟩
  rw [List.singleton_append, runList_cons, load, Option.bind_some]
  have pairRuns := (runList_pair erased' lower upper (τ.define (.instr c loadIdx) (some whole))).trans
    (Option.bind_eq_some_iff.mpr ⟨_, Option.bind_eq_some_iff.mpr ⟨whole, loaded, rfl⟩,
      Option.bind_eq_some_iff.mpr ⟨whole, still, rfl⟩⟩)
  exact Option.bind_eq_some_iff.mpr ⟨_, rfl, pairRuns⟩

end Reads

section Passes

variable {visit : IR → Ref → Option IR} {ir next : IR}

/-- What every visit of a listed instruction refines, the pass refines. -/
theorem forEachInstr_refines
    (step : ∀ cur b r next, r ∈ cur.iterInstrs b → visit cur r = some next → Refines cur next)
    (ran : forEachInstr visit ir = some next) : Refines ir next := by
  have inBlock : ∀ (rs : List Ref) (b : BlockRef) (cur next : IR), (∀ r ∈ rs, r ∈ cur.iterInstrs b) →
      rs.foldlM visit cur = some next → Refines cur next := by
    intro rs b
    induction rs with
    | nil =>
        intro cur next _ ran
        obtain rfl := Option.some.inj ran
        exact .refl cur
    | cons r rest hypothesis =>
        intro cur next listed ran
        rw [List.foldlM_cons] at ran
        obtain ⟨middle, first, ran⟩ := Option.bind_eq_some_iff.mp ran
        have one := step cur b r middle (listed r List.mem_cons_self) first
        exact one.trans (hypothesis middle next
          (fun s inside => one.listed b s (listed s (List.mem_cons_of_mem r inside))) ran)
  have inBlocks : ∀ (bs : List BlockRef) (cur next : IR),
      bs.foldlM (fun ir b => (ir.iterInstrs b).foldlM visit ir) cur = some next → Refines cur next := by
    intro bs
    induction bs with
    | nil =>
        intro cur next ran
        obtain rfl := Option.some.inj ran
        exact .refl cur
    | cons b rest hypothesis =>
        intro cur next ran
        rw [List.foldlM_cons] at ran
        obtain ⟨middle, first, ran⟩ := Option.bind_eq_some_iff.mp ran
        exact (inBlock _ b cur middle (fun _ => id) first).trans (hypothesis middle next ran)
  exact inBlocks ir.iterBlocks ir next ran

theorem fuseAdjacentWritevar16ToWritevar32_refines {fuel : Nat} {structs : List Struct}
    (ran : fuseAdjacentWritevar16ToWritevar32 fuel structs ir = some next) : Refines ir next := by
  apply forEachInstr_refines _ ran
  intro cur b r after listed visited
  by_cases changed : after = cur
  · exact changed ▸ .refl cur
  · obtain ⟨ref2, symref, highVal, lowVal, pair, rfl⟩ := fuseWriteVar16_cases changed visited
    exact pair.refines listed

theorem fuseAdjacentReadvar16ToReadvar32_refines (ran : fuseAdjacentReadvar16ToReadvar32 ir = some next) :
    Refines ir next := by
  apply forEachInstr_refines _ ran
  intro cur b r after listed visited
  by_cases changed : after = cur
  · exact changed ▸ .refl cur
  · obtain ⟨c, idx, symref, loadval, ir₁, pair, inserted, rfl⟩ := fuseReadVar16_cases changed visited
    exact pair.refines listed inserted

/-- A run of the function is a run of the function after either pass: its memory, its way out and its values are the
same at the end of every block. -/
theorem fusing_keeps_runs {A : Type} [DecidableEq A] (w : Machine A) (fuel : Nat) (structs : List Struct)
    (fused : fuseAdjacentWritevar16ToWritevar32 fuel structs ir = some next ∨
      fuseAdjacentReadvar16ToReadvar32 ir = some next) {n : Nat} {way : Way} {σ σ' : Running A}
    (listed : ∀ r v, σ.env r = some v → (ir.instr? r).isSome) (ran : w.runFrom ir n way σ = some σ') :
    ∃ τ', w.runFrom next n way σ = some τ' ∧ τ'.mem = σ'.mem ∧ τ'.exit = σ'.exit ∧
      ∀ r v, σ'.env r = some v → τ'.env r = some v := by
  have refines : Refines ir next := by
    rcases fused with writes | reads
    · exact fuseAdjacentWritevar16ToWritevar32_refines writes
    · exact fuseAdjacentReadvar16ToReadvar32_refines reads
  have itself : Agrees ir σ σ := ⟨rfl, rfl, fun _ _ => id, listed⟩
  obtain ⟨τ', ran', agrees⟩ := refines.runFrom w itself ran
  exact ⟨τ', ran', agrees.mem, agrees.exit, agrees.env⟩

/-- A long variable whose halves are written one by one. -/
def halvesWritten : IR where
  consts := [1, 2]
  symbols := { SymbolMap.new with globals := [⟨"total", .u32, 0, 4⟩] }
  funcs := []
  names := fun _ => none
  nameNext := fun _ => none
  blocks := [some {
    name := "entry"
    defs := fun _ => none
    preds := []
    data := ((InstrData.new.insert ⟨.void, none, Attribute.NONE, .writeVar16,
      [.symbol ⟨⟨.global, 0⟩, ⟨2, 2⟩⟩, .const 0]⟩ .last).2.insert ⟨.void, none, Attribute.NONE, .writeVar16,
      [.symbol ⟨⟨.global, 0⟩, ⟨0, 2⟩⟩, .const 1]⟩ .last).2
    sealed := true
    incompletePhis := [] }]

/-- A memory with one symbol, in which no other instruction runs. -/
def oneSymbol : Machine Int where
  place := fun _ off => off
  apart := by
    intro _ off i j _ _ same
    omega
  known
    | .const 0 => some 1
    | .const 1 => some 2
    | _ => none
  effect := fun _ _ _ => none

theorem halvesWritten_fused : ∃ next τ', fuseAdjacentWritevar16ToWritevar32 1 [] halvesWritten = some next ∧
    (next.instr? (.instr 0 0)).map Instr.opcode = some .make32 ∧
    oneSymbol.runFrom next 1 (0, 0) ⟨fun _ => none, fun _ => 0, none⟩ = some τ' ∧ τ'.mem 0 = 2 ∧ τ'.mem 2 = 1 := by
  obtain ⟨next, fused, joined⟩ : ∃ next, fuseAdjacentWritevar16ToWritevar32 1 [] halvesWritten = some next ∧
      (next.instr? (.instr 0 0)).map Instr.opcode = some .make32 := ⟨_, rfl, rfl⟩
  obtain ⟨σ', ran, low, high⟩ : ∃ σ', oneSymbol.runFrom halvesWritten 1 (0, 0) ⟨fun _ => none, fun _ => 0, none⟩ =
      some σ' ∧ σ'.mem 0 = 2 ∧ σ'.mem 2 = 1 := ⟨_, rfl, rfl, rfl⟩
  have empty : ∀ r v, (none : Option (BitVec 32)) = some v → (halvesWritten.instr? r).isSome := fun _ _ => nofun
  obtain ⟨τ', ran', mem, _⟩ := fusing_keeps_runs oneSymbol 1 [] (.inl fused) empty ran
  exact ⟨next, τ', fused, joined, ran', by rw [mem, low], by rw [mem, high]⟩

end Passes

end Dis86.Opt
