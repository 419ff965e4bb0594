import Dis86.Build.StringAgreement
import Dis86.Analyze.Total
import Dis86.Ast.Render

namespace Dis86.Asm
open Lib (Outcome Run)
open RegionIter (peekChecked advance)

def stringOps : List Opcode := [.MOVS, .STOS, .LODS, .CMPS, .SCAS]

/-- The operands of the string operations, for bytes and for words. -/
def stringOpers : Opcode → List Oper × List Oper
  | .MOVS | .CMPS => ([.DST8, .SRC8, .NONE], [.DST16, .SRC16, .NONE])
  | .STOS => ([.DST8, .AL, .NONE], [.DST16, .AX, .NONE])
  | .LODS => ([.AL, .SRC8, .NONE], [.AX, .SRC16, .NONE])
  | .SCAS => ([.AL, .DST8, .NONE], [.AX, .DST16, .NONE])
  | _ => ([], [])

theorem string_rows : ∀ fmt ∈ instrTbl, fmt.op ∈ stringOps →
    (fmt.opers = (stringOpers fmt.op).1 ∨ fmt.opers = (stringOpers fmt.op).2) ∧ fmt.hidden = 0 := by
  decide +kernel

/-- A prefix byte names one of the four segment registers, or none. -/
theorem take?_sreg {p p' : Prefixes} {b : BitVec 8} (taken : p.take? b = some p')
    (segment : ∀ r, p.sreg = some r → r ∈ Build.segmentRegs) :
    ∀ r, p'.sreg = some r → r ∈ Build.segmentRegs := by
  unfold Prefixes.take? at taken
  split at taken <;> first
    | (obtain rfl := Option.some.inj taken
       first
         | exact segment
         | (intro r named
            obtain rfl := Option.some.inj named
            decide))
    | cases taken

theorem prefixLoop_sreg {fuel : Nat} {p p' : Prefixes} {bin stop : RegionIter}
    (ran : prefixLoop fuel p bin = (.ok p', stop))
    (segment : ∀ r, p.sreg = some r → r ∈ Build.segmentRegs) :
    ∀ r, p'.sreg = some r → r ∈ Build.segmentRegs := by
  induction fuel generalizing p bin with
  | zero => cases ran
  | succ fuel hypothesis =>
      obtain ⟨b, _, _, ran⟩ := Run.bind_eq_ok.mp ran
      cases taken : p.take? b with
      | none =>
          rw [taken] at ran
          obtain ⟨same, _⟩ := Prod.mk.inj ran
          obtain rfl := Outcome.ok.inj same
          exact segment
      | some next =>
          rw [taken] at ran
          obtain ⟨_, _, _, ran⟩ := Run.bind_eq_ok.mp ran
          exact hypothesis ran (take?_sreg taken segment)

/-- A decoded instruction is made from a row of the table. -/
theorem decodeOne_row {bin stop : RegionIter} (fits : bin.Fits) {ins : Instr} {raw : Bytes}
    (ran : decodeOne bin = (.ok (some (ins, raw)), stop)) :
    ∃ row ∈ instrTbl, ∃ prefixes rest, decodePrefixes bin = (.ok prefixes, rest) ∧
      ins = ⟨prefixes.rep, row.op, ins.operands, ins.addr, ins.nBytes, row.hidden⟩ ∧
      ∃ modrm start finish, decodeOperands modrm prefixes.sreg row.opers [] start = (.ok ins.operands, finish) := by
  obtain ⟨stands, _⟩ := decodeOne_stands fits ran
  obtain ⟨p, fmt, operands, nBytes, same, reads⟩ := stands.reads
  have parts := reads.run_eq fits
  obtain ⟨prefixes, rest, taken, parts⟩ := Run.bind_eq_ok.mp parts
  obtain ⟨opcode1, _, _, parts⟩ := Run.bind_eq_ok.mp parts
  obtain ⟨_, _, opcode, parts⟩ := Run.bind_eq_ok.mp parts
  obtain ⟨pair, _⟩ := Prod.mk.inj parts
  obtain ⟨rfl, rfl⟩ := Prod.mk.inj (Outcome.ok.inj pair)
  obtain ⟨row, _, found, decoded⟩ := Run.bind_eq_ok.mp opcode
  obtain ⟨_, _, _, decoded⟩ := Run.bind_eq_ok.mp decoded
  obtain ⟨modrm, start, _, decoded⟩ := Run.bind_eq_ok.mp decoded
  obtain ⟨operands', finish, read, decoded⟩ := Run.bind_eq_ok.mp decoded
  obtain ⟨pair, _⟩ := Prod.mk.inj decoded
  obtain ⟨rfl, rfl⟩ := Prod.mk.inj (Outcome.ok.inj pair)
  have values : ins.operands = operands' := by rw [same]
  have size : ins.nBytes = nBytes := by rw [same]
  refine ⟨row, findFmt_row _ _ _ _ _ found, prefixes, rest, taken, ?_, modrm, start, finish, ?_⟩
  · rw [values, size]
    exact same
  · rw [values]
    exact read

end Dis86.Asm

namespace Dis86.Build
open Asm (Reg)
open Lib (Outcome Run)
open Hydra (Hardware Element)

/-- The operands of a string operation are read without a byte of the instruction. -/
theorem stringOperands_eq (op : StringOp) (element : Element) (rep : Asm.Rep) {sreg : Option Reg}
    (segment : sreg.getD .DS ∈ segmentRegs) (modrm : BitVec 8) (bin : Asm.RegionIter) :
    let i : StringInstr := ⟨op, element, sreg.getD .DS, segment, rep⟩
    let opers := match element with
      | .byte => (Asm.stringOpers i.opcode).1
      | .word => (Asm.stringOpers i.opcode).2
    Asm.decodeOperands modrm sreg opers [] bin = (.ok i.operands, bin) := by
  cases op <;> cases element <;> rfl

/-- A decoded string operation with a repeat prefix is one of the instructions above. -/
theorem StringInstr.of_decoded {bin stop : Asm.RegionIter} (fits : bin.Fits) {ins : Asm.Instr}
    {raw : Asm.Bytes} (ran : Asm.decodeOne bin = (.ok (some (ins, raw)), stop))
    (string : ins.opcode ∈ Asm.stringOps) {rep : Asm.Rep} (repeated : ins.rep = some rep) :
    ∃ i : StringInstr, ins = i.instr ins.addr ins.nBytes := by
  obtain ⟨row, listed, prefixes, _, taken, same, modrm, start, finish, read⟩ := Asm.decodeOne_row fits ran
  have op : ins.opcode = row.op := by rw [same]
  have named : ins.rep = prefixes.rep := by rw [same]
  rw [op] at string
  obtain ⟨shape, hidden⟩ := Asm.string_rows row listed string
  have segment : prefixes.sreg.getD .DS ∈ segmentRegs := by
    cases sreg : prefixes.sreg with
    | none => decide
    | some r => exact Asm.prefixLoop_sreg taken nofun r sreg
  obtain ⟨kind, opcode_eq⟩ : ∃ kind : StringOp, row.op =
      StringInstr.opcode ⟨kind, .byte, _, segment, rep⟩ := by
    simp only [Asm.stringOps, List.mem_cons, List.not_mem_nil, or_false] at string
    rcases string with is | is | is | is | is
    · exact ⟨.movs, is⟩
    · exact ⟨.stos, is⟩
    · exact ⟨.lods, is⟩
    · exact ⟨.cmps, is⟩
    · exact ⟨.scas, is⟩
  have whole (element : Element) (operands_eq : ins.operands =
      (⟨kind, element, _, segment, rep⟩ : StringInstr).operands) :
      ins = (⟨kind, element, _, segment, rep⟩ : StringInstr).instr ins.addr ins.nBytes := by
    rw [repeated] at named
    refine same.trans ?_
    rw [hidden, operands_eq, ← named, opcode_eq]
    rfl
  have read_eq (element : Element) (opers : row.opers = match element with
      | .byte => (Asm.stringOpers row.op).1
      | .word => (Asm.stringOpers row.op).2) : ins.operands =
        (⟨kind, element, _, segment, rep⟩ : StringInstr).operands := by
    rw [opers, opcode_eq] at read
    obtain ⟨pair, _⟩ := Prod.mk.inj
      (read.symm.trans (stringOperands_eq kind element rep segment modrm _))
    exact Outcome.ok.inj pair
  rcases shape with bytes | words
  · exact ⟨_, whole .byte (read_eq .byte bytes)⟩
  · exact ⟨_, whole .word (read_eq .word words)⟩

/-- A memory of bytes; a word has its low byte first. -/
def bytes : Hardware (Hydra.U32 → Hydra.U8) where
  memRead8 m addr := m addr
  memRead16 m addr := m (addr + 1) ++ m addr
  memWrite8 m addr v := Function.update m addr v
  memWrite16 m addr v :=
    Function.update (Function.update m addr (v.setWidth 8)) (addr + 1) ((v >>> 8).setWidth 8)

/-- All registers are zero but the accumulator, and the memory is zero. -/
def zeroGuest : Guest (Hydra.U32 → Hydra.U8) :=
  ⟨Function.update (fun _ => 0) .AX 1, fun _ => 0⟩

/-- ES has been loaded from the first word of the memory, and the load is spliced into the macro. -/
def splicedSegments : Segments zeroGuest where
  text seg m := if seg = .ES then bytes.load .word 0 0 m else 0
  exact := by decide

/-- `rep stosb` -/
def repStosb : StringInstr := ⟨.stos, .byte, .DS, by decide, .eq⟩

/-- A load with one use, and the macro that uses it: `mov es, [0]` and `rep stosb` for a count. -/
def splicedFunction : Option IR := do
  let (b, ir) := IR.new.addBlock "entry"
  let (zero, ir) := ir.constNew 0
  let (two, ir) := ir.constNew 2
  let (one, ir) := ir.constNew 1
  let (es, ir) ← ir.blockInstrAppend b ⟨.u16, none, Attribute.MAY_ESCAPE, .load16, [.init .DS, zero]⟩
  let (_, ir) ← ir.blockInstrAppend b
    ⟨.void, none, Attribute.NONE, .repStos, [es, .init .DI, two, .init .AL, one]⟩
  return ir

/-- The emitted macro reads the segment from the memory. -/
example : (splicedFunction.bind fun ir =>
    ((Ast.Builder.new [] ir).refToExpr 3 (.instr 0 1) 0).map Prod.fst) =
      some (.abstract "REP_STOSB" [.deref (.abstract "PTR_16" [.name "DS", .hexConst 0]),
        .name "DI", .decimalConst 2, .name "AL"]) := by
  rfl

/-- The first store changes the word that the segment is read from, and the second store goes to
another segment. -/
theorem repStosb_spliced_segment : ¬ ∀ cx, repStosb.Agrees bytes ⟨.normal 0, 0⟩ 2 false 0
    splicedSegments cx := by
  intro agree
  have memories := (StringInstr.storing_agrees_iff (.inr rfl) splicedSegments 2).mp (agree 2)
  have second := congrFun memories 1
  revert second
  decide

end Dis86.Build
