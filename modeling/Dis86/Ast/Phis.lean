import Dis86.Ast.Leaves
import Dis86.Ast.Meaning
import Dis86.Lib.ParallelAssign
import Dis86.IR.Execution

namespace Dis86

namespace Ast
open Lib (Move InParallel)

/-- The type with which a variable is declared. -/
def Builder.declaredType (b : Builder) (n : String) : Typ :=
  ((b.assigns.find? fun declared => declared.1 = n).map Prod.snd).getD .unknown

/-- A run of assignments to variables; each one converts to the type of its variable. -/
def Meaning.run {V : Type} (m : Meaning V) (declared : String → Typ) :
    (String → V) → Block → Option (String → V)
  | env, [] => some env
  | env, .assign ⟨none, .name x, rhs⟩ :: rest =>
      m.run declared (Function.update env x (m.convert (declared x) (m.eval env rhs))) rest
  | _, _ => none

/-- A phi of the target with its operand for the edge, its variable and its rendered operand. -/
structure PhiMove where
  phi : Ref
  operand : Ref
  name : String
  rvalue : Expr

namespace PhiMove

def stmt (move : PhiMove) : Stmt := .assign ⟨none, .name move.name, move.rvalue⟩

/-- The move carries the names and the rendering of the builder. -/
structure Of (b : Builder) (src dst : BlockRef) (move : PhiMove) : Prop where
  name : b.NameOf move.phi move.name
  operand : b.ir.edgeOperand src dst move.phi = some move.operand
  rvalue : Rendered b false false false move.operand move.rvalue false

theorem Of.mono {b c : Builder} {src dst : BlockRef} {move : PhiMove} (grows : b.Grows c)
    (of : move.Of b src dst) : move.Of c src dst where
  name := of.name.mono grows
  operand := by
    rw [grows.ir]
    exact of.operand
  rvalue := of.rvalue.mono grows

/-- The assignment as a move between variables. -/
def toMove {V : Type} (m : Meaning V) (declared : String → Typ) (move : PhiMove) :
    Move String V where
  target := move.name
  source env := m.convert (declared move.name) (m.eval env move.rvalue)
  reads x := x ∈ move.rvalue.reads
  confined env env' same := by rw [m.eval_congr move.rvalue same]

end PhiMove

/-- A run of phi assignments is the sequence of their moves. -/
theorem Meaning.run_moves {V : Type} (m : Meaning V) (declared : String → Typ)
    (env : String → V) (moves : List PhiMove) :
    m.run declared env (moves.map PhiMove.stmt) =
      some (Lib.sequence env (moves.map (PhiMove.toMove m declared))) := by
  induction moves generalizing env with
  | nil => rfl
  | cons move moves ih =>
      simp only [List.map_cons, PhiMove.stmt, run]
      exact ih _

namespace Builder

theorem refToExpr_rendered {fuel : Nat} {b c : Builder} {r : Ref} {depth : Nat} {e : Expr}
    (rendered : b.refToExpr fuel r depth = some (e, c)) :
    b.Grows c ∧ Rendered c (depth = 0) false false r e false := by
  simp only [refToExpr, refToExpr2, Option.bind_eq_bind, Option.bind_eq_some_iff,
    Option.pure_def] at rendered
  obtain ⟨⟨⟨e', rest⟩, c'⟩, impl, same⟩ := rendered
  obtain ⟨grows, rendered⟩ := refToExprImpl_rendered impl
  obtain rfl := rendered.rest_false rfl
  cases same
  exact ⟨grows, rendered⟩

theorem assign_grows (b : Builder) (blk : Block) (typ : Typ) (name : String) (rhs : Expr) :
    b.Grows (b.assign blk typ name rhs).2 := by
  unfold assign
  dsimp only
  split
  · exact .refl b
  · exact ⟨rfl, fun _ _ named => named⟩

/-- One phi of the target appends its own assignment. -/
theorem emitPhi_move {fuel idx : Nat} {b c : Builder} {blk blk' : Block} {r : Ref}
    {src dst : BlockRef} (edge : b.ir.edgeIndex src dst = some idx)
    (emitted : emitPhi fuel idx (blk, b) r = some (blk', c)) :
    b.Grows c ∧ ∃ moves : List PhiMove, blk' = blk ++ moves.map PhiMove.stmt ∧
      moves.map PhiMove.phi =
        [r].filter (fun r => (b.ir.instr? r).any fun instr => instr.opcode = .phi) ∧
      ∀ move ∈ moves, move.Of c src dst := by
  simp only [emitPhi, Option.bind_eq_bind, Option.bind_eq_some_iff, Option.pure_def] at emitted
  obtain ⟨instr, known, emitted⟩ := emitted
  split at emitted
  · rename_i notPhi
    cases emitted
    refine ⟨.refl b, [], by simp, ?_, by simp⟩
    simp [known, notPhi]
  · rename_i isPhi
    simp only [Option.bind_eq_some_iff] at emitted
    obtain ⟨operand, present, ⟨rvalue, d⟩, rendered, same⟩ := emitted
    obtain ⟨named, name⟩ := refName_named b r
    obtain ⟨grows, rendered⟩ := refToExpr_rendered rendered
    have last := assign_grows d blk instr.typ (b.refName r).1 rvalue
    have pair : d.assign blk instr.typ (b.refName r).1 rvalue = (blk', c) := Option.some.inj same
    have blkSame : blk ++ [.assign ⟨none, .name (b.refName r).1, rvalue⟩] = blk' :=
      congrArg Prod.fst pair
    rw [pair] at last
    have all := named.trans (grows.trans last)
    refine ⟨all, [⟨r, operand, (b.refName r).1, rvalue⟩], blkSame.symm, ?_, ?_⟩
    · simp [known, not_not.mp isPhi]
    · intro move inside
      obtain rfl := List.mem_singleton.mp inside
      refine ⟨name.mono (grows.trans last), ?_, rendered.mono last⟩
      rw [all.ir]
      simp [IR.edgeOperand, known, edge, present]

/-- An edge appends one assignment for each phi of its target, in their order. -/
theorem emitPhis_moves {fuel : Nat} {b c : Builder} {blk blk' : Block} {src dst : BlockRef}
    (emitted : b.emitPhis fuel blk src dst = some (blk', c)) :
    b.Grows c ∧ ∃ moves : List PhiMove, blk' = blk ++ moves.map PhiMove.stmt ∧
      moves.map PhiMove.phi = b.ir.phisOf dst ∧ ∀ move ∈ moves, move.Of c src dst := by
  simp only [emitPhis, Option.bind_eq_bind, Option.bind_eq_some_iff] at emitted
  obtain ⟨target, known, idx, found, emitted⟩ := emitted
  have edge : b.ir.edgeIndex src dst = some idx := by simp [IR.edgeIndex, known, found]
  unfold IR.phisOf
  generalize b.ir.iterInstrs dst = refs at emitted
  clear known found
  induction refs generalizing b blk with
  | nil =>
      cases emitted
      exact ⟨.refl _, [], by simp, rfl, by simp⟩
  | cons r refs ih =>
      rw [List.foldlM_cons, Option.bind_eq_bind, Option.bind_eq_some_iff] at emitted
      obtain ⟨⟨middle, d⟩, first, rest⟩ := emitted
      obtain ⟨firstGrows, moves, rfl, phis, each⟩ := emitPhi_move edge first
      have edge' : d.ir.edgeIndex src dst = some idx := by rwa [firstGrows.ir]
      obtain ⟨restGrows, others, rfl, otherPhis, otherEach⟩ := ih edge' rest
      refine ⟨firstGrows.trans restGrows, moves ++ others, by simp, ?_, ?_⟩
      · rw [List.map_append, phis, otherPhis, firstGrows.ir, ← List.filter_append]
        rfl
      · intro move inside
        rcases List.mem_append.mp inside with inside | inside
        · exact (each move inside).mono restGrows
        · exact otherEach move inside

end Builder

/-- The phis of an edge act as one parallel assignment: in the end the variable of each phi holds
the old value of the operand for the edge. -/
def ParallelPhis {V : Type} (m : Meaning V) (b : Builder) (src dst : BlockRef) (env : String → V)
    (stmts : Block) : Prop :=
  ∃ final, m.run b.declaredType env stmts = some final ∧
    ∀ phi ∈ b.ir.phisOf dst, ∃ n operand e, b.NameOf phi n ∧
      b.ir.edgeOperand src dst phi = some operand ∧
      Rendered b false false false operand e false ∧
      final n = m.convert (b.declaredType n) (m.eval env e)

/-- The variable of each phi holds a value of its type. -/
def TypedPhis {V : Type} (m : Meaning V) (b : Builder) (dst : BlockRef) (env : String → V) : Prop :=
  ∀ phi ∈ b.ir.phisOf dst, ∀ n, b.NameOf phi n → m.convert (b.declaredType n) (env n) = env n

/-- An operand reads an earlier phi of its own block only when that phi keeps its value. -/
def IndependentPhis (input : Input) (src dst : BlockRef) : Prop :=
  (input.ir.phisOf dst).Pairwise fun earlier later =>
    ∀ own operand, input.ir.edgeOperand src dst earlier = some own →
      input.ir.edgeOperand src dst later = some operand →
      input.Reads operand earlier → input.Copies own earlier

namespace PhiMove

variable {b : Builder} {src dst : BlockRef} {moves : List PhiMove}

/-- Phis with names of their own assign distinct variables. -/
theorem names_nodup (phis : moves.map PhiMove.phi = b.ir.phisOf dst)
    (each : ∀ move ∈ moves, move.Of b src dst)
    (named : ∀ phi ∈ b.ir.phisOf dst, ∃ n, OwnName b.ir phi n) :
    (moves.map PhiMove.name).Nodup := by
  have distinct : (moves.map PhiMove.phi).Nodup := by
    rw [phis]
    exact (b.ir.iterInstrs_nodup dst).filter _
  refine List.Nodup.map_on ?_ (List.Nodup.of_map _ distinct)
  intro first inside second inside' same
  obtain ⟨n, own⟩ := named first.phi (phis ▸ List.mem_map_of_mem inside)
  have name := (each first inside).name
  obtain rfl := name.unique own.nameOf
  have samePhi := own.owner (same ▸ (each second inside').name)
  exact List.inj_on_of_nodup_map distinct inside inside' samePhi.symm

/-- The statements act in parallel exactly when their moves do. -/
theorem parallel_iff {V : Type} {m : Meaning V} {env : String → V}
    (phis : moves.map PhiMove.phi = b.ir.phisOf dst)
    (each : ∀ move ∈ moves, move.Of b src dst) :
    ParallelPhis m b src dst env (moves.map PhiMove.stmt) ↔
      InParallel env (moves.map (toMove m b.declaredType)) := by
  constructor
  · rintro ⟨final, ran, parallel⟩ move' inside'
    obtain ⟨move, inside, rfl⟩ := List.mem_map.mp inside'
    rw [m.run_moves] at ran
    cases ran
    obtain ⟨n, operand, e, name, first, rendered, value⟩ :=
      parallel move.phi (phis ▸ List.mem_map_of_mem inside)
    have of := each move inside
    obtain rfl := name.unique of.name
    rw [of.operand] at first
    cases first
    obtain rfl := rendered.unique of.rvalue
    exact value
  · intro parallel
    refine ⟨_, m.run_moves _ _ _, fun phi isPhi => ?_⟩
    rw [← phis] at isPhi
    obtain ⟨move, inside, rfl⟩ := List.mem_map.mp isPhi
    have of := each move inside
    exact ⟨move.name, move.operand, move.rvalue, of.name, of.operand, of.rvalue,
      parallel _ (List.mem_map_of_mem inside)⟩

end PhiMove

/-- The phi assignments of an edge act in parallel under every meaning of the operators and every
valuation exactly when no operand reads an earlier phi that changes. -/
theorem emitPhis_parallel_iff {fuel : Nat} {b c : Builder} {blk blk' : Block} {src dst : BlockRef}
    (emitted : b.emitPhis fuel blk src dst = some (blk', c))
    (named : ∀ phi ∈ b.ir.phisOf dst, ∃ n, OwnName b.ir phi n) :
    (∀ (V : Type) (m : Meaning V) (env : String → V), TypedPhis m c dst env →
      ∃ stmts, blk' = blk ++ stmts ∧ ParallelPhis m c src dst env stmts) ↔
      IndependentPhis b.toInput src dst := by
  obtain ⟨grows, moves, rfl, phis, each⟩ := Builder.emitPhis_moves emitted
  rw [← grows.ir] at phis named
  rw [← grows.input]
  have names := PhiMove.names_nodup phis each named
  have pairs : IndependentPhis c.toInput src dst ↔ moves.Pairwise fun earlier later =>
      earlier.name ∈ later.rvalue.reads → earlier.rvalue = .name earlier.name := by
    unfold IndependentPhis
    rw [← phis, List.pairwise_map]
    refine List.Pairwise.iff_of_mem fun {earlier later} inside inside' => ?_
    obtain ⟨n, own⟩ := named earlier.phi (phis ▸ List.mem_map_of_mem inside)
    obtain rfl := own.nameOf.unique (each earlier inside).name
    rw [(each later inside').rvalue.mentions_iff rfl own,
      (each earlier inside).rvalue.name_iff rfl own]
    simp [(each earlier inside).operand, (each later inside').operand]
  rw [pairs]
  have targets : ∀ {V : Type} (m : Meaning V),
      ((moves.map (PhiMove.toMove m c.declaredType)).map Move.target).Nodup := by
    intro V m
    rw [List.map_map]
    exact names
  constructor
  · intro parallel
    -- The free meaning tells two operands apart as soon as they differ as expressions.
    obtain ⟨stmts, same, free⟩ := parallel Expr .free .name fun _ _ _ _ => rfl
    obtain rfl := List.append_cancel_left same
    rw [PhiMove.parallel_iff phis each] at free
    refine Lib.pairwise_of_splits fun before later after split earlier inside mention => ?_
    subst split
    rw [List.map_append, List.map_cons] at free
    have distinct := targets Meaning.free
    rw [List.map_append, List.map_cons] at distinct
    have unnoticed := (Lib.inParallel_iff distinct).mp free _ _ _ rfl
    have settled := free.prefix_target distinct (List.mem_map_of_mem inside)
    simp only [PhiMove.toMove, Meaning.free_eval_name] at unnoticed settled
    exact settled.symm.trans (Meaning.free_eval_fixed _ unnoticed _ mention)
  · intro quiet V m env typed
    refine ⟨_, rfl, (PhiMove.parallel_iff phis each).mpr ?_⟩
    refine Lib.inParallel_of_reads (targets m) (List.pairwise_map.mpr ?_)
    refine List.Pairwise.imp_of_mem (fun {earlier later} inside _ keeps mention => ?_) quiet
    have typedPhi := typed earlier.phi (phis ▸ List.mem_map_of_mem inside) _ (each earlier inside).name
    simpa [PhiMove.toMove, keeps mention, Meaning.eval] using typedPhi

/-- A loop whose header has two phis, with given operands for the back edge. -/
def twoPhis (first second : Ref) : IR where
  consts := [7]
  symbols := .new
  funcs := []
  names r :=
    if r = .instr 1 0 then some ⟨.reg .AX, 1⟩
    else if r = .instr 1 1 then some ⟨.reg .BX, 1⟩
    else none
  nameNext _ := none
  blocks := [
    some ⟨"entry", fun _ => none, [],
      ⟨[⟨.void, none, Attribute.NONE, .jmp, [.block 1]⟩], [0], by decide, distinct_one⟩, true, []⟩,
    some ⟨"loop", fun _ => none, [0, 1],
      ⟨[⟨.u16, none, Attribute.NONE, .phi, [.init .AX, first]⟩,
        ⟨.u16, none, Attribute.NONE, .phi, [.init .BX, second]⟩,
        ⟨.void, none, Attribute.NONE, .jne, [.instr 1 0, .block 1, .block 2]⟩],
        [0, 1, 2], by simp, distinct_three⟩, true, []⟩,
    some ⟨"exit", fun _ => none, [1],
      ⟨[⟨.void, none, Attribute.NONE, .retNear, []⟩], [0], by decide, distinct_one⟩, true, []⟩]

/-- The finalized loop has a block of its own on the back edge. -/
def twoPhisFinal (first second : Ref) : IR := (Fin.finalize (twoPhis first second)).getD .new

/-- The builder after the back edge has declared both variables. -/
def twoPhisDone (first second : Ref) : Builder :=
  { Builder.new [] (twoPhisFinal first second) with assigns := [("ax_1", .u16), ("bx_1", .u16)] }

theorem tempName_ne {n : String} (notTemp : n.toList.head? ≠ some 't') (k : Nat) :
    Builder.tempName k ≠ n := by
  rintro rfl
  apply notTemp
  simp [Builder.tempName]

/-- The registers known to a new function have capital names. -/
theorem newSymbol_ne {n : String} (away : n ∉ SymbolMap.new.registers.map SymbolDef.name)
    (symref : SymbolRef) (sym : SymbolDef) (known : symref.def? .new = some sym) : sym.name ≠ n := by
  rintro rfl
  apply away
  unfold SymbolRef.def? SymbolMap.getTable at known
  cases table : symref.id.table with
  | register =>
      rw [table] at known
      exact List.mem_map_of_mem (List.mem_of_getElem? known)
  | _ =>
      rw [table] at known
      simp [SymbolMap.new] at known

theorem twoPhis_own (first second : Ref) :
    ∀ phi ∈ (twoPhisFinal first second).phisOf 1, ∃ n, OwnName (twoPhisFinal first second) phi n := by
  have names : (twoPhisFinal first second).names = (twoPhis first second).names := rfl
  have phis : (twoPhisFinal first second).phisOf 1 = [.instr 1 0, .instr 1 1] := rfl
  intro phi inside
  rw [phis] at inside
  rcases List.mem_cons.mp inside with rfl | inside
  · refine ⟨"ax_1", ⟨⟨.reg .AX, 1⟩, rfl, rfl⟩, fun other full known same => ?_,
      tempName_ne (by decide), fun reg => by cases reg <;> decide, newSymbol_ne (by decide)⟩
    rw [names] at known
    simp only [twoPhis] at known
    split at known
    · assumption
    · split at known
      · cases known
        exact absurd same (by decide)
      · cases known
  · obtain rfl := List.mem_singleton.mp inside
    refine ⟨"bx_1", ⟨⟨.reg .BX, 1⟩, rfl, rfl⟩, fun other full known same => ?_,
      tempName_ne (by decide), fun reg => by cases reg <;> decide, newSymbol_ne (by decide)⟩
    rw [names] at known
    simp only [twoPhis] at known
    split at known
    · cases known
      exact absurd same (by decide)
    · split at known
      · assumption
      · cases known

/-- A meaning over numbers in which every operator is the constant zero. -/
def zeroMeaning : Meaning Nat where
  unary _ _ := 0
  address _ := 0
  binary _ _ _ := 0
  hexConst _ := 0
  decimalConst _ := 0
  call _ _ := 0
  abstract _ _ := 0
  arrayAccess _ _ := 0
  structAccess _ _ := 0
  deref _ := 0
  guestMem _ _ _ := 0
  cast _ value := value
  convert _ value := value

/-- Two phis that swap are emitted as two assignments, and both variables end with one value. -/
theorem emitPhis_swap_not_parallel :
    Fin.finalize (twoPhis (.instr 1 1) (.instr 1 0)) =
      some (twoPhisFinal (.instr 1 1) (.instr 1 0)) ∧
    Builder.emitPhis 3 (.new [] (twoPhisFinal (.instr 1 1) (.instr 1 0))) [] 3 1 =
      some ([.assign ⟨none, .name "ax_1", .name "bx_1"⟩,
        .assign ⟨none, .name "bx_1", .name "ax_1"⟩], twoPhisDone (.instr 1 1) (.instr 1 0)) ∧
    ∃ env : String → Nat, TypedPhis zeroMeaning (twoPhisDone (.instr 1 1) (.instr 1 0)) 1 env ∧
      ¬ ParallelPhis zeroMeaning (twoPhisDone (.instr 1 1) (.instr 1 0)) 3 1 env
        [.assign ⟨none, .name "ax_1", .name "bx_1"⟩,
          .assign ⟨none, .name "bx_1", .name "ax_1"⟩] := by
  refine ⟨rfl, rfl, fun n => if n = "ax_1" then 1 else 2, fun _ _ _ _ => rfl, ?_⟩
  rintro ⟨final, ran, parallel⟩
  obtain ⟨n, operand, e, name, first, rendered, value⟩ := parallel (.instr 1 1) (by decide)
  have nameSame : n = "bx_1" := name
  have operandSame : operand = .instr 1 0 := (Option.some.inj first).symm
  subst nameSame operandSame
  obtain ⟨n, name, rfl⟩ := rendered.known_named rfl (.inr rfl)
  have nameSame : n = "ax_1" := name
  subst nameSame
  cases ran
  exact absurd value (by decide)

/-- A phi that another one reads may be assigned after it. -/
theorem emitPhis_shift_parallel :
    IndependentPhis (twoPhisDone (.instr 1 1) (.const 0)).toInput 3 1 ∧
    ∀ (V : Type) (m : Meaning V) (env : String → V),
      TypedPhis m (twoPhisDone (.instr 1 1) (.const 0)) 1 env →
      ∃ stmts, [.assign ⟨none, .name "ax_1", .name "bx_1"⟩,
          .assign ⟨none, .name "bx_1", .decimalConst 7⟩] = [] ++ stmts ∧
        ParallelPhis m (twoPhisDone (.instr 1 1) (.const 0)) 3 1 env stmts := by
  have independent : IndependentPhis (twoPhisDone (.instr 1 1) (.const 0)).toInput 3 1 := by
    refine List.pairwise_pair.mpr fun own operand _ second read => ?_
    have operandSame : operand = .const 0 := (Option.some.inj second).symm
    subst operandSame
    obtain ⟨instr, known⟩ := read.known
    cases known
  have emitted : Builder.emitPhis 3 (.new [] (twoPhisFinal (.instr 1 1) (.const 0))) [] 3 1 =
      some ([.assign ⟨none, .name "ax_1", .name "bx_1"⟩,
        .assign ⟨none, .name "bx_1", .decimalConst 7⟩], twoPhisDone (.instr 1 1) (.const 0)) := rfl
  exact ⟨independent, (emitPhis_parallel_iff emitted (twoPhis_own _ _)).mpr independent⟩

end Ast

end Dis86
