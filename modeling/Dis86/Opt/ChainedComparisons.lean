import Dis86.Ast.Tree
import Dis86.Opt.Sweep

namespace Dis86.Opt
open IR
open Ast (PureBinary compareAt flag)
open Lib (Width)

/-- The comparisons, each with its inverse. -/
def cmpOps : List (Opcode × Opcode) :=
  [(.eq, .neq), (.neq, .eq), (.gt, .leq), (.geq, .lt), (.lt, .geq), (.leq, .gt),
    (.ugt, .uleq), (.ugeq, .ult), (.ult, .ugeq), (.uleq, .ugt)]

def flipped (op : Opcode) : Option Opcode := (cmpOps.find? fun pair => pair.1 = op).map Prod.snd

/-- The instruction of a reference. One of a removed block panics, and other references have none. -/
def instrOf (ir : IR) (r : Ref) : Option (Option Instr) :=
  match r with
  | .instr b idx => (ir.instr? (.instr b idx)).map some
  | _ => some none

/-- The operands of a binary instruction whose second operand is zero. -/
def againstZero (ir : IR) (instr : Instr) : Option (Ref × Ref) :=
  match instr.operands with
  | [lhs, rhs] => if ir.constLookup rhs = some 0 then some (lhs, rhs) else none
  | _ => none

/-- A test of a comparison is the comparison or its inverse, at the width of the comparison. -/
def collapse (outer inner : Instr) (lhs rhs : Ref) : Option Instr :=
  (flipped inner.opcode).map fun flipped =>
    { outer with
      opcode := if outer.opcode = .eq then flipped else inner.opcode
      operands := [lhs, rhs]
      compareWidth := inner.compareWidth }

def simplifyChained (ir : IR) (r : Ref) : Option IR := do
  let outer ← ir.instr? r
  if outer.opcode = .eq ∨ outer.opcode = .neq then
    match againstZero ir outer with
    | none => return ir
    | some (innerRef, _) =>
        let inner ← instrOf ir innerRef
        match inner.bind fun inner => (againstZero ir inner).bind fun (lhs, rhs) => collapse outer inner lhs rhs with
        | none => return ir
        | some instr => return ir.modifyInstr r fun _ => instr
  else return ir

def simplifyChainedComparisons (ir : IR) : Option IR := forEachInstr simplifyChained ir

section Meaning

def comparisonOf : Opcode → Option PureBinary
  | .eq => some .eq
  | .neq => some .neq
  | .gt => some .gt
  | .geq => some .geq
  | .lt => some .lt
  | .leq => some .leq
  | .ugt => some .ugt
  | .ugeq => some .ugeq
  | .ult => some .ult
  | .uleq => some .uleq
  | _ => none

variable {ir : IR} {values : Ref → BitVec 32} {width : Ref → Width} {r : Ref} {instr : Instr}

/-- The result of a comparison, whose type is that of the result. A signed comparison reads its operands at its
compare width or, where it has none, at their own. -/
def result (values : Ref → BitVec 32) (width : Ref → Width) (instr : Instr) : Option (BitVec 32) :=
  match comparisonOf instr.opcode, instr.operands with
  | some op, [a, b] =>
      some (op.value .word (compareAt instr.compareWidth (width a) (width b)) (values a) (values b))
  | _, _ => none

/-- What an instruction tests when it tests a result against zero. -/
def tested (ir : IR) (instr : Instr) : Option Ref :=
  if instr.opcode = .eq ∨ instr.opcode = .neq then (againstZero ir instr).map Prod.fst else none

/-- The innermost instruction of a nest of the given depth. -/
def innermost (ir : IR) : Nat → Ref → Option Instr
  | 0, r => ir.instr? r
  | depth + 1, r => do
      let outer ← ir.instr? r
      let inner ← tested ir outer
      innermost ir depth inner

def testValue (op : Opcode) (v : BitVec 32) : BitVec 32 := if op = .eq then flag (v = 0) else flag (v ≠ 0)

/-- The result of a nest of tests of the given depth, from the operands of its innermost comparison. -/
def nestValue (ir : IR) (values : Ref → BitVec 32) (width : Ref → Width) : Nat → Ref → Option (BitVec 32)
  | 0, r => (ir.instr? r).bind (result values width)
  | depth + 1, r => do
      let outer ← ir.instr? r
      let inner ← tested ir outer
      let v ← nestValue ir values width depth inner
      return testValue outer.opcode v

/-- A test is the comparison of its operand with zero. -/
theorem testValue_eq {op : PureBinary} {test : Opcode} (isTest : test = .eq ∨ test = .neq)
    (comparison : comparisonOf test = some op) (at' : Width) (v : BitVec 32) :
    testValue test v = op.value .word at' v 0 := by
  rcases isTest with rfl | rfl
  · obtain rfl := Option.some.inj comparison
    rfl
  · obtain rfl := Option.some.inj comparison
    rfl

theorem testValue_eq_flag (b : Bool) : testValue .eq (flag b) = flag (!b) := by
  cases b <;> decide

theorem testValue_neq_flag (b : Bool) : testValue .neq (flag b) = flag b := by
  cases b <;> decide

/-- A comparison and its inverse have opposite results at every width. -/
theorem flipped_value {op inverse : Opcode} (flips : flipped op = some inverse) :
    ∃ direct opposite, comparisonOf op = some direct ∧ comparisonOf inverse = some opposite ∧
      ∀ at' a b, ∃ holds, direct.value .word at' a b = flag holds ∧ opposite.value .word at' a b = flag (!holds) := by
  obtain ⟨pair, found, rfl⟩ := Option.map_eq_some_iff.mp flips
  have listed := List.mem_of_find?_eq_some found
  have same := List.find?_some found
  simp only [decide_eq_true_eq] at same
  subst same
  simp only [cmpOps, List.mem_cons, List.not_mem_nil, or_false] at listed
  have negated : ∀ p : Prop, [Decidable p] → (decide (¬ p)) = !decide p := fun p _ => decide_not
  rcases listed with rfl | rfl | rfl | rfl | rfl | rfl | rfl | rfl | rfl | rfl
  all_goals
    refine ⟨_, _, rfl, rfl, fun at' a b => ⟨_, rfl, ?_⟩⟩
    simp only [PureBinary.value, ne_eq, negated, Bool.not_not]

/-- A test of a comparison has the result of the comparison that replaces it. -/
theorem result_collapse {outer inner new : Instr} {lhs rhs : Ref} (isTest : outer.opcode = .eq ∨ outer.opcode = .neq)
    (operands : inner.operands = [lhs, rhs]) (collapsed : collapse outer inner lhs rhs = some new) :
    ∃ v, result values width inner = some v ∧ result values width new = some (testValue outer.opcode v) := by
  obtain ⟨inverse, flips, rfl⟩ := Option.map_eq_some_iff.mp collapsed
  obtain ⟨direct, opposite, isDirect, isOpposite, values_eq⟩ := flipped_value flips
  obtain ⟨holds, isHolds, isNot⟩ := values_eq (compareAt inner.compareWidth (width lhs) (width rhs)) (values lhs) (values rhs)
  refine ⟨flag holds, ?_, ?_⟩
  · simp only [result, isDirect, operands, isHolds]
  · rcases isTest with isEq | isNeq
    · simp only [result, isEq, if_true, isOpposite, isNot, testValue_eq_flag]
    · simp only [result, isNeq, reduceCtorEq, if_false, isDirect, isHolds, testValue_neq_flag]

end Meaning

section Wide

def isHalf (op : Opcode) (instr : Option Instr) : Bool := instr.any fun instr => instr.opcode = op

/-- A test of both halves of a value is a test of the value. -/
def reduceEqualZero (ir : IR) (r : Ref) : Option IR := do
  let test ← ir.instr? r
  if test.opcode ≠ .eq ∧ test.opcode ≠ .neq then return ir
  if ir.constLookup (← test.operands[1]?) ≠ some 0 then return ir
  match ← instrOf ir (← test.operands[0]?) with
  | none => return ir
  | some both =>
      if both.opcode ≠ .or then return ir
      let left ← instrOf ir (← both.operands[0]?)
      let right ← instrOf ir (← both.operands[1]?)
      if !((isHalf .upper16 left || isHalf .upper16 right) && (isHalf .lower16 left || isHalf .lower16 right)) then
        return ir
      let left ← left
      let right ← right
      let src ← left.operands[0]?
      if src ≠ (← right.operands[0]?) then return ir
      return ir.modifyInstr r fun instr => { instr with typ := .u32, operands := instr.operands.set 0 src }

def reduceEqualZero32 (ir : IR) : Option IR := forEachInstr reduceEqualZero ir

/-- The halves of a value are zero just when the value is. -/
theorem or_halves_eq_zero (x : BitVec 32) :
    PureBinary.or.value .word .word (Ast.PureUnary.upper16.value .word .dword x)
      (Ast.PureUnary.lower16.value .word .dword x) = 0 ↔ x = 0 := by
  have low_eq_zero : ∀ y : BitVec 32, Width.word.low y = 0 ↔ y.toNat % 65536 = 0 := by
    intro y
    rw [← BitVec.toNat_inj]
    simp [Width.low, Width.bits]
  have half : ∀ a b : BitVec 32, Width.word.wrap (Width.word.wrap a ||| Width.word.wrap b) = 0 ↔
      a.toNat % 65536 = 0 ∧ b.toNat % 65536 = 0 := by
    intro a b
    have zero : (0 : BitVec 32) = Width.word.wrap 0 := rfl
    rw [zero, Width.wrap_eq_iff, Width.low_or, Width.low_wrap, Width.low_wrap, ← low_eq_zero, ← low_eq_zero]
    exact BitVec.or_eq_zero_iff
  simp only [PureBinary.value, Ast.PureUnary.value, half, BitVec.toNat_ushiftRight]
  have bound := x.isLt
  constructor
  · rintro ⟨high, low⟩
    apply BitVec.eq_of_toNat_eq
    change x.toNat = 0
    omega
  · rintro rfl
    exact ⟨rfl, rfl⟩

theorem instrOf_eq_some {ir : IR} {r : Ref} {instr : Instr} (found : instrOf ir r = some (some instr)) :
    ir.instr? r = some instr := by
  unfold instrOf at found
  split at found
  · obtain ⟨other, known, same⟩ := Option.map_eq_some_iff.mp found
    rw [known, Option.some.inj same]
  · cases found

/-- A disjunction of the two halves of a value. -/
structure Halves (ir : IR) (both : Instr) (src : Ref) : Prop where
  isOr : both.opcode = .or
  parts : ∃ l r left right, both.operands[0]? = some l ∧ both.operands[1]? = some r ∧
    ir.instr? l = some left ∧ ir.instr? r = some right ∧
    left.operands[0]? = some src ∧ right.operands[0]? = some src ∧
    (left.opcode = .upper16 ∧ right.opcode = .lower16 ∨ left.opcode = .lower16 ∧ right.opcode = .upper16)

theorem halves_of_flags {left right : Instr}
    (flags : ((isHalf .upper16 (some left) || isHalf .upper16 (some right)) &&
      (isHalf .lower16 (some left) || isHalf .lower16 (some right))) = true) :
    left.opcode = .upper16 ∧ right.opcode = .lower16 ∨ left.opcode = .lower16 ∧ right.opcode = .upper16 := by
  simp only [isHalf, Option.any_some, Bool.and_eq_true, Bool.or_eq_true, decide_eq_true_eq] at flags
  obtain ⟨upper | upper, lower | lower⟩ := flags
  · rw [upper] at lower
    cases lower
  · exact .inl ⟨upper, lower⟩
  · exact .inr ⟨lower, upper⟩
  · rw [upper] at lower
    cases lower

/-- A visit changes nothing, or it makes a test of both halves of a value a wide test of the value. -/
theorem reduceEqualZero_cases {ir next : IR} {r : Ref} (visited : reduceEqualZero ir r = some next) :
    next = ir ∨ ∃ test s zero both src, ir.instr? r = some test ∧ (test.opcode = .eq ∨ test.opcode = .neq) ∧
      test.operands[0]? = some s ∧ test.operands[1]? = some zero ∧ ir.constLookup zero = some 0 ∧
      ir.instr? s = some both ∧ Halves ir both src ∧
      next = ir.modifyInstr r fun instr => { instr with typ := .u32, operands := instr.operands.set 0 src } := by
  unfold reduceEqualZero at visited
  obtain ⟨test, present, visited⟩ := Option.bind_eq_some_iff.mp visited
  split at visited
  · exact .inl (Option.some.inj visited).symm
  rename_i isTest
  obtain ⟨zero, second, visited⟩ := Option.bind_eq_some_iff.mp visited
  split at visited
  · exact .inl (Option.some.inj visited).symm
  rename_i isZero
  obtain ⟨s, first, visited⟩ := Option.bind_eq_some_iff.mp visited
  obtain ⟨found, isFound, visited⟩ := Option.bind_eq_some_iff.mp visited
  split at visited
  · exact .inl (Option.some.inj visited).symm
  rename_i both
  split at visited
  · exact .inl (Option.some.inj visited).symm
  rename_i isOr
  obtain ⟨l, isL, visited⟩ := Option.bind_eq_some_iff.mp visited
  obtain ⟨foundL, isFoundL, visited⟩ := Option.bind_eq_some_iff.mp visited
  obtain ⟨h, isH, visited⟩ := Option.bind_eq_some_iff.mp visited
  obtain ⟨foundH, isFoundH, visited⟩ := Option.bind_eq_some_iff.mp visited
  split at visited
  · exact .inl (Option.some.inj visited).symm
  rename_i flags
  obtain ⟨left, isLeft, visited⟩ := Option.bind_eq_some_iff.mp visited
  obtain ⟨right, isRight, visited⟩ := Option.bind_eq_some_iff.mp visited
  obtain ⟨src, isSrc, visited⟩ := Option.bind_eq_some_iff.mp visited
  obtain ⟨other, isOther, visited⟩ := Option.bind_eq_some_iff.mp visited
  split at visited
  · exact .inl (Option.some.inj visited).symm
  rename_i same
  have rewritten := (Option.some.inj visited).symm
  subst isLeft isRight
  refine .inr ⟨test, s, zero, both, src, present, ?_, first, second, not_not.mp isZero, instrOf_eq_some isFound, ?_,
    rewritten⟩
  · simpa only [not_and_or, not_not, ne_eq] using isTest
  · refine ⟨not_not.mp isOr, l, h, left, right, isL, isH, instrOf_eq_some isFoundL, instrOf_eq_some isFoundH, isSrc,
      isOther.trans (congrArg some (not_not.mp same).symm), halves_of_flags ?_⟩
    simpa only [Bool.not_eq_true', Bool.not_eq_false] using flags

/-- The disjunction of the halves of a value is zero when the value is, in either order. -/
theorem halves_test (op : Opcode) (x : BitVec 32) :
    let high := Ast.PureUnary.upper16.value .word .dword x
    let low := Ast.PureUnary.lower16.value .word .dword x
    testValue op (PureBinary.or.value .word .word high low) = testValue op x ∧
      testValue op (PureBinary.or.value .word .word low high) = testValue op x := by
  intro high low
  have swapped : PureBinary.or.value .word .word low high = PureBinary.or.value .word .word high low :=
    congrArg Width.word.wrap (BitVec.or_comm low high)
  rw [swapped]
  simp only [testValue, ne_eq, high, low, or_halves_eq_zero, and_self]

end Wide

section Run

variable {ir next : IR}

/-- A visit rewrites a test of a comparison or does nothing. -/
theorem simplifyChained_cases {r : Ref} (visited : simplifyChained ir r = some next) :
    next = ir ∨ ∃ outer innerRef zero inner lhs rhs new, ir.instr? r = some outer ∧
      (outer.opcode = .eq ∨ outer.opcode = .neq) ∧ againstZero ir outer = some (innerRef, zero) ∧
      ir.instr? innerRef = some inner ∧ againstZero ir inner = some (lhs, rhs) ∧
      collapse outer inner lhs rhs = some new ∧ next = ir.modifyInstr r fun _ => new := by
  unfold simplifyChained at visited
  obtain ⟨outer, present, visited⟩ := Option.bind_eq_some_iff.mp visited
  split at visited
  · rename_i isTest
    split at visited
    · exact .inl (Option.some.inj visited).symm
    · rename_i innerRef zero shape
      obtain ⟨found, isFound, visited⟩ := Option.bind_eq_some_iff.mp visited
      split at visited
      · exact .inl (Option.some.inj visited).symm
      · rename_i new rewritten
        obtain ⟨inner, rfl, inside⟩ := Option.bind_eq_some_iff.mp rewritten
        obtain ⟨⟨lhs, rhs⟩, isAgainst, collapsed⟩ := Option.bind_eq_some_iff.mp inside
        exact .inr ⟨outer, innerRef, zero, inner, lhs, rhs, new, present, isTest, shape, instrOf_eq_some isFound,
          isAgainst, collapsed, (Option.some.inj visited).symm⟩
  · exact .inl (Option.some.inj visited).symm

theorem keepsOrder_simplifyChained : KeepsOrder simplifyChained := by
  intro ir r next visited
  rcases simplifyChained_cases visited with rfl | ⟨_, _, _, _, _, _, _, _, _, _, _, _, _, rfl⟩
  · exact .refl _
  · exact .modifyInstr ir r _

theorem againstZero_operands {instr : Instr} {lhs rhs : Ref} (shape : againstZero ir instr = some (lhs, rhs)) :
    instr.operands = [lhs, rhs] ∧ ir.constLookup rhs = some 0 := by
  unfold againstZero at shape
  split at shape
  · rename_i operands
    split at shape
    · rename_i zero
      obtain ⟨rfl, rfl⟩ := Prod.mk.inj (Option.some.inj shape)
      exact ⟨operands, zero⟩
    · cases shape
  · cases shape

/-- Only the operands and the constants decide what is compared with zero. -/
theorem againstZero_congr {start cur : IR} {instr other : Instr} (consts : ∀ r, cur.constLookup r = start.constLookup r)
    (operands : other.operands = instr.operands) : againstZero cur other = againstZero start instr := by
  unfold againstZero
  rw [operands]
  split
  · rw [consts]
  · rfl

/-- An instruction of the pass stands for a nest of tests of the start. -/
structure StandsForNest (start : IR) (r : Ref) (instr : Instr) (depth : Nat) (base : Instr) : Prop where
  found : innermost start depth r = some base
  operands : instr.operands = base.operands
  width : instr.compareWidth = base.compareWidth
  value : ∀ values width, result values width instr = nestValue start values width depth r

/-- Before its visit an instruction is as at the start, and each stands for a nest. -/
structure NestRun (start : IR) (front : List Ref) (cur : IR) : Prop where
  consts : ∀ r, cur.constLookup r = start.constLookup r
  ahead : ∀ r, r ∉ front → cur.instr? r = start.instr? r
  stands : ∀ r instr', cur.instr? r = some instr' → ∃ instr, start.instr? r = some instr ∧ instr'.typ = instr.typ ∧
    ∃ depth base, StandsForNest start r instr' depth base ∧
      (depth = 0 ∧ instr' = instr ∧ base = instr ∨ 0 < depth ∧ (againstZero start base).isSome ∧ (flipped base.opcode).isSome)

theorem NestRun.start (ir : IR) : NestRun ir [] ir where
  consts _ := rfl
  ahead _ _ := rfl
  stands _ instr present :=
    ⟨instr, present, rfl, 0, instr, ⟨present, rfl, rfl, fun _ _ => by rw [nestValue, present, Option.bind_some]⟩,
      .inl ⟨rfl, rfl, rfl⟩⟩

/-- A collapsed test stands for the nest of its operand, one level deeper. -/
theorem StandsForNest.outer {start : IR} {r innerRef zero lhs rhs : Ref} {outer inner new base : Instr} {depth : Nat}
    (nest : StandsForNest start innerRef inner depth base) (present : start.instr? r = some outer)
    (isTest : outer.opcode = .eq ∨ outer.opcode = .neq) (shape : againstZero start outer = some (innerRef, zero))
    (operands : inner.operands = [lhs, rhs]) (collapsed : collapse outer inner lhs rhs = some new) :
    StandsForNest start r new (depth + 1) base := by
  have isTested : tested start outer = some innerRef := by
    rw [tested, if_pos isTest, shape, Option.map_some]
  have shown : new.operands = inner.operands ∧ new.compareWidth = inner.compareWidth := by
    obtain ⟨_, _, rfl⟩ := Option.map_eq_some_iff.mp collapsed
    exact ⟨operands.symm, rfl⟩
  refine ⟨?_, shown.1.trans nest.operands, shown.2.trans nest.width, fun values width => ?_⟩
  · simp only [innermost, present, isTested, Option.bind_eq_bind, Option.bind_some]
    exact nest.found
  · obtain ⟨v, isInner, isNew⟩ := @result_collapse values width _ _ _ _ _ isTest operands collapsed
    have value := nest.value values width
    rw [isInner] at value
    simp only [nestValue, present, isTested, Option.bind_eq_bind, Option.bind_some, ← value, isNew]
    rfl

theorem NestRun.step {start cur next : IR} {front : List Ref} {r : Ref} (nests : NestRun start front cur)
    (unvisited : r ∉ front) (visited : simplifyChained cur r = some next) : NestRun start (front ++ [r]) next := by
  rcases simplifyChained_cases visited with
    rfl | ⟨outer, innerRef, zero, inner, lhs, rhs, new, present, isTest, shape, known, isAgainst, collapsed, rfl⟩
  · refine ⟨nests.consts, fun s away => ?_, nests.stands⟩
    exact nests.ahead s fun inside => away (List.mem_append_left _ inside)
  · refine ⟨fun s => ?_, fun s away => ?_, fun s instr' here => ?_⟩
    · rw [constLookup_modifyInstr, nests.consts]
    · rw [List.mem_append, List.mem_singleton, not_or] at away
      rw [instr?_modifyInstr, if_neg away.2, nests.ahead s away.1]
    · rw [instr?_modifyInstr] at here
      split at here
      · rename_i same
        subst same
        rw [present, Option.map_some] at here
        obtain rfl := Option.some.inj here
        have original := present
        rw [nests.ahead s unvisited] at original
        have sameZero (test : Instr) : againstZero cur test = againstZero start test :=
          againstZero_congr nests.consts rfl
        rw [sameZero] at shape
        obtain ⟨instr, _, _, depth, base, nest, kind⟩ := nests.stands innerRef inner known
        have operands := (againstZero_operands isAgainst).1
        refine ⟨outer, original, ?_, depth + 1, base, nest.outer original isTest shape operands collapsed, .inr ?_⟩
        · obtain ⟨_, _, rfl⟩ := Option.map_eq_some_iff.mp collapsed
          rfl
        · refine ⟨Nat.succ_pos depth, ?_⟩
          rcases kind with ⟨_, rfl, rfl⟩ | ⟨_, shaped⟩
          · rw [sameZero] at isAgainst
            obtain ⟨inverse, flips, _⟩ := Option.map_eq_some_iff.mp collapsed
            exact ⟨Option.isSome_iff_exists.mpr ⟨_, isAgainst⟩, Option.isSome_iff_exists.mpr ⟨_, flips⟩⟩
          · exact shaped
      · exact nests.stands s instr' here

theorem simplifyChainedComparisons_nests (ran : simplifyChainedComparisons ir = some next) :
    NestRun ir ir.refs next := by
  apply forEachInstr_prefix (NestRun ir) keepsOrder_simplifyChained ?_ (.start ir) ran
  intro front r back cur next split nests visited
  have once := refs_nodup ir
  rw [split, List.nodup_append] at once
  apply nests.step ?_ visited
  exact fun inside => once.2.2 r inside r List.mem_cons_self rfl

/-- A nest of comparisons has a result. -/
theorem nestValue_isSome {start : IR} {values : Ref → BitVec 32} {width : Ref → Width} {depth : Nat} {r : Ref}
    {base : Instr} (found : innermost start depth r = some base) (shape : (againstZero start base).isSome)
    (flips : (flipped base.opcode).isSome) : ∃ v, nestValue start values width depth r = some v ∧ (v = 0 ∨ v = 1) := by
  have truth : ∀ holds : Bool, flag holds = 0 ∨ flag holds = 1 := by decide
  induction depth generalizing r with
  | zero =>
      obtain ⟨⟨lhs, rhs⟩, isAgainst⟩ := Option.isSome_iff_exists.mp shape
      obtain ⟨inverse, isFlipped⟩ := Option.isSome_iff_exists.mp flips
      obtain ⟨direct, _, isDirect, _, value⟩ := flipped_value isFlipped
      obtain ⟨holds, isHolds, _⟩ := value (compareAt base.compareWidth (width lhs) (width rhs)) (values lhs) (values rhs)
      refine ⟨flag holds, ?_, truth holds⟩
      rw [innermost] at found
      simp only [nestValue, found, Option.bind_some, result, isDirect, (againstZero_operands isAgainst).1, isHolds]
  | succ depth hypothesis =>
      obtain ⟨outer, present, found⟩ := Option.bind_eq_some_iff.mp found
      obtain ⟨inner, isTested, found⟩ := Option.bind_eq_some_iff.mp found
      obtain ⟨v, isValue, _⟩ := hypothesis found
      refine ⟨testValue outer.opcode v, ?_, ?_⟩
      · simp only [nestValue, present, isTested, isValue, Option.bind_eq_bind, Option.bind_some]
        rfl
      · unfold testValue
        split
        · exact truth _
        · exact truth _

/-- A signed comparison of a byte, tested twice. -/
def nestedTests : IR :=
  { IR.new with
    consts := [0]
    blocks := [some ⟨"entry", fun _ => none, [],
      ⟨[⟨.u8, some .byte, Attribute.NONE, .lt, [.init .AL, .const 0]⟩,
        ⟨.u16, some .word, Attribute.NONE, .eq, [.instr 0 0, .const 0]⟩,
        ⟨.u16, none, Attribute.NONE, .eq, [.instr 0 1, .const 0]⟩], [0, 1, 2], by decide, distinct_three⟩, true, []⟩] }

end Run

end Dis86.Opt
