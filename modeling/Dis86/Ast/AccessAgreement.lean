import Dis86.Ast.AccessPath
import Dis86.Lib.Fuel
import Mathlib.Data.List.Find

namespace Dis86.Ast
open Lib (Settles)

/-- The search for an access path returns. -/
def Finds (structs : List Struct) (path : List PathAccess) (typ : Typ) (off sz : Nat)
    (found : Except String Access) : Prop :=
  Settles (fun fuel => determinePathRecurse fuel path structs typ off sz) found

/-- The builder of an expression returns. -/
def Prints (b : Builder) (e : Expr) (typ : Typ) (access : Region) (symbol : String)
    (printed : Expr × Builder) : Prop :=
  Settles (fun fuel => b.symbolToExprRecurse fuel e typ access symbol) printed

/-- The components that the builder of an expression goes through, and where it ends. -/
inductive Reaches (structs : List Struct) (symbol : String) :
    Expr → Typ → Region → List PathAccess → Typ → Region → Prop where
  | leaf {e e' : Expr} {typ : Typ} {access : Region}
      (step : accessStep structs e typ access symbol = .finish e') :
      Reaches structs symbol e typ access [] typ access
  | element {e idx : Expr} {base typ : Typ} {size : ArraySize} {access inner left : Region}
      {i width : Nat} {path : List PathAccess}
      (step : accessStep structs e (.array base size) access symbol =
        .descend (.arrayAccess e idx) base inner)
      (sized : base.sizeInBytes = some width) (index : access.off = inner.off + i * width)
      (later : Reaches structs symbol (.arrayAccess e idx) base inner path typ left) :
      Reaches structs symbol e (.array base size) access (.array i :: path) typ left
  | member {e : Expr} {mbr typ : Typ} {idx size : Nat} {name : String}
      {access inner left : Region} {path : List PathAccess}
      (step : accessStep structs e (.struct idx size) access symbol =
        .descend (.structAccess e (.name name)) mbr inner)
      (later : Reaches structs symbol (.structAccess e (.name name)) mbr inner path typ left) :
      Reaches structs symbol e (.struct idx size) access (.struct name :: path) typ left

/-- Both walks return; one finds a path when the other records no error, and it is then the path of
the other. -/
def Agree (b : Builder) (e : Expr) (typ : Typ) (off sz : Nat) (symbol : String) : Prop :=
  ∃ found printed, Finds b.structs [] typ off sz found ∧
    Prints b e typ ⟨off, sz⟩ symbol printed ∧
    (found.isOk = true ↔ printed.2.layoutError = none) ∧
    ∀ access, found = .ok access → printed.2.layoutError = none →
      Reaches b.structs symbol e typ ⟨off, sz⟩ access.path access.typ ⟨access.off, access.sz⟩

/-- A type that no access goes into. -/
def isLeaf : Typ → Bool
  | .guestPtr _ _ => true
  | typ => typ.isPrimitive

/-- The accesses with a path for which there is no expression: those of a type without a size, of a
part of a pointer, and of the end of an element together with the start of the next. -/
inductive Differs (structs : List Struct) : Typ → Nat → Nat → Prop where
  | unsized {typ : Typ} {off sz : Nat} (primitive : typ.isPrimitive = true)
      (size : typ.sizeInBytes = none) : Differs structs typ off sz
  | pointer {base : Typ} {kind : GuestPtrKind} {off sz : Nat}
      (part : ¬ (off = 0 ∧ (Typ.guestPtr base kind).sizeInBytes = some sz)) :
      Differs structs (.guestPtr base kind) off sz
  | straddle {base : Typ} {len width total off sz : Nat} (leaf : isLeaf base = true)
      (sized : base.sizeInBytes = some width)
      (whole : (Typ.array base (.known len)).sizeInBytes = some total)
      (narrow : sz ≤ width) (across : width < off % width + sz) (inside : off + sz ≤ total) :
      Differs structs (.array base (.known len)) off sz
  | element {base : Typ} {len width total off sz : Nat}
      (sized : base.sizeInBytes = some width)
      (whole : (Typ.array base (.known len)).sizeInBytes = some total)
      (within : off % width + sz ≤ width) (inside : off + sz ≤ total)
      (inner : Differs structs base (off % width) sz) :
      Differs structs (.array base (.known len)) off sz
  | member {idx size off sz : Nat} {layout : Struct} {mbr : StructMember}
      (found : structs[idx]? = some layout)
      (covered : layout.members.find? (covers off (off + sz)) = some mbr)
      (inner : Differs structs mbr.typ (off - mbr.off) sz) :
      Differs structs (.struct idx size) off sz

section Runs

variable {structs : List Struct} {path : List PathAccess} {typ : Typ} {off sz : Nat} {b : Builder}
  {e e' : Expr} {access : Region} {symbol message : String}

theorem Finds.finish (step : pathStep structs typ off sz = some .finish) :
    Finds structs path typ off sz (.ok ⟨path, off, sz, typ⟩) := by
  apply Settles.now
  intro fuel
  rw [determinePathRecurse, step]
  rfl

theorem Finds.fail (step : pathStep structs typ off sz = some (.fail message)) :
    Finds structs path typ off sz (.error message) := by
  apply Settles.now
  intro fuel
  rw [determinePathRecurse, step]
  rfl

theorem Finds.descend {component : PathAccess} {inner : Typ} {rest : Nat}
    {found : Except String Access}
    (step : pathStep structs typ off sz = some (.descend component inner rest))
    (later : Finds structs (path ++ [component]) inner rest sz found) :
    Finds structs path typ off sz found := by
  apply Settles.call _ later
  intro fuel
  rw [determinePathRecurse, step]
  rfl

theorem Prints.finish (step : accessStep b.structs e typ access symbol = .finish e') :
    Prints b e typ access symbol (e', b) := by
  apply Settles.now
  intro fuel
  rw [Builder.symbolToExprRecurse, step]

theorem Prints.fail (step : accessStep b.structs e typ access symbol = .fail e' message) :
    Prints b e typ access symbol (e', b.setLayoutError message) := by
  apply Settles.now
  intro fuel
  rw [Builder.symbolToExprRecurse, step]

theorem Prints.descend {inner : Typ} {rest : Region} {printed : Expr × Builder}
    (step : accessStep b.structs e typ access symbol = .descend e' inner rest)
    (later : Prints b e' inner rest symbol printed) : Prints b e typ access symbol printed := by
  apply Settles.call _ later
  intro fuel
  rw [Builder.symbolToExprRecurse, step]

/-- A walk that ends prints an expression and records nothing. -/
theorem Reaches.prints {typ' : Typ} {left : Region}
    (reached : Reaches b.structs symbol e typ access path typ' left) :
    ∃ e', Prints b e typ access symbol (e', b) := by
  induction reached with
  | leaf step => exact ⟨_, .finish step⟩
  | element step _ _ _ inductionHypothesis =>
      obtain ⟨e', printed⟩ := inductionHypothesis
      exact ⟨e', .descend step printed⟩
  | member step _ inductionHypothesis =>
      obtain ⟨e', printed⟩ := inductionHypothesis
      exact ⟨e', .descend step printed⟩

/-- There is one walk. -/
theorem Reaches.unique {path' : List PathAccess} {typ₁ typ₂ : Typ} {left₁ left₂ : Region}
    (one : Reaches structs symbol e typ access path typ₁ left₁)
    (two : Reaches structs symbol e typ access path' typ₂ left₂) :
    path = path' ∧ typ₁ = typ₂ ∧ left₁ = left₂ := by
  induction one generalizing path' with
  | leaf step =>
      cases two with
      | leaf => exact ⟨rfl, rfl, rfl⟩
      | element other => exact absurd (step.symm.trans other) nofun
      | member other => exact absurd (step.symm.trans other) nofun
  | @element _ _ _ _ _ _ _ _ _ width _ step sized index _ inductionHypothesis =>
      cases two with
      | leaf other => exact absurd (other.symm.trans step) nofun
      | element other sized' index' later =>
          obtain ⟨same, _, rfl⟩ := AccessStep.descend.inj (step.symm.trans other)
          obtain ⟨_, rfl⟩ := Expr.arrayAccess.inj same
          obtain rfl := Option.some.inj (sized.symm.trans sized')
          obtain ⟨rfl, rfl, rfl⟩ := inductionHypothesis later
          have positive : width ≠ 0 := by
            rintro rfl
            rw [accessStep, arrayStep.eq_def] at step
            split at step
            · cases step
            · rw [sized] at step
              exact absurd step nofun
          have same := Int.add_left_cancel (index.symm.trans index')
          obtain rfl := Int.ofNat_inj.mp (Int.eq_of_mul_eq_mul_right (Int.ofNat_ne_zero.mpr positive) same)
          exact ⟨rfl, rfl, rfl⟩
  | member step _ inductionHypothesis =>
      cases two with
      | leaf other => exact absurd (other.symm.trans step) nofun
      | member other later =>
          obtain ⟨same, rfl, rfl⟩ := AccessStep.descend.inj (step.symm.trans other)
          obtain ⟨_, same⟩ := Expr.structAccess.inj same
          obtain rfl := Expr.name.inj same
          obtain ⟨rfl, rfl, rfl⟩ := inductionHypothesis later
          exact ⟨rfl, rfl, rfl⟩

end Runs

section Steps

variable {structs : List Struct} {off sz : Nat} {e : Expr} {symbol : String}

theorem covers_start {start stop : Nat} {mbr : StructMember} (covered : covers start stop mbr = true) :
    mbr.off ≤ start := by
  obtain ⟨_, _, low, _⟩ := covers_iff.mp covered
  exact low

theorem pathStep_member (laid : Laid structs) {idx size : Nat} {layout : Struct} {mbr : StructMember}
    (found : structs[idx]? = some layout) (small : off + sz < 2 ^ 64)
    (covered : layout.members.find? (covers off (off + sz)) = some mbr) :
    pathStep structs (.struct idx size) off sz = some (.descend (.struct mbr.name) mbr.typ (off - mbr.off)) := by
  show (if off + sz < 2 ^ 64 then _ else none) = _
  rw [if_pos small, structPath, found]
  simp only [laid.memberAt found, covered]

theorem pathStep_noMember (laid : Laid structs) {idx size : Nat} {layout : Struct}
    (found : structs[idx]? = some layout) (small : off + sz < 2 ^ 64)
    (uncovered : layout.members.find? (covers off (off + sz)) = none) :
    ∃ message, pathStep structs (.struct idx size) off sz = some (.fail message) := by
  have step : pathStep structs (.struct idx size) off sz = some (structPath structs _ idx off sz) := if_pos small
  rw [step, structPath, found]
  simp only [laid.memberAt found, uncovered]
  exact ⟨_, rfl⟩

/-- The builder looks for the member that covers the access, in a filled structure. -/
theorem structStep_eq (laid : Laid structs) {typ : Typ} {idx : Nat} {layout : Struct}
    (found : structs[idx]? = some layout) : ∃ message, structStep structs e typ idx ⟨off, sz⟩ symbol =
      match layout.members.find? (covers off (off + sz)) with
      | none => .fail e message
      | some mbr => .descend (.structAccess e (.name mbr.name)) mbr.typ ⟨off - mbr.off, sz⟩ := by
  have agree (stops : StructMember → Bool) (same : ∀ mbr size, mbr.typ.sizeInBytes = some size →
      stops mbr = decide (mbr.off ≤ off ∧ off + sz ≤ mbr.off + size)) :
      layout.members.find? stops = layout.members.find? (covers off (off + sz)) := by
    apply List.find?_congr
    intro mbr inside
    obtain ⟨size, sized, _⟩ := laid.inside found inside
    rw [same mbr size sized, covers, sized, Option.any_some, Bool.decide_and]
  rw [structStep, if_neg (by simp), found]
  dsimp only
  split
  · rename_i search
    rw [agree _ fun mbr size sized => by rw [sized, Int.toNat_natCast]] at search
    rw [search]
    exact ⟨_, rfl⟩
  · rename_i mbr search
    rw [agree _ fun mbr size sized => by rw [sized, Int.toNat_natCast]] at search
    obtain ⟨size, sized, _⟩ := covers_iff.mp (List.find?_some search)
    rw [search, if_neg (by simp [sized])]
    exact ⟨"", rfl⟩

theorem accessStep_member (laid : Laid structs) {idx size : Nat} {layout : Struct} {mbr : StructMember}
    (found : structs[idx]? = some layout)
    (covered : layout.members.find? (covers off (off + sz)) = some mbr) :
    accessStep structs e (.struct idx size) ⟨off, sz⟩ symbol =
      .descend (.structAccess e (.name mbr.name)) mbr.typ ⟨(off - mbr.off : Nat), sz⟩ := by
  have low := covers_start (List.find?_some covered)
  obtain ⟨message, step⟩ := structStep_eq laid found
  rw [accessStep, step, covered, Int.ofNat_sub low]

theorem accessStep_noMember (laid : Laid structs) {idx size : Nat} {layout : Struct}
    (found : structs[idx]? = some layout)
    (uncovered : layout.members.find? (covers off (off + sz)) = none) :
    ∃ message, accessStep structs e (.struct idx size) ⟨off, sz⟩ symbol = .fail e message := by
  obtain ⟨message, step⟩ := structStep_eq laid found
  exact ⟨message, by rw [accessStep, step, uncovered]⟩

theorem array_size {base : Typ} {len width total : Nat} (sized : base.sizeInBytes = some width)
    (whole : (Typ.array base (.known len)).sizeInBytes = some total) :
    total = width * len ∧ total < 2 ^ 64 := by
  simp only [Typ.sizeInBytes, sized, Option.bind_eq_bind, Option.bind_some] at whole
  split at whole
  · obtain rfl := Option.some.inj whole
    exact ⟨rfl, ‹_›⟩
  · cases whole

variable {base : Typ} {len width total : Nat}

theorem pathStep_element (sized : base.sizeInBytes = some width)
    (whole : (Typ.array base (.known len)).sizeInBytes = some total) (some_ : 0 < sz)
    (narrow : sz ≤ width) (inside : off + sz ≤ total) :
    pathStep structs (.array base (.known len)) off sz =
      some (.descend (.array (off / width)) base (off % width)) := by
  obtain ⟨rfl, small⟩ := array_size sized whole
  have before : off / width < len := Nat.div_lt_of_lt_mul (by omega)
  have rest : off - off / width * width = off % width := by
    rw [Nat.mod_eq_sub_div_mul]
  show some (arrayPath _ _ _ _ _) = _
  simp only [arrayPath, sized, whole, Option.getD_some]
  rw [if_neg (by omega), if_neg (by omega), rest]

theorem pathStep_noElement {size : ArraySize} (some_ : 0 < sz)
    (misses : ∀ width total, base.sizeInBytes = some width →
      (Typ.array base size).sizeInBytes = some total → sz ≤ width → ¬ off + sz ≤ total) :
    ∃ message, pathStep structs (.array base size) off sz = some (.fail message) := by
  show ∃ message, some (arrayPath _ _ _ _ _) = _
  cases size with
  | unknown => exact ⟨_, rfl⟩
  | known len =>
      cases sized : base.sizeInBytes with
      | none =>
          simp only [arrayPath, sized]
          exact ⟨_, rfl⟩
      | some width =>
          simp only [arrayPath, sized]
          by_cases empty : width = 0
          · rw [if_pos empty]
            exact ⟨_, rfl⟩
          · have outside : off / width ≥ len ∨ sz > width ∨
                ¬ (off + sz < 2 ^ 64 ∧ off + sz ≤ (Typ.array base (.known len)).sizeInBytes.getD 0) := by
              cases whole : (Typ.array base (.known len)).sizeInBytes with
              | none =>
                  rw [Option.getD_none]
                  omega
              | some total =>
                  have := misses width total sized whole
                  rw [Option.getD_some]
                  omega
            rw [if_neg empty, if_pos outside]
            exact ⟨_, rfl⟩

theorem accessStep_element (sized : base.sizeInBytes = some width)
    (whole : (Typ.array base (.known len)).sizeInBytes = some total) (some_ : 0 < sz)
    (within : off % width + sz ≤ width) (inside : off + sz ≤ total) :
    ∃ idx, accessStep structs e (.array base (.known len)) ⟨off, sz⟩ symbol =
      .descend (.arrayAccess e idx) base ⟨(off % width : Nat), sz⟩ := by
  obtain ⟨rfl, small⟩ := array_size sized whole
  have before : off / width < len := Nat.div_lt_of_lt_mul (by omega)
  have rest : (off : Int) - (off / width : Nat) * width = (off % width : Nat) := by
    rw [Nat.mod_eq_sub_div_mul, Int.ofNat_sub (Nat.div_mul_le_self off width), Int.natCast_mul]
  simp only [accessStep, arrayStep, sized, whole, Option.getD_some, Int.toNat_natCast]
  rw [if_neg (by omega), if_neg (by omega), rest]
  exact ⟨_, rfl⟩

theorem accessStep_noElement {size : ArraySize} (some_ : 0 < sz)
    (misses : ∀ width total, base.sizeInBytes = some width →
      (Typ.array base size).sizeInBytes = some total → off % width + sz ≤ width → ¬ off + sz ≤ total) :
    ∃ message, accessStep structs e (.array base size) ⟨off, sz⟩ symbol = .fail e message := by
  show ∃ message, arrayStep _ _ _ _ _ _ = _
  cases size with
  | unknown => exact ⟨_, rfl⟩
  | known len =>
      cases sized : base.sizeInBytes with
      | none =>
          simp only [arrayStep, sized]
          exact ⟨_, rfl⟩
      | some width =>
          simp only [arrayStep, sized, Int.toNat_natCast]
          by_cases empty : width = 0 ∨ (off : Int) < 0
          · rw [if_pos empty]
            exact ⟨_, rfl⟩
          · have outside : off / width ≥ len ∨ off % width + sz > width ∨
                off + sz > (Typ.array base (.known len)).sizeInBytes.getD 0 := by
              cases whole : (Typ.array base (.known len)).sizeInBytes with
              | none =>
                  rw [Option.getD_none]
                  omega
              | some total =>
                  have := misses width total sized whole
                  rw [Option.getD_some]
                  omega
            rw [if_neg empty, if_pos outside]
            exact ⟨_, rfl⟩

end Steps

section Cases

variable {structs : List Struct} {typ base : Typ} {size : ArraySize} {off sz : Nat}

theorem differs_primitive (primitive : typ.isPrimitive = true) :
    Differs structs typ off sz ↔ typ.sizeInBytes = none := by
  constructor
  · intro differs
    cases differs with
    | unsized _ size => exact size
    | pointer => cases primitive
    | straddle => cases primitive
    | element => cases primitive
    | member => cases primitive
  · exact .unsized primitive

theorem differs_guestPtr {kind : GuestPtrKind} : Differs structs (.guestPtr base kind) off sz ↔
    ¬ (off = 0 ∧ (Typ.guestPtr base kind).sizeInBytes = some sz) := by
  constructor
  · intro differs
    cases differs with
    | unsized primitive => cases primitive
    | pointer part => exact part
  · exact .pointer

theorem differs_array (differs : Differs structs (.array base size) off sz) :
    ∃ width total, base.sizeInBytes = some width ∧ (Typ.array base size).sizeInBytes = some total ∧
      sz ≤ width ∧ off + sz ≤ total ∧ (off % width + sz ≤ width → Differs structs base (off % width) sz) ∧
      (width < off % width + sz → isLeaf base = true) := by
  cases differs with
  | unsized primitive => cases primitive
  | straddle leaf sized whole narrow across inside =>
      exact ⟨_, _, sized, whole, narrow, inside, fun within => absurd within (by omega), fun _ => leaf⟩
  | element sized whole within inside inner =>
      exact ⟨_, _, sized, whole, by omega, inside, fun _ => inner, fun across => absurd across (by omega)⟩

theorem differs_struct {idx size : Nat} (differs : Differs structs (.struct idx size) off sz) :
    ∃ layout mbr, structs[idx]? = some layout ∧
      layout.members.find? (covers off (off + sz)) = some mbr ∧
      Differs structs mbr.typ (off - mbr.off) sz := by
  cases differs with
  | unsized primitive => cases primitive
  | member found covered inner => exact ⟨_, _, found, covered, inner⟩

theorem accessStep_isPrimitive (e : Expr) (access : Region) (symbol : String)
    (primitive : typ.isPrimitive = true) :
    accessStep structs e typ access symbol = primitiveStep e typ access symbol := by
  cases typ <;> first | rfl | cases primitive

/-- An access to a primitive type with a size ends there. -/
theorem accessStep_primitive {e : Expr} {symbol : String} {width : Nat}
    (primitive : typ.isPrimitive = true) (sized : typ.sizeInBytes = some width)
    (wide : sz = 1 ∨ sz = 2 ∨ sz = 4) :
    ∃ e', accessStep structs e typ ⟨off, sz⟩ symbol = .finish e' := by
  rw [accessStep_isPrimitive e _ symbol primitive, primitiveStep, sized]
  dsimp only
  split
  · exact ⟨_, rfl⟩
  · rcases wide with rfl | rfl | rfl <;> exact ⟨_, rfl⟩

theorem pathStep_leaf (leaf : isLeaf typ = true) : pathStep structs typ off sz = some .finish := by
  cases typ <;> first | rfl | cases leaf

/-- Behind a type that has components there is no path. -/
theorem Finds.beyond {bound width : Nat} {path : List PathAccess} (laid : Laid structs)
    (built : Built structs bound typ) (branch : isLeaf typ ≠ true) (sized : typ.sizeInBytes = some width)
    (some_ : 0 < sz) (small : off + sz < 2 ^ 64) (across : width < off + sz) :
    ∃ message, Finds structs path typ off sz (.error message) := by
  cases built with
  | primitive primitive =>
      refine absurd ?_ branch
      cases typ <;> first | rfl | cases primitive
  | guestPtr => exact absurd rfl branch
  | @array base size inner =>
      have step : ∃ message, pathStep structs (.array base size) off sz = some (.fail message) := by
        apply pathStep_noElement some_
        intro _ total _ whole _
        obtain rfl := Option.some.inj (sized.symm.trans whole)
        omega
      obtain ⟨message, step⟩ := step
      exact ⟨message, .fail step⟩
  | @struct idx layout _ found =>
      obtain rfl := Option.some.inj sized
      have uncovered : layout.members.find? (covers off (off + sz)) = none := by
        rw [List.find?_eq_none]
        intro mbr inside covered
        obtain ⟨size, known, _, high⟩ := covers_iff.mp covered
        obtain ⟨size', known', fits⟩ := laid.inside found inside
        obtain rfl := Option.some.inj (known.symm.trans known')
        omega
      obtain ⟨message, step⟩ := pathStep_noMember laid found small uncovered
      exact ⟨message, .fail step⟩

end Cases

section Verdict

/-- How the two walks end: both at one place, both with an error, or only one of them with a path. -/
inductive Verdict (b : Builder) (symbol : String) (path : List PathAccess) (e : Expr) (typ : Typ)
    (off sz : Nat) : Prop where
  | same {rest : List PathAccess} {typ' : Typ} {left : Nat} (alike : ¬ Differs b.structs typ off sz)
      (found : Finds b.structs path typ off sz (.ok ⟨path ++ rest, left, sz, typ'⟩))
      (reached : Reaches b.structs symbol e typ ⟨off, sz⟩ rest typ' ⟨left, sz⟩)
  | neither {e' : Expr} {message message' : String} (alike : ¬ Differs b.structs typ off sz)
      (found : Finds b.structs path typ off sz (.error message))
      (printed : Prints b e typ ⟨off, sz⟩ symbol (e', b.setLayoutError message'))
  | pathOnly {access : Access} {e' : Expr} {message : String} (differs : Differs b.structs typ off sz)
      (found : Finds b.structs path typ off sz (.ok access))
      (printed : Prints b e typ ⟨off, sz⟩ symbol (e', b.setLayoutError message))

variable {b : Builder} {symbol : String} {path : List PathAccess} {e : Expr} {typ base : Typ}
  {off sz : Nat}

theorem verdict_primitive (primitive : typ.isPrimitive = true) (wide : sz = 1 ∨ sz = 2 ∨ sz = 4) :
    Verdict b symbol path e typ off sz := by
  have leaf : isLeaf typ = true := by
    cases typ <;> first | rfl | cases primitive
  have found : Finds b.structs path typ off sz (.ok ⟨path, off, sz, typ⟩) := .finish (pathStep_leaf leaf)
  cases sized : typ.sizeInBytes with
  | none =>
      have step : accessStep b.structs e typ ⟨off, sz⟩ symbol =
          .fail e ("Unknown annotated access size for " ++ symbol ++ " (" ++ typ.display ++ ")") := by
        rw [accessStep_isPrimitive e _ symbol primitive, primitiveStep, sized]
      exact .pathOnly (.unsized primitive sized) found (.fail step)
  | some width =>
      obtain ⟨e', step⟩ := accessStep_primitive primitive sized wide
      have alike : ¬ Differs b.structs typ off sz := by
        rw [differs_primitive primitive, sized]
        nofun
      exact .same alike (by rwa [List.append_nil]) (.leaf step)

theorem verdict_guestPtr {kind : GuestPtrKind} :
    Verdict b symbol path e (.guestPtr base kind) off sz := by
  have found : Finds b.structs path (.guestPtr base kind) off sz (.ok ⟨path, off, sz, .guestPtr base kind⟩) :=
    .finish rfl
  obtain ⟨width, sized⟩ : ∃ width, (Typ.guestPtr base kind).sizeInBytes = some width := by
    cases kind <;> exact ⟨_, rfl⟩
  by_cases whole : off = 0 ∧ sz = width
  · have step : accessStep b.structs e (.guestPtr base kind) ⟨off, sz⟩ symbol = .finish e := by
      rw [accessStep, sized]
      exact if_neg (by simp [whole])
    have alike : ¬ Differs b.structs (.guestPtr base kind) off sz := by
      rw [differs_guestPtr, sized, whole.1, whole.2]
      simp
    exact .same alike (by rwa [List.append_nil]) (.leaf step)
  · have step : accessStep b.structs e (.guestPtr base kind) ⟨off, sz⟩ symbol =
        .fail e ("Partial access to annotated pointer " ++ symbol ++ " is unsupported") := by
      rw [accessStep, sized]
      refine if_pos ?_
      show (off : Int) ≠ 0 ∨ sz ≠ width
      omega
    have differs : Differs b.structs (.guestPtr base kind) off sz := by
      rw [differs_guestPtr, sized, Option.some.injEq, eq_comm (a := width)]
      exact whole
    exact .pathOnly differs found (.fail step)

/-- An access inside one element ends as its rest ends in the element. -/
theorem verdict_element {len width total : Nat} (sized : base.sizeInBytes = some width)
    (whole : (Typ.array base (.known len)).sizeInBytes = some total) (some_ : 0 < sz)
    (within : off % width + sz ≤ width) (inside : off + sz ≤ total)
    (inner : ∀ (path : List PathAccess) (e : Expr), Verdict b symbol path e base (off % width) sz) :
    Verdict b symbol path e (.array base (.known len)) off sz := by
  have step : pathStep b.structs (.array base (.known len)) off sz =
      some (.descend (.array (off / width)) base (off % width)) :=
    pathStep_element sized whole some_ (by omega) inside
  have builds : ∃ idx, accessStep b.structs e (.array base (.known len)) ⟨off, sz⟩ symbol =
      .descend (.arrayAccess e idx) base ⟨(off % width : Nat), sz⟩ :=
    accessStep_element sized whole some_ within inside
  obtain ⟨idx, builds⟩ := builds
  have only (differs : Differs b.structs (.array base (.known len)) off sz) :
      Differs b.structs base (off % width) sz := by
    obtain ⟨_, _, sized', _, _, _, inner, _⟩ := differs_array differs
    obtain rfl := Option.some.inj (sized.symm.trans sized')
    exact inner within
  cases inner (path ++ [.array (off / width)]) (.arrayAccess e idx) with
  | same alike found reached =>
      have index : (off : Int) = (off % width : Nat) + (off / width : Nat) * width := by
        rw [← Int.natCast_mul, ← Int.natCast_add, Nat.mod_add_div']
      rw [List.append_assoc] at found
      exact .same (fun differs => alike (only differs)) (.descend step found)
        (.element builds sized index reached)
  | neither alike found printed =>
      exact .neither (fun differs => alike (only differs)) (.descend step found) (.descend builds printed)
  | pathOnly differs found printed =>
      exact .pathOnly (.element sized whole within inside differs) (.descend step found)
        (.descend builds printed)

/-- An access of two elements has a path when an element is a leaf. -/
theorem verdict_straddle {bound len width total : Nat} (laid : Laid b.structs)
    (built : Built b.structs bound base) (sized : base.sizeInBytes = some width)
    (whole : (Typ.array base (.known len)).sizeInBytes = some total) (some_ : 0 < sz)
    (small : off + sz < 2 ^ 64) (narrow : sz ≤ width) (across : width < off % width + sz)
    (inside : off + sz ≤ total) : Verdict b symbol path e (.array base (.known len)) off sz := by
  have step : pathStep b.structs (.array base (.known len)) off sz =
      some (.descend (.array (off / width)) base (off % width)) :=
    pathStep_element sized whole some_ narrow inside
  have builds : ∃ message, accessStep b.structs e (.array base (.known len)) ⟨off, sz⟩ symbol =
      .fail e message := by
    apply accessStep_noElement some_
    intro _ _ sized' _ within
    obtain rfl := Option.some.inj (sized.symm.trans sized')
    exact absurd within (by omega)
  obtain ⟨_, builds⟩ := builds
  by_cases leaf : isLeaf base = true
  · exact .pathOnly (.straddle leaf sized whole narrow across inside)
      (.descend step (.finish (pathStep_leaf leaf))) (.fail builds)
  · have rest := Nat.mod_le off width
    obtain ⟨_, found⟩ := Finds.beyond laid built leaf sized some_ (by omega) across
    refine .neither ?_ (.descend step found) (.fail builds)
    intro differs
    obtain ⟨_, _, sized', _, _, _, _, leaf'⟩ := differs_array differs
    obtain rfl := Option.some.inj (sized.symm.trans sized')
    exact leaf (leaf' across)

theorem verdict_array {bound : Nat} {size : ArraySize} (laid : Laid b.structs) (some_ : 0 < sz)
    (small : off + sz < 2 ^ 64) (built : Built b.structs bound base)
    (inner : ∀ (path : List PathAccess) (e : Expr) (off : Nat), off + sz < 2 ^ 64 →
      Verdict b symbol path e base off sz) :
    Verdict b symbol path e (.array base size) off sz := by
  by_cases hit : ∃ width total, base.sizeInBytes = some width ∧
      (Typ.array base size).sizeInBytes = some total ∧ sz ≤ width ∧ off + sz ≤ total
  · obtain ⟨width, total, sized, whole, narrow, inside⟩ := hit
    cases size with
    | unknown => cases whole
    | known len =>
        by_cases within : off % width + sz ≤ width
        · have rest := Nat.mod_le off width
          exact verdict_element sized whole some_ within inside fun path e => inner path e _ (by omega)
        · exact verdict_straddle laid built sized whole some_ small narrow (by omega) inside
  · have step : ∃ message, pathStep b.structs (.array base size) off sz = some (.fail message) := by
      apply pathStep_noElement some_
      intro width total sized whole narrow inside
      exact hit ⟨width, total, sized, whole, narrow, inside⟩
    have builds : ∃ message, accessStep b.structs e (.array base size) ⟨off, sz⟩ symbol =
        .fail e message := by
      apply accessStep_noElement some_
      intro width total sized whole within inside
      exact hit ⟨width, total, sized, whole, by omega, inside⟩
    obtain ⟨_, step⟩ := step
    obtain ⟨_, builds⟩ := builds
    refine .neither ?_ (.fail step) (.fail builds)
    intro differs
    obtain ⟨width, total, sized, whole, narrow, inside, _⟩ := differs_array differs
    exact hit ⟨width, total, sized, whole, narrow, inside⟩

theorem verdict_struct {idx size : Nat} {layout : Struct} (laid : Laid b.structs)
    (small : off + sz < 2 ^ 64) (found : b.structs[idx]? = some layout)
    (inner : ∀ mbr ∈ layout.members, ∀ (path : List PathAccess) (e : Expr) (off : Nat),
      off + sz < 2 ^ 64 → Verdict b symbol path e mbr.typ off sz) :
    Verdict b symbol path e (.struct idx size) off sz := by
  cases covered : layout.members.find? (covers off (off + sz)) with
  | none =>
      have step : ∃ message, pathStep b.structs (.struct idx size) off sz = some (.fail message) :=
        pathStep_noMember laid found small covered
      have builds : ∃ message, accessStep b.structs e (.struct idx size) ⟨off, sz⟩ symbol =
          .fail e message := accessStep_noMember laid found covered
      obtain ⟨_, step⟩ := step
      obtain ⟨_, builds⟩ := builds
      refine .neither ?_ (.fail step) (.fail builds)
      intro differs
      obtain ⟨_, _, found', covered', _⟩ := differs_struct differs
      obtain rfl := Option.some.inj (found.symm.trans found')
      exact absurd (covered.symm.trans covered') nofun
  | some mbr =>
      have step : pathStep b.structs (.struct idx size) off sz =
          some (.descend (.struct mbr.name) mbr.typ (off - mbr.off)) :=
        pathStep_member laid found small covered
      have builds : accessStep b.structs e (.struct idx size) ⟨off, sz⟩ symbol =
          .descend (.structAccess e (.name mbr.name)) mbr.typ ⟨(off - mbr.off : Nat), sz⟩ :=
        accessStep_member laid found covered
      have only (differs : Differs b.structs (.struct idx size) off sz) :
          Differs b.structs mbr.typ (off - mbr.off) sz := by
        obtain ⟨_, _, found', covered', inner⟩ := differs_struct differs
        obtain rfl := Option.some.inj (found.symm.trans found')
        obtain rfl := Option.some.inj (covered.symm.trans covered')
        exact inner
      cases inner mbr (List.mem_of_find?_eq_some covered) (path ++ [.struct mbr.name])
          (.structAccess e (.name mbr.name)) (off - mbr.off) (by omega) with
      | same alike found reached =>
          rw [List.append_assoc] at found
          exact .same (fun differs => alike (only differs)) (.descend step found) (.member builds reached)
      | neither alike found printed =>
          exact .neither (fun differs => alike (only differs)) (.descend step found)
            (.descend builds printed)
      | pathOnly differs later printed =>
          exact .pathOnly (.member found covered differs) (.descend step later) (.descend builds printed)

theorem verdict (laid : Laid b.structs) (wide : sz = 1 ∨ sz = 2 ∨ sz = 4) {bound : Nat}
    (built : Built b.structs bound typ) (small : off + sz < 2 ^ 64) :
    Verdict b symbol path e typ off sz := by
  induction bound using Nat.strong_induction_on generalizing typ path e off with
  | _ bound outer =>
    induction built generalizing path e off with
    | primitive primitive => exact verdict_primitive primitive wide
    | guestPtr => exact verdict_guestPtr
    | array inner inductionHypothesis =>
        exact verdict_array laid (by omega) small inner fun _ _ _ small => inductionHypothesis small
    | struct before found =>
        exact verdict_struct laid small found fun mbr inside _ _ _ small =>
          outer _ before (laid.earlier _ _ found mbr inside) small

end Verdict

section Agreement

variable {b : Builder} {symbol message : String} {e e' : Expr} {typ : Typ} {off sz bound : Nat}

theorem not_agree_of_path {access : Access} (found : Finds b.structs [] typ off sz (.ok access))
    (printed : Prints b e typ ⟨off, sz⟩ symbol (e', b.setLayoutError message)) :
    ¬ Agree b e typ off sz symbol := by
  rintro ⟨found', printed', finds, prints, same, _⟩
  obtain rfl := Settles.unique found finds
  obtain rfl := Settles.unique printed prints
  have clean := same.mp rfl
  cases kept : b.layoutError <;> simp [Builder.setLayoutError, kept] at clean

/-- Far pointers with a count, and an array of them. -/
def sampleLayouts : List Struct :=
  [⟨"slot", 6, [⟨"target", .guestPtr .u8 .far, 0⟩, ⟨"count", .u16, 4⟩]⟩]

theorem sampleLayouts_laid : Laid sampleLayouts where
  tiled := by simp [sampleLayouts, occupied, Typ.sizeInBytes, guard]
  small := by simp [sampleLayouts]
  earlier := by
    intro idx layout found member inside
    have here : idx = 0 ∧ layout = ⟨"slot", 6, [⟨"target", .guestPtr .u8 .far, 0⟩, ⟨"count", .u16, 4⟩]⟩ := by
      simpa [sampleLayouts, List.getElem?_singleton, eq_comm] using found
    obtain ⟨rfl, rfl⟩ := here
    simp only [List.mem_cons, List.not_mem_nil, or_false] at inside
    rcases inside with rfl | rfl
    · exact .guestPtr
    · exact .primitive rfl

end Agreement

end Dis86.Ast
