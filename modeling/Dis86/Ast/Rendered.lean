import Dis86.Ast.Emit

namespace Dis86.Ast

/-- A later builder has the same inputs and keeps the temporaries of an earlier one. -/
structure Builder.Grows (b c : Builder) : Prop where
  input : c.toInput = b.toInput
  temps : ∀ r k, b.tempNames r = some k → c.tempNames r = some k

namespace Builder.Grows

theorem refl (b : Builder) : b.Grows b := ⟨rfl, fun _ _ named => named⟩

theorem trans {b c d : Builder} (first : b.Grows c) (second : c.Grows d) : b.Grows d :=
  ⟨second.input.trans first.input, fun r k named => second.temps r k (first.temps r k named)⟩

theorem ir {b c : Builder} (grows : b.Grows c) : c.ir = b.ir := by
  rw [grows.input]

end Builder.Grows

namespace Builder

/-- The name that a value has in the emitted code. -/
def NameOf (b : Builder) (r : Ref) (n : String) : Prop :=
  match b.ir.names r with
  | some full => n = full.display
  | none => ∃ k, b.tempNames r = some k ∧ n = tempName k

theorem NameOf.mono {b c : Builder} {r : Ref} {n : String} (grows : b.Grows c)
    (named : b.NameOf r n) : c.NameOf r n := by
  unfold NameOf at named ⊢
  rw [grows.ir]
  cases known : b.ir.names r with
  | some full => simpa only [known] using named
  | none =>
      simp only [known] at named ⊢
      obtain ⟨k, temp, same⟩ := named
      exact ⟨k, grows.temps r k temp, same⟩

theorem NameOf.unique {b : Builder} {r : Ref} {m n : String} (first : b.NameOf r m)
    (second : b.NameOf r n) : m = n := by
  unfold NameOf at first second
  cases known : b.ir.names r with
  | some full =>
      simp only [known] at first second
      rw [first, second]
  | none =>
      simp only [known] at first second
      obtain ⟨j, firstTemp, rfl⟩ := first
      obtain ⟨k, secondTemp, rfl⟩ := second
      rw [firstTemp] at secondTemp
      cases secondTemp
      rfl

theorem newTemp_grows {b : Builder} {r : Ref} (unnamed : b.tempNames r = none) :
    b.Grows (b.newTemp r) := by
  refine ⟨rfl, fun other k named => ?_⟩
  have away : other ≠ r := by
    rintro rfl
    simp [unnamed] at named
  show Function.update b.tempNames r _ other = some k
  rw [Function.update_of_ne away]
  exact named

/-- Naming a value keeps every older name. -/
theorem refName_named (b : Builder) (r : Ref) :
    b.Grows (b.refName r).2 ∧ (b.refName r).2.NameOf r (b.refName r).1 := by
  unfold refName
  cases known : b.ir.names r with
  | some full =>
      refine ⟨.refl b, ?_⟩
      simp only [NameOf, known]
  | none =>
      cases temp : b.tempNames r with
      | some k =>
          refine ⟨.refl b, ?_⟩
          simp only [NameOf, known]
          exact ⟨k, temp, rfl⟩
      | none =>
          refine ⟨newTemp_grows temp, ?_⟩
          have same : (b.newTemp r).ir.names r = none := known
          simp only [NameOf, same]
          exact ⟨b.tempCount, by simp [newTemp], rfl⟩

/-- The errors, the frame and the mappings do not touch the names. -/
theorem setLayoutError_grows (b : Builder) (message : String) :
    b.Grows (b.setLayoutError message) := ⟨rfl, fun _ _ named => named⟩

theorem growFrame_grows {b c : Builder} {table : Table} {sym : SymbolDef}
    (grown : b.growFrame table sym = some c) : b.Grows c := by
  unfold growFrame at grown
  split at grown
  · simp only [Option.bind_eq_bind, Option.bind_eq_some_iff, Option.pure_def] at grown
    obtain ⟨_, _, _, _, same⟩ := grown
    cases same
    exact ⟨rfl, fun _ _ named => named⟩
  · cases grown
    exact .refl b

theorem mapSlot_grows {b c : Builder} {table : Table} {sym : SymbolDef}
    (mapped : b.mapSlot table sym = some c) : b.Grows c := by
  unfold mapSlot at mapped
  split at mapped
  · simp only [Option.bind_eq_bind, Option.bind_eq_some_iff, Option.pure_def] at mapped
    obtain ⟨_, _, same⟩ := mapped
    cases same
    exact ⟨rfl, fun _ _ named => named⟩
  · cases mapped
    exact .refl b

theorem symbolToExprRecurse_grows {fuel : Nat} {b c : Builder} {expr e : Expr} {typ : Typ}
    {access : Region} {symbol : String}
    (walked : symbolToExprRecurse fuel b expr typ access symbol = some (e, c)) : b.Grows c := by
  induction fuel generalizing expr typ access with
  | zero => simp [symbolToExprRecurse] at walked
  | succ fuel ih =>
      simp only [symbolToExprRecurse] at walked
      split at walked
      · cases walked
        exact .refl b
      · cases walked
        exact setLayoutError_grows b _
      · exact ih walked

theorem symbolToExpr_grows {fuel : Nat} {b c : Builder} {symref : SymbolRef} {e : Expr}
    (rendered : b.symbolToExpr fuel symref = some (e, c)) : b.Grows c := by
  unfold symbolToExpr at rendered
  simp only [Option.bind_eq_bind, Option.bind_eq_some_iff] at rendered
  obtain ⟨sym, _, grown, first, mapped, second, walked⟩ := rendered
  exact (growFrame_grows first).trans
    ((mapSlot_grows second).trans (symbolToExprRecurse_grows walked))

end Builder

/-- The expressions that name a place inside a symbol. -/
inductive PlaceIn (symbol : String) : Expr → Prop
  | whole : PlaceIn symbol (.name symbol)
  | element {place idx : Expr} (inside : PlaceIn symbol place) (constant : idx.reads = []) :
      PlaceIn symbol (.arrayAccess place idx)
  | member {place : Expr} (inside : PlaceIn symbol place) (name : String) :
      PlaceIn symbol (.structAccess place (.name name))
  | address {place : Expr} (inside : PlaceIn symbol place) : PlaceIn symbol (.unary .addr place)
  | offset {place : Expr} (inside : PlaceIn symbol place) (k : BitVec 16) :
      PlaceIn symbol (.binary .add place (.hexConst k))
  | view {place : Expr} (inside : PlaceIn symbol place) (typ : Typ) :
      PlaceIn symbol (.deref (.cast (.ptr typ) place))

/-- A place inside a symbol reads no variable beside the symbol. -/
theorem PlaceIn.reads {symbol : String} {e : Expr} (inside : PlaceIn symbol e) :
    ∀ x ∈ e.reads, x = symbol := by
  induction inside with
  | whole => simp [Expr.reads]
  | element inside constant ih =>
      intro x read
      simp only [Expr.reads, constant, List.append_nil] at read
      exact ih x read
  | member inside name ih => exact ih
  | address inside ih => simp [Expr.reads]
  | offset inside k ih =>
      intro x read
      simp only [Expr.reads, List.append_nil] at read
      exact ih x read
  | view inside typ ih => exact ih

def AccessStep.expr : AccessStep → Expr
  | .finish e | .fail e _ | .descend e _ _ => e

theorem arrayStep_placeIn {symbol name : String} {expr : Expr} (inside : PlaceIn symbol expr)
    (typ base : Typ) (size : ArraySize) (access : Region) :
    PlaceIn symbol (arrayStep expr typ base size access name).expr := by
  unfold arrayStep
  cases size with
  | unknown => exact inside
  | known len =>
      cases base.sizeInBytes with
      | none => exact inside
      | some baseSize =>
          dsimp only
          split
          · exact inside
          · split
            · exact inside
            · refine inside.element ?_
              split <;> rfl

theorem structStep_placeIn {symbol name : String} {expr : Expr} (inside : PlaceIn symbol expr)
    (structs : List Struct) (typ : Typ) (idx : Nat) (access : Region) :
    PlaceIn symbol (structStep structs expr typ idx access name).expr := by
  unfold structStep
  split
  · exact inside
  · split
    · exact inside
    · dsimp only
      split
      · exact inside
      · split
        · exact inside
        · exact inside.member _

theorem primitiveStep_placeIn {symbol name : String} {expr : Expr} (inside : PlaceIn symbol expr)
    (typ : Typ) (access : Region) :
    PlaceIn symbol (primitiveStep expr typ access name).expr := by
  unfold primitiveStep
  split
  · exact inside
  · split
    · exact inside
    · dsimp only
      have place : PlaceIn symbol (if access.off = 0 then .unary .addr expr
          else .binary .add (.unary .addr expr) (.hexConst (.ofInt 16 access.off))) := by
        split
        · exact inside.address
        · exact inside.address.offset _
      split
      · exact place.view _
      · exact place.view _
      · exact place.view _
      · exact place

theorem accessStep_placeIn {symbol : String} {expr : Expr} (inside : PlaceIn symbol expr)
    (structs : List Struct) (typ : Typ) (access : Region) (name : String) :
    PlaceIn symbol (accessStep structs expr typ access name).expr := by
  unfold accessStep
  split
  · exact arrayStep_placeIn inside _ _ _ _
  · exact structStep_placeIn inside _ _ _ _
  · split <;> exact inside
  · exact inside
  · exact primitiveStep_placeIn inside _ _

theorem Builder.symbolToExprRecurse_placeIn {fuel : Nat} {b c : Builder} {expr e : Expr}
    {typ : Typ} {access : Region} {symbol name : String} (inside : PlaceIn symbol expr)
    (walked : symbolToExprRecurse fuel b expr typ access name = some (e, c)) :
    PlaceIn symbol e := by
  induction fuel generalizing expr typ access with
  | zero => simp [symbolToExprRecurse] at walked
  | succ fuel ih =>
      have place := accessStep_placeIn inside b.structs typ access name
      simp only [symbolToExprRecurse] at walked
      split at walked <;> rename_i step <;> rw [step] at place
      · cases walked
        exact place
      · cases walked
        exact place
      · exact ih place walked

/-- The place of an access depends on the layouts only. -/
theorem Builder.symbolToExprRecurse_unique {fuel fuel' : Nat} {b b' c c' : Builder}
    {expr e e' : Expr} {typ : Typ} {access : Region} {name : String}
    (same : b'.toInput = b.toInput)
    (first : symbolToExprRecurse fuel b expr typ access name = some (e, c))
    (second : symbolToExprRecurse fuel' b' expr typ access name = some (e', c')) : e = e' := by
  induction fuel generalizing fuel' expr typ access with
  | zero => simp [symbolToExprRecurse] at first
  | succ fuel ih =>
      cases fuel' with
      | zero => simp [symbolToExprRecurse] at second
      | succ fuel' =>
          simp only [symbolToExprRecurse, same] at first second
          split at first <;> rename_i step <;> simp only [step] at second
          · cases first
            cases second
            rfl
          · cases first
            cases second
            rfl
          · exact ih first second

/-- The inputs fix the expression of a symbol. -/
def Input.SymbolExpr (input : Input) (symref : SymbolRef) (e : Expr) : Prop :=
  ∃ (fuel : Nat) (b c : Builder), b.toInput = input ∧ b.symbolToExpr fuel symref = some (e, c)

theorem Input.SymbolExpr.unique {input : Input} {symref : SymbolRef} {e e' : Expr}
    (first : input.SymbolExpr symref e) (second : input.SymbolExpr symref e') : e = e' := by
  obtain ⟨fuel, b, c, rfl, first⟩ := first
  obtain ⟨fuel', b', c', same, second⟩ := second
  unfold Builder.symbolToExpr at first second
  simp only [Option.bind_eq_bind, Option.bind_eq_some_iff] at first second
  obtain ⟨sym, known, _, grown, _, mapped, first⟩ := first
  obtain ⟨sym', known', _, grown', _, mapped', second⟩ := second
  rw [same, known] at known'
  cases known'
  have before := (Builder.growFrame_grows grown).trans (Builder.mapSlot_grows mapped)
  have before' := (Builder.growFrame_grows grown').trans (Builder.mapSlot_grows mapped')
  refine Builder.symbolToExprRecurse_unique ?_ first second
  rw [before.input, before'.input, same]

/-- A symbol renders as a place inside it. -/
theorem Builder.symbolToExpr_placeIn {fuel : Nat} {b c : Builder} {symref : SymbolRef} {e : Expr}
    (rendered : b.symbolToExpr fuel symref = some (e, c)) :
    ∃ sym, symref.def? b.ir.symbols = some sym ∧ PlaceIn sym.name e := by
  unfold symbolToExpr at rendered
  simp only [Option.bind_eq_bind, Option.bind_eq_some_iff] at rendered
  obtain ⟨sym, known, _, _, _, _, walked⟩ := rendered
  exact ⟨sym, known, symbolToExprRecurse_placeIn .whole walked⟩

/-- Without a request for a negation none is left over. -/
theorem Form.negate_false (form : Form) : form.negate false = (form, false) := by
  cases form <;> rfl

/-- What the rendering of a value yields, with the names that the builder gives in the end. The
flags tell whether the instruction itself is asked for, whether constants are hexadecimal, and
whether a negation is asked for. -/
inductive Rendered (b : Builder) : Bool → Bool → Bool → Ref → Expr → Bool → Prop
  | const {top hexConst inverted : Bool} {r : Ref} {k : BitVec 16}
      (known : b.ir.constLookup r = some k) :
      Rendered b top hexConst inverted r (constExpr k hexConst) inverted
  | init {top hexConst inverted : Bool} (reg : Asm.Reg) :
      Rendered b top hexConst inverted (.init reg) (.name (initName reg)) inverted
  | named {top hexConst inverted : Bool} {r : Ref} {instr : Instr} {n : String}
      (known : b.ir.instr? r = some instr)
      (keeps : top = false ∧ b.keepsName r instr = true ∨ instr.opcode = .phi)
      (name : b.NameOf r n) : Rendered b top hexConst inverted r (.name n) inverted
  | symbol {top hexConst inverted : Bool} {r : Ref} {instr : Instr} {symref : SymbolRef}
      {sym : SymbolDef} {e : Expr} (known : b.ir.instr? r = some instr)
      (expanded : top = true ∨ b.keepsName r instr = false)
      (reads : readsSymbol instr.opcode) (operand : instr.operands[0]? = some (.symbol symref))
      (defined : symref.def? b.ir.symbols = some sym) (place : PlaceIn sym.name e)
      (exact : b.SymbolExpr symref e) :
      Rendered b top hexConst inverted r e inverted
  | form {top hexConst inverted : Bool} {r : Ref} {instr : Instr} {shape : Shape}
      {es : List Expr} {e : Expr} (known : b.ir.instr? r = some instr)
      (expanded : top = true ∨ b.keepsName r instr = false)
      (plain : ¬ readsSymbol instr.opcode ∧ instr.opcode ≠ .phi)
      (shaped : b.shape instr = some shape) (aligned : shape.shown.length = es.length)
      (each : ∀ s e, (s, e) ∈ shape.shown.zip es →
        Rendered b false (shape.style.hexConst hexConst) false s e false)
      (built : (shape.form.negate inverted).1.build es = some e) :
      Rendered b top hexConst inverted r e (shape.form.negate inverted).2

namespace Rendered

theorem mono {b c : Builder} {top hexConst inverted rest : Bool} {r : Ref} {e : Expr}
    (grows : b.Grows c) (rendered : Rendered b top hexConst inverted r e rest) :
    Rendered c top hexConst inverted r e rest := by
  induction rendered with
  | const known => exact .const (by rwa [grows.ir])
  | init reg => exact .init reg
  | named known keeps name =>
      exact .named (by rwa [grows.ir]) (by rwa [grows.input]) (name.mono grows)
  | symbol known expanded reads operand defined place exact =>
      exact .symbol (by rwa [grows.ir]) (by rwa [grows.input]) reads operand
        (by rwa [grows.ir]) place (by rwa [grows.input])
  | form known expanded plain shaped aligned _ built ih =>
      exact .form (by rwa [grows.ir]) (by rwa [grows.input]) plain (by rwa [grows.input])
        aligned ih built

theorem rest_false {b : Builder} {top hexConst inverted rest : Bool} {r : Ref} {e : Expr}
    (rendered : Rendered b top hexConst inverted r e rest) (asked : inverted = false) :
    rest = false := by
  subst asked
  cases rendered with
  | form _ _ _ _ _ _ _ => rw [Form.negate_false]
  | _ => rfl

theorem known_instr {b : Builder} {r : Ref} {instr : Instr} (known : b.ir.instr? r = some instr) :
    b.ir.constLookup r = none ∧ ∀ reg, r ≠ .init reg := by
  cases r <;> simp_all [IR.instr?, IR.constLookup]

/-- The arms of the rendering exclude each other. -/
theorem not_kept {b : Builder} {top : Bool} {r : Ref} {instr : Instr}
    (keeps : top = false ∧ b.keepsName r instr = true ∨ instr.opcode = .phi)
    (expanded : top = true ∨ b.keepsName r instr = false) : instr.opcode = .phi := by
  rcases keeps with ⟨operand, keeps⟩ | isPhi
  · rcases expanded with isTop | expanded
    · rw [operand] at isTop
      cases isTop
    · rw [keeps] at expanded
      cases expanded
  · exact isPhi

theorem known_const {b : Builder} {top hexConst inverted rest : Bool} {r : Ref} {e : Expr}
    {k : BitVec 16} (rendered : Rendered b top hexConst inverted r e rest)
    (known : b.ir.constLookup r = some k) : e = constExpr k hexConst := by
  cases rendered with
  | const known' =>
      rw [known] at known'
      cases known'
      rfl
  | init reg => cases known
  | named known' => simp [(known_instr known').1] at known
  | symbol known' => simp [(known_instr known').1] at known
  | form known' => simp [(known_instr known').1] at known

theorem known_init {b : Builder} {top hexConst inverted rest : Bool} {reg : Asm.Reg} {e : Expr}
    (rendered : Rendered b top hexConst inverted (.init reg) e rest) :
    e = .name (initName reg) := by
  cases rendered with
  | const known => cases known
  | init => rfl
  | named known => cases known
  | symbol known => cases known
  | form known => cases known

section
variable {b : Builder} {top hexConst inverted rest : Bool} {r : Ref} {e : Expr} {instr : Instr}

theorem known_named (rendered : Rendered b top hexConst inverted r e rest)
    (known : b.ir.instr? r = some instr)
    (keeps : top = false ∧ b.keepsName r instr = true ∨ instr.opcode = .phi) :
    ∃ n, b.NameOf r n ∧ e = .name n := by
  cases rendered with
  | const known' => simp [(known_instr known).1] at known'
  | init reg => cases known
  | named _ _ name => exact ⟨_, name, rfl⟩
  | symbol known' expanded reads =>
      rw [known] at known'
      cases known'
      rw [not_kept keeps expanded] at reads
      cases reads
  | form known' expanded plain =>
      rw [known] at known'
      cases known'
      exact absurd (not_kept keeps expanded) plain.2

theorem known_symbol (rendered : Rendered b top hexConst inverted r e rest)
    (known : b.ir.instr? r = some instr) (expanded : top = true ∨ b.keepsName r instr = false)
    (reads : readsSymbol instr.opcode) :
    ∃ symref, instr.operands[0]? = some (.symbol symref) ∧ b.SymbolExpr symref e := by
  cases rendered with
  | const known' => simp [(known_instr known).1] at known'
  | init reg => cases known
  | named known' keeps =>
      rw [known] at known'
      cases known'
      rw [not_kept keeps expanded] at reads
      cases reads
  | symbol known' _ _ first _ _ exact =>
      rw [known] at known'
      cases known'
      exact ⟨_, first, exact⟩
  | form known' _ plain =>
      rw [known] at known'
      cases known'
      exact absurd reads plain.1

theorem known_form (rendered : Rendered b top hexConst inverted r e rest)
    (known : b.ir.instr? r = some instr) (expanded : top = true ∨ b.keepsName r instr = false)
    (plain : ¬ readsSymbol instr.opcode ∧ instr.opcode ≠ .phi) :
    ∃ shape es, b.shape instr = some shape ∧ shape.shown.length = es.length ∧
      (∀ s e, (s, e) ∈ shape.shown.zip es →
        Rendered b false (shape.style.hexConst hexConst) false s e false) ∧
      (shape.form.negate inverted).1.build es = some e ∧
      rest = (shape.form.negate inverted).2 := by
  cases rendered with
  | const known' => simp [(known_instr known).1] at known'
  | init reg => cases known
  | named known' keeps =>
      rw [known] at known'
      cases known'
      exact absurd (not_kept keeps expanded) plain.2
  | symbol known' _ reads =>
      rw [known] at known'
      cases known'
      exact absurd reads plain.1
  | form known' _ _ shaped aligned each built =>
      rw [known] at known'
      cases known'
      exact ⟨_, _, shaped, aligned, each, built, rfl⟩

end

/-- A value has one rendering under the names of a builder. -/
theorem unique {b : Builder} {top hexConst inverted rest rest' : Bool} {r : Ref} {e e' : Expr}
    (first : Rendered b top hexConst inverted r e rest)
    (second : Rendered b top hexConst inverted r e' rest') : e = e' := by
  induction first generalizing e' rest' with
  | const known => exact (second.known_const known).symm
  | init reg => exact second.known_init.symm
  | named known keeps name =>
      obtain ⟨n, name', rfl⟩ := second.known_named known keeps
      rw [name.unique name']
  | symbol known expanded reads first _ _ exact =>
      obtain ⟨symref, first', exact'⟩ := second.known_symbol known expanded reads
      rw [first] at first'
      cases first'
      exact exact.unique exact'
  | @form _ _ _ _ _ shape es _ known expanded plain shaped aligned _ built ih =>
      obtain ⟨shape', es', shaped', aligned', each', built', _⟩ :=
        second.known_form known expanded plain
      rw [shaped] at shaped'
      cases shaped'
      have same : es = es' := by
        apply List.ext_getElem (aligned.symm.trans aligned')
        intro i bound bound'
        have shown : i < shape.shown.length := by omega
        refine ih shape.shown[i] es[i] ?_ (each' shape.shown[i] es'[i] ?_)
        · exact List.mem_iff_getElem.mpr ⟨i, by simp; omega, by simp⟩
        · exact List.mem_iff_getElem.mpr ⟨i, by simp; omega, by simp⟩
      rw [same, built'] at built
      exact (Option.some.inj built).symm

end Rendered

namespace Builder

/-- The operands render under the names of the last builder. -/
theorem renderAll_rendered {render : Builder → Ref → Option (Expr × Builder)} {hexConst : Bool}
    (each : ∀ {b c r e}, render b r = some (e, c) →
      b.Grows c ∧ Rendered c false hexConst false r e false)
    (b c : Builder) {shown : List Ref} {es : List Expr}
    (rendered : renderAll render b shown = some (es, c)) :
    b.Grows c ∧ shown.length = es.length ∧
      ∀ s e, (s, e) ∈ shown.zip es → Rendered c false hexConst false s e false := by
  induction shown generalizing b es with
  | nil =>
      cases rendered
      exact ⟨.refl _, rfl, by simp⟩
  | cons r shown ih =>
      simp only [renderAll, Option.bind_eq_bind, Option.bind_eq_some_iff, Option.pure_def] at rendered
      obtain ⟨⟨e, middle⟩, first, ⟨others, last⟩, second, same⟩ := rendered
      cases same
      obtain ⟨firstGrows, firstRendered⟩ := each first
      obtain ⟨secondGrows, aligned, othersRendered⟩ := ih middle second
      refine ⟨firstGrows.trans secondGrows, by simp [aligned], ?_⟩
      intro s' e' pair
      rcases List.mem_cons.mp pair with same | pair
      · cases same
        exact firstRendered.mono secondGrows
      · exact othersRendered s' e' pair

theorem eq_init_of_initReg? {r : Ref} {reg : Asm.Reg} (isInit : initReg? r = some reg) :
    r = .init reg := by
  cases r <;> simp_all [initReg?]

theorem eq_symbol_of_unwrapSymbol {r : Ref} {symref : SymbolRef}
    (isSymbol : r.unwrapSymbol = some symref) : r = .symbol symref := by
  cases r <;> simp_all [Ref.unwrapSymbol]

theorem readInit_grows (b : Builder) (reg : Asm.Reg) : b.Grows (b.readInit reg) := by
  unfold readInit
  split
  · exact ⟨rfl, fun _ _ named => named⟩
  · exact .refl b

theorem refToExprImpl_rendered {fuel : Nat} {b c : Builder} {r : Ref} {depth : Nat}
    {hexConst inverted rest : Bool} {e : Expr}
    (rendered : refToExprImpl fuel b r depth hexConst inverted = some ((e, rest), c)) :
    b.Grows c ∧ Rendered c (depth = 0) hexConst inverted r e rest := by
  induction fuel generalizing b c r depth hexConst inverted rest e with
  | zero => simp [refToExprImpl] at rendered
  | succ fuel ih =>
      simp only [refToExprImpl] at rendered
      split at rendered
      · rename_i known
        cases rendered
        exact ⟨.refl _, .const known⟩
      · rename_i reg _ isInit
        cases rendered
        obtain rfl := eq_init_of_initReg? isInit
        exact ⟨readInit_grows b reg, .init reg⟩
      · simp only [Option.bind_eq_bind, Option.bind_eq_some_iff] at rendered
        obtain ⟨instr, known, rendered⟩ := rendered
        split at rendered
        · rename_i keeps
          simp only [Option.pure_def, Option.some.injEq, Prod.mk.injEq] at rendered
          obtain ⟨⟨rfl, rfl⟩, rfl⟩ := rendered
          obtain ⟨grows, name⟩ := refName_named b r
          refine ⟨grows, .named (by rwa [grows.ir]) ?_ name⟩
          simpa [grows.input] using keeps
        · rename_i expands
          have expanded : (decide (depth = 0)) = true ∨ b.keepsName r instr = false := by
            by_cases top : depth = 0
            · exact .inl (by simp [top])
            · simp only [top, not_false_eq_true, ne_eq, true_and, not_or] at expands
              exact .inr (by simpa using expands.1)
          split at rendered
          · rename_i reads
            simp only [Option.bind_eq_some_iff, Option.pure_def] at rendered
            obtain ⟨operand, first, symref, isSymbol, ⟨place, last⟩, walked, same⟩ := rendered
            cases same
            have grows := symbolToExpr_grows walked
            obtain ⟨sym, defined, inside⟩ := symbolToExpr_placeIn walked
            rw [eq_symbol_of_unwrapSymbol isSymbol] at first
            exact ⟨grows, .symbol (by rwa [grows.ir]) (by rwa [grows.input]) reads first
              (by rwa [grows.ir]) inside ⟨fuel, b, last, grows.input.symm, walked⟩⟩
          · rename_i plain
            simp only [Option.bind_eq_some_iff, Option.pure_def] at rendered
            obtain ⟨shape, shaped, ⟨es, last⟩, all, built, isBuilt, same⟩ := rendered
            cases same
            obtain ⟨grows, aligned, each⟩ := renderAll_rendered (fun one => by
              obtain ⟨⟨⟨e, flag⟩, d⟩, impl, same⟩ := Option.map_eq_some_iff.mp one
              cases same
              obtain ⟨grows, rendered⟩ := ih impl
              obtain rfl := rendered.rest_false rfl
              exact ⟨grows, by simpa using rendered⟩) _ _ all
            exact ⟨grows, .form (by rwa [grows.ir]) (by rwa [grows.input])
              ⟨plain, fun isPhi => expands (.inr isPhi)⟩ (by rwa [grows.input]) aligned each isBuilt⟩

end Builder

end Dis86.Ast
