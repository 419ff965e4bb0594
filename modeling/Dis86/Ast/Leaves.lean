import Dis86.Ast.Rendered

namespace Dis86.Ast

theorem castTo_reads (cast : Option Typ) (e : Expr) : (castTo cast e).reads = e.reads := by
  cases cast <;> rfl

theorem wordHalf_reads (e : Expr) : (wordHalf e).reads = e.reads := by
  unfold wordHalf
  split <;> rfl

/-- An expression reads what its operands read, beside the segment that a near pointer names. -/
theorem Form.build_reads {form : Form} {es : List Expr} {e : Expr} (built : form.build es = some e)
    (notAddress : form ≠ .unary .addr) (x : String) :
    x ∈ e.reads ↔ (∃ operand ∈ es, x ∈ operand.reads) ∨ ∃ width, form = .guestMem (some x) width := by
  unfold Form.build at built
  split at built <;> cases built
  case h_1 op rhs =>
      cases op with
      | addr => exact absurd rfl notAddress
      | _ => simp [Expr.reads]
  all_goals simp [Expr.reads, readsAll_eq, castTo_reads, wordHalf_reads, eq_comm, or_comm]

/-- Only a transparent form renders as a bare variable. -/
theorem Form.build_name {form : Form} {es : List Expr} {n : String}
    (built : form.build es = some (.name n)) : form = .operand ∧ es = [.name n] := by
  unfold Form.build at built
  split at built <;> simp_all

/-- The segment registers that a near pointer names. -/
def segmentNames : List String := ["DS", "SS", "ES"]

theorem Shape.first?_eq {form : Form} {style : Style} {count : Nat} {operands : List Ref}
    {shape : Shape} (first : Shape.first? form style count operands = some shape) :
    shape = ⟨form, style, operands.take count⟩ ∧ count ≤ operands.length := by
  unfold Shape.first? at first
  split at first
  · cases first
    exact ⟨rfl, ‹_›⟩
  · cases first

namespace Input

theorem loadShape_form {input : Input} {width : Nat} {pointer : String} {operands : List Ref}
    {shape : Shape} (shaped : input.loadShape width pointer operands = some shape) :
    shape.form = .deref pointer ∨ shape.form = .guestMem none width ∨
      ∃ seg ∈ segmentNames, shape.form = .guestMem (some seg) width := by
  unfold loadShape at shaped
  simp only [Option.bind_eq_bind, Option.bind_eq_some_iff, Option.pure_def] at shaped
  obtain ⟨segRef, _, offRef, _, shaped⟩ := shaped
  split at shaped
  · split at shaped <;> cases shaped <;> simp [segmentNames]
  · cases shaped
    exact .inl rfl

theorem sizedShape_form {input : Input} {byteName wordName : String} {size : Nat}
    {operands : List Ref} {shape : Shape}
    (shaped : input.sizedShape byteName wordName size operands = some shape) :
    shape.form = .abstract byteName ∨ shape.form = .abstract wordName := by
  unfold sizedShape at shaped
  simp only [Option.bind_eq_bind, Option.bind_eq_some_iff] at shaped
  obtain ⟨_, _, first⟩ := shaped
  obtain ⟨rfl, _⟩ := Shape.first?_eq first
  dsimp only
  split <;> simp

theorem repShape_form {input : Input} {kind : String} {size : Nat} {operands : List Ref}
    {shape : Shape} (shaped : input.repShape kind size operands = some shape) :
    ∃ op, shape.form = .abstract op := by
  unfold repShape at shaped
  simp only [Option.bind_eq_bind, Option.bind_eq_some_iff] at shaped
  obtain ⟨_, _, sized⟩ := shaped
  rcases sizedShape_form sized with same | same
  · exact ⟨_, same⟩
  · exact ⟨_, same⟩

end Input

/-- What a form may be: it takes no address, it names only segment registers, and a bare operand
comes from a copy. -/
structure Form.Plain (form : Form) (instr : Instr) : Prop where
  notAddress : form ≠ .unary .addr
  segment : ∀ seg width, form = .guestMem (some seg) width → seg ∈ segmentNames
  copy : form = .operand → instr.opcode = .ref ∨ instr.opcode = .pin

namespace Input

theorem otherShape_plain {input : Input} {instr : Instr} {shape : Shape}
    (shaped : input.otherShape instr = some shape) : shape.form.Plain instr := by
  have abstract : ∀ op, shape.form = .abstract op → shape.form.Plain instr := by
    intro op same
    rw [same]
    exact ⟨by simp, by simp, by simp⟩
  have load : ∀ {width pointer}, input.loadShape width pointer instr.operands = some shape →
      shape.form.Plain instr := by
    intro width pointer loaded
    rcases loadShape_form loaded with same | same | ⟨seg, known, same⟩ <;> rw [same]
    · exact ⟨by simp, by simp, by simp⟩
    · exact ⟨by simp, by simp, by simp⟩
    · exact ⟨by simp, fun _ _ h => by cases h; exact known, by simp⟩
  have sized : ∀ {byteName wordName size},
      input.sizedShape byteName wordName size instr.operands = some shape →
      shape.form.Plain instr := by
    intro byteName wordName size shaped
    rcases sizedShape_form shaped with same | same
    · exact abstract _ same
    · exact abstract _ same
  have first : ∀ {form style count}, Shape.first? form style count instr.operands = some shape →
      form.Plain instr → shape.form.Plain instr := by
    intro form style count taken plain
    obtain ⟨rfl, _⟩ := Shape.first?_eq taken
    exact plain
  unfold otherShape at shaped
  dsimp only at shaped
  split at shaped
  case h_1 isRef => exact first shaped ⟨by simp, by simp, fun _ => .inl isRef⟩
  case h_2 isPin => exact first shaped ⟨by simp, by simp, fun _ => .inr isPin⟩
  case h_8 =>
      simp only [Option.bind_eq_bind, Option.bind_eq_some_iff, Option.pure_def] at shaped
      obtain ⟨_, _, _, _, _, _, same⟩ := shaped
      cases same
      exact ⟨by simp, by simp, by simp⟩
  -- The remaining arms are bulk operations, operand lists and flag markers.
  all_goals first
    | exact load shaped
    | exact sized shaped
    | exact first shaped ⟨by simp, by simp, by simp⟩
    | exact (repShape_form shaped).elim abstract
    | (cases shaped; done)
    | (cases shaped; exact ⟨by simp, by simp, by simp⟩)
    | (split at shaped <;> first | (cases shaped; done) | (cases shaped; exact ⟨by simp, by simp, by simp⟩))

theorem unaryOperator_ne_addr (opcode : Opcode) : unaryOperator opcode ≠ some .addr := by
  cases opcode <;> decide

theorem shape_plain {input : Input} {instr : Instr} {shape : Shape}
    (shaped : input.shape instr = some shape) : shape.form.Plain instr := by
  unfold Input.shape at shaped
  split at shaped
  case h_1 op isUnary =>
      obtain ⟨rfl, _⟩ := Shape.first?_eq shaped
      refine ⟨fun same => ?_, by simp, by simp⟩
      cases same
      exact absurd isUnary (unaryOperator_ne_addr _)
  case h_2 =>
      obtain ⟨rfl, _⟩ := Shape.first?_eq shaped
      exact ⟨by simp, by simp, by simp⟩
  case h_3 => exact otherShape_plain shaped

theorem copy_plain {opcode : Opcode} (isCopy : opcode = .ref ∨ opcode = .pin) :
    ¬ readsSymbol opcode ∧ opcode ≠ .phi := by
  rcases isCopy with rfl | rfl <;> simp [readsSymbol]

/-- A copy shows its first operand as it is. -/
theorem shape_copy {input : Input} {instr : Instr} {shape : Shape}
    (isCopy : instr.opcode = .ref ∨ instr.opcode = .pin) (shaped : input.shape instr = some shape) :
    ∃ operand, instr.operands[0]? = some operand ∧ shape = ⟨.operand, .decimal, [operand]⟩ := by
  have first : Shape.first? .operand .decimal 1 instr.operands = some shape := by
    rcases isCopy with isRef | isPin
    · simpa [Input.shape, otherShape, unaryOperator, binaryOperator, isRef] using shaped
    · simpa [Input.shape, otherShape, unaryOperator, binaryOperator, isPin] using shaped
  obtain ⟨rfl, enough⟩ := Shape.first?_eq first
  cases operands : instr.operands with
  | nil => simp [operands] at enough
  | cons operand rest => exact ⟨operand, rfl, rfl⟩

theorem readsSymbol_ne_phi {opcode : Opcode} (reads : readsSymbol opcode) : opcode ≠ .phi := by
  rintro rfl
  cases reads

/-- A value reads the named values that its inlined tree shows. -/
inductive Reads (input : Input) : Ref → Ref → Prop
  | here {r : Ref} {instr : Instr} (known : input.ir.instr? r = some instr)
      (keeps : input.keepsName r instr = true ∨ instr.opcode = .phi) : Reads input r r
  | inside {r operand leaf : Ref} {instr : Instr} {shape : Shape}
      (known : input.ir.instr? r = some instr) (expanded : input.keepsName r instr = false)
      (plain : ¬ readsSymbol instr.opcode ∧ instr.opcode ≠ .phi)
      (shaped : input.shape instr = some shape) (shown : operand ∈ shape.shown)
      (read : Reads input operand leaf) : Reads input r leaf

/-- A value copies a named value when only inlined copies stand between them. -/
inductive Copies (input : Input) : Ref → Ref → Prop
  | here {r : Ref} {instr : Instr} (known : input.ir.instr? r = some instr)
      (keeps : input.keepsName r instr = true ∨ instr.opcode = .phi) : Copies input r r
  | through {r operand leaf : Ref} {instr : Instr} (known : input.ir.instr? r = some instr)
      (expanded : input.keepsName r instr = false)
      (isCopy : instr.opcode = .ref ∨ instr.opcode = .pin)
      (first : instr.operands[0]? = some operand) (copy : Copies input operand leaf) :
      Copies input r leaf

variable {input : Input} {r leaf : Ref} {instr : Instr}

theorem Reads.known (read : Reads input r leaf) : ∃ instr, input.ir.instr? r = some instr := by
  cases read with
  | here known => exact ⟨_, known⟩
  | inside known => exact ⟨_, known⟩

/-- A value that keeps its name reads itself only. -/
theorem Reads.of_kept (known : input.ir.instr? r = some instr)
    (keeps : input.keepsName r instr = true ∨ instr.opcode = .phi) (read : Reads input r leaf) :
    leaf = r := by
  cases read with
  | here => rfl
  | inside known' expanded plain =>
      rw [known] at known'
      cases known'
      rcases keeps with keeps | isPhi
      · rw [expanded] at keeps
        cases keeps
      · exact absurd isPhi plain.2

/-- An inlined value reads what one of its operands reads. -/
theorem Reads.of_expanded (known : input.ir.instr? r = some instr)
    (expanded : input.keepsName r instr = false) (notPhi : instr.opcode ≠ .phi)
    (read : Reads input r leaf) :
    ¬ readsSymbol instr.opcode ∧ ∃ shape operand, input.shape instr = some shape ∧
      operand ∈ shape.shown ∧ Reads input operand leaf := by
  cases read with
  | here known' keeps =>
      rw [known] at known'
      cases known'
      rcases keeps with keeps | isPhi
      · rw [expanded] at keeps
        cases keeps
      · exact absurd isPhi notPhi
  | inside known' _ plain shaped shown read =>
      rw [known] at known'
      cases known'
      exact ⟨plain.1, _, _, shaped, shown, read⟩

theorem Copies.known (copy : Copies input r leaf) : ∃ instr, input.ir.instr? r = some instr := by
  cases copy with
  | here known => exact ⟨_, known⟩
  | through known => exact ⟨_, known⟩

theorem Copies.of_kept (known : input.ir.instr? r = some instr)
    (keeps : input.keepsName r instr = true ∨ instr.opcode = .phi) (copy : Copies input r leaf) :
    leaf = r := by
  cases copy with
  | here => rfl
  | through known' expanded isCopy =>
      rw [known] at known'
      cases known'
      rcases keeps with keeps | isPhi
      · rw [expanded] at keeps
        cases keeps
      · simp [isPhi] at isCopy

/-- An inlined value copies what its operand copies. -/
theorem Copies.of_expanded (known : input.ir.instr? r = some instr)
    (expanded : input.keepsName r instr = false) (notPhi : instr.opcode ≠ .phi)
    (copy : Copies input r leaf) :
    (instr.opcode = .ref ∨ instr.opcode = .pin) ∧ ∃ operand,
      instr.operands[0]? = some operand ∧ Copies input operand leaf := by
  cases copy with
  | here known' keeps =>
      rw [known] at known'
      cases known'
      rcases keeps with keeps | isPhi
      · rw [expanded] at keeps
        cases keeps
      · exact absurd isPhi notPhi
  | through known' _ isCopy first copy =>
      rw [known] at known'
      cases known'
      exact ⟨isCopy, _, first, copy⟩

end Input

/-- A name that belongs to one value: no other value, temporary, register or symbol has it. -/
structure OwnName (ir : IR) (r : Ref) (n : String) : Prop where
  given : ∃ full, ir.names r = some full ∧ n = full.display
  values : ∀ other full, ir.names other = some full → full.display = n → other = r
  temps : ∀ k, Builder.tempName k ≠ n
  registers : ∀ reg, initName reg ≠ n
  symbols : ∀ (symref : SymbolRef) (sym : SymbolDef), symref.def? ir.symbols = some sym →
    sym.name ≠ n

namespace OwnName

theorem nameOf {b : Builder} {r : Ref} {n : String} (own : OwnName b.ir r n) : b.NameOf r n := by
  obtain ⟨full, named, same⟩ := own.given
  simp only [Builder.NameOf, named]
  exact same

theorem owner {b : Builder} {r other : Ref} {n : String} (own : OwnName b.ir r n)
    (named : b.NameOf other n) : other = r := by
  unfold Builder.NameOf at named
  cases known : b.ir.names other with
  | some full =>
      simp only [known] at named
      exact own.values other full known named.symm
  | none =>
      simp only [known] at named
      obtain ⟨k, _, same⟩ := named
      exact absurd same.symm (own.temps k)

theorem notSegment {ir : IR} {r : Ref} {n : String} (own : OwnName ir r n) :
    n ∉ segmentNames := by
  intro segment
  simp only [segmentNames, List.mem_cons, List.not_mem_nil, or_false] at segment
  rcases segment with rfl | rfl | rfl
  · exact own.registers .DS rfl
  · exact own.registers .SS rfl
  · exact own.registers .ES rfl

end OwnName

theorem constExpr_reads (k : BitVec 16) (hexConst : Bool) : (constExpr k hexConst).reads = [] := by
  unfold constExpr
  split <;> rfl

theorem Form.negate_plain {form : Form} {instr : Instr} (plain : form.Plain instr)
    (inverted : Bool) : (form.negate inverted).1.Plain instr := by
  unfold Form.negate
  split
  · split <;> exact ⟨by simp, by simp, by simp⟩
  · exact plain

/-- Lists of one length pair each element of one with an element of the other. -/
theorem zip_left {A B : Type} {xs : List A} {ys : List B} (aligned : xs.length = ys.length)
    {x : A} (inside : x ∈ xs) : ∃ y, (x, y) ∈ xs.zip ys := by
  obtain ⟨i, bound, rfl⟩ := List.getElem_of_mem inside
  have bound' : i < ys.length := by omega
  exact ⟨ys[i], List.mem_iff_getElem.mpr ⟨i, by simp; omega, by simp⟩⟩

theorem zip_right {A B : Type} {xs : List A} {ys : List B} (aligned : xs.length = ys.length)
    {y : B} (inside : y ∈ ys) : ∃ x, (x, y) ∈ xs.zip ys := by
  obtain ⟨i, bound, rfl⟩ := List.getElem_of_mem inside
  have bound' : i < xs.length := by omega
  exact ⟨xs[i], List.mem_iff_getElem.mpr ⟨i, by simp; omega, by simp⟩⟩

namespace Rendered

variable {b : Builder} {top hexConst inverted rest : Bool} {r leaf : Ref} {e : Expr} {n : String}

theorem expanded_of {instr : Instr} (top_false : top = false)
    (expanded : top = true ∨ b.keepsName r instr = false) : b.keepsName r instr = false := by
  rcases expanded with isTop | expanded
  · rw [top_false] at isTop
    cases isTop
  · exact expanded

theorem no_instr {k : BitVec 16} (known : b.ir.constLookup r = some k) : b.ir.instr? r = none := by
  cases r <;> simp_all [IR.constLookup, IR.instr?]

/-- The rendered operand mentions the variable of a value exactly when its inlined tree reads
the value. -/
theorem mentions_iff (rendered : Rendered b top hexConst inverted r e rest)
    (operand : top = false) (own : OwnName b.ir leaf n) :
    n ∈ e.reads ↔ b.Reads r leaf := by
  induction rendered with
  | const known =>
      rw [constExpr_reads]
      constructor
      · simp
      · intro read
        obtain ⟨instr, isInstr⟩ := read.known
        simp [no_instr known] at isInstr
  | init reg =>
      constructor
      · intro mention
        obtain rfl := List.mem_singleton.mp mention
        exact absurd rfl (own.registers reg)
      · intro read
        obtain ⟨instr, isInstr⟩ := read.known
        cases isInstr
  | named known keeps name =>
      have kept := keeps.imp_left And.right
      constructor
      · intro mention
        obtain rfl := List.mem_singleton.mp mention
        obtain rfl := own.owner name
        exact .here known kept
      · intro read
        obtain rfl := read.of_kept known kept
        rw [name.unique own.nameOf]
        exact List.mem_singleton.mpr rfl
  | symbol known expanded reads first defined place =>
      constructor
      · intro mention
        exact absurd (place.reads n mention).symm (own.symbols _ _ defined)
      · intro read
        exact absurd reads
          (read.of_expanded known (expanded_of operand expanded) (Input.readsSymbol_ne_phi reads)).1
  | form known expanded plain shaped aligned each built ih =>
      have expanded := expanded_of operand expanded
      have parts := Form.negate_plain (Input.shape_plain shaped)
      rw [Form.build_reads built (parts _).notAddress]
      constructor
      · rintro (⟨part, inside, mention⟩ | ⟨width, near⟩)
        · obtain ⟨s, pair⟩ := zip_right aligned inside
          exact .inside known expanded plain shaped (List.of_mem_zip pair).1
            ((ih s part pair rfl).mp mention)
        · exact absurd ((parts _).segment _ _ near) own.notSegment
      · intro read
        obtain ⟨_, shape', operand', shaped', shown, read⟩ := read.of_expanded known expanded plain.2
        rw [shaped] at shaped'
        cases shaped'
        obtain ⟨part, pair⟩ := zip_left aligned shown
        exact .inl ⟨part, (List.of_mem_zip pair).2, (ih _ part pair rfl).mpr read⟩

theorem constExpr_ne_name (k : BitVec 16) (hexConst : Bool) : constExpr k hexConst ≠ .name n := by
  unfold constExpr
  split <;> simp

/-- The rendered operand is the bare variable of a value exactly when it copies the value. -/
theorem name_iff (rendered : Rendered b top hexConst inverted r e rest)
    (operand : top = false) (own : OwnName b.ir leaf n) :
    e = .name n ↔ b.Copies r leaf := by
  induction rendered with
  | const known =>
      constructor
      · intro bare
        exact absurd bare (constExpr_ne_name _ _)
      · intro copy
        obtain ⟨instr, isInstr⟩ := copy.known
        simp [no_instr known] at isInstr
  | init reg =>
      constructor
      · intro bare
        cases bare
        exact absurd rfl (own.registers reg)
      · intro copy
        obtain ⟨instr, isInstr⟩ := copy.known
        cases isInstr
  | named known keeps name =>
      have kept := keeps.imp_left And.right
      constructor
      · intro bare
        cases bare
        obtain rfl := own.owner name
        exact .here known kept
      · intro copy
        obtain rfl := copy.of_kept known kept
        rw [name.unique own.nameOf]
  | symbol known expanded reads first defined place =>
      constructor
      · rintro rfl
        exact absurd (place.reads n (by simp [Expr.reads])).symm (own.symbols _ _ defined)
      · intro copy
        have isCopy :=
          (copy.of_expanded known (expanded_of operand expanded) (Input.readsSymbol_ne_phi reads)).1
        rcases isCopy with same | same <;> simp [same, readsSymbol] at reads
  | @form _ _ inverted _ instr shape es e known expanded plain shaped aligned each built ih =>
      have expanded := expanded_of operand expanded
      constructor
      · rintro rfl
        obtain ⟨bare, rfl⟩ := Form.build_name built
        have isCopy := (Form.negate_plain (Input.shape_plain shaped) inverted).copy bare
        obtain ⟨operand', first, rfl⟩ := Input.shape_copy isCopy shaped
        exact .through known expanded isCopy first
          ((ih operand' _ (List.mem_singleton.mpr rfl) rfl).mp rfl)
      · intro copy
        obtain ⟨isCopy, operand', first, copy⟩ := copy.of_expanded known expanded plain.2
        obtain ⟨operand', first', rfl⟩ := Input.shape_copy isCopy shaped
        rw [first] at first'
        cases first'
        obtain ⟨part, rfl⟩ := List.length_eq_one_iff.mp aligned.symm
        cases built
        exact (ih _ _ (List.mem_singleton.mpr rfl) rfl).mpr copy

end Rendered

end Dis86.Ast
