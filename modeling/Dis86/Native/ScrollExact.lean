import Dis86.Native.Scroll

namespace Dis86.Native
open Lib
open Hydra (U8 U16 U32 Registers)

theorem pairwise_span (first last : U8) : (span first last).Pairwise fun a b => a.toNat < b.toNat := by
  have small := last.isLt
  have range : (List.range' first.toNat (last.toNat + 1 - first.toNat)).Pairwise (· < ·) := List.pairwise_lt_range'
  rw [span, countUp, List.pairwise_map]
  apply range.imp_of_mem
  intro a b inside inside' less
  rw [List.mem_range'_1] at inside inside'
  rw [BitVec.toNat_ofNat, BitVec.toNat_ofNat, Nat.mod_eq_of_lt (by omega), Nat.mod_eq_of_lt (by omega)]
  exact less

theorem nodup_span (first last : U8) : (span first last).Nodup :=
  (pairwise_span first last).imp fun less same => by simp [same] at less

namespace Request

variable {req : Request} {up : Bool}

/-- The window lies below the greatest row and column of a byte. -/
theorem Valid.room {geo : Geometry} (valid : req.Valid geo) : req.bottom.toNat < 255 ∧ req.right.toNat < 255 := by
  have rows := geo.rows.isLt
  have cols := geo.cols.isLt
  have below := BitVec.lt_def.mp valid.below
  have aside := BitVec.lt_def.mp valid.aside
  omega

/-- The order visits every row of the window. -/
theorem mem_order (rows : req.top ≤ req.bottom) (room : req.bottom.toNat < 255) {r : U8} :
    r ∈ req.order up ↔ r ∈ span req.top req.bottom := by
  unfold order
  split
  · rfl
  · rename_i copies
    obtain ⟨positive, short⟩ := lines_lt (fun clears => copies (by tauto)) rows
    have first : (req.top + req.lines).toNat = req.top.toNat + req.lines.toNat := by
      rw [BitVec.toNat_add]
      omega
    have last : (req.top + req.lines - 1).toNat = req.top.toNat + req.lines.toNat - 1 := by
      rw [BitVec.toNat_sub, first]
      simp
      omega
    rw [List.mem_append, List.mem_reverse, mem_span, mem_span, mem_span, first, last]
    omega

/-- A row is filled from a row of the window other than itself. -/
theorem rowSource_some {r source : U8} (found : req.rowSource up r = some source)
    (inside : r ∈ span req.top req.bottom) :
    source ∈ span req.top req.bottom ∧
      if up then source.toNat = r.toNat + req.lines.toNat ∧ r.toNat < source.toNat
      else r.toNat = source.toNat + req.lines.toNat ∧ source.toNat < r.toNat := by
  have small := req.bottom.isLt
  rw [mem_span] at inside ⊢
  unfold rowSource at found
  split at found
  · exact absurd found (by simp)
  · rename_i some
    have positive : 0 < req.lines.toNat := Nat.pos_of_ne_zero fun zero => some (BitVec.eq_of_toNat_eq zero)
    cases up with
    | true =>
        simp only [if_true, Option.ite_none_right_eq_some, Option.some.injEq] at found ⊢
        obtain ⟨reach, rfl⟩ := found
        rw [BitVec.toNat_add]
        omega
    | false =>
        simp only [Bool.false_eq_true, if_false, Option.ite_none_right_eq_some, Option.some.injEq] at found ⊢
        obtain ⟨reach, rfl⟩ := found
        rw [BitVec.toNat_sub]
        omega

/-- The order visits a row before the rows that were filled earlier would be read. -/
theorem order_pairwise (rows : req.top ≤ req.bottom) (room : req.bottom.toNat < 255) :
    (req.order up).Pairwise fun earlier later => earlier ≠ later ∧ req.rowSource up later ≠ some earlier := by
  have sorted := pairwise_span req.top req.bottom
  by_cases clears : req.lines = 0 ∨ req.bottom - req.top + 1 ≤ req.lines
  · rw [order, if_pos (by tauto)]
    apply sorted.imp_of_mem
    intro a b _ inside less
    rw [rowSource_cleared up clears room inside]
    exact ⟨fun same => by simp [same] at less, by simp⟩
  · obtain ⟨positive, short⟩ := lines_lt clears rows
    cases up with
    | true =>
        rw [order, if_pos (by tauto)]
        apply sorted.imp_of_mem
        intro a b _ inside less
        refine ⟨fun same => by simp [same] at less, fun found => ?_⟩
        have above := (rowSource_some found inside).2
        simp only [if_true] at above
        omega
    | false =>
        have first : (req.top + req.lines).toNat = req.top.toNat + req.lines.toNat := by
          rw [BitVec.toNat_add]
          omega
        have last : (req.top + req.lines - 1).toNat = req.top.toNat + req.lines.toNat - 1 := by
          rw [BitVec.toNat_sub, first]
          simp
          omega
        have blank : ∀ r ∈ span req.top (req.top + req.lines - 1), req.rowSource false r = none := by
          intro r inside
          rw [mem_span, last] at inside
          rw [rowSource]
          simp only [Bool.false_eq_true, if_false]
          rw [if_neg (show ¬(req.top.toNat + req.lines.toNat ≤ r.toNat) by omega), ite_self]
        rw [order, if_neg (by simpa using clears), List.pairwise_append, List.pairwise_reverse]
        refine ⟨?_, ?_, ?_⟩
        · apply (pairwise_span (req.top + req.lines) req.bottom).imp_of_mem
          intro a b inside _ less
          rw [mem_span, first] at inside
          refine ⟨fun same => by simp [same] at less, fun found => ?_⟩
          have below := (rowSource_some found (mem_span.mpr (by omega))).2
          simp only [Bool.false_eq_true, if_false] at below
          omega
        · apply (pairwise_span req.top (req.top + req.lines - 1)).imp_of_mem
          intro a b _ inside less
          rw [blank b inside]
          exact ⟨fun same => by simp [same] at less, by simp⟩
        · intro a copied b inside
          rw [blank b inside]
          rw [List.mem_reverse, mem_span, first] at copied
          rw [mem_span, last] at inside
          exact ⟨fun same => by rw [same] at copied; omega, by simp⟩

/-- The cells of the window, in the order in which they are filled. -/
def places (req : Request) (up : Bool) : List (U8 × U8) := req.order up ×ˢ span req.left req.right

/-- A place lies in the window. -/
def Covers (req : Request) (place : U8 × U8) : Prop :=
  place.1 ∈ span req.top req.bottom ∧ place.2 ∈ span req.left req.right

instance (place : U8 × U8) : Decidable (req.Covers place) :=
  inferInstanceAs (Decidable (place.1 ∈ span req.top req.bottom ∧ place.2 ∈ span req.left req.right))

theorem mem_places (up : Bool) (rows : req.top ≤ req.bottom) (room : req.bottom.toNat < 255) {place : U8 × U8} :
    place ∈ req.places up ↔ req.Covers place := by
  obtain ⟨row, col⟩ := place
  rw [places, Covers, List.mem_product, mem_order rows room]

/-- No cell is filled twice, and none is filled from a cell that was filled before it. -/
theorem places_pairwise (up : Bool) (rows : req.top ≤ req.bottom) (room : req.bottom.toNat < 255) :
    (req.places up).Pairwise fun earlier later => earlier ≠ later ∧
      ∀ row, req.rowSource up later.1 = some row → (row, later.2) ≠ earlier := by
  have listed : req.places up = (req.order up).flatMap fun r => (span req.left req.right).map (Prod.mk r) := rfl
  rw [listed, List.pairwise_flatMap]
  constructor
  · intro r inside
    rw [mem_order rows room] at inside
    rw [List.pairwise_map]
    apply (pairwise_span req.left req.right).imp
    intro a b less
    constructor
    · intro same
      rw [(Prod.mk.inj same).2] at less
      exact absurd less (Nat.lt_irrefl _)
    · intro row _ same
      have col : b = a := (Prod.mk.inj same).2
      rw [col] at less
      exact absurd less (Nat.lt_irrefl _)
  · apply (order_pairwise rows room).imp
    intro a b apart place inside place' inside'
    obtain ⟨_, _, rfl⟩ := List.mem_map.mp inside
    obtain ⟨_, _, rfl⟩ := List.mem_map.mp inside'
    constructor
    · intro same
      exact apart.1 (Prod.mk.inj same).1
    · intro row found same
      exact apart.2 (found.trans (congrArg some (Prod.mk.inj same).1))

end Request

/-- What the cells hold after the service. -/
def Request.scrolled (req : Request) (up : Bool) (env : U8 × U8 → Cell) (place : U8 × U8) : Cell :=
  if req.Covers place then
    match req.rowSource up place.1 with
    | some row => env (row, place.2)
    | none => ⟨0x20, req.attr⟩
  else env place

/-- A read that comes after a write reads another cell. -/
def Access.Fresh : Access → Access → Prop
  | .write row col, .read row' col' => (row, col) ≠ (row', col')
  | _, _ => True

section Result

variable {req : Request} {up : Bool}

theorem sequence_places (env : U8 × U8 → Cell) (rows : req.top ≤ req.bottom) (room : req.bottom.toNat < 255) :
    sequence env ((req.places up).map (fillMove req.attr (req.rowSource up))) = req.scrolled up env := by
  have pairs := req.places_pairwise up rows room
  have targets : ((req.places up).map (fillMove req.attr (req.rowSource up))).map Move.target = req.places up := by
    rw [List.map_map]
    exact List.map_id _
  have distinct : (((req.places up).map (fillMove req.attr (req.rowSource up))).map Move.target).Nodup := by
    rw [targets]
    exact pairs.imp And.left
  have parallel : InParallel env ((req.places up).map (fillMove req.attr (req.rowSource up))) := by
    apply inParallel_of_reads distinct
    rw [List.pairwise_map]
    apply pairs.imp
    intro earlier later apart
    rintro ⟨row, found, same⟩
    exact absurd same.symm (apart.2 row found)
  funext place
  unfold Request.scrolled
  split
  · rename_i covered
    have listed := (Request.mem_places up rows room).mpr covered
    exact parallel _ (List.mem_map_of_mem listed)
  · rename_i uncovered
    apply sequence_untouched
    rw [targets, Request.mem_places up rows room]
    exact uncovered

/-- Every access stays in the window. -/
theorem fillAccesses_covered (rows : req.top ≤ req.bottom) (room : req.bottom.toNat < 255) :
    ∀ access ∈ (req.places up).flatMap (fillAccesses (req.rowSource up)), req.Covers access.place := by
  intro access inside
  obtain ⟨place, listed, filled⟩ := List.mem_flatMap.mp inside
  have covered := (Request.mem_places up rows room).mp listed
  unfold fillAccesses at filled
  split at filled
  · rename_i row found
    simp only [List.mem_cons, List.not_mem_nil, or_false] at filled
    cases filled with
    | inl read =>
        rw [read]
        exact ⟨(Request.rowSource_some found covered.1).1, covered.2⟩
    | inr write =>
        rw [write]
        exact covered
  · simp only [List.mem_singleton] at filled
    rw [filled]
    exact covered

/-- No access reads a cell that an earlier one has written. -/
theorem fillAccesses_fresh (rows : req.top ≤ req.bottom) (room : req.bottom.toNat < 255) :
    ((req.places up).flatMap (fillAccesses (req.rowSource up))).Pairwise Access.Fresh := by
  rw [List.pairwise_flatMap]
  constructor
  · intro place _
    unfold fillAccesses
    split <;> simp [Access.Fresh]
  · apply (Request.places_pairwise up rows room).imp
    intro earlier later apart access inside access' inside'
    cases access with
    | read row col => simp [Access.Fresh]
    | write row col =>
        cases access' with
        | write row' col' => simp [Access.Fresh]
        | read row' col' =>
            have written : (row, col) = earlier := by
              unfold fillAccesses at inside
              split at inside <;> simpa [Prod.ext_iff] using inside
            have read : req.rowSource up later.1 = some row' ∧ col' = later.2 := by
              unfold fillAccesses at inside'
              split at inside'
              · rename_i source found
                simp only [List.mem_cons, Access.read.injEq, reduceCtorEq, List.not_mem_nil, or_false] at inside'
                exact ⟨found.trans (congrArg some inside'.1.symm), inside'.2⟩
              · simp at inside'
            rw [Access.Fresh, written, read.2]
            exact (apart.2 row' read.1).symm

end Result

/-- The service returns, shifts the rows of the window by the requested lines or clears it, keeps the rest of the
screen and the cursor, accesses cells of the window only, and never reads a cell that it has written. -/
theorem vScroll_scrolls_window (t : Terminal) (regs : Registers) (up : Bool) {geo : Geometry}
    (geometry : t.textGeometry = some geo) (valid : (request regs).Valid geo) :
    ∃ t' log, Settles (fun fuel => vScroll (recording terminal) regs up fuel (t, [])) (t', log) ∧
      t'.Shows ((request regs).scrolled up fun place => t.cell place.1.toNat place.2.toNat) ∧
      t.SameFrame t' ∧
      (∀ access ∈ log, (request regs).Covers access.place) ∧
      log.Pairwise Access.Fresh := by
  have rows := valid.rows
  have room := valid.room.1
  have size : t.rows = geo.rows ∧ t.cols = geo.cols := by
    unfold Terminal.textGeometry at geometry
    split at geometry
    · obtain rfl := Option.some.inj geometry
      exact ⟨rfl, rfl⟩
    · split at geometry
      · obtain rfl := Option.some.inj geometry
        exact ⟨rfl, rfl⟩
      · exact absurd geometry (by simp)
  have inside : ∀ place ∈ (request regs).places up, place.1 < t.rows ∧ place.2 < t.cols ∧
      ∀ row, (request regs).rowSource up place.1 = some row → row < t.rows := by
    intro place listed
    have covered := (Request.mem_places up rows room).mp listed
    have below := BitVec.lt_def.mp valid.below
    have aside := BitVec.lt_def.mp valid.aside
    have rowSpan := mem_span.mp covered.1
    have colSpan := mem_span.mp covered.2
    rw [size.1, size.2]
    refine ⟨BitVec.lt_def.mpr (by omega), BitVec.lt_def.mpr (by omega), fun row found => ?_⟩
    have sourceSpan := mem_span.mp (Request.rowSource_some found covered.1).1
    exact BitVec.lt_def.mpr (by omega)
  have shows : t.Shows fun place => t.cell place.1.toNat place.2.toNat := fun _ _ _ _ => rfl
  obtain ⟨t', filled, shows', frame⟩ := fillCells_recording (request regs).attr [] shows inside
  rw [sequence_places _ rows room] at shows'
  have run : Settles (fun fuel => vScroll (recording terminal) regs up fuel (t, []))
      (t', ((request regs).places up).flatMap (fillAccesses ((request regs).rowSource up))) := by
    have geometry' : (recording terminal).textGeometry (t, []) = some geo := geometry
    exact ⟨256, fun fuel enough => (vScroll_eq (recording terminal) geometry' valid enough).trans filled⟩
  exact ⟨t', _, run, shows', frame, fillAccesses_covered rows room, fillAccesses_fresh rows room⟩

/-- Two rows scroll up by one line in a window two rows high. -/
theorem vScroll_scrolls_two_rows :
    let regs := { Registers.zero with ax := 0x0601, bx := 0x1700, cx := 0x0203, dx := 0x0304 }
    ∃ t' log, Settles (fun fuel => vScroll (recording terminal) regs true fuel (Terminal.init, [])) (t', log) ∧
      t'.cell 3 4 = ⟨0x20, 0x17⟩ ∧ log.Pairwise Access.Fresh := by
  intro regs
  have geometry : Terminal.init.textGeometry = some ⟨0xB8000, 3, 25, 80⟩ := rfl
  obtain ⟨t', log, settles, shows, frame, -, fresh⟩ :=
    vScroll_scrolls_window Terminal.init regs true geometry ⟨by decide, by decide, by decide, by decide⟩
  have rows : (3 : U8) < t'.rows := by rw [frame.rows]; decide
  have cols : (4 : U8) < t'.cols := by rw [frame.cols]; decide
  exact ⟨t', log, settles, (shows 3 4 rows cols).trans (by decide), fresh⟩

/-- With no lines to scroll, a cell that could keep its contents is blanked. -/
theorem vScroll_zero_lines_blanks :
    let t := Terminal.init.putcharText 0 0 ⟨0x41, 0x07⟩
    let regs := { Registers.zero with ax := 0x0600, bx := 0x0700, cx := 0, dx := 0 }
    ∃ t' log, Settles (fun fuel => vScroll (recording terminal) regs true fuel (t, [])) (t', log) ∧
      (request regs).Covers (0, 0) ∧ (0 : U8) + (request regs).lines ≤ (request regs).bottom ∧
      t'.cell 0 0 ≠ t.cell (0 + (request regs).lines.toNat) 0 := by
  intro t regs
  have geometry : (recording terminal).textGeometry (t, []) = some ⟨0xB8000, 3, 25, 80⟩ := rfl
  refine ⟨t.putcharText 0 0 ⟨0x20, 0x07⟩, [.write 0 0], ⟨256, fun fuel enough => ?_⟩, by decide, by decide, by decide⟩
  have valid : (request regs).Valid ⟨0xB8000, 3, 25, 80⟩ := ⟨by decide, by decide, by decide, by decide⟩
  have places : (request regs).order true ×ˢ span (request regs).left (request regs).right = [(0, 0)] := by decide
  have blank : (request regs).rowSource true 0 = none := by decide
  have attr : (request regs).attr = 0x07 := by decide
  refine (vScroll_eq (recording terminal) geometry valid enough).trans ?_
  simp only [fillRows, places, List.foldlM_cons, List.foldlM_nil, fillCell, blank, attr]
  rfl

end Dis86.Native
