import Dis86.IR.Methods
import Dis86.Lib.Threads

namespace Dis86.BlockData
open Lib

/-- An insertion point names its neighbour by reference. -/
inductive Loc where
  | first
  | last
  | before (r : Ref)
  | after (r : Ref)
deriving DecidableEq, Repr

structure InstrLink where
  prev : Option Ref
  next : Option Ref
deriving DecidableEq, Repr

/-- The instructions of a block stay where they were pushed and are linked in both directions. -/
structure InstrData where
  blkref : BlockRef
  links : List InstrLink
  instrs : List Instr
  count : Nat
  first : Option Ref
  last : Option Ref
deriving DecidableEq, Repr

namespace InstrData

def new (blkref : BlockRef) : InstrData := ⟨blkref, [], [], 0, none, none⟩

/-- A lookup fails where the source panics: on another kind of reference or another block. -/
def index (data : InstrData) : Ref → Option Nat
  | .instr blkref idx => if blkref = data.blkref then some idx else none
  | _ => none

def lookup (data : InstrData) (r : Ref) : Option Instr := do
  data.instrs[← data.index r]?

def lookupLink (data : InstrData) (r : Ref) : Option InstrLink := do
  data.links[← data.index r]?

def withLinks (data : InstrData) (links : List InstrLink) : InstrData := { data with links }

@[simp] theorem withLinks_withLinks (data : InstrData) (links links' : List InstrLink) :
    (data.withLinks links).withLinks links' = data.withLinks links' := rfl

@[simp] theorem withLinks_first (data : InstrData) (links : List InstrLink) :
    (data.withLinks links).first = data.first := rfl

@[simp] theorem withLinks_last (data : InstrData) (links : List InstrLink) :
    (data.withLinks links).last = data.last := rfl

@[simp] theorem withLinks_self (data : InstrData) : data.withLinks data.links = data := rfl

@[simp] theorem withLinks_links (data : InstrData) (links : List InstrLink) :
    (data.withLinks links).links = links := rfl

/-- The source writes through `lookup_link_mut`. -/
def setLink (data : InstrData) (r : Ref) (f : InstrLink → InstrLink) : Option InstrData := do
  let idx ← data.index r
  let _ ← data.links[idx]?
  return data.withLinks (data.links.modify idx f)

def next (data : InstrData) (r : Ref) : Option (Option Ref) := do
  return (← data.lookupLink r).next

def prev (data : InstrData) (r : Ref) : Option (Option Ref) := do
  return (← data.lookupLink r).prev

/-- The new instruction is pushed before any link points to it. -/
def push (data : InstrData) (instr : Instr) : Ref × InstrData :=
  (.instr data.blkref data.instrs.length, { data with
    instrs := data.instrs ++ [instr]
    links := data.links ++ [⟨none, none⟩]
    count := data.count + 1 })

/-- A neighbour is patched only where there is one. -/
def patch (data : InstrData) (neighbour : Option Ref) (f : InstrLink → InstrLink) : Option InstrData :=
  match neighbour with
  | some r => data.setLink r f
  | none => some data

def linkFirst (data : InstrData) (r : Ref) : Option InstrData := do
  let linked ← data.setLink r fun _ => ⟨none, data.first⟩
  let linked ← linked.patch data.first fun link => { link with prev := some r }
  return { linked with first := some r }

def linkLast (data : InstrData) (r : Ref) : Option InstrData := do
  let linked ← data.setLink r fun _ => ⟨data.last, none⟩
  let linked ← linked.patch data.last fun link => { link with next := some r }
  return { linked with last := some r }

def linkBefore (data : InstrData) (r next : Ref) : Option InstrData := do
  let prev ← data.prev next
  let linked ← data.setLink r fun link => { link with next := some next }
  let linked ← linked.setLink r fun link => { link with prev := prev }
  let linked ← linked.setLink next fun link => { link with prev := some r }
  let linked ← linked.patch prev fun link => { link with next := some r }
  return { linked with first := if prev = none then some r else linked.first }

/-- The insertion after an instruction is not implemented. -/
def link (data : InstrData) (r : Ref) : Loc → Option InstrData
  | .first => data.linkFirst r
  | .last => data.linkLast r
  | .before next => data.linkBefore r next
  | .after _ => none

/-- The first insertion of a block fills in the end that its location does not set. -/
def fixUp (data : InstrData) (r : Ref) : InstrData :=
  { data with first := data.first.or (some r), last := data.last.or (some r) }

def insert (data : InstrData) (instr : Instr) (loc : Loc) : Option (Ref × InstrData) := do
  let (r, data) := data.push instr
  let data ← data.link r loc
  return (r, data.fixUp r)

/-- The walk of `IR::iter_instrs`; as much fuel as there are instructions is enough. -/
def iterInstrs (data : InstrData) : Option (List Ref) :=
  follow data.next data.instrs.length data.first

def iterBackward (data : InstrData) : Option (List Ref) :=
  follow data.prev data.instrs.length data.last

/-- The edits of a block return the references in the order of the insertions. -/
def run : InstrData → List (Instr × Loc) → Option (List Ref × InstrData)
  | data, [] => some ([], data)
  | data, (instr, loc) :: rest => do
      let (r, data) ← data.insert instr loc
      let (refs, data) ← data.run rest
      return (r :: refs, data)

end InstrData

/-- A location may name any reference that was returned before. -/
def Known (refs : List Ref) : Loc → Prop
  | .first | .last => True
  | .before r => r ∈ refs
  | .after _ => False

/-- Each edit names only a reference that an earlier edit returned. -/
def Requests (blkref : BlockRef) : Nat → List (Instr × Loc) → Prop
  | _, [] => True
  | returned, (_, loc) :: rest =>
      Known ((List.range returned).map (.instr blkref)) loc ∧ Requests blkref (returned + 1) rest

instance (refs : List Ref) : (loc : Loc) → Decidable (Known refs loc)
  | .first => inferInstanceAs (Decidable True)
  | .last => inferInstanceAs (Decidable True)
  | .before r => inferInstanceAs (Decidable (r ∈ refs))
  | .after _ => inferInstanceAs (Decidable False)

instance decideRequests (blkref : BlockRef) :
    (returned : Nat) → (steps : List (Instr × Loc)) → Decidable (Requests blkref returned steps)
  | _, [] => inferInstanceAs (Decidable True)
  | returned, (_, loc) :: rest =>
      have := decideRequests blkref (returned + 1) rest
      inferInstanceAs (Decidable (Known ((List.range returned).map (.instr blkref)) loc ∧
        Requests blkref (returned + 1) rest))

/-- An insertion lands at its place, and the other instructions keep their order. -/
def Lands (r : Ref) (old new : List Ref) : Loc → Prop
  | .first => new = r :: old
  | .last => new = old ++ [r]
  | .before next => ∃ front back, old = front ++ next :: back ∧ new = front ++ r :: next :: back
  | .after _ => False


namespace InstrData

variable {r : Ref}

/-- An edit of a link changes that link only. -/
theorem setLink_eq (data : InstrData) (f : InstrLink → InstrLink) (found : (data.lookupLink r).isSome) :
    ∃ links, data.setLink r f = some (data.withLinks links) ∧ links.length = data.links.length ∧
      ∀ s, (data.withLinks links).lookupLink s =
        (data.lookupLink s).map fun link => if s = r then f link else link := by
  obtain ⟨link, found⟩ := Option.isSome_iff_exists.mp found
  simp only [lookupLink, Option.bind_eq_bind, Option.bind_eq_some_iff] at found
  obtain ⟨idx, place, here⟩ := found
  refine ⟨data.links.modify idx f, by simp [setLink, place, here], by simp, fun s => ?_⟩
  simp only [lookupLink]
  change ((data.index s).bind fun other => (data.links.modify idx f)[other]?) =
    ((data.index s).bind fun other => data.links[other]?).map _
  cases other : data.index s with
  | none => rfl
  | some idx' =>
      simp only [Option.bind_some, List.getElem?_modify]
      by_cases same : s = r
      · subst same
        obtain rfl : idx = idx' := Option.some.inj (place.symm.trans other)
        cases data.links[idx]? <;> simp
      · have apart : idx ≠ idx' := by
          rintro rfl
          cases r <;> cases s <;> simp_all [index]
        cases data.links[idx']? <;> simp [same, apart]

theorem patch_eq (data : InstrData) (neighbour : Option Ref) (f : InstrLink → InstrLink)
    (found : ∀ s ∈ neighbour, (data.lookupLink s).isSome) :
    ∃ links, data.patch neighbour f = some (data.withLinks links) ∧ links.length = data.links.length ∧
      ∀ s, (data.withLinks links).lookupLink s =
        (data.lookupLink s).map fun link => if neighbour = some s then f link else link := by
  cases neighbour with
  | none => exact ⟨data.links, rfl, rfl, fun s => by simp⟩
  | some r =>
      obtain ⟨links, set, size, look⟩ := setLink_eq data f (found r rfl)
      refine ⟨links, set, size, fun s => ?_⟩
      rw [look]
      simp only [Option.some.injEq, eq_comm]

/-- The successor that the link of a node names. -/
def nextOf (data : InstrData) (r : Ref) : Option Ref := (data.lookupLink r).bind InstrLink.next

def prevOf (data : InstrData) (r : Ref) : Option Ref := (data.lookupLink r).bind InstrLink.prev

/-- The node of an instruction. -/
def ref (data : InstrData) (idx : Nat) : Ref := .instr data.blkref idx

@[simp] theorem index_ref (data : InstrData) (idx : Nat) : data.index (data.ref idx) = some idx := by
  simp [ref, index]

theorem ref_injective (data : InstrData) : Function.Injective data.ref := by
  intro one two same
  simpa [ref] using same

end InstrData

/-- The links list every pushed instruction once, in the given order. -/
structure Linked (data : InstrData) (order : List Nat) : Prop where
  counted : data.count = data.instrs.length
  sized : data.links.length = data.instrs.length
  complete : order.Perm (List.range data.instrs.length)
  first : data.first = (order.map data.ref).head?
  last : data.last = (order.map data.ref).getLast?
  threads : Threads data.nextOf data.prevOf none (order.map data.ref) none

variable {data next : InstrData} {order : List Nat}

theorem Linked.new (blkref : BlockRef) : Linked (.new blkref) [] where
  counted := rfl
  sized := rfl
  complete := .nil
  first := rfl
  last := rfl
  threads := trivial

theorem Linked.mem (linked : Linked data order) {idx : Nat} : idx ∈ order ↔ idx < data.instrs.length := by
  rw [linked.complete.mem_iff, List.mem_range]

theorem Linked.distinct (linked : Linked data order) : (order.map data.ref).Nodup :=
  (linked.complete.nodup_iff.mpr List.nodup_range).map data.ref_injective

theorem Linked.link (linked : Linked data order) {r : Ref} (inside : r ∈ order.map data.ref) :
    data.lookupLink r = some ⟨data.prevOf r, data.nextOf r⟩ := by
  obtain ⟨idx, listed, rfl⟩ := List.mem_map.mp inside
  have short : idx < data.links.length := by
    rw [linked.sized]
    exact linked.mem.mp listed
  simp [InstrData.nextOf, InstrData.prevOf, InstrData.lookupLink, short]

/-- The link of an old node after an insertion between two parts of the list. -/
def relinked (front back : List Ref) (r s : Ref) (link : InstrLink) : InstrLink where
  prev := if back.head? = some s then some r else link.prev
  next := if front.getLast? = some s then some r else link.next

/-- What an insertion between two parts of the list leaves. -/
structure Between (data : InstrData) (front back : List Ref) (r : Ref) (next : InstrData) : Prop where
  blkref : next.blkref = data.blkref
  instrs : next.instrs = data.instrs
  counted : next.count = data.count
  sized : next.links.length = data.links.length
  first : next.first = (front ++ r :: back).head?
  last : next.last = (front ++ r :: back).getLast?
  own : next.lookupLink r = some ⟨front.getLast?, back.head?⟩
  others : ∀ s ≠ r, next.lookupLink s = (data.lookupLink s).map (relinked front back r s)

/-- Before it is linked, a pushed node has no neighbours and the list does not know it. -/
structure Pushed (data : InstrData) (nodes : List Ref) (r : Ref) : Prop where
  fresh : r ∉ nodes
  unlinked : data.lookupLink r = some ⟨none, none⟩
  present : ∀ s ∈ nodes, data.lookupLink s = some ⟨data.prevOf s, data.nextOf s⟩
  distinct : nodes.Nodup
  first : data.first = nodes.head?
  last : data.last = nodes.getLast?
  threads : Threads data.nextOf data.prevOf none nodes none

variable {nodes : List Ref} {r : Ref}

/-- A node of the list or the pushed node has a link. -/
theorem Pushed.linked (pushed : Pushed data nodes r) {s : Ref} (inside : s ∈ nodes) :
    (data.lookupLink s).isSome := by
  rw [pushed.present s inside]
  rfl

theorem Pushed.linkFirst (pushed : Pushed data nodes r) :
    ∃ next, data.linkFirst r = some next ∧ Between data [] nodes r (next.fixUp r) := by
  obtain ⟨links, set, size, look⟩ :=
    InstrData.setLink_eq data (fun _ => ⟨none, data.first⟩) (Option.isSome_of_eq_some pushed.unlinked)
  obtain ⟨links', set', size', look'⟩ :=
    InstrData.patch_eq (data.withLinks links) data.first (fun link => { link with prev := some r })
      fun s known => by
      rw [look, Option.isSome_map]
      exact pushed.linked (List.mem_of_head? (pushed.first ▸ known))
  refine ⟨{ data.withLinks links' with first := some r }, ?_, rfl, rfl, rfl, size'.trans size, rfl, ?_, ?_,
    fun s differs => ?_⟩
  · simp only [InstrData.linkFirst, set, Option.bind_eq_bind, Option.bind_some]
    rw [set']
    rfl
  · cases nodes with
    | nil => simp [InstrData.fixUp, show data.last = none from pushed.last]
    | cons node rest => simp [InstrData.fixUp, pushed.last, List.getLast?_cons]
  · refine (look' r).trans ?_
    have apart : nodes.head? ≠ some r := fun same => pushed.fresh (List.mem_of_head? same)
    simp [look, pushed.unlinked, apart, pushed.first]
  · refine (look' s).trans ?_
    rw [look, Option.map_map]
    congr 1
    funext link
    simp only [Function.comp, relinked, if_neg differs, pushed.first, List.getLast?_nil]
    split <;> rfl

theorem Pushed.linkLast (pushed : Pushed data nodes r) :
    ∃ next, data.linkLast r = some next ∧ Between data nodes [] r (next.fixUp r) := by
  obtain ⟨links, set, size, look⟩ :=
    InstrData.setLink_eq data (fun _ => ⟨data.last, none⟩) (Option.isSome_of_eq_some pushed.unlinked)
  obtain ⟨links', set', size', look'⟩ :=
    InstrData.patch_eq (data.withLinks links) data.last (fun link => { link with next := some r })
      fun s known => by
      rw [look, Option.isSome_map]
      exact pushed.linked (List.mem_of_getLast? (pushed.last ▸ known))
  refine ⟨{ data.withLinks links' with last := some r }, ?_, rfl, rfl, rfl, size'.trans size, ?_, ?_, ?_,
    fun s differs => ?_⟩
  · simp only [InstrData.linkLast, set, Option.bind_eq_bind, Option.bind_some]
    rw [set']
    rfl
  · cases nodes with
    | nil => simp [InstrData.fixUp, show data.first = none from pushed.first]
    | cons node rest => simp [InstrData.fixUp, show data.first = some node from pushed.first]
  · simp [InstrData.fixUp]
  · refine (look' r).trans ?_
    have apart : nodes.getLast? ≠ some r := fun same => pushed.fresh (List.mem_of_getLast? same)
    simp [look, pushed.unlinked, apart, pushed.last]
  · refine (look' s).trans ?_
    rw [look, Option.map_map]
    congr 1
    funext link
    simp only [Function.comp, relinked, if_neg differs, pushed.last, List.head?_nil]
    split <;> rfl

/-- The place before a node has that node's predecessor on its other side. -/
theorem Pushed.linkBefore {front back : List Ref} {node : Ref}
    (pushed : Pushed data (front ++ node :: back) r) :
    ∃ next, data.linkBefore r node = some next ∧ Between data front (node :: back) r (next.fixUp r) := by
  have inside : node ∈ front ++ node :: back := by simp
  have apart : node ≠ r := fun same => pushed.fresh (same ▸ inside)
  have before : data.prev node = some front.getLast? := by
    have threaded := (threads_append.mp pushed.threads).2.1
    rw [Option.or_none] at threaded
    rw [InstrData.prev, pushed.present node inside, threaded]
    rfl
  have notLast : front.getLast? ≠ some r := fun same =>
    pushed.fresh (List.mem_append_left _ (List.mem_of_getLast? same))
  have notSelf : front.getLast? ≠ some node := fun same =>
    (List.nodup_append.mp pushed.distinct).2.2 node (List.mem_of_getLast? same) node List.mem_cons_self rfl
  obtain ⟨links₁, set₁, size₁, look₁⟩ :=
    InstrData.setLink_eq data (fun link => { link with next := some node })
      (Option.isSome_of_eq_some pushed.unlinked)
  obtain ⟨links₂, set₂, size₂, look₂⟩ :=
    InstrData.setLink_eq (data.withLinks links₁) (fun link => { link with prev := front.getLast? })
      (r := r) (by rw [look₁, Option.isSome_map, pushed.unlinked]; rfl)
  rw [InstrData.withLinks_withLinks] at set₂ look₂
  obtain ⟨links₃, set₃, size₃, look₃⟩ :=
    InstrData.setLink_eq (data.withLinks links₂) (fun link => { link with prev := some r })
      (r := node) (by rw [look₂, look₁, Option.isSome_map, Option.isSome_map]; exact pushed.linked inside)
  rw [InstrData.withLinks_withLinks] at set₃ look₃
  obtain ⟨links₄, set₄, size₄, look₄⟩ :=
    InstrData.patch_eq (data.withLinks links₃) front.getLast?
      (fun link => { link with next := some r }) fun s known => by
        rw [look₃, look₂, look₁, Option.isSome_map, Option.isSome_map, Option.isSome_map]
        exact pushed.linked (List.mem_append_left _ (List.mem_of_getLast? known))
  refine ⟨{ data.withLinks links₄ with first := if front.getLast? = none then some r else data.first }, ?_,
    rfl, rfl, rfl, size₄.trans (size₃.trans (size₂.trans size₁)), ?_, ?_, ?_, fun s differs => ?_⟩
  · simp only [InstrData.linkBefore, before, set₁, Option.bind_eq_bind, Option.bind_some]
    rw [set₂, Option.bind_some, set₃, Option.bind_some, set₄]
    rfl
  · cases front with
    | nil => rfl
    | cons other rest => simp [InstrData.fixUp, show data.first = some other from pushed.first, List.getLast?_cons]
  · simp [InstrData.fixUp, pushed.last, List.getLast?_append, List.getLast?_cons]
  · refine (look₄ r).trans ?_
    simp [look₃, look₂, look₁, pushed.unlinked, apart.symm, notLast]
  · refine (look₄ s).trans ?_
    rw [look₃, look₂, look₁, Option.map_map, Option.map_map, Option.map_map]
    congr 1
    funext link
    simp only [Function.comp, relinked, if_neg differs, List.head?_cons, Option.some.injEq]
    by_cases same : s = node
    · subst same
      simp [notSelf]
    · have other : node ≠ s := fun h => same h.symm
      simp only [if_neg same, if_neg other]
      split <;> rfl

/-- The reference that the next insertion returns. -/
def InstrData.nextRef (data : InstrData) : Ref := data.ref data.instrs.length

theorem InstrData.insert_eq {instr : Instr} {loc : Loc}
    (links : (data.push instr).2.link data.nextRef loc = some next) :
    data.insert instr loc = some (data.nextRef, next.fixUp data.nextRef) := by
  have link : (data.push instr).2.link (data.push instr).1 loc = some next := links
  simp only [InstrData.insert, link, Option.bind_eq_bind, Option.bind_some]
  rfl

theorem Linked.pushed (linked : Linked data order) (instr : Instr) :
    Pushed (data.push instr).2 (order.map data.ref) data.nextRef := by
  have look : ∀ s ∈ order.map data.ref, (data.push instr).2.lookupLink s = data.lookupLink s := by
    intro s inside
    obtain ⟨idx, listed, rfl⟩ := List.mem_map.mp inside
    have short : idx < data.links.length := by
      rw [linked.sized]
      exact linked.mem.mp listed
    simp [InstrData.lookupLink, InstrData.push, InstrData.index, InstrData.ref, List.getElem?_append_left short]
  have next : ∀ s ∈ order.map data.ref, (data.push instr).2.nextOf s = data.nextOf s := by
    intro s inside
    rw [InstrData.nextOf, look s inside, InstrData.nextOf]
  have prev : ∀ s ∈ order.map data.ref, (data.push instr).2.prevOf s = data.prevOf s := by
    intro s inside
    rw [InstrData.prevOf, look s inside, InstrData.prevOf]
  refine ⟨fun inside => ?_, ?_, fun s inside => ?_, linked.distinct, linked.first, linked.last, ?_⟩
  · obtain ⟨idx, listed, same⟩ := List.mem_map.mp inside
    have short := linked.mem.mp listed
    rw [data.ref_injective same] at short
    omega
  · simp [InstrData.lookupLink, InstrData.push, InstrData.index, InstrData.nextRef, InstrData.ref, ← linked.sized]
  · rw [look s inside, linked.link inside, next s inside, prev s inside]
  · exact linked.threads.congr next prev

theorem Between.linked {front back : List Nat} {instr : Instr} (linked : Linked data (front ++ back))
    (between : Between (data.push instr).2 (front.map data.ref) (back.map data.ref) data.nextRef next) :
    Linked next (front ++ data.instrs.length :: back) := by
  have pushed := linked.pushed instr
  have same : next.ref = data.ref := by
    funext idx
    rw [InstrData.ref, between.blkref]
    rfl
  have split : (front ++ data.instrs.length :: back).map next.ref =
      front.map data.ref ++ data.nextRef :: back.map data.ref := by
    rw [same, List.map_append, List.map_cons]
    rfl
  rw [List.map_append] at pushed
  refine ⟨?_, ?_, ?_, by rw [split, between.first], by rw [split, between.last], ?_⟩
  · rw [between.counted, between.instrs]
    simp [InstrData.push, linked.counted]
  · rw [between.sized, between.instrs]
    simp [InstrData.push, linked.sized]
  · rw [between.instrs]
    simp only [InstrData.push, List.length_append, List.length_singleton, List.range_succ]
    exact List.perm_middle.trans ((linked.complete.cons _).trans (List.perm_append_singleton _ _).symm)
  · rw [split]
    have known : ∀ s ∈ front.map data.ref ++ back.map data.ref, next.lookupLink s =
        ((data.push instr).2.lookupLink s).map (relinked _ _ data.nextRef s) := fun s inside =>
      between.others s fun same => pushed.fresh (same ▸ inside)
    refine pushed.threads.insert pushed.distinct (fun s inside => ?_) (fun s inside => ?_) ?_ ?_
    · rw [InstrData.nextOf, known s inside, pushed.present s inside]
      rfl
    · rw [InstrData.prevOf, known s inside, pushed.present s inside]
      rfl
    · rw [InstrData.nextOf, between.own, Option.or_none]
      rfl
    · rw [InstrData.prevOf, between.own, Option.or_none]
      rfl

/-- The links represent the list of a block that lists all of its instructions. -/
structure Represents (data : InstrData) (plain : Dis86.InstrData) : Prop where
  instrs : data.instrs = plain.instrs
  linked : Linked data plain.order

/-- The insertion point without the block that its reference repeats. -/
def Loc.plain : Loc → Option Dis86.Loc
  | .first => some .first
  | .last => some .last
  | .before (.instr _ idx) => some (.before idx)
  | _ => none

/-- Each location splits the list into the part before the new instruction and the part after it. -/
theorem Linked.insert (linked : Linked data order) (instr : Instr) {loc : Loc}
    (known : Known ((List.range data.instrs.length).map data.ref) loc) :
    ∃ plain front back next, loc.plain = some plain ∧ order = front ++ back ∧
      insertAt data.instrs.length order plain = front ++ data.instrs.length :: back ∧
      data.insert instr loc = some (data.nextRef, next) ∧
      Linked next (front ++ data.instrs.length :: back) ∧
      next.blkref = data.blkref ∧ next.instrs = data.instrs ++ [instr] ∧
      Lands data.nextRef (order.map data.ref)
        ((front ++ data.instrs.length :: back).map data.ref) loc := by
  have pushed := linked.pushed instr
  cases loc with
  | first =>
      obtain ⟨next, links, between⟩ := pushed.linkFirst
      have whole : Linked data ([] ++ order) := linked
      exact ⟨.first, [], order, _, rfl, rfl, rfl, InstrData.insert_eq links,
        Between.linked whole between, between.blkref,
        between.instrs, rfl⟩
  | last =>
      obtain ⟨next, links, between⟩ := pushed.linkLast
      rw [← order.append_nil] at linked
      refine ⟨.last, order, [], _, rfl, order.append_nil.symm, rfl, InstrData.insert_eq links,
        Between.linked linked between,
        between.blkref, between.instrs, ?_⟩
      rw [List.map_append]
      rfl
  | before r =>
      obtain ⟨idx, listed, rfl⟩ := List.mem_map.mp known
      have inside : idx ∈ order := linked.mem.mpr (List.mem_range.mp listed)
      obtain ⟨front, back, rfl⟩ := List.append_of_mem inside
      have distinct := linked.complete.nodup_iff.mpr List.nodup_range
      have fresh : idx ∉ front := fun early =>
        (List.nodup_append.mp distinct).2.2 idx early idx List.mem_cons_self rfl
      rw [List.map_append, List.map_cons] at pushed
      obtain ⟨next, links, between⟩ := pushed.linkBefore
      exact ⟨.before idx, front, idx :: back, _, rfl, rfl, insertBefore_split fresh,
        InstrData.insert_eq links, Between.linked linked between, between.blkref, between.instrs,
        front.map data.ref, back.map data.ref, by simp, by simp; rfl⟩
  | after r => exact known.elim

/-- The linked list refines the list of the block: an insertion keeps the representation. -/
theorem Represents.insert {plain : Dis86.InstrData} (represents : Represents data plain) (instr : Instr)
    {loc : Loc} (known : Known ((List.range data.instrs.length).map data.ref) loc) :
    ∃ place next, loc.plain = some place ∧
      data.insert instr loc = some (data.ref (plain.insert instr place).1, next) ∧
      Represents next (plain.insert instr place).2 := by
  obtain ⟨place, front, back, next, located, -, order, inserted, linked, -, instrs, -⟩ :=
    represents.linked.insert instr known
  have number : (plain.insert instr place).1 = data.instrs.length := by
    rw [represents.instrs]
    rfl
  refine ⟨place, next, located, by rw [number, inserted]; rfl, ?_, ?_⟩
  · rw [instrs, represents.instrs]
    rfl
  · have listed : (plain.insert instr place).2.order = insertAt data.instrs.length plain.order place := by
      rw [represents.instrs]
      rfl
    rw [listed, order]
    exact linked

/-- Both walks return the listed nodes. -/
theorem Linked.iterInstrs_eq (linked : Linked data order) :
    data.iterInstrs = some (order.map data.ref) := by
  rw [InstrData.iterInstrs, linked.first]
  refine linked.threads.follow_eq (fun node inside => ?_) ?_
  · rw [InstrData.next, linked.link inside]
    rfl
  · simp [linked.complete.length_eq]

theorem Linked.iterBackward_eq (linked : Linked data order) :
    data.iterBackward = some (order.map data.ref).reverse := by
  have backward := linked.threads.reverse
  rw [InstrData.iterBackward, linked.last, ← List.head?_reverse]
  refine backward.follow_eq (fun node inside => ?_) ?_
  · rw [InstrData.prev, linked.link (List.mem_reverse.mp inside)]
    rfl
  · simp [linked.complete.length_eq]

/-- A list is well linked after some edits when both walks visit exactly the inserted instructions,
every returned reference still finds its instruction, and the next insertion lands at its place. -/
structure WellLinked (steps : List (Instr × Loc)) (refs : List Ref) (data : InstrData) : Prop where
  counted : data.count = steps.length
  distinct : refs.Nodup
  found : refs.map data.lookup = steps.map fun step => some step.1
  walks : ∃ nodes, data.iterInstrs = some nodes ∧ data.iterBackward = some nodes.reverse ∧ nodes.Perm refs
  lands : ∀ instr loc, Known refs loc → ∃ r next old new, data.insert instr loc = some (r, next) ∧
    r ∉ refs ∧ data.iterInstrs = some old ∧ next.iterInstrs = some new ∧ Lands r old new loc

/-- A run of edits pushes the instructions in order and keeps the list linked. -/
theorem Linked.run (linked : Linked data order) {steps : List (Instr × Loc)}
    (requests : Requests data.blkref data.instrs.length steps) :
    ∃ next order', data.run steps = some ((List.range' data.instrs.length steps.length).map data.ref, next) ∧
      Linked next order' ∧ next.blkref = data.blkref ∧ next.instrs = data.instrs ++ steps.map Prod.fst := by
  induction steps generalizing data order with
  | nil => exact ⟨data, order, rfl, linked, rfl, by simp⟩
  | cons step rest ih =>
      obtain ⟨instr, loc⟩ := step
      obtain ⟨-, front, back, middle, -, -, -, inserted, linked', blkref, instrs, -⟩ :=
        linked.insert instr requests.1
      have same : middle.ref = data.ref := by
        funext idx
        rw [InstrData.ref, blkref]
        rfl
      obtain ⟨next, order', ran, linked'', blkref', instrs'⟩ := ih linked' (by
        rw [blkref, instrs, List.length_append]
        exact requests.2)
      refine ⟨next, order', ?_, linked'', blkref'.trans blkref, by simp [instrs', instrs]⟩
      simp only [InstrData.run, inserted, Option.bind_eq_bind, Option.bind_some, ran, same, instrs,
        List.length_append, List.length_cons, List.length_nil, List.range'_succ, List.map_cons]
      rfl

/-- Every sequence of edits that name returned references keeps the list of a block well linked. -/
theorem edits_keep_well_linked (blkref : BlockRef) (steps : List (Instr × Loc))
    (requests : Requests blkref 0 steps) :
    ∃ refs data, (InstrData.new blkref).run steps = some (refs, data) ∧ WellLinked steps refs data := by
  obtain ⟨data, order, ran, linked, blkref', instrs⟩ := (Linked.new blkref).run requests
  have size : data.instrs.length = steps.length := by simp [instrs, InstrData.new]
  have refs : (List.range' (InstrData.new blkref).instrs.length steps.length).map (InstrData.new blkref).ref =
      (List.range data.instrs.length).map data.ref := by
    rw [size, List.range_eq_range', show data.ref = (InstrData.new blkref).ref from ?_]
    · rfl
    · funext idx
      rw [InstrData.ref, blkref']
      rfl
  rw [refs] at ran
  refine ⟨_, data, ran, linked.counted.trans size, List.nodup_range.map data.ref_injective, ?_,
    ⟨_, linked.iterInstrs_eq, linked.iterBackward_eq, linked.complete.map _⟩, fun instr loc known => ?_⟩
  · have pushed : data.instrs = steps.map Prod.fst := by simp [instrs, InstrData.new]
    have lookup : data.lookup ∘ data.ref = fun idx => data.instrs[idx]? := by
      funext idx
      simp [InstrData.lookup]
    rw [List.map_map, lookup, size, pushed]
    apply List.ext_getElem?
    intro idx
    rcases Nat.lt_or_ge idx steps.length with inside | beyond
    · simp [inside]
    · simp [Nat.not_lt.mpr beyond]
  · obtain ⟨-, front, back, next, -, -, -, inserted, linked', blkref'', -, lands⟩ := linked.insert instr known
    have same : next.ref = data.ref := by
      funext idx
      rw [InstrData.ref, blkref'']
      rfl
    refine ⟨_, next, _, _, inserted, ?_, linked.iterInstrs_eq, linked'.iterInstrs_eq, by rw [same]; exact lands⟩
    intro inside
    obtain ⟨idx, listed, again⟩ := List.mem_map.mp inside
    have short := List.mem_range.mp listed
    rw [data.ref_injective again] at short
    omega

/-- The edits insert at both ends, into the empty list, and before the first instruction. -/
theorem edits_well_linked_sample : ∃ refs data,
    (InstrData.new 3).run [
      (⟨.u16, none, Attribute.NONE, .add, []⟩, .last), (⟨.u16, none, Attribute.NONE, .sub, []⟩, .before (.instr 3 0)),
      (⟨.u16, none, Attribute.NONE, .phi, []⟩, .first), (⟨.u16, none, Attribute.NONE, .add, []⟩, .last)] =
        some (refs, data) ∧ WellLinked [
      (⟨.u16, none, Attribute.NONE, .add, []⟩, .last), (⟨.u16, none, Attribute.NONE, .sub, []⟩, .before (.instr 3 0)),
      (⟨.u16, none, Attribute.NONE, .phi, []⟩, .first), (⟨.u16, none, Attribute.NONE, .add, []⟩, .last)] refs data :=
  edits_keep_well_linked 3 _ (by decide)

/-- The walk of a block in the function is the walk along the links that represent it. -/
theorem Represents.iterInstrs_eq {ir : IR} {b : BlockRef} {block : Block} (found : ir.block? b = some block)
    (represents : Represents data block.data) (here : data.blkref = b) :
    data.iterInstrs = some (ir.iterInstrs b) := by
  subst here
  rw [represents.linked.iterInstrs_eq, IR.iterInstrs, found]
  rfl

end Dis86.BlockData
