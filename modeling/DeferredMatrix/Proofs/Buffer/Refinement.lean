import Mathlib
import DeferredMatrix.Proofs.Buffer.Cells

/-!
# Stores refine lists of cells

A store answers its callers as a list of cells does that knows nothing of offsets, blocks and
padding. `Cell.serve` is that list: a new slot is a cell at its end, as long as there are indices
left, a write sets one cell, and the elements are those of the cells in order, followed by zeros
up to a whole number of blocks.

* `Store.Represents` : the store holds exactly these cells, and nothing but zeros besides.
* `Represents.serve` : one request is answered alike and leads to a store that represents the
  cells afterwards.
* `refines_cells` : so is every sequence of requests, from every layout on.
-/

namespace DeferredMatrix

variable {α : Type}

/-! ## Stores -/

namespace Store

/-- What is asked of a store. -/
inductive Request (α : Type) where
  | pushSlot (kind : Kind)
  | write (index : Nat) (values : List α)
  | read (index : Nat)
  | isWritten (index : Nat)
  /-- The number of elements that belong to slots. -/
  | used
  /-- All elements, padding included. -/
  | elements

inductive Reply (α : Type) where
  | index (n : Nat)
  | done
  | contents (values : Option (List α))
  | written (flag : Bool)
  | count (n : Nat)
  | elements (xs : List α)
  deriving DecidableEq

variable [Zero α]

/-- The answer to a request and the store afterwards. -/
def serve (s : Store α) : Request α → Except Breach (Reply α) × Store α
  | .pushSlot kind =>
    match s.pushSlot kind with
    | .ok (index, t) => (.ok (.index index), t)
    | .error breach => (.error breach, s)
  | .write index values =>
    match s.write index values with
    | .ok t => (.ok .done, t)
    | .error breach => (.error breach, s)
  | .read index => ((s.read index).map .contents, s)
  | .isWritten index => ((s.isWritten index).map .written, s)
  | .used => (.ok (.count s.used), s)
  | .elements => (.ok (.elements s.elements), s)

def serveAll (s : Store α) : List (Request α) → List (Except Breach (Reply α)) × Store α
  | [] => ([], s)
  | request :: requests =>
    let (reply, t) := s.serve request
    let (replies, u) := t.serveAll requests
    (reply :: replies, u)

end Store

/-! ## Lists of cells -/

namespace Cell

/-- The number of elements of some cells. -/
def width (cs : List (Cell α)) : Nat := (cs.map fun c => c.kind.width).sum

/-- The cell with the given index. -/
def get (cs : List (Cell α)) (index : Nat) : Except Breach (Cell α) :=
  match cs[index]? with
  | some c => .ok c
  | none => .error (.outOfBounds cs.length index)

variable [Zero α]

/-- The elements of a cell: zeros until it is written. -/
def elements (c : Cell α) : List α := c.contents.getD (List.replicate c.kind.width 0)

/-- The elements of some cells in order, and zeros up to a whole number of blocks. -/
def padded (cs : List (Cell α)) : List α :=
  cs.flatMap elements ++ List.replicate (Store.padded (width cs) - width cs) 0

/-- The answer to a request and the cells afterwards. -/
def serve (cs : List (Cell α)) :
    Store.Request α → Except Breach (Store.Reply α) × List (Cell α)
  | .pushSlot kind =>
    if cs.length < Store.capacity then (.ok (.index cs.length), cs ++ [⟨kind, none⟩])
    else (.error .tooManySlots, cs)
  | .write index values =>
    match get cs index with
    | .error breach => (.error breach, cs)
    | .ok c =>
      if values.length = c.kind.width then (.ok .done, cs.set index ⟨c.kind, some values⟩)
      else (.error (.writtenWidth values.length c.kind), cs)
  | .read index => ((get cs index).map fun c => .contents c.contents, cs)
  | .isWritten index => ((get cs index).map fun c => .written c.contents.isSome, cs)
  | .used => (.ok (.count (width cs)), cs)
  | .elements => (.ok (.elements (padded cs)), cs)

def serveAll (cs : List (Cell α)) :
    List (Store.Request α) → List (Except Breach (Store.Reply α)) × List (Cell α)
  | [] => ([], cs)
  | request :: requests =>
    let (reply, ds) := serve cs request
    let (replies, es) := serveAll ds requests
    (reply :: replies, es)

end Cell

/-! ## Padding -/

namespace Store

theorem dvd_padded (n : Nat) : blockSize ∣ padded n := Nat.dvd_mul_left _ _

theorem padded_le_of_dvd {n m : Nat} (hdvd : blockSize ∣ m) (h : n ≤ m) : padded n ≤ m := by
  obtain ⟨k, rfl⟩ := hdvd
  unfold padded blockSize at *
  omega

/-- Padding adds as little as leads to a whole number of blocks. -/
theorem isLeast_padded (n : Nat) : IsLeast {m | blockSize ∣ m ∧ n ≤ m} (padded n) :=
  ⟨⟨dvd_padded n, le_padded n⟩, fun _ hm => padded_le_of_dvd hm.1 hm.2⟩

/-! ## Slots and cells -/

theorem width_map_cell (s : Store α) (slots : List Slot) :
    Cell.width (slots.map s.cell) = width slots := by
  induction slots with
  | nil => rfl
  | cons slot slots ih =>
    rw [width, ← ih]
    rfl

theorem Packed.used_eq {s : Store α} (hs : s.Packed) : s.used = Cell.width s.cells :=
  hs.used.trans (width_map_cell s s.slots).symm

theorem Packed.offset_eq {s : Store α} (hs : s.Packed) {index : Nat} {slot : Slot}
    (hi : s.slots[index]? = some slot) : slot.offset = Cell.width (s.cells.take index) := by
  rw [hs.offset index slot hi, cells, ← List.map_take, width_map_cell]

theorem get_cells (s : Store α) (index : Nat) :
    Cell.get s.cells index = (s.slot index).map s.cell := by
  unfold Cell.get Store.slot
  rw [getElem?_cells, length_cells]
  cases s.slots[index]? with
  | none => rfl
  | some slot => rfl

theorem read_eq (s : Store α) (index : Nat) :
    s.read index = (Cell.get s.cells index).map Cell.contents := by
  rw [get_cells, read]
  cases s.slot index with
  | error breach => rfl
  | ok slot => rfl

theorem isWritten_eq (s : Store α) (index : Nat) :
    s.isWritten index = (Cell.get s.cells index).map fun c => c.contents.isSome := by
  rw [get_cells, isWritten]
  cases s.slot index with
  | error breach => rfl
  | ok slot => cases hw : slot.written <;> simp [Except.map, cell, contents, hw]

theorem write_of_width_ne {s : Store α} {index : Nat} {slot : Slot} {values : List α}
    (hi : s.slot index = .ok slot) (hw : values.length ≠ slot.kind.width) :
    s.write index values = .error (.writtenWidth values.length slot.kind) := by
  simp only [write, hi, bind, Except.bind, if_neg hw]
  rfl

theorem write_of_slot_error {s : Store α} {index : Nat} {values : List α} {breach : Breach}
    (hi : s.slot index = .error breach) : s.write index values = .error breach := by
  simp only [write, hi, bind, Except.bind]

theorem getElem?_of_slot {s : Store α} {index : Nat} {slot : Slot}
    (h : s.slot index = .ok slot) : s.slots[index]? = some slot := by
  unfold Store.slot at h
  cases hi : s.slots[index]? with
  | none => simp [hi] at h
  | some other =>
    simp only [hi, Except.ok.injEq] at h
    rw [h]

/-- Elements between others are replaced by as many. -/
theorem splice_append {xs old ys new : List α} (h : new.length = old.length) :
    splice (xs ++ old ++ ys) xs.length new = xs ++ new ++ ys := by
  unfold splice
  rw [List.append_assoc xs old ys, List.take_left, h, ← List.append_assoc xs old ys,
    ← List.length_append, List.drop_left]

/-! ## Cells and their elements -/

variable [Zero α]

theorem Packed.length_elements {s : Store α} (hs : s.Packed) {c : Cell α} (hc : c ∈ s.cells) :
    c.elements.length = c.kind.width := by
  obtain ⟨i, hi⟩ := List.mem_iff_getElem?.1 hc
  cases hcontents : c.contents with
  | none => simp [Cell.elements, hcontents]
  | some xs => simpa [Cell.elements, hcontents] using hs.length_contents hi hcontents

end Store

namespace Cell

theorem width_set {cs : List (Cell α)} {index : Nat} {c : Cell α} (hc : cs[index]? = some c)
    (contents : Option (List α)) : width (cs.set index ⟨c.kind, contents⟩) = width cs := by
  have hkinds := congrArg (List.map Kind.width) (map_kind_set hc contents)
  simp only [List.map_map] at hkinds
  exact congrArg List.sum hkinds

variable [Zero α]

theorem length_flatMap_elements {cs : List (Cell α)}
    (h : ∀ c ∈ cs, c.elements.length = c.kind.width) :
    (cs.flatMap elements).length = width cs := by
  rw [List.length_flatMap, width, List.map_congr_left h]

/-- The zeros of a new cell come out of the padding, and of new blocks where that is too short. -/
theorem padded_concat (cs : List (Cell α)) (kind : Kind) :
    padded (cs ++ [⟨kind, none⟩]) = padded cs ++ List.replicate
      (Store.padded (width cs + kind.width) - Store.padded (width cs)) 0 := by
  have hwidth : width (cs ++ [⟨kind, none⟩]) = width cs + kind.width := by simp [width]
  have hle : width cs ≤ Store.padded (width cs) := Store.le_padded _
  have hle' : width cs + kind.width ≤ Store.padded (width cs + kind.width) := Store.le_padded _
  have hmono : Store.padded (width cs) ≤ Store.padded (width cs + kind.width) :=
    Store.padded_mono (by omega)
  simp only [padded, hwidth, List.flatMap_append, List.flatMap_singleton, elements,
    Option.getD_none, List.append_assoc, List.replicate_append_replicate]
  congr 2
  omega

/-- The elements of a cell lie behind those of the cells before it, so setting the cell replaces
them alone. -/
theorem padded_set {cs : List (Cell α)} (hall : ∀ c ∈ cs, c.elements.length = c.kind.width)
    {index : Nat} {c : Cell α} (hc : cs[index]? = some c) {values : List α}
    (hw : values.length = c.kind.width) :
    padded (cs.set index ⟨c.kind, some values⟩) =
      Store.splice (padded cs) (width (cs.take index)) values := by
  obtain ⟨hlt, rfl⟩ := List.getElem?_eq_some_iff.1 hc
  have hbefore : ((cs.take index).flatMap elements).length = width (cs.take index) :=
    length_flatMap_elements fun c hmem => hall c (List.mem_of_mem_take hmem)
  have hold : values.length = cs[index].elements.length := by
    rw [hall _ (List.getElem_mem hlt), hw]
  have hset : (cs.set index ⟨cs[index].kind, some values⟩).flatMap elements =
      (cs.take index).flatMap elements ++ values ++ (cs.drop (index + 1)).flatMap elements := by
    simp [List.set_eq_take_append_cons_drop, hlt, elements]
  have hsplit : cs.flatMap elements = (cs.take index).flatMap elements ++ cs[index].elements ++
      (cs.drop (index + 1)).flatMap elements := by
    rw [List.append_assoc, ← List.flatMap_cons, ← List.drop_eq_getElem_cons hlt,
      ← List.flatMap_append, List.take_append_drop]
  unfold padded
  rw [width_set hc, hset, hsplit, List.append_assoc _ _ (List.replicate _ _),
    List.append_assoc _ _ (List.replicate _ _), ← hbefore, Store.splice_append hold]

end Cell

namespace Store

variable [Zero α]

/-! ## Representation -/

/-- The store holds exactly these cells, and all other elements are zero. -/
structure Represents (s : Store α) (cs : List (Cell α)) : Prop where
  packed : s.Packed
  cells : s.cells = cs
  elements : s.elements = Cell.padded cs

namespace Represents

variable {s : Store α} {cs : List (Cell α)}

theorem used (h : s.Represents cs) : s.used = Cell.width cs := h.cells ▸ h.packed.used_eq

theorem append (h : s.Represents cs) (kind : Kind) :
    (s.append kind).Represents (cs ++ [⟨kind, none⟩]) where
  packed := packed_append h.packed kind
  cells := by rw [cells_append h.packed, h.cells]
  elements := by
    rw [Cell.padded_concat, ← h.elements, ← h.used, ← h.packed.length]
    rfl

theorem put (h : s.Represents cs) {index : Nat} {slot : Slot} {values : List α}
    (hi : s.slots[index]? = some slot) (hw : values.length = slot.kind.width) :
    (s.put index slot values).Represents (cs.set index ⟨slot.kind, some values⟩) where
  packed := packed_put h.packed hi hw
  cells := by rw [cells_put h.packed hi hw, h.cells]
  elements := by
    have hc : cs[index]? = some (s.cell slot) := by
      rw [← h.cells, getElem?_cells, hi]
      rfl
    have hall : ∀ c ∈ cs, c.elements.length = c.kind.width := by
      intro c hmem
      exact h.packed.length_elements (h.cells ▸ hmem)
    rw [← kind_cell s slot, Cell.padded_set hall hc hw, ← h.elements, ← h.cells,
      ← h.packed.offset_eq hi]
    rfl

theorem ofLayout (layout : List Kind) :
    (ofLayout layout : Store α).Represents (layout.map fun kind => ⟨kind, none⟩) := by
  unfold Store.ofLayout
  induction layout using List.reverseRecOn with
  | nil => exact ⟨packed_empty, rfl, by simp [empty, Cell.padded, Cell.width, padded, blockSize]⟩
  | append_singleton layout kind ih =>
    rw [List.foldl_append, List.map_append]
    exact ih.append kind

/-! ## Requests -/

/-- A store and the cells that it represents answer a request alike and stay together. -/
theorem serve (h : s.Represents cs) (request : Request α) :
    (s.serve request).1 = (Cell.serve cs request).1 ∧
      (s.serve request).2.Represents (Cell.serve cs request).2 := by
  have hget := get_cells s
  rw [h.cells] at hget
  cases request with
  | pushSlot kind =>
    have hlength : s.numSlots = cs.length := by rw [← h.cells, length_cells]
    simp only [Store.serve, Cell.serve, ← hlength]
    rcases Nat.lt_or_ge s.numSlots capacity with hlt | hfull
    · rw [pushSlot_of_lt hlt, if_pos hlt]
      exact ⟨rfl, h.append kind⟩
    · rw [pushSlot_of_full hfull, if_neg (Nat.not_lt.2 hfull)]
      exact ⟨rfl, h⟩
  | write index values =>
    simp only [Store.serve, Cell.serve, hget]
    cases hi : s.slot index with
    | error breach =>
      rw [write_of_slot_error hi]
      exact ⟨rfl, h⟩
    | ok slot =>
      simp only [Except.map]
      by_cases hw : values.length = (s.cell slot).kind.width
      · rw [write_eq_put hi hw, if_pos hw]
        exact ⟨rfl, h.put (getElem?_of_slot hi) hw⟩
      · rw [write_of_width_ne hi hw, if_neg hw]
        exact ⟨rfl, h⟩
  | read index =>
    refine ⟨?_, h⟩
    simp only [Store.serve, Cell.serve, read_eq, h.cells]
    cases Cell.get cs index <;> rfl
  | isWritten index =>
    refine ⟨?_, h⟩
    simp only [Store.serve, Cell.serve, isWritten_eq, h.cells]
    cases Cell.get cs index <;> rfl
  | used => exact ⟨by simp only [Store.serve, Cell.serve, h.used], h⟩
  | elements => exact ⟨by simp only [Store.serve, Cell.serve, h.elements], h⟩

theorem serveAll (h : s.Represents cs) (requests : List (Request α)) :
    (s.serveAll requests).1 = (Cell.serveAll cs requests).1 ∧
      (s.serveAll requests).2.Represents (Cell.serveAll cs requests).2 := by
  induction requests generalizing s cs with
  | nil => exact ⟨rfl, h⟩
  | cons request requests ih =>
    obtain ⟨hreply, hnext⟩ := h.serve request
    obtain ⟨hreplies, hlast⟩ := ih hnext
    exact ⟨congrArg₂ List.cons hreply hreplies, hlast⟩

end Represents

/-- A store is made from every layout whose slots can be numbered. Whatever a store is asked, from
any layout on, it answers as the cells do. At every time it holds these cells, the number of its
elements in use is the sum of their widths, and its elements are theirs in order, followed by
zeros up to the least whole number of blocks. -/
theorem refines_cells (layout : List Kind) (requests : List (Request α)) :
    let cells := layout.map fun kind => (⟨kind, none⟩ : Cell α)
    let (replies, s) := (ofLayout layout : Store α).serveAll requests
    let (replies', cs) := Cell.serveAll cells requests
    create layout = (if layout.length ≤ capacity then .ok (ofLayout layout : Store α)
      else .error .tooManySlots) ∧ replies = replies' ∧ s.cells = cs ∧
      s.used = (cs.map fun c => c.kind.width).sum ∧
      s.elements = cs.flatMap (fun c => c.contents.getD (List.replicate c.kind.width 0)) ++
        List.replicate (s.elements.length - s.used) 0 ∧
      IsLeast {n | 16 ∣ n ∧ s.used ≤ n} s.elements.length := by
  obtain ⟨hreplies, h⟩ := (Represents.ofLayout (α := α) layout).serveAll requests
  refine ⟨create_eq layout, hreplies, h.cells, h.used, ?_, ?_⟩
  · rw [h.packed.length, h.used]
    exact h.elements
  · rw [h.packed.length]
    exact isLeast_padded _

end Store

end DeferredMatrix
