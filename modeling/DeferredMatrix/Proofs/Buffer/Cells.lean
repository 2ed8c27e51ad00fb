import DeferredMatrix.Buffer.Store
import Mathlib.Data.List.Induction

/-!
# Stores as lists of cells

A store keeps the elements of all slots in one list, at offsets that it computes. Seen from
outside it is a list of cells: every slot has a kind, and elements once it is written.

* `cells_append` : a new slot is one more cell and leaves the others alone.
* `create_eq` : slots can be pushed one after the other as long as they can be numbered.
* `write_eq` : a write of the right width sets exactly the cell that it names; any other write
  is a breach.

Both need that the slots lie one behind the other and that the elements reach as far as they do
(`Store.Packed`), which every store keeps (`packed_ofLayout`, `packed_append`, `write_eq`).
-/

namespace DeferredMatrix

variable {α : Type}

/-- A slot as its readers see it: its kind, and its elements once it is written. -/
structure Cell (α : Type) where
  kind : Kind
  contents : Option (List α)
  deriving DecidableEq

theorem Cell.map_kind_set {cs : List (Cell α)} {i : Nat} {c : Cell α} (hc : cs[i]? = some c)
    (contents : Option (List α)) : (cs.set i ⟨c.kind, contents⟩).map kind = cs.map kind := by
  obtain ⟨hlt, rfl⟩ := List.getElem?_eq_some_iff.1 hc
  rw [List.map_set, ← List.getElem_map kind (h := by simpa using hlt), List.set_getElem_self]

namespace Store

def cell (s : Store α) (slot : Slot) : Cell α := ⟨slot.kind, s.contents slot⟩

def cells (s : Store α) : List (Cell α) := s.slots.map s.cell

/-- The number of elements that belong to the given slots. -/
def width : List Slot → Nat
  | [] => 0
  | slot :: slots => slot.kind.width + width slots

/-- Slots lie one behind the other from the first element on, and there are elements for all of
them. -/
structure Packed (s : Store α) : Prop where
  offset : ∀ i slot, s.slots[i]? = some slot → slot.offset = width (s.slots.take i)
  used : s.used = width s.slots
  length : s.elements.length = padded s.used

/-! ## Widths and offsets -/

@[simp] theorem width_append (xs ys : List Slot) : width (xs ++ ys) = width xs + width ys := by
  induction xs with
  | nil => simp [width]
  | cons slot xs ih =>
    rw [List.cons_append, width, width, ih]
    omega

@[simp] theorem width_singleton (slot : Slot) : width [slot] = slot.kind.width := rfl

theorem width_congr {xs ys : List Slot} (h : xs.map Slot.kind = ys.map Slot.kind) :
    width xs = width ys := by
  induction xs generalizing ys with
  | nil =>
    cases ys with
    | nil => rfl
    | cons y ys => cases h
  | cons x xs ih =>
    cases ys with
    | nil => cases h
    | cons y ys =>
      obtain ⟨hkind, hrest⟩ := List.cons.inj h
      show x.kind.width + width xs = y.kind.width + width ys
      rw [hkind, ih hrest]

theorem le_padded (n : Nat) : n ≤ padded n := by
  unfold padded blockSize
  omega

theorem padded_mono {m n : Nat} (h : m ≤ n) : padded m ≤ padded n :=
  Nat.mul_le_mul_right _ (Nat.div_le_div_right (by omega))

/-- The slots up to and including the `i`-th one. -/
theorem width_take_succ {slots : List Slot} {i : Nat} {slot : Slot} (h : slots[i]? = some slot) :
    width (slots.take (i + 1)) = width (slots.take i) + slot.kind.width := by
  rw [List.take_add_one, h, Option.toList_some, width_append, width_singleton]

theorem width_take_mono {i j : Nat} (slots : List Slot) (h : i ≤ j) :
    width (slots.take i) ≤ width (slots.take j) := by
  rw [← Nat.add_sub_cancel' h, List.take_add, width_append]
  omega

theorem width_take_le (slots : List Slot) (i : Nat) : width (slots.take i) ≤ width slots := by
  conv_rhs => rw [← List.take_append_drop i slots]
  rw [width_append]
  omega

namespace Packed

variable {s : Store α} {i j : Nat} {slot other : Slot}

theorem end_le_length (hs : s.Packed) (hi : s.slots[i]? = some slot) :
    slot.offset + slot.kind.width ≤ s.elements.length := by
  rw [hs.offset i slot hi, ← width_take_succ hi, hs.length]
  exact Nat.le_trans (width_take_le _ _) (hs.used ▸ le_padded _)

/-- A slot ends before the slots behind it begin. -/
theorem end_le_offset (hs : s.Packed) (hi : s.slots[i]? = some slot)
    (hj : s.slots[j]? = some other) (h : i < j) : slot.offset + slot.kind.width ≤ other.offset := by
  rw [hs.offset i slot hi, hs.offset j other hj, ← width_take_succ hi]
  exact width_take_mono _ h

end Packed

/-! ## Reading cells -/

theorem getElem?_cells (s : Store α) (i : Nat) : s.cells[i]? = s.slots[i]?.map s.cell := by
  simp [cells]

@[simp] theorem length_cells (s : Store α) : s.cells.length = s.numSlots := by
  simp [cells, numSlots]

theorem kind_cell (s : Store α) (slot : Slot) : (s.cell slot).kind = slot.kind := rfl

/-- A cell that is written has as many elements as its kind asks for. -/
theorem Packed.length_contents {s : Store α} (hs : s.Packed) {i : Nat} {c : Cell α} {xs : List α}
    (hi : s.cells[i]? = some c) (hc : c.contents = some xs) : xs.length = c.kind.width := by
  rw [getElem?_cells] at hi
  obtain ⟨slot, hslot, rfl⟩ := Option.map_eq_some_iff.1 hi
  have hend := hs.end_le_length hslot
  simp only [cell, contents] at hc
  split at hc
  · cases hc
    simp only [List.length_take, List.length_drop, kind_cell]
    omega
  · cases hc

/-- A slot keeps its contents if the elements that belong to it stay the same. -/
theorem contents_congr {s t : Store α} {slot : Slot}
    (h : ∀ k, slot.offset ≤ k → k < slot.offset + slot.kind.width →
      s.elements[k]? = t.elements[k]?) :
    s.contents slot = t.contents slot := by
  have helems : (s.elements.drop slot.offset).take slot.kind.width =
      (t.elements.drop slot.offset).take slot.kind.width := by
    apply List.ext_getElem?
    intro k
    simp only [List.getElem?_take, List.getElem?_drop]
    split
    · exact h _ (by omega) (by omega)
    · rfl
  simp only [contents, helems]

/-! ## New slots -/

theorem packed_empty : (empty : Store α).Packed where
  offset := by simp [empty]
  used := rfl
  length := by simp [empty, padded, blockSize]

variable [Zero α]

theorem packed_append {s : Store α} (hs : s.Packed) (k : Kind) : (s.append k).Packed where
  offset := by
    intro i slot hi
    simp only [append] at hi ⊢
    rcases Nat.lt_trichotomy i s.slots.length with h | h | h
    · rw [List.getElem?_append_left h] at hi
      rw [List.take_append_of_le_length (Nat.le_of_lt h)]
      exact hs.offset i slot hi
    · subst h
      simp only [List.getElem?_concat_length, Option.some.injEq] at hi
      subst hi
      simp [hs.used]
    · rw [List.getElem?_eq_none (by simp; omega)] at hi
      cases hi
  used := by simp [append, hs.used]
  length := by
    have hpad : padded s.used ≤ padded (s.used + k.width) := padded_mono (by omega)
    have hlen := hs.length
    simp only [append, List.length_append, List.length_replicate]
    omega

theorem packed_ofLayout (layout : List Kind) : (ofLayout layout : Store α).Packed := by
  unfold ofLayout
  induction layout using List.reverseRecOn with
  | nil => exact packed_empty
  | append_singleton layout k ih =>
    rw [List.foldl_append]
    exact packed_append ih k

/-- A new slot is one more cell, which is not written. -/
theorem cells_append {s : Store α} (hs : s.Packed) (k : Kind) :
    (s.append k).cells = s.cells ++ [⟨k, none⟩] := by
  have hold : ∀ slot ∈ s.slots, (s.append k).cell slot = s.cell slot := by
    intro slot hmem
    obtain ⟨i, hi⟩ := List.mem_iff_getElem?.1 hmem
    have hend := hs.end_le_length hi
    simp only [cell, Cell.mk.injEq, true_and]
    apply contents_congr
    intro j _ hj
    exact List.getElem?_append_left (by omega)
  simp only [cells, append, List.map_append, List.map_cons, List.map_nil]
  congr 1
  exact List.map_congr_left hold

theorem cells_ofLayout (layout : List Kind) :
    (ofLayout layout : Store α).cells = layout.map fun k => ⟨k, none⟩ := by
  induction layout using List.reverseRecOn with
  | nil => rfl
  | append_singleton layout k ih =>
    have hconcat : (ofLayout (layout ++ [k]) : Store α) = (ofLayout layout).append k := by
      simp [ofLayout]
    rw [hconcat, cells_append (packed_ofLayout layout), ih, List.map_append]
    rfl

@[simp] theorem numSlots_append (s : Store α) (k : Kind) :
    (s.append k).numSlots = s.numSlots + 1 := by
  simp [numSlots, append]

theorem pushSlot_of_lt {s : Store α} (h : s.numSlots < capacity) (k : Kind) :
    s.pushSlot k = .ok (s.numSlots, s.append k) := if_pos h

theorem pushSlot_of_full {s : Store α} (h : capacity ≤ s.numSlots) (k : Kind) :
    s.pushSlot k = .error .tooManySlots := if_neg (Nat.not_lt.2 h)

/-- Pushing slots one after the other goes well as long as there is an index left for each. -/
theorem foldlM_pushSlot (layout : List Kind) {s : Store α} (hs : s.numSlots ≤ capacity) :
    layout.foldlM (fun s k => (s.pushSlot k).map Prod.snd) s =
      if s.numSlots + layout.length ≤ capacity then .ok (layout.foldl append s)
      else .error .tooManySlots := by
  induction layout generalizing s with
  | nil => exact (if_pos hs).symm
  | cons k layout ih =>
    rw [List.foldlM_cons, List.foldl_cons, List.length_cons]
    rcases Nat.lt_or_ge s.numSlots capacity with hlt | hfull
    · rw [pushSlot_of_lt hlt]
      have hrest := ih (s := s.append k) (by rw [numSlots_append]; exact hlt)
      rw [numSlots_append, Nat.add_assoc, Nat.add_comm 1] at hrest
      exact hrest
    · rw [pushSlot_of_full hfull, if_neg (by omega)]
      rfl

theorem create_eq (layout : List Kind) : (create layout : Except Breach (Store α)) =
    if layout.length ≤ capacity then .ok (ofLayout layout) else .error .tooManySlots := by
  rw [create, foldlM_pushSlot layout (Nat.zero_le _)]
  simp [ofLayout, empty, numSlots]

omit [Zero α]

/-! ## Writing -/

theorem length_splice {xs ys : List α} {offset : Nat} (h : offset + ys.length ≤ xs.length) :
    (splice xs offset ys).length = xs.length := by
  simp only [splice, List.length_append, List.length_take, List.length_drop]
  omega

theorem getElem?_splice {xs ys : List α} {offset : Nat} (h : offset + ys.length ≤ xs.length)
    (i : Nat) : (splice xs offset ys)[i]? =
      if offset ≤ i ∧ i < offset + ys.length then ys[i - offset]? else xs[i]? := by
  have htake : (xs.take offset).length = offset := by simp; omega
  unfold splice
  split
  · rename_i hin
    rw [List.getElem?_append_left (by simp; omega), List.getElem?_append_right (by omega), htake]
  · rename_i hout
    rcases Nat.lt_or_ge i offset with hi | hi
    · rw [List.getElem?_append_left (by simp; omega), List.getElem?_append_left (by omega),
        List.getElem?_take_of_lt hi]
    · rw [List.getElem?_append_right (by simp; omega), List.getElem?_drop]
      congr 1
      simp
      omega

/-- What a write of the right width leaves behind. -/
def put (s : Store α) (index : Nat) (slot : Slot) (values : List α) : Store α :=
  { s with
    elements := splice s.elements slot.offset values
    slots := s.slots.set index { slot with written := true } }

section Put

variable {s : Store α} {index : Nat} {slot : Slot} {values : List α}

theorem packed_put (hs : s.Packed) (hi : s.slots[index]? = some slot)
    (hw : values.length = slot.kind.width) : (s.put index slot values).Packed := by
  have hwidth : ∀ i, width ((s.slots.set index { slot with written := true }).take i) =
      width (s.slots.take i) := by
    intro i
    apply width_congr
    apply List.ext_getElem?
    intro j
    simp only [List.getElem?_map, List.getElem?_take, List.getElem?_set]
    by_cases hij : index = j
    · subst hij
      obtain ⟨hlt, rfl⟩ := List.getElem?_eq_some_iff.1 hi
      simp [hlt]
    · simp [hij]
  constructor
  · intro i other hother
    simp only [put, List.getElem?_set] at hother ⊢
    rw [hwidth]
    split at hother
    · rename_i h
      subst h
      split at hother
      · cases hother
        exact hs.offset index slot hi
      · cases hother
    · exact hs.offset i other hother
  · have h := hwidth s.slots.length
    rw [List.take_of_length_le (by simp), List.take_length] at h
    exact hs.used.trans h.symm
  · have hend := hs.end_le_length hi
    exact (length_splice (by omega)).trans hs.length

theorem contents_put_self (hs : s.Packed) (hi : s.slots[index]? = some slot)
    (hw : values.length = slot.kind.width) :
    (s.put index slot values).contents { slot with written := true } = some values := by
  have hend := hs.end_le_length hi
  simp only [contents, put, if_true, Option.some.injEq]
  apply List.ext_getElem?
  intro k
  simp only [List.getElem?_take, List.getElem?_drop]
  rw [getElem?_splice (by omega)]
  by_cases hk : k < slot.kind.width
  · rw [if_pos hk, if_pos (by omega), Nat.add_sub_cancel_left]
  · rw [if_neg hk, List.getElem?_eq_none (by omega)]

/-- Slots do not overlap, so a write leaves the other slots as they were. -/
theorem contents_put_of_ne (hs : s.Packed) (hi : s.slots[index]? = some slot)
    (hw : values.length = slot.kind.width) {j : Nat} {other : Slot} (hne : j ≠ index)
    (hj : s.slots[j]? = some other) :
    (s.put index slot values).contents other = s.contents other := by
  have hend := hs.end_le_length hi
  apply contents_congr
  intro k hlo hhi
  refine (getElem?_splice (by omega) k).trans (if_neg ?_)
  rcases Nat.lt_or_gt_of_ne hne with h | h
  · have := hs.end_le_offset hj hi h
    omega
  · have := hs.end_le_offset hi hj h
    omega

theorem cells_put (hs : s.Packed) (hi : s.slots[index]? = some slot)
    (hw : values.length = slot.kind.width) :
    (s.put index slot values).cells = s.cells.set index ⟨slot.kind, some values⟩ := by
  have hlt := (List.getElem?_eq_some_iff.1 hi).1
  apply List.ext_getElem?
  intro j
  rw [getElem?_cells, List.getElem?_set, length_cells]
  by_cases hj : index = j
  · subst hj
    have hset : (s.put index slot values).slots[index]? = some { slot with written := true } := by
      simp [put, hlt]
    rw [if_pos rfl, numSlots, if_pos hlt, hset, Option.map_some, cell, contents_put_self hs hi hw]
  · have hset : (s.put index slot values).slots[j]? = s.slots[j]? := by
      simp [put, hj]
    rw [if_neg hj, hset, getElem?_cells]
    cases hother : s.slots[j]? with
    | none => rfl
    | some other =>
      simp only [Option.map_some, cell, contents_put_of_ne hs hi hw (Ne.symm hj) hother]

end Put

theorem write_eq_put {s : Store α} {index : Nat} {slot : Slot} {values : List α}
    (hi : s.slot index = .ok slot) (hw : values.length = slot.kind.width) :
    s.write index values = .ok (s.put index slot values) := by
  simp only [write, hi, bind, Except.bind, if_pos hw]
  rfl

/-- A write sets the cell that it names if the number of elements is right for its kind. -/
theorem write_eq {s : Store α} {index : Nat} {c : Cell α} (hs : s.Packed)
    (hc : s.cells[index]? = some c) {values : List α} (hw : values.length = c.kind.width) :
    ∃ t, s.write index values = .ok t ∧ t.Packed ∧
      t.cells = s.cells.set index ⟨c.kind, some values⟩ := by
  rw [getElem?_cells] at hc
  obtain ⟨slot, hi, rfl⟩ := Option.map_eq_some_iff.1 hc
  have hslot : s.slot index = .ok slot := by simp [Store.slot, hi]
  exact ⟨s.put index slot values, write_eq_put hslot hw, packed_put hs hi hw, cells_put hs hi hw⟩

/-- A write that succeeds was to a slot that exists and had the right width. -/
theorem write_ok {s t : Store α} {index : Nat} {values : List α}
    (h : s.write index values = .ok t) :
    ∃ c, s.cells[index]? = some c ∧ values.length = c.kind.width := by
  unfold write Store.slot at h
  cases hi : s.slots[index]? with
  | none => simp [hi, bind, Except.bind] at h
  | some slot =>
    refine ⟨s.cell slot, by rw [getElem?_cells, hi]; rfl, ?_⟩
    by_contra hw
    rw [kind_cell] at hw
    simp [hi, bind, Except.bind, hw, throw, throwThe, MonadExceptOf.throw] at h

end Store

end DeferredMatrix
