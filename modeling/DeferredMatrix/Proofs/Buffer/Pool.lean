import DeferredMatrix.Buffer.Lease
import DeferredMatrix.Proofs.Buffer.Cells

/-!
# What readers see of a pool

A pool shows its readers the cells of every live buffer (`Pool.cells?`). Every operation on a
pool changes the cells of one buffer and leaves the others alone (`Pool.SameBut`), and no
operation takes a slot from a buffer that stays live or brings a released buffer back
(`Pool.Extends`). A place therefore keeps the kind of value that it has been handed out for
(`Pool.Holds.mono`).

* `read_eq_ok_iff`, `read_cases` : reading a place that holds values of the right kind.
* `pushSlot_eq`, `write_eq` : appending a slot and writing one.
-/

namespace DeferredMatrix

variable {α : Type}

/-! ## Values and their elements -/

/-- Any list of the right length is the list of elements of a value. -/
theorem Value.exists_slots_eq {k : Kind} {xs : List α} (h : xs.length = k.width) :
    ∃ v : Value α k, v.slots = xs := by
  cases k with
  | scalar =>
    obtain ⟨x, rfl⟩ := List.length_eq_one_iff.1 h
    exact ⟨.scalar x, rfl⟩
  | vector =>
    match xs, h with
    | [x, y, z, w], _ => exact ⟨.vector ⟨x, y, z, w⟩, rfl⟩
  | matrix =>
    match xs, h with
    | [a, b, c, d, e, f, g, h, i, j, k, l, m, n, o, p], _ =>
      exact ⟨.matrix ⟨⟨⟨a, b, c, d⟩, ⟨e, f, g, h⟩, ⟨i, j, k, l⟩, ⟨m, n, o, p⟩⟩⟩, rfl⟩

namespace Pool

/-- The cells of a live buffer. -/
def cells? (p : Pool α) (b : BufferId) : Option (List (Cell α)) := (p.store? b).map Store.cells

/-- The elements at a place that is written. -/
def contents? (p : Pool α) (place : Place) : Option (List α) :=
  ((p.cells? place.buffer).bind fun cs => cs[place.slot]?).bind Cell.contents

/-- The serial number has been issued. -/
def Issued (p : Pool α) (b : BufferId) : Prop := b.serial < p.entries.size

def Packed (p : Pool α) : Prop := ∀ b s, p.store? b = some s → s.Packed

/-- The place is a slot for values of the kind `k`, or was one before its buffer was released. -/
def Holds (p : Pool α) (place : Place) (k : Kind) : Prop :=
  p.Issued place.buffer ∧
    ∀ cs, p.cells? place.buffer = some cs → ∃ c, cs[place.slot]? = some c ∧ c.kind = k

/-- Buffers that are live afterwards were live before, if they existed, and have kept their
slots. -/
structure Extends (p q : Pool α) : Prop where
  size : p.entries.size ≤ q.entries.size
  cells : ∀ b ds, p.Issued b → q.cells? b = some ds →
    ∃ cs, p.cells? b = some cs ∧ cs.map Cell.kind <+: ds.map Cell.kind

/-- Only the buffer `b` may have changed. -/
structure SameBut (p q : Pool α) (b : BufferId) : Prop where
  size : q.entries.size = p.entries.size
  store : ∀ c, c ≠ b → q.store? c = p.store? c

/-- Whatever is written afterwards was written before. -/
def WritesNothing (p q : Pool α) : Prop :=
  ∀ place xs, q.contents? place = some xs → p.contents? place = some xs

/-! ## Looking up -/

theorem issued_of_store {p : Pool α} {b : BufferId} {s : Store α} (h : p.store? b = some s) :
    p.Issued b := by
  unfold store? at h
  obtain ⟨entry, hentry, -⟩ := Option.bind_eq_some_iff.1 h
  exact (Array.getElem?_eq_some_iff.1 hentry).1

theorem store?_empty (b : BufferId) : (empty : Pool α).store? b = none := rfl

theorem packed_empty : (empty : Pool α).Packed := by
  intro b s hs
  cases (store?_empty b).symm.trans hs

theorem store_of_cells {p : Pool α} {b : BufferId} {cs : List (Cell α)}
    (h : p.cells? b = some cs) : ∃ s, p.store? b = some s ∧ s.cells = cs :=
  Option.map_eq_some_iff.1 h

theorem cells_of_store {p : Pool α} {b : BufferId} {s : Store α} (h : p.store? b = some s) :
    p.cells? b = some s.cells := by
  rw [cells?, h, Option.map_some]

theorem issued_of_cells {p : Pool α} {b : BufferId} {cs : List (Cell α)}
    (h : p.cells? b = some cs) : p.Issued b := by
  obtain ⟨s, hs, -⟩ := store_of_cells h
  exact issued_of_store hs

theorem cells?_eq_none_iff {p : Pool α} {b : BufferId} : p.cells? b = none ↔ p.store? b = none := by
  simp [cells?]

theorem isLive_iff {p : Pool α} {b : BufferId} : p.isLive b ↔ ∃ cs, p.cells? b = some cs := by
  simp [isLive, cells?, Option.isSome_iff_exists]

theorem cells?_congr {p q : Pool α} {b : BufferId} (h : q.store? b = p.store? b) :
    q.cells? b = p.cells? b := by
  rw [cells?, h, cells?]

theorem contents?_congr {p q : Pool α} {place : Place}
    (h : q.store? place.buffer = p.store? place.buffer) :
    q.contents? place = p.contents? place := by
  rw [contents?, cells?_congr h, contents?]

theorem contents?_eq_some {p : Pool α} {place : Place} {cs : List (Cell α)} {c : Cell α}
    (hcs : p.cells? place.buffer = some cs) (hc : cs[place.slot]? = some c) :
    p.contents? place = c.contents := by
  simp [contents?, hcs, hc]

theorem exists_cell_of_contents {p : Pool α} {place : Place} {xs : List α}
    (h : p.contents? place = some xs) : ∃ cs c, p.cells? place.buffer = some cs ∧
      cs[place.slot]? = some c ∧ c.contents = some xs := by
  obtain ⟨c, hc, hxs⟩ := Option.bind_eq_some_iff.1 h
  obtain ⟨cs, hcs, hc⟩ := Option.bind_eq_some_iff.1 hc
  exact ⟨cs, c, hcs, hc, hxs⟩

theorem issued_of_isLive {p : Pool α} {b : BufferId} (h : p.isLive b) : p.Issued b := by
  obtain ⟨cs, hcs⟩ := isLive_iff.1 h
  exact issued_of_cells hcs

theorem isLive_of_contents {p : Pool α} {place : Place} {xs : List α}
    (h : p.contents? place = some xs) : p.isLive place.buffer := by
  obtain ⟨cs, c, hcs, -, -⟩ := exists_cell_of_contents h
  exact isLive_iff.2 ⟨cs, hcs⟩

theorem Packed.length_contents {p : Pool α} (hp : p.Packed) {b : BufferId} {cs : List (Cell α)}
    {i : Nat} {c : Cell α} {xs : List α} (hcs : p.cells? b = some cs) (hc : cs[i]? = some c)
    (hxs : c.contents = some xs) : xs.length = c.kind.width := by
  obtain ⟨s, hs, rfl⟩ := store_of_cells hcs
  exact (hp b s hs).length_contents hc hxs

/-! ## Extension -/

theorem Extends.refl (p : Pool α) : p.Extends p :=
  ⟨Nat.le_refl _, fun _ ds _ hds => ⟨ds, hds, List.prefix_rfl⟩⟩

theorem Extends.issued {p q : Pool α} (h : p.Extends q) {b : BufferId} (hb : p.Issued b) :
    q.Issued b :=
  Nat.lt_of_lt_of_le hb h.size

theorem Extends.trans {p q r : Pool α} (hpq : p.Extends q) (hqr : q.Extends r) : p.Extends r where
  size := Nat.le_trans hpq.size hqr.size
  cells := by
    intro b es hb hes
    obtain ⟨ds, hds, hde⟩ := hqr.cells b es (hpq.issued hb) hes
    obtain ⟨cs, hcs, hcd⟩ := hpq.cells b ds hb hds
    exact ⟨cs, hcs, hcd.trans hde⟩

/-- What a place was handed out for stays true of it. -/
theorem Holds.mono {p q : Pool α} (hpq : p.Extends q) {place : Place} {k : Kind}
    (h : p.Holds place k) : q.Holds place k := by
  refine ⟨hpq.issued h.1, fun ds hds => ?_⟩
  obtain ⟨cs, hcs, ks, hks⟩ := hpq.cells _ ds h.1 hds
  obtain ⟨c, hc, rfl⟩ := h.2 cs hcs
  have hkind : (ds.map Cell.kind)[place.slot]? = some c.kind := by
    rw [← hks, List.getElem?_append_left, List.getElem?_map, hc, Option.map_some]
    simpa using (List.getElem?_eq_some_iff.1 hc).1
  rw [List.getElem?_map] at hkind
  exact Option.map_eq_some_iff.1 hkind

/-- No released buffer comes back. -/
theorem Extends.isLive {p q : Pool α} (h : p.Extends q) {b : BufferId} (hb : p.Issued b)
    (hlive : q.isLive b) : p.isLive b := by
  obtain ⟨ds, hds⟩ := isLive_iff.1 hlive
  obtain ⟨cs, hcs, -⟩ := h.cells b ds hb hds
  exact isLive_iff.2 ⟨cs, hcs⟩

namespace SameBut

variable {p q : Pool α} {b : BufferId}

theorem refl (p : Pool α) (b : BufferId) : p.SameBut p b := ⟨rfl, fun _ _ => rfl⟩

theorem trans {r : Pool α} (hpq : p.SameBut q b) (hqr : q.SameBut r b) : p.SameBut r b :=
  ⟨hqr.size.trans hpq.size, fun c hc => (hqr.store c hc).trans (hpq.store c hc)⟩

theorem cells (h : p.SameBut q b) {c : BufferId} (hc : c ≠ b) : q.cells? c = p.cells? c :=
  cells?_congr (h.store c hc)

theorem contents (h : p.SameBut q b) {place : Place} (hplace : place.buffer ≠ b) :
    q.contents? place = p.contents? place :=
  contents?_congr (h.store _ hplace)

theorem writesNothing (h : p.SameBut q b)
    (hb : ∀ i xs, q.contents? ⟨b, i⟩ = some xs → p.contents? ⟨b, i⟩ = some xs) :
    p.WritesNothing q := by
  rintro ⟨c, i⟩ xs hxs
  by_cases hc : c = b
  · subst hc
    exact hb i xs hxs
  · rwa [← h.contents hc]

/-- A change of one buffer extends the pool if that buffer keeps its slots or is released. -/
theorem extends_of (h : p.SameBut q b)
    (hb : ∀ ds, q.cells? b = some ds →
      ∃ cs, p.cells? b = some cs ∧ cs.map Cell.kind <+: ds.map Cell.kind) : p.Extends q where
  size := Nat.le_of_eq h.size.symm
  cells := by
    intro c ds _ hds
    by_cases hc : c = b
    · subst hc
      exact hb ds hds
    · exact ⟨ds, (h.cells hc) ▸ hds, List.prefix_rfl⟩

theorem packed (h : p.SameBut q b) (hp : p.Packed) (hb : ∀ s, q.store? b = some s → s.Packed) :
    q.Packed := by
  intro c s hs
  by_cases hc : c = b
  · subst hc
    exact hb s hs
  · exact hp c s (h.store c hc ▸ hs)

end SameBut

/-! ## Changing one buffer -/

theorem store?_setStore {p : Pool α} {b : BufferId} (hb : p.Issued b) (s : Option (Store α))
    (c : BufferId) : (p.setStore b s).store? c = if c = b then s else p.store? c := by
  simp only [store?, setStore, Array.getElem?_modify]
  by_cases hc : c = b
  · subst hc
    have hget : p.entries[c.serial]? = some p.entries[c.serial] := Array.getElem?_eq_getElem hb
    simp [hget]
  · have hserial : b.serial ≠ c.serial := by
      intro h
      cases b
      cases c
      cases h
      exact hc rfl
    simp [hc, hserial]

theorem sameBut_setStore {p : Pool α} {b : BufferId} (hb : p.Issued b) (s : Option (Store α)) :
    p.SameBut (p.setStore b s) b where
  size := by simp [setStore]
  store := fun c hc => by rw [store?_setStore hb, if_neg hc]

theorem cells?_setStore_self {p : Pool α} {b : BufferId} (hb : p.Issued b) (s : Store α) :
    (p.setStore b (some s)).cells? b = some s.cells :=
  cells_of_store (by rw [store?_setStore hb, if_pos rfl])

theorem packed_setStore {p : Pool α} {b : BufferId} (hp : p.Packed) (hb : p.Issued b) {s : Store α}
    (hs : s.Packed) : (p.setStore b (some s)).Packed := by
  refine (sameBut_setStore hb _).packed hp fun t ht => ?_
  rw [store?_setStore hb, if_pos rfl] at ht
  cases ht
  exact hs

theorem cells?_release {p : Pool α} {b : BufferId} (hb : p.Issued b) :
    (p.release b).cells? b = none :=
  cells?_eq_none_iff.2 (by rw [release, store?_setStore hb, if_pos rfl])

theorem sameBut_release {p : Pool α} {b : BufferId} (hb : p.Issued b) :
    p.SameBut (p.release b) b :=
  sameBut_setStore hb none

theorem SameBut.writesNothing_of_dead {p q : Pool α} {b : BufferId} (h : p.SameBut q b)
    (hdead : q.cells? b = none) : p.WritesNothing q := by
  apply h.writesNothing
  intro i xs hxs
  rw [contents?, hdead] at hxs
  cases hxs

theorem extends_release {p : Pool α} {b : BufferId} (hb : p.Issued b) : p.Extends (p.release b) :=
  (sameBut_release hb).extends_of fun ds hds => by simp [cells?_release hb] at hds

theorem packed_release {p : Pool α} {b : BufferId} (hp : p.Packed) (hb : p.Issued b) :
    (p.release b).Packed := by
  refine (sameBut_release hb).packed hp fun s hs => ?_
  simp [cells?_eq_none_iff.1 (cells?_release hb)] at hs

/-! ## New buffers -/

section Allocate

variable [Zero α] (p : Pool α) (label : String) (layout : List Kind)

theorem store?_allocate (c : BufferId) : (p.allocate label layout).store? c =
    if c = p.fresh then some (.ofLayout layout) else p.store? c := by
  simp only [store?, allocate, Array.getElem?_push]
  by_cases hc : c.serial = p.entries.size
  · have hcb : c = p.fresh := by cases c; cases hc; rfl
    rw [if_pos hc, if_pos hcb]
    rfl
  · have hcb : c ≠ p.fresh := fun h => hc (h ▸ rfl)
    rw [if_neg hc, if_neg hcb]

theorem cells?_allocate_fresh :
    (p.allocate label layout).cells? p.fresh = some (layout.map fun k => ⟨k, none⟩) := by
  rw [cells_of_store (by rw [store?_allocate, if_pos rfl]),
    Store.cells_ofLayout]

theorem store?_allocate_of_ne {c : BufferId} (hc : c ≠ p.fresh) :
    (p.allocate label layout).store? c = p.store? c := by
  rw [store?_allocate, if_neg hc]

omit [Zero α] in
theorem ne_fresh_of_issued {p : Pool α} {c : BufferId} (hc : p.Issued c) : c ≠ p.fresh := by
  rintro rfl
  exact Nat.lt_irrefl _ hc

theorem issued_allocate_fresh : (p.allocate label layout).Issued p.fresh := by
  simp [Issued, allocate, fresh]

theorem extends_allocate : p.Extends (p.allocate label layout) where
  size := by simp [allocate]
  cells := by
    intro b ds hb hds
    rw [cells?_congr (store?_allocate_of_ne p label layout (ne_fresh_of_issued hb))] at hds
    exact ⟨ds, hds, List.prefix_rfl⟩

theorem writesNothing_allocate : p.WritesNothing (p.allocate label layout) := by
  rintro ⟨c, i⟩ xs hxs
  by_cases hc : c = p.fresh
  · subst hc
    obtain ⟨cs, cell, hcs, hcell, hcontents⟩ := exists_cell_of_contents hxs
    cases (cells?_allocate_fresh p label layout).symm.trans hcs
    obtain ⟨k, -, rfl⟩ := List.mem_map.1 (List.mem_of_getElem? hcell)
    cases hcontents
  · exact (contents?_congr (store?_allocate_of_ne p label layout hc)).symm.trans hxs

/-- What is written stays so. -/
theorem contents_allocate {p : Pool α} {place : Place} {xs : List α}
    (hxs : p.contents? place = some xs) : (p.allocate label layout).contents? place = some xs := by
  have hne := ne_fresh_of_issued (issued_of_isLive (isLive_of_contents hxs))
  exact (contents?_congr (store?_allocate_of_ne p label layout hne)).trans hxs

theorem packed_allocate {p : Pool α} (hp : p.Packed) : (p.allocate label layout).Packed := by
  intro b s hs
  rw [store?_allocate] at hs
  split at hs
  · cases hs
    exact Store.packed_ofLayout layout
  · exact hp b s hs

end Allocate

/-! ## Appending a slot -/

theorem live_eq_ok {p : Pool α} {b : BufferId} {s : Store α} (h : p.store? b = some s) :
    p.live b = .ok s := by
  simp [live, h]

theorem live_eq_error {p : Pool α} {b : BufferId} (h : p.store? b = none) :
    p.live b = .error (.failure (.dangling b)) := by
  simp [live, h]

/-- In a live buffer that can number one more slot, a new slot is one more cell. -/
theorem pushSlot_eq [Zero α] {p : Pool α} {b : BufferId} {cs : List (Cell α)} (hp : p.Packed)
    (hcs : p.cells? b = some cs) (hlt : cs.length < Store.capacity) (k : Kind) :
    ∃ q, p.pushSlot b k = .ok (cs.length, q) ∧
      q.cells? b = some (cs ++ [⟨k, none⟩]) ∧ p.SameBut q b ∧ p.Extends q ∧ q.Packed := by
  obtain ⟨s, hs, rfl⟩ := store_of_cells hcs
  have hb := issued_of_store hs
  have hpacked := hp b s hs
  rw [Store.length_cells] at hlt ⊢
  have hcells : (p.setStore b (some (s.append k))).cells? b = some (s.cells ++ [⟨k, none⟩]) := by
    rw [cells?_setStore_self hb, Store.cells_append hpacked]
  refine ⟨p.setStore b (some (s.append k)), ?_, hcells, sameBut_setStore hb _, ?_,
    packed_setStore hp hb (Store.packed_append hpacked k)⟩
  · simp only [pushSlot, live_eq_ok hs, bind, Except.bind, Store.pushSlot_of_lt hlt]
    rfl
  · refine (sameBut_setStore hb _).extends_of fun ds hds => ⟨s.cells, cells_of_store hs, ?_⟩
    rw [hcells] at hds
    cases hds
    rw [List.map_append]
    exact List.prefix_append _ _

/-- Only a live buffer that can number one more slot gets a new one. -/
theorem pushSlot_ok [Zero α] {p q : Pool α} {b : BufferId} {k : Kind} {n : Nat}
    (h : p.pushSlot b k = .ok (n, q)) :
    ∃ cs, p.cells? b = some cs ∧ cs.length < Store.capacity := by
  cases hs : p.store? b with
  | none => simp [pushSlot, live_eq_error hs, bind, Except.bind] at h
  | some s =>
    refine ⟨s.cells, cells_of_store hs, ?_⟩
    rw [Store.length_cells]
    by_contra hfull
    simp [pushSlot, live_eq_ok hs, Store.pushSlot_of_full (Nat.not_lt.1 hfull), bind, Except.bind,
      throw, throwThe, MonadExceptOf.throw] at h

theorem pushSlot_spec [Zero α] {p q : Pool α} {b : BufferId} {k : Kind} {n : Nat}
    (hp : p.Packed) (h : p.pushSlot b k = .ok (n, q)) : ∃ cs, p.cells? b = some cs ∧
      n = cs.length ∧ q.cells? b = some (cs ++ [⟨k, none⟩]) ∧ p.SameBut q b ∧ p.Extends q ∧
      q.Packed := by
  obtain ⟨cs, hcs, hlt⟩ := pushSlot_ok h
  obtain ⟨q', hq', hrest⟩ := pushSlot_eq hp hcs hlt k
  rw [h] at hq'
  cases hq'
  exact ⟨cs, hcs, rfl, hrest⟩

theorem writesNothing_pushSlot [Zero α] {p q : Pool α} {b : BufferId} {k : Kind} {n : Nat}
    (hp : p.Packed) (h : p.pushSlot b k = .ok (n, q)) : p.WritesNothing q := by
  obtain ⟨cs, hcs, -, hqs, hsame, -⟩ := pushSlot_spec hp h
  apply hsame.writesNothing
  intro i xs hxs
  obtain ⟨ds, c, hds, hc, hcontents⟩ := exists_cell_of_contents hxs
  cases hqs.symm.trans hds
  change (cs ++ [⟨k, none⟩])[i]? = some c at hc
  by_cases hlt : i < cs.length
  · rw [List.getElem?_append_left hlt] at hc
    rw [contents?_eq_some hcs hc, hcontents]
  · rw [List.getElem?_append_right (by omega)] at hc
    obtain rfl := List.mem_singleton.1 (List.mem_of_getElem? hc)
    cases hcontents

/-- What is written stays so. -/
theorem contents_pushSlot [Zero α] {p q : Pool α} {b : BufferId} {k : Kind} {n : Nat}
    (hp : p.Packed) (h : p.pushSlot b k = .ok (n, q)) {place : Place} {xs : List α}
    (hxs : p.contents? place = some xs) : q.contents? place = some xs := by
  obtain ⟨cs, hcs, -, hqs, hsame, -⟩ := pushSlot_spec hp h
  by_cases hb : place.buffer = b
  · obtain ⟨ds, c, hds, hc, hcontents⟩ := exists_cell_of_contents hxs
    rw [hb] at hds
    cases hcs.symm.trans hds
    have hlt := (List.getElem?_eq_some_iff.1 hc).1
    rw [contents?_eq_some (hb ▸ hqs) ((List.getElem?_append_left hlt).trans hc), hcontents]
  · rwa [hsame.contents hb]

/-! ## Writing -/

/-- A value of the right kind can be written to a slot of a live buffer, and sets its cell. -/
theorem write_eq {p : Pool α} (place : Place) {cs : List (Cell α)} {c : Cell α} (hp : p.Packed)
    (hcs : p.cells? place.buffer = some cs) (hc : cs[place.slot]? = some c) {xs : List α}
    (hxs : xs.length = c.kind.width) : ∃ q, p.write place xs = .ok q ∧
      q.cells? place.buffer = some (cs.set place.slot ⟨c.kind, some xs⟩) ∧
      p.SameBut q place.buffer ∧ p.Extends q ∧ q.Packed := by
  obtain ⟨s, hs, rfl⟩ := store_of_cells hcs
  have hb := issued_of_store hs
  obtain ⟨t, ht, htp, htc⟩ := Store.write_eq (hp _ s hs) hc hxs
  have hcells := cells?_setStore_self hb t
  rw [htc] at hcells
  refine ⟨p.setStore place.buffer (some t), ?_, hcells, sameBut_setStore hb _, ?_,
    packed_setStore hp hb htp⟩
  · have hslot : ∃ slot, slotAt s place = .ok slot := by
      rw [Store.getElem?_cells] at hc
      obtain ⟨slot, hslot, -⟩ := Option.map_eq_some_iff.1 hc
      exact ⟨slot, by simp [slotAt, hslot]⟩
    obtain ⟨slot, hslot⟩ := hslot
    simp only [write, live_eq_ok hs, hslot, ht, bind, Except.bind]
    rfl
  · refine (sameBut_setStore hb _).extends_of fun ds hds => ⟨s.cells, cells_of_store hs, ?_⟩
    rw [hcells] at hds
    cases hds
    exact (Cell.map_kind_set hc _) ▸ List.prefix_rfl

/-- A write that succeeds is one to the store of a live buffer. -/
theorem write_ok {p q : Pool α} {place : Place} {xs : List α} (h : p.write place xs = .ok q) :
    ∃ s t, p.store? place.buffer = some s ∧ s.write place.slot xs = .ok t ∧
      q = p.setStore place.buffer (some t) := by
  cases hs : p.store? place.buffer with
  | none => simp [write, live_eq_error hs, bind, Except.bind] at h
  | some s =>
    cases hat : slotAt s place with
    | error e => simp [write, live_eq_ok hs, hat, bind, Except.bind] at h
    | ok slot =>
      cases hw : s.write place.slot xs with
      | error e => simp [write, live_eq_ok hs, hat, hw, bind, Except.bind] at h
      | ok t =>
        simp only [write, live_eq_ok hs, hat, hw, bind, Except.bind] at h
        cases h
        exact ⟨s, t, rfl, hw, rfl⟩

/-- A write that succeeds has set a cell of a live buffer. -/
theorem write_spec {p q : Pool α} {place : Place} {xs : List α} (hp : p.Packed)
    (h : p.write place xs = .ok q) : ∃ cs c, p.cells? place.buffer = some cs ∧
      cs[place.slot]? = some c ∧ xs.length = c.kind.width ∧
      q.cells? place.buffer = some (cs.set place.slot ⟨c.kind, some xs⟩) ∧
      p.SameBut q place.buffer ∧ p.Extends q ∧ q.Packed := by
  obtain ⟨s, t, hs, ht, -⟩ := write_ok h
  obtain ⟨c, hc, hxs⟩ := Store.write_ok ht
  have hcs := cells_of_store hs
  obtain ⟨q', hq', hrest⟩ := write_eq place hp hcs hc hxs
  obtain rfl : q = q' := Except.ok.inj (h.symm.trans hq')
  exact ⟨s.cells, c, hcs, hc, hxs, hrest⟩

/-- A write sets the contents of the one place. -/
theorem contents_write {p q : Pool α} {place : Place} {xs : List α} (hp : p.Packed)
    (h : p.write place xs = .ok q) : q.contents? place = some xs ∧
      ∀ other, other ≠ place → q.contents? other = p.contents? other := by
  obtain ⟨cs, c, hcs, hc, -, hqs, hsame, -⟩ := write_spec hp h
  have hlt := (List.getElem?_eq_some_iff.1 hc).1
  refine ⟨contents?_eq_some hqs (List.getElem?_set_self hlt), ?_⟩
  rintro ⟨b, i⟩ hother
  by_cases hb : b = place.buffer
  · subst hb
    have hi : place.slot ≠ i := by
      rintro rfl
      exact hother rfl
    simp only [contents?, hqs, hcs, Option.bind_some, List.getElem?_set_ne hi]
  · exact hsame.contents hb

/-- Writing depends on the store of the one buffer, and changes it alone. -/
theorem write_congr {p p' q : Pool α} {place : Place} {xs : List α} (h : p.write place xs = .ok p')
    (hq : q.store? place.buffer = p.store? place.buffer) : ∃ q', q.write place xs = .ok q' ∧
      q'.store? place.buffer = p'.store? place.buffer ∧ p.SameBut p' place.buffer ∧
      q.SameBut q' place.buffer := by
  obtain ⟨s, t, hs, ht, rfl⟩ := write_ok h
  have hqs : q.store? place.buffer = some s := hq.trans hs
  have hpb := issued_of_store hs
  have hqb := issued_of_store hqs
  refine ⟨q.setStore place.buffer (some t), ?_, ?_, sameBut_setStore hpb _,
    sameBut_setStore hqb _⟩
  · cases hat : slotAt s place with
    | error e => simp [write, live_eq_ok hs, hat, bind, Except.bind] at h
    | ok slot =>
      simp only [write, live_eq_ok hqs, hat, ht, bind, Except.bind]
      rfl
  · rw [store?_setStore hqb, store?_setStore hpb, if_pos rfl, if_pos rfl]

/-! ## Reading -/

/-- What a read answers depends on the store of the one buffer. -/
theorem read_congr {p q : Pool α} {k : Kind} {h : Handle k}
    (hpq : q.store? h.buffer = p.store? h.buffer) : q.read h = p.read h := by
  simp only [read, live, hpq]

section Read

variable {p : Pool α} {k : Kind} {h : Handle k}

theorem read_dangling (hdead : p.cells? h.buffer = none) :
    p.read h = .error (.failure (.dangling h.buffer)) := by
  simp only [read, live_eq_error (cells?_eq_none_iff.1 hdead), bind, Except.bind]

variable {cs : List (Cell α)} {c : Cell α}

/-- Up to the contents, reading goes through if the cell has the kind of the handle. -/
theorem read_of_cell (hcs : p.cells? h.buffer = some cs) (hc : cs[h.slot]? = some c)
    (hk : c.kind = k) : p.read h =
      match c.contents with
      | none => .error (.failure (.unevaluated h.place))
      | some xs => (Value.ofSlots k xs).mapError .breach := by
  obtain ⟨s, hs, rfl⟩ := store_of_cells hcs
  rw [Store.getElem?_cells] at hc
  obtain ⟨slot, hslot, rfl⟩ := Option.map_eq_some_iff.1 hc
  have hat : slotAt s h.place = .ok slot := by simp [slotAt, Handle.place, hslot]
  have hkind : slot.kind = k := hk
  simp only [read, live_eq_ok hs, hat, bind, Except.bind, hkind, ne_eq, not_true_eq_false, if_false]
  simp only [Store.cell]
  cases s.contents slot with
  | none => rfl
  | some xs =>
    simp only [Except.mapError, pure, Except.pure]
    cases Value.ofSlots k xs <;> rfl

theorem read_of_contents (hh : p.Holds h.place k) {v : Value α k}
    (hv : p.contents? h.place = some v.slots) : p.read h = .ok v := by
  obtain ⟨cs, c, hcs, hc, hxs⟩ := exists_cell_of_contents hv
  obtain ⟨d, hd, hk⟩ := hh.2 cs hcs
  have hcd : c = d := Option.some.inj (hc.symm.trans hd)
  subst hcd
  rw [read_of_cell hcs hc hk, hxs]
  simp only [Value.ofSlots_slots, Except.mapError]

/-- Reading a place that holds values of the right kind gives its contents, or says that they
are not there yet, or not any more. -/
theorem read_cases (hp : p.Packed) (hh : p.Holds h.place k) :
    (∃ v : Value α k, p.read h = .ok v ∧ p.contents? h.place = some v.slots) ∨
      (p.read h = .error (.failure (.unevaluated h.place)) ∧ p.isLive h.buffer ∧
        p.contents? h.place = none) ∨
      (p.read h = .error (.failure (.dangling h.buffer)) ∧ ¬ p.isLive h.buffer) := by
  cases hcs : p.cells? h.buffer with
  | none =>
    refine Or.inr (Or.inr ⟨read_dangling hcs, ?_⟩)
    rintro hlive
    obtain ⟨cs, h'⟩ := isLive_iff.1 hlive
    rw [hcs] at h'
    cases h'
  | some cs =>
    obtain ⟨c, hc, hk⟩ := hh.2 cs hcs
    have hcontents : p.contents? h.place = c.contents := contents?_eq_some hcs hc
    cases hxs : c.contents with
    | none =>
      refine Or.inr (Or.inl ⟨?_, isLive_iff.2 ⟨cs, hcs⟩, hcontents.trans hxs⟩)
      rw [read_of_cell hcs hc hk, hxs]
    | some xs =>
      obtain ⟨v, rfl⟩ := Value.exists_slots_eq (hk ▸ hp.length_contents hcs hc hxs)
      have hv := hcontents.trans hxs
      exact Or.inl ⟨v, read_of_contents hh hv, hv⟩

theorem read_eq_ok_iff (hp : p.Packed) (hh : p.Holds h.place k) {v : Value α k} :
    p.read h = .ok v ↔ p.contents? h.place = some v.slots := by
  refine ⟨fun hv => ?_, read_of_contents hh⟩
  rcases read_cases hp hh with ⟨u, hu, hcontents⟩ | ⟨hu, -⟩ | ⟨hu, -⟩
  · rw [hv] at hu
    cases hu
    exact hcontents
  · rw [hv] at hu
    cases hu
  · rw [hv] at hu
    cases hu

/-- A value is read from a slot of its kind. -/
theorem holds_of_read {v : Value α k} (hv : p.read h = .ok v) : p.Holds h.place k := by
  cases hs : p.store? h.buffer with
  | none => simp [read, live_eq_error hs, bind, Except.bind] at hv
  | some s =>
    refine ⟨issued_of_store hs, fun cs hcs => ?_⟩
    obtain rfl : s.cells = cs := Option.some.inj ((cells_of_store hs).symm.trans hcs)
    cases hslot : s.slots[h.slot]? with
    | none => simp [read, live_eq_ok hs, slotAt, Handle.place, hslot, bind, Except.bind] at hv
    | some slot =>
      refine ⟨s.cell slot, by rw [Store.getElem?_cells, Handle.place, hslot, Option.map_some], ?_⟩
      by_contra hk
      rw [Store.kind_cell] at hk
      simp [read, live_eq_ok hs, slotAt, Handle.place, hslot, hk, bind, Except.bind, throw,
        throwThe, MonadExceptOf.throw] at hv

theorem contents_of_read (hp : p.Packed) {v : Value α k} (hv : p.read h = .ok v) :
    p.contents? h.place = some v.slots :=
  (read_eq_ok_iff hp (holds_of_read hv)).1 hv

end Read

end Pool

/-- Every layout whose slots can be numbered gets a buffer. -/
theorem Lease.create_eq [Zero α] (w : World α) (label : String) (layout : List Kind) :
    Lease.create w label layout = if layout.length ≤ Store.capacity
      then .ok (allocate w label layout) else .error .tooManySlots := by
  rw [Lease.create, Store.create_eq]
  split <;> rfl

end DeferredMatrix
