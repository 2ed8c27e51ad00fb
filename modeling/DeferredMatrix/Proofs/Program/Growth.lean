import DeferredMatrix.Proofs.Program.Meaning

/-!
# Growing pools

A pool grows when slots are written that were not written before. An instruction that could be
executed can still be executed then, with the same result. If steps are executed as soon as they
can be in one pool and later in another, the first is ahead of the second (`Pool.Behind`) : it has
written what the second has, and besides only what the steps go on to compute.

* `Instruction.execute_of_grows` : results stay.
* `Behind.trans`, `Behind.catchUp`, `Behind.write` : the pool ahead executes a step, or the one
  behind does, or both are written to from outside.
-/

namespace DeferredMatrix

variable {α : Type}

namespace Pool

/-- The kinds of the slots of a live buffer. -/
def layout? (p : Pool α) (b : BufferId) : Option (List Kind) :=
  (p.cells? b).map (List.map Cell.kind)

/-- The buffers and their slots are the same, and what is written stays so. -/
structure Grows (p q : Pool α) : Prop where
  size : q.entries.size = p.entries.size
  layout : ∀ b, q.layout? b = p.layout? b
  contents : ∀ place xs, p.contents? place = some xs → q.contents? place = some xs

variable {p q r : Pool α}

theorem layout?_eq_some {b : BufferId} {cs : List (Cell α)} (hcs : p.cells? b = some cs) :
    p.layout? b = some (cs.map Cell.kind) := by
  rw [layout?, hcs, Option.map_some]

namespace Grows

theorem refl (p : Pool α) : p.Grows p := ⟨rfl, fun _ => rfl, fun _ _ h => h⟩

theorem trans (hpq : p.Grows q) (hqr : q.Grows r) : p.Grows r where
  size := hqr.size.trans hpq.size
  layout := fun b => (hqr.layout b).trans (hpq.layout b)
  contents := fun place xs h => hqr.contents place xs (hpq.contents place xs h)

theorem exists_cells (h : p.Grows q) {b : BufferId} {ds : List (Cell α)}
    (hds : q.cells? b = some ds) :
    ∃ cs, p.cells? b = some cs ∧ cs.map Cell.kind = ds.map Cell.kind := by
  have hlayout := (h.layout b).symm.trans (layout?_eq_some hds)
  exact Option.map_eq_some_iff.1 hlayout

theorem isLive (h : p.Grows q) (b : BufferId) : q.isLive b = p.isLive b := by
  have hsome : ∀ p : Pool α, p.isLive b = (p.layout? b).isSome := by
    intro p
    simp [Pool.isLive, layout?, cells?]
  rw [hsome, hsome, h.layout]

theorem extends_pool (h : p.Grows q) : p.Extends q where
  size := Nat.le_of_eq h.size.symm
  cells := by
    intro b ds _ hds
    obtain ⟨cs, hcs, hkinds⟩ := h.exists_cells hds
    exact ⟨cs, hcs, hkinds ▸ List.prefix_rfl⟩

/-- Once everything is written, nothing changes any more. -/
theorem cells_of_written (h : p.Grows q) {b : BufferId} {cs : List (Cell α)}
    (hcs : p.cells? b = some cs) (hwritten : ∀ c ∈ cs, c.contents.isSome) :
    q.cells? b = p.cells? b := by
  obtain ⟨ds, hds, hkinds⟩ := Option.map_eq_some_iff.1 ((h.layout b).trans (layout?_eq_some hcs))
  rw [hcs, hds, Option.some.injEq]
  apply List.ext_getElem?
  intro i
  have hkind : ds[i]?.map Cell.kind = cs[i]?.map Cell.kind := by
    rw [← List.getElem?_map, hkinds, List.getElem?_map]
  cases hc : cs[i]? with
  | none => rwa [hc, Option.map_none, Option.map_eq_none_iff] at hkind
  | some c =>
    rw [hc, Option.map_some] at hkind
    obtain ⟨d, hd, hdc⟩ := Option.map_eq_some_iff.1 hkind
    obtain ⟨xs, hxs⟩ := Option.isSome_iff_exists.1 (hwritten c (List.mem_of_getElem? hc))
    have hcontents := h.contents ⟨b, i⟩ xs ((contents?_eq_some hcs hc).trans hxs)
    have hd' : q.contents? ⟨b, i⟩ = d.contents := contents?_eq_some hds hd
    rw [hd'] at hcontents
    rw [hd, Option.some.injEq]
    cases c
    cases d
    simp_all

end Grows

/-- A slot is written, for the first time or with what it contains. -/
theorem grows_write (hp : p.Packed) {place : Place} {xs : List α}
    (hq : p.write place xs = .ok q)
    (hnew : ∀ ys, p.contents? place = some ys → ys = xs) : p.Grows q := by
  obtain ⟨cs, c, hcs, hc, -, hqs, hsame, -⟩ := write_spec hp hq
  obtain ⟨hself, hother⟩ := contents_write hp hq
  refine ⟨hsame.size, fun b => ?_, fun other ys hys => ?_⟩
  · by_cases hb : b = place.buffer
    · subst hb
      rw [layout?_eq_some hqs, layout?_eq_some hcs, Cell.map_kind_set hc]
    · rw [layout?, layout?, hsame.cells hb]
  · by_cases hplace : other = place
    · subst hplace
      rw [hself, hnew ys hys]
    · exact (hother other hplace).trans hys

/-- Whether a slot can be written to depends on its kind. -/
theorem Grows.exists_write (h : p.Grows q) (hp : p.Packed) (hq : q.Packed) {place : Place}
    {xs : List α} : (∃ p', p.write place xs = .ok p') ↔ ∃ q', q.write place xs = .ok q' := by
  -- Both ways, the cell and its kind are found in the other pool.
  have hcarry : ∀ {p q p' : Pool α}, p.Packed → q.Packed → q.layout? place.buffer =
      p.layout? place.buffer → p.write place xs = .ok p' → ∃ q', q.write place xs = .ok q' := by
    intro p q p' hp hq hlayout hp'
    obtain ⟨cs, c, hcs, hc, hxs, -⟩ := write_spec hp hp'
    obtain ⟨ds, hds, hkinds⟩ := Option.map_eq_some_iff.1 (hlayout.trans (layout?_eq_some hcs))
    have hkind : ds[place.slot]?.map Cell.kind = some c.kind := by
      rw [← List.getElem?_map, hkinds, List.getElem?_map, hc, Option.map_some]
    obtain ⟨d, hd, hdc⟩ := Option.map_eq_some_iff.1 hkind
    obtain ⟨q', hq', -⟩ := write_eq place hq hds hd (hdc ▸ hxs)
    exact ⟨q', hq'⟩
  constructor
  · rintro ⟨p', hp'⟩
    exact hcarry hp hq (h.layout _) hp'
  · rintro ⟨q', hq'⟩
    exact hcarry hq hp (h.layout _).symm hq'

end Pool

/-! ## Results stay -/

variable [Scalar α] {p q r : Pool α}

/-- What can be executed gives the same result when more is written. -/
theorem Instruction.execute_of_grows (hpq : p.Grows q) (hp : p.Packed)
    {i : Instruction α (Operand α)} {v : Value α i.output} (h : i.execute p = .ok v) :
    i.execute q = .ok v := by
  refine execute_eq_ok_iff.2 (meaning_mono (execute_eq_ok_iff.1 h) ?_)
  rintro ⟨name, k, o⟩ - u hu
  have hresolve := toOption_eq_some_iff.1 hu
  apply toOption_eq_some_iff.2
  cases o with
  | literal w => exact hresolve
  | handle g =>
    have hholds := (Pool.holds_of_read hresolve).mono hpq.extends_pool
    exact Pool.read_of_contents hholds (hpq.contents _ _ (Pool.contents_of_read hp hresolve))

/-! ## Pools behind others -/

/-- The pool `q` has grown from `p` by results of the steps `ds`. -/
structure Pool.Behind (p : Pool α) (ds : List (Definition α)) (q : Pool α) : Prop where
  grows : p.Grows q
  gained : ∀ place xs, q.contents? place = some xs → p.contents? place = some xs ∨
    ∃ d ∈ ds, d.place = place ∧ ∃ v, d.instruction.execute q = .ok v ∧ v.slots = xs

namespace Pool.Behind

variable {ds : List (Definition α)}

theorem refl (p : Pool α) (ds : List (Definition α)) : p.Behind ds p :=
  ⟨.refl p, fun _ _ h => Or.inl h⟩

/-- The pool ahead goes on. -/
theorem trans (hpq : p.Behind ds q) (hqr : q.Behind ds r) (hq : q.Packed) : p.Behind ds r where
  grows := hpq.grows.trans hqr.grows
  gained := by
    intro place xs hxs
    rcases hqr.gained place xs hxs with hxs | hstep
    · refine (hpq.gained place xs hxs).imp_right ?_
      rintro ⟨d, hd, hplace, v, hv, hslots⟩
      exact ⟨d, hd, hplace, v, Instruction.execute_of_grows hqr.grows hq hv, hslots⟩
    · exact Or.inr hstep

/-- A step is executed that was not before. -/
theorem advance {d : Definition α} (hd : d ∈ ds) (hp : p.Packed)
    {v : Value α d.instruction.output} (hv : d.instruction.execute p = .ok v)
    (hq : p.write d.place v.slots = .ok q) (hnew : p.contents? d.place = none) :
    p.Behind ds q := by
  have hgrows := grows_write hp hq fun ys hys => by cases hnew.symm.trans hys
  obtain ⟨hself, hother⟩ := contents_write hp hq
  refine ⟨hgrows, fun place xs hxs => ?_⟩
  by_cases hplace : place = d.place
  · subst hplace
    cases hself.symm.trans hxs
    exact Or.inr ⟨d, hd, rfl, v, Instruction.execute_of_grows hgrows hp hv, rfl⟩
  · exact Or.inl ((hother place hplace).symm.trans hxs)

/-- The pool behind executes a step that the other one has executed. -/
theorem catchUp (h : p.Behind ds q) (hunique : ∀ a ∈ ds, ∀ b ∈ ds, a.place = b.place → a = b)
    {d : Definition α} (hd : d ∈ ds) (hp : p.Packed)
    {v : Value α d.instruction.output} (hv : d.instruction.execute p = .ok v) {p' : Pool α}
    (hp' : p.write d.place v.slots = .ok p') (hnew : p.contents? d.place = none)
    (hahead : (q.contents? d.place).isSome) : p'.Behind ds q := by
  have hgrows := grows_write hp hp' fun ys hys => by cases hnew.symm.trans hys
  obtain ⟨hself, hother⟩ := contents_write hp hp'
  obtain ⟨ys, hys⟩ := Option.isSome_iff_exists.1 hahead
  have hsame : ys = v.slots := by
    rcases h.gained _ ys hys with hold | ⟨d', hd', hplace, u, hu, rfl⟩
    · cases hnew.symm.trans hold
    · obtain rfl := hunique d' hd' d hd hplace
      cases (Instruction.execute_of_grows h.grows hp hv).symm.trans hu
      rfl
  refine ⟨⟨h.grows.size.trans hgrows.size.symm, fun b => ?_, fun place xs hxs => ?_⟩,
    fun place xs hxs => ?_⟩
  · rw [h.grows.layout, hgrows.layout]
  · by_cases hplace : place = d.place
    · subst hplace
      cases hself.symm.trans hxs
      exact hsame ▸ hys
    · exact h.grows.contents place xs ((hother place hplace).symm.trans hxs)
  · exact (h.gained place xs hxs).imp_left (hgrows.contents place xs)

/-- A slot that no step computes is written from outside for the first time. -/
theorem write (h : p.Behind ds q) (hp : p.Packed) (hq : q.Packed) {place : Place} {xs : List α}
    {p' q' : Pool α} (hp' : p.write place xs = .ok p') (hq' : q.write place xs = .ok q')
    (hplace : ∀ d ∈ ds, d.place ≠ place) (hnew : p.contents? place = none) :
    p'.Behind ds q' := by
  have hnew' : ∀ ys, q.contents? place = some ys → ys = xs := by
    intro ys hys
    rcases h.gained place ys hys with hold | ⟨d, hd, hdp, -⟩
    · cases hnew.symm.trans hold
    · exact absurd hdp (hplace d hd)
  have hgrowsp := grows_write hp hp' fun ys hys => by cases hnew.symm.trans hys
  have hgrowsq := grows_write hq hq' hnew'
  obtain ⟨hselfp, hotherp⟩ := contents_write hp hp'
  obtain ⟨hselfq, hotherq⟩ := contents_write hq hq'
  refine ⟨⟨?_, fun b => ?_, fun other ys hys => ?_⟩, fun other ys hys => ?_⟩
  · rw [hgrowsq.size, hgrowsp.size, h.grows.size]
  · rw [hgrowsq.layout, hgrowsp.layout, h.grows.layout]
  · by_cases hother : other = place
    · subst hother
      exact hselfq.trans (hselfp.symm.trans hys)
    · rw [hotherp other hother] at hys
      exact (hotherq other hother).trans (h.grows.contents other ys hys)
  · by_cases hother : other = place
    · subst hother
      exact Or.inl (hselfp.trans (hselfq.symm.trans hys))
    · rw [hotherq other hother] at hys
      rcases h.gained other ys hys with hold | ⟨d, hd, hdp, v, hv, hslots⟩
      · exact Or.inl ((hotherp other hother).trans hold)
      · exact Or.inr ⟨d, hd, hdp, v, Instruction.execute_of_grows hgrowsq hq hv, hslots⟩

end Pool.Behind

end DeferredMatrix
