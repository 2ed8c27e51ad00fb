import DeferredMatrix.Proofs.Buffer.Pool
import DeferredMatrix.Proofs.Renaming.Basic

/-!
# Pools that mirror each other

One pool mirrors another one if it contains the same buffers under other names. Besides them it may
contain foreign buffers. Whatever is done in both pools to the same buffer has the same result,
and leaves the foreign ones alone.

* `SameEnd` : two computations have related results, or fail for the same reason.
* `Pool.Mirrors` : the buffer `b` of one pool is `σ b` in the other one.
* `World.Mirrors` : besides, the same has happened.
-/

namespace DeferredMatrix

/-! ## Related ends -/

/-- Both succeed with related results, or both fail with related errors. -/
inductive SameEnd {ε ε' β β' : Type} (E : ε → ε' → Prop) (R : β → β' → Prop) :
    Except ε β → Except ε' β' → Prop
  | ok {x : β} {y : β'} (h : R x y) : SameEnd E R (.ok x) (.ok y)
  | error {e : ε} {e' : ε'} (h : E e e') : SameEnd E R (.error e) (.error e')

namespace SameEnd

variable {ε ε' β β' γ γ' : Type} {E : ε → ε' → Prop} {R : β → β' → Prop} {S : γ → γ' → Prop}
  {x : Except ε β} {y : Except ε' β'}

theorem bind (h : SameEnd E R x y) {f : β → Except ε γ} {g : β' → Except ε' γ'}
    (hfg : ∀ a b, R a b → SameEnd E S (f a) (g b)) : SameEnd E S (x >>= f) (y >>= g) := by
  cases h with
  | ok h => exact hfg _ _ h
  | error h => exact .error h

theorem map (h : SameEnd E R x y) {f : β → γ} {g : β' → γ'}
    (hfg : ∀ a b, R a b → S (f a) (g b)) : SameEnd E S (x.map f) (y.map g) := by
  cases h with
  | ok h => exact .ok (hfg _ _ h)
  | error h => exact .error h

/-- What the second computation gives is what the first one gives, replaced. -/
theorem eq_map {r : ε → ε'} {f : β → β'}
    (h : SameEnd (fun e e' => e' = r e) (fun a b => b = f a) x y) :
    y = (x.mapError r).map f := by
  cases h with
  | ok h => exact congrArg Except.ok h
  | error h => exact congrArg Except.error h

theorem eq_mapError {y : Except ε' β} {r : ε → ε'} (h : SameEnd (fun e e' => e' = r e) Eq x y) :
    y = x.mapError r := by
  cases h with
  | ok h => exact congrArg Except.ok h.symm
  | error h => exact congrArg Except.error h

end SameEnd

variable {α : Type}

/-- The same reason to stop, with buffers renamed. -/
abbrev Stop.Renames (σ : BufferId → BufferId) (s s' : Stop α) : Prop := s' = s.rename σ

/-! ## Pools -/

/-- A store says nothing about buffers when it cannot be written. -/
theorem Store.rename_of_write {σ : BufferId → BufferId} {s : Store α} {index : Nat} {xs : List α}
    {b : Breach} (h : s.write index xs = .error b) : b.rename σ = b := by
  unfold write slot at h
  cases hslot : s.slots[index]? with
  | none =>
    rw [hslot] at h
    cases h
    rfl
  | some slot =>
    rw [hslot] at h
    by_cases hwidth : xs.length = slot.kind.width
    · simp only [Bind.bind, Except.bind, if_pos hwidth] at h
      cases h
    · simp only [Bind.bind, Except.bind, if_neg hwidth] at h
      cases h
      rfl

/-- The buffer `b` of `p` is `σ b` in `q`, which goes for buffers to come, too. All other buffers
of `q` are as in `base`. -/
structure Pool.Mirrors (σ : BufferId → BufferId) (base p q : Pool α) : Prop where
  injective : Function.Injective σ
  entry : ∀ b, q.entries[(σ b).serial]? = p.entries[b.serial]?
  fresh : ∀ n, σ ⟨p.entries.size + n⟩ = ⟨q.entries.size + n⟩
  frame : ∀ c, (∀ b, σ b ≠ c) → q.entries[c.serial]? = base.entries[c.serial]?

namespace Pool.Mirrors

variable {σ : BufferId → BufferId} {base p q : Pool α} (h : Pool.Mirrors σ base p q)

include h

/-! ### What can be seen of a buffer -/

theorem store? (b : BufferId) : q.store? (σ b) = p.store? b := by
  rw [Pool.store?, Pool.store?, h.entry]

theorem label (b : BufferId) : q.label (σ b) = p.label b := by
  rw [Pool.label, Pool.label, h.entry]

theorem isLive (b : BufferId) : q.isLive (σ b) = p.isLive b := by
  rw [Pool.isLive, Pool.isLive, h.store?]

theorem numSlots (b : BufferId) : q.numSlots (σ b) = p.numSlots b := by
  rw [Pool.numSlots, Pool.numSlots, h.store?]

theorem fresh_eq : σ p.fresh = q.fresh := h.fresh 0

theorem live (b : BufferId) : SameEnd (Stop.Renames σ) Eq (p.live b) (q.live (σ b)) := by
  simp only [Pool.live, h.store?]
  cases p.store? b with
  | some s => exact .ok rfl
  | none => exact .error rfl

omit h in
theorem slotAt (s : Store α) (place : Place) :
    SameEnd (Stop.Renames σ) Eq (Pool.slotAt s place) (Pool.slotAt s (place.rename σ)) := by
  simp only [Pool.slotAt, Place.rename]
  cases s.slots[place.slot]? with
  | some slot => exact .ok rfl
  | none => exact .error rfl

theorem read {k : Kind} (g : Handle k) :
    SameEnd (Stop.Renames σ) Eq (p.read g) (q.read (g.rename σ)) := by
  refine (h.live g.buffer).bind ?_
  rintro s _ rfl
  refine (slotAt s g.place).bind ?_
  rintro slot _ rfl
  by_cases hk : slot.kind ≠ k
  · simp only [if_pos hk]
    exact .error rfl
  · simp only [if_neg hk]
    cases s.contents slot with
    | none => exact .error rfl
    | some elements =>
      simp only [Value.ofSlots]
      cases Value.ofSlots? k elements with
      | some v => exact .ok rfl
      | none => exact .error rfl

theorem isWritten (place : Place) :
    SameEnd (Stop.Renames σ) Eq (p.isWritten place) (q.isWritten (place.rename σ)) := by
  have hstore : q.store? (place.rename σ).buffer = p.store? place.buffer := h.store? place.buffer
  simp only [Pool.isWritten, hstore]
  cases p.store? place.buffer with
  | none => exact .ok rfl
  | some s => exact (slotAt s place).map fun _ _ => congrArg Slot.written

theorem handle (k : Kind) (place : Place) :
    SameEnd (fun b b' => b' = b.rename σ) (fun g g' => g' = g.rename σ) (p.handle k place)
      (q.handle k (place.rename σ)) := by
  have hstore : q.store? (place.rename σ).buffer = p.store? place.buffer := h.store? place.buffer
  have hslot : (place.rename σ).slot = place.slot := rfl
  simp only [Pool.handle, hstore, hslot]
  cases (p.store? place.buffer).bind fun s => s.slots[place.slot]? with
  | none => exact .ok rfl
  | some slot =>
    by_cases hk : slot.kind = k
    · simp only [if_pos hk]
      exact .ok rfl
    · simp only [if_neg hk]
      exact .error rfl

theorem resolve {k : Kind} (o : Operand α k) :
    SameEnd (Stop.Renames σ) Eq (o.resolve p) ((o.rename (Place.rename σ)).resolve q) := by
  cases o with
  | literal v => exact .ok rfl
  | handle g => exact h.read g

/-! ### What is done to a buffer -/

theorem setStore (b : BufferId) (s : Option (Store α)) :
    Pool.Mirrors σ base (p.setStore b s) (q.setStore (σ b) s) where
  injective := h.injective
  entry := by
    intro c
    have hserial : (σ b).serial = (σ c).serial ↔ b.serial = c.serial := by
      rw [← BufferId.mk.injEq, ← BufferId.mk.injEq]
      exact h.injective.eq_iff
    simp only [Pool.setStore, Array.getElem?_modify, hserial, h.entry]
  fresh := by
    intro n
    simp only [Pool.setStore, Array.size_modify]
    exact h.fresh n
  frame := by
    intro c hc
    have hserial : (σ b).serial ≠ c.serial := fun heq => hc b (congrArg BufferId.mk heq)
    simp only [Pool.setStore, Array.getElem?_modify, if_neg hserial]
    exact h.frame c hc

theorem allocate [Zero α] (label : String) (layout : List Kind) :
    Pool.Mirrors σ base (p.allocate label layout) (q.allocate label layout) where
  injective := h.injective
  entry := by
    intro b
    have hserial : (σ b).serial = q.entries.size ↔ b.serial = p.entries.size := by
      have heq : σ b = q.fresh ↔ b = p.fresh := by rw [← h.fresh_eq, h.injective.eq_iff]
      exact ⟨fun hb => congrArg BufferId.serial (heq.1 (congrArg BufferId.mk hb)),
        fun hb => congrArg BufferId.serial (heq.2 (congrArg BufferId.mk hb))⟩
    simp only [Pool.allocate, Array.getElem?_push, hserial, h.entry]
  fresh := by
    intro n
    have hfresh := h.fresh (n + 1)
    simp only [Pool.allocate, Array.size_push]
    rwa [Nat.add_assoc, Nat.add_assoc, Nat.add_comm 1 n]
  frame := by
    intro c hc
    have hserial : c.serial ≠ q.entries.size :=
      fun heq => hc p.fresh (h.fresh_eq.trans (congrArg BufferId.mk heq.symm))
    simp only [Pool.allocate, Array.getElem?_push, if_neg hserial]
    exact h.frame c hc

theorem release (b : BufferId) : Pool.Mirrors σ base (p.release b) (q.release (σ b)) :=
  h.setStore b none

theorem pushSlot [Zero α] (b : BufferId) (k : Kind) :
    SameEnd (Stop.Renames σ) (fun x y => x.1 = y.1 ∧ Pool.Mirrors σ base x.2 y.2)
      (p.pushSlot b k) (q.pushSlot (σ b) k) := by
  refine (h.live b).bind ?_
  rintro s _ rfl
  rcases Nat.lt_or_ge s.numSlots Store.capacity with hlt | hfull
  · simp only [Store.pushSlot_of_lt hlt]
    exact .ok ⟨rfl, h.setStore b _⟩
  · simp only [Store.pushSlot_of_full hfull]
    exact .error rfl

theorem write (place : Place) (xs : List α) :
    SameEnd (Stop.Renames σ) (Pool.Mirrors σ base) (p.write place xs)
      (q.write (place.rename σ) xs) := by
  refine (h.live place.buffer).bind ?_
  rintro s _ rfl
  refine (slotAt s place).bind ?_
  rintro slot _ rfl
  have hslot : (place.rename σ).slot = place.slot := rfl
  rw [hslot]
  cases hwrite : s.write place.slot xs with
  | ok t => exact .ok (h.setStore place.buffer _)
  | error b => exact .error (congrArg Stop.breach (Store.rename_of_write hwrite).symm)

end Pool.Mirrors

/-- A renaming of the buffers that have been issued in `p`, continued to those that will be issued
in `p` and `q` at the same time. -/
def Pool.continued (p q : Pool α) (ρ : BufferId → BufferId) (b : BufferId) : BufferId :=
  if b.serial < p.entries.size then ρ b else ⟨q.entries.size + (b.serial - p.entries.size)⟩

section Continued

variable {p q : Pool α} {ρ : BufferId → BufferId}

theorem Pool.continued_of_issued {b : BufferId} (hb : p.Issued b) : p.continued q ρ b = ρ b :=
  if_pos hb

/-- What has not been issued comes after everything that has been. -/
theorem Pool.not_issued_continued {b : BufferId} (hb : ¬ p.Issued b) :
    ¬ q.Issued (p.continued q ρ b) := by
  have hb' : ¬ b.serial < p.entries.size := hb
  simp only [continued, if_neg hb', Issued]
  omega

theorem Pool.mirrors_continued
    (hinj : ∀ b c, p.Issued b → p.Issued c → ρ b = ρ c → b = c)
    (hentry : ∀ b, p.Issued b → q.entries[(ρ b).serial]? = p.entries[b.serial]?) :
    Pool.Mirrors (p.continued q ρ) q p q where
  injective := by
    have hold : ∀ b, p.Issued b → (ρ b).serial < q.entries.size := by
      intro b hb
      have hb' := hentry b hb
      rw [Array.getElem?_eq_getElem hb] at hb'
      exact (Array.getElem?_eq_some_iff.1 hb').1
    intro b c hbc
    unfold continued at hbc
    split at hbc <;> split at hbc
    · exact hinj b c ‹_› ‹_› hbc
    · have hlt := hold b ‹_›
      rw [hbc] at hlt
      exact absurd hlt (by simp)
    · have hlt := hold c ‹_›
      rw [← hbc] at hlt
      exact absurd hlt (by simp)
    · have hserial := congrArg BufferId.serial hbc
      simp only at hserial
      exact congrArg BufferId.mk (show b.serial = c.serial by omega)
  entry := by
    intro b
    by_cases hb : p.Issued b
    · rw [continued_of_issued hb]
      exact hentry b hb
    · have hge : p.entries.size ≤ b.serial := Nat.le_of_not_lt hb
      rw [continued, if_neg (Nat.not_lt.2 hge), Array.getElem?_eq_none hge,
        Array.getElem?_eq_none (Nat.le_add_right _ _)]
  fresh := by
    intro n
    rw [continued, if_neg (by simp), Nat.add_sub_cancel_left]
  frame := fun _ _ => rfl

end Continued

/-! ## Worlds -/

structure World.Mirrors (σ : BufferId → BufferId) (base : Pool α) (w w' : World α) : Prop where
  pool : Pool.Mirrors σ base w.pool w'.pool
  log : w'.log = w.log.map (Event.rename σ)

/-- The same thing, renamed by `f`, in a mirroring world. -/
structure World.MirrorsWith {β : Type} (σ : BufferId → BufferId) (base : Pool α) (f : β → β)
    (x y : β × World α) : Prop where
  fst : y.1 = f x.1
  world : World.Mirrors σ base x.2 y.2

namespace World.Mirrors

variable {σ : BufferId → BufferId} {base : Pool α} {w w' : World α} (h : Mirrors σ base w w')

include h

theorem emit (e : Event α) : Mirrors σ base (w.emit e) (w'.emit (e.rename σ)) :=
  ⟨h.pool, by simp only [World.emit, Array.map_push, h.log]⟩

theorem setPool {p q : Pool α} (hp : Pool.Mirrors σ base p q) :
    Mirrors σ base (w.setPool p) (w'.setPool q) :=
  ⟨hp, h.log⟩

theorem noteRefusal (s : Stop α) :
    Mirrors σ base (w.noteRefusal s) (w'.noteRefusal (s.rename σ)) := by
  cases s with
  | failure f =>
    cases f with
    | singular determinant epsilon => exact h.emit _
    | dangling b | unevaluated place => exact h
  | breach b => exact h

theorem noteStep (b : BufferId) (step : Nat) (s : Stop α) :
    Mirrors σ base (w.noteStep b step s) (w'.noteStep (σ b) step (s.rename σ)) := by
  cases s with
  | failure f => exact h.emit _
  | breach b => exact h

theorem allocate [Zero α] (label : String) (layout : List Kind) :
    MirrorsWith σ base (Lease.rename σ) (Lease.allocate w label layout)
      (Lease.allocate w' label layout) where
  fst := congrArg (Lease.mk · false) h.pool.fresh_eq.symm
  world := by
    have hemit := (h.setPool (h.pool.allocate label layout)).emit
      (.allocated w.pool.fresh layout.length)
    rwa [Event.rename, h.pool.fresh_eq] at hemit

theorem create_lease [Zero α] (label : String) (layout : List Kind) :
    SameEnd (fun b b' => b' = Breach.rename σ b) (MirrorsWith σ base (Lease.rename σ))
      (Lease.create w label layout) (Lease.create w' label layout) := by
  rw [Lease.create_eq, Lease.create_eq]
  split
  · exact .ok (h.allocate label layout)
  · exact .error rfl

theorem release (l : Lease) :
    MirrorsWith σ base (Lease.rename σ) (l.release w) ((l.rename σ).release w') := by
  cases l with
  | mk b released =>
    cases released with
    | true => exact ⟨rfl, h⟩
    | false => exact ⟨rfl, (h.setPool (h.pool.release b)).emit (.released b)⟩

end World.Mirrors

end DeferredMatrix
