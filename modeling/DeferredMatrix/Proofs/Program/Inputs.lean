import DeferredMatrix.Proofs.Program.Execution
import DeferredMatrix.Proofs.Program.Listing

/-!
# Declared inputs

An instruction declares the places that it reads. What a read answers is settled by what the pool
shows at the place of the handle: whether the buffer is live, the kind of the slot, and its
contents. Execution, though it does not follow the order of the operands and may stop early, reads
operands and nothing else, so the same is true of it and the declared places.

* `Pool.read_eq` : the answer of a read, from what is shown at one place.
* `declared_inputs_are_what_is_read` : execution depends on the declared inputs, needs all of them
  to succeed, complains about no other place, and the listing shows them.
-/

namespace DeferredMatrix

variable {α : Type}

/-! ## What a pool shows at a place -/

namespace Pool

/-- The kind of the slot at a place. -/
def kind? (p : Pool α) (place : Place) : Option Kind :=
  ((p.store? place.buffer).bind fun s => s.slots[place.slot]?).map Slot.kind

/-- Two pools show the same at a place. -/
structure AgreesAt (p q : Pool α) (place : Place) : Prop where
  live : q.isLive place.buffer = p.isLive place.buffer
  kind : q.kind? place = p.kind? place
  written : q.isWritten place = p.isWritten place
  contents : q.contents? place = p.contents? place

theorem isWritten_of_contents {p : Pool α} {place : Place} {xs : List α}
    (h : p.contents? place = some xs) : p.isWritten place = .ok true := by
  obtain ⟨cs, c, hcs, hc, hxs⟩ := exists_cell_of_contents h
  obtain ⟨s, hs, rfl⟩ := store_of_cells hcs
  rw [Store.getElem?_cells] at hc
  obtain ⟨slot, hslot, rfl⟩ := Option.map_eq_some_iff.1 hc
  have hwritten : slot.written = true := by
    cases hw : slot.written with
    | true => rfl
    | false => simp [Store.cell, Store.contents, hw] at hxs
  simp [isWritten, hs, slotAt, hslot, Except.map, hwritten]

/-! ## Reading -/

section Read

variable {p q : Pool α} {k : Kind} {h : Handle k}

/-- A missing slot is noticed before a wrong kind, and that before missing contents. -/
theorem read_eq (p : Pool α) (h : Handle k) : p.read h =
    if p.isLive h.buffer then
      match p.kind? h.place with
      | none => .error (.breach (.noSlot h.place))
      | some held =>
        if held = k then
          match p.contents? h.place with
          | none => .error (.failure (.unevaluated h.place))
          | some xs => (Value.ofSlots k xs).mapError .breach
        else .error (.breach (.slotKind h.place held k))
    else .error (.failure (.dangling h.buffer)) := by
  cases hs : p.store? h.buffer with
  | none =>
    have hdead : ¬ p.isLive h.buffer := by simp [isLive, hs]
    rw [if_neg hdead, read_dangling (cells?_eq_none_iff.2 hs)]
  | some s =>
    have hlive : p.isLive h.buffer := by simp [isLive, hs]
    have hkind : p.kind? h.place = s.slots[h.slot]?.map Slot.kind := by
      simp [kind?, Handle.place, hs]
    rw [if_pos hlive, hkind]
    cases hslot : s.slots[h.slot]? with
    | none => simp [read, live_eq_ok hs, slotAt, Handle.place, hslot, bind, Except.bind]
    | some slot =>
      by_cases hk : slot.kind = k
      · have hcs : p.cells? h.buffer = some s.cells := cells_of_store hs
        have hcell : s.cells[h.slot]? = some (s.cell slot) := by
          rw [Store.getElem?_cells, hslot, Option.map_some]
        have hcontents : p.contents? h.place = (s.cell slot).contents :=
          contents?_eq_some hcs hcell
        simp only [Option.map_some, if_pos hk, hcontents]
        exact read_of_cell hcs hcell hk
      · simp [hk, read, live_eq_ok hs, slotAt, Handle.place, hslot, bind, Except.bind, throw,
          throwThe, MonadExceptOf.throw]

theorem AgreesAt.read (hpq : p.AgreesAt q h.place) : q.read h = p.read h := by
  have hlive : q.isLive h.buffer = p.isLive h.buffer := hpq.live
  rw [read_eq, read_eq, hlive, hpq.kind, hpq.contents]

/-- What is read is there and written. -/
theorem isWritten_of_read {v : Value α k} (hv : p.read h = .ok v) :
    p.isLive h.buffer ∧ p.isWritten h.place = .ok true := by
  rw [read_eq] at hv
  split at hv
  · rename_i hlive
    refine ⟨hlive, ?_⟩
    split at hv
    · cases hv
    · split at hv
      · split at hv
        · cases hv
        · exact isWritten_of_contents ‹_›
      · cases hv
  · cases hv

/-- A failed read complains about its own place. -/
theorem place_of_read {f : Failure α} (he : p.read h = .error (.failure f)) :
    f = .dangling h.buffer ∨ f = .unevaluated h.place := by
  rw [read_eq] at he
  split at he
  · split at he
    · cases he
    · split at he
      · split at he
        · cases he
          exact Or.inr rfl
        · rename_i xs _
          cases hxs : Value.ofSlots k xs with
          | error b =>
            rw [hxs] at he
            cases he
          | ok v =>
            rw [hxs] at he
            cases he
      · cases he
  · cases he
    exact Or.inl rfl

end Read

end Pool

/-! ## Operands -/

namespace Operand

variable {p q : Pool α} {k : Kind} {o : Operand α k}

theorem resolve_of_agreesAt (h : ∀ place, o.input? = some place → p.AgreesAt q place) :
    o.resolve q = o.resolve p := by
  cases o with
  | literal v => rfl
  | handle g => exact (h g.place rfl).read

theorem isWritten_of_resolve {v : Value α k} (hv : o.resolve p = .ok v) {place : Place}
    (hplace : o.input? = some place) :
    p.isLive place.buffer ∧ p.isWritten place = .ok true := by
  cases o with
  | literal u => cases hplace
  | handle g =>
    cases hplace
    exact Pool.isWritten_of_read hv

theorem exists_input_of_resolve {f : Failure α} (he : o.resolve p = .error (.failure f)) :
    ∃ place, o.input? = some place ∧ (f = .dangling place.buffer ∨ f = .unevaluated place) := by
  cases o with
  | literal v => cases he
  | handle g => exact ⟨g.place, rfl, Pool.place_of_read he⟩

end Operand

/-! ## Instructions -/

variable [Scalar α]

namespace Instruction

variable {p q : Pool α} {i : Instruction α (Operand α)}

theorem execute_of_agreesAt (h : ∀ place ∈ i.inputs, p.AgreesAt q place) :
    i.execute q = i.execute p :=
  execute_congr fun x hx => Operand.resolve_of_agreesAt fun place hplace =>
    h place (mem_inputs.2 ⟨x, hx, hplace⟩)

theorem isWritten_of_execute {v : Value α i.output} (hv : i.execute p = .ok v) {place : Place}
    (hplace : place ∈ i.inputs) : p.isLive place.buffer ∧ p.isWritten place = .ok true := by
  obtain ⟨x, hx, hinput⟩ := mem_inputs.1 hplace
  obtain ⟨u, hu⟩ := exists_value_of_meaning (execute_eq_ok_iff.1 hv) x hx
  exact Operand.isWritten_of_resolve (toOption_eq_some_iff.1 hu) hinput

/-- A failed execution complains about a singular determinant or one of the declared inputs. -/
theorem exists_input_of_execute {f : Failure α} (he : i.execute p = .error (.failure f)) :
    (∃ det threshold, f = .singular det threshold) ∨
      ∃ place ∈ i.inputs, f = .dangling place.buffer ∨ f = .unevaluated place := by
  rcases execute_error_cases he with ⟨det, threshold, hf⟩ | ⟨x, hx, hresolve⟩
  · exact Or.inl ⟨det, threshold, Stop.failure.inj hf⟩
  · obtain ⟨place, hplace, hf⟩ := Operand.exists_input_of_resolve hresolve
    exact Or.inr ⟨place, mem_inputs.2 ⟨x, hx, hplace⟩, hf⟩

end Instruction

/-- Pools that agree at the declared inputs give the same answer, breaches included. Success needs
every declared input to be live and written, and a failure names one of them unless a determinant
is singular. In a listing the words that refer to slots stand for the declared inputs, one by one:
those of the owner by their numbers. -/
theorem declared_inputs_are_what_is_read (i : Instruction α (Operand α)) (p : Pool α) :
    (∀ q : Pool α, (∀ place ∈ i.inputs, p.AgreesAt q place) → i.execute q = i.execute p) ∧
    (∀ v, i.execute p = .ok v → ∀ place ∈ i.inputs,
      p.isLive place.buffer ∧ p.isWritten place = .ok true) ∧
    (∀ b, i.execute p = .error (.failure (.dangling b)) → ∃ place ∈ i.inputs, place.buffer = b) ∧
    (∀ place, i.execute p = .error (.failure (.unevaluated place)) → place ∈ i.inputs) ∧
    ∀ owner, (Text.words (i.listing owner)).filter Text.isReference =
      i.inputs.map fun place =>
        if some place.buffer = owner then "$" ++ toString place.slot else "external" := by
  refine ⟨fun q => Instruction.execute_of_agreesAt,
    fun v hv place => Instruction.isWritten_of_execute hv, fun b hb => ?_, fun place hplace => ?_,
    fun owner => Instruction.references_listing owner i⟩
  · obtain ⟨det, threshold, hf⟩ | ⟨place, hplace, hf | hf⟩ :=
      Instruction.exists_input_of_execute hb
    · cases hf
    · cases hf
      exact ⟨place, hplace, rfl⟩
    · cases hf
  · obtain ⟨det, threshold, hf⟩ | ⟨place', hplace', hf | hf⟩ :=
      Instruction.exists_input_of_execute hplace
    · cases hf
    · cases hf
    · cases hf
      exact hplace'

end DeferredMatrix
