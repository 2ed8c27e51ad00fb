import DeferredMatrix.Program.Instruction
import DeferredMatrix.Proofs.Buffer.Pool

/-!
# What execution reads and computes

* `Instruction.meaning` : the result of an instruction for given values of its operands. It is
  absent if an operand has no value or a determinant does not reach its threshold.
* `execute_eq_ok_iff` : execution succeeds exactly with that result, for the values that the
  operands have in the pool.
* `execute_error_cases` : otherwise it stops at a singular determinant, or as the reading of one
  of its operands does.
* `execute_congr` : it depends on the pool through its operands only.
-/

namespace DeferredMatrix

variable {α : Type} {ρ σ : Kind → Type}

/-! ## Runs that may stop -/

theorem ok_of_bind {ε β γ : Type} {x : Except ε β} {f : β → Except ε γ} {r : γ}
    (h : (x >>= f) = .ok r) : ∃ a, x = .ok a ∧ f a = .ok r := by
  cases x with
  | error e => cases h
  | ok a => exact ⟨a, rfl, h⟩

theorem error_of_bind {ε β γ : Type} {x : Except ε β} {f : β → Except ε γ} {e : ε}
    (h : (x >>= f) = .error e) : x = .error e ∨ ∃ a, x = .ok a ∧ f a = .error e := by
  cases x with
  | error e' =>
    cases h
    exact Or.inl rfl
  | ok a => exact Or.inr ⟨a, rfl, h⟩

theorem bind_of_ok {ε β γ : Type} {x : Except ε β} {f : β → Except ε γ} {a : β} (h : x = .ok a) :
    (x >>= f) = f a := by
  rw [h]
  rfl

theorem bind_of_error {ε β γ : Type} {x : Except ε β} {f : β → Except ε γ} {e : ε}
    (h : x = .error e) : (x >>= f) = .error e := by
  rw [h]
  rfl

theorem toOption_eq_some_iff {ε β : Type} {x : Except ε β} {a : β} :
    x.toOption = some a ↔ x = .ok a := by
  cases x <;> simp [Except.toOption]

/-! ## Operands -/

/-- A literal, or a handle to a place with a property. -/
def Operand.All (T : Place → Kind → Prop) {k : Kind} : Operand α k → Prop
  | .literal _ => True
  | .handle h => T h.place k

theorem Operand.All.imp {T U : Place → Kind → Prop} (hTU : ∀ place k, T place k → U place k)
    {k : Kind} {o : Operand α k} (h : o.All T) : o.All U := by
  cases o with
  | literal v => trivial
  | handle h' => exact hTU _ _ h

/-- An operand that can only be read as a value of its own kind. -/
def Operand.Sound (p : Pool α) {k : Kind} : Operand α k → Prop
  | .literal _ => True
  | .handle h => p.Holds h.place k

theorem Operand.sound_iff {p : Pool α} {k : Kind} {o : Operand α k} :
    o.Sound p ↔ o.All p.Holds := by
  cases o <;> exact Iff.rfl

/-- The value of an operand depends on the store of the buffer that it is read from. -/
theorem Operand.resolve_congr {p q : Pool α} {k : Kind} {o : Operand α k}
    (h : ∀ place, o.input? = some place → q.store? place.buffer = p.store? place.buffer) :
    o.resolve q = o.resolve p := by
  cases o with
  | literal v => rfl
  | handle g => exact Pool.read_congr (h g.place rfl)

theorem Operand.issued_of_resolve {p : Pool α} {k : Kind} {o : Operand α k} {v : Value α k}
    (hv : o.resolve p = .ok v) {place : Place} (hplace : o.input? = some place) :
    p.Issued place.buffer := by
  cases o with
  | literal u => cases hplace
  | handle g =>
    cases hplace
    exact (Pool.holds_of_read hv).1

namespace Instruction

/-- All places that the instruction reads have a property. -/
def All (T : Place → Kind → Prop) (i : Instruction α (Operand α)) : Prop :=
  ∀ x ∈ i.operands, x.2.2.All T

def Sound (p : Pool α) (i : Instruction α (Operand α)) : Prop :=
  ∀ x ∈ i.operands, x.2.2.Sound p

theorem sound_iff {p : Pool α} {i : Instruction α (Operand α)} : i.Sound p ↔ i.All p.Holds :=
  forall₂_congr fun _ _ => Operand.sound_iff

theorem All.imp {T U : Place → Kind → Prop} (hTU : ∀ place k, T place k → U place k)
    {i : Instruction α (Operand α)} (h : i.All T) : i.All U :=
  fun x hx => (h x hx).imp hTU

theorem Sound.mono {p q : Pool α} (hpq : p.Extends q) {i : Instruction α (Operand α)}
    (h : i.Sound p) : i.Sound q :=
  sound_iff.2 ((sound_iff.1 h).imp fun _ _ => Pool.Holds.mono hpq)

theorem mem_inputs {i : Instruction α (Operand α)} {place : Place} :
    place ∈ i.inputs ↔ ∃ x ∈ i.operands, x.2.2.input? = some place := by
  simp only [inputs, List.mem_filterMap]

theorem All.exists_of_mem {T : Place → Kind → Prop} {i : Instruction α (Operand α)} (h : i.All T)
    {place : Place} (hplace : place ∈ i.inputs) : ∃ k, T place k := by
  obtain ⟨⟨name, k, o⟩, hx, hinput⟩ := mem_inputs.1 hplace
  have ho := h _ hx
  cases o with
  | literal v => cases hinput
  | handle h' =>
    cases hinput
    exact ⟨k, ho⟩

/-- Every place that a sound instruction reads holds values of some kind. -/
theorem Sound.exists_holds {p : Pool α} {i : Instruction α (Operand α)} (h : i.Sound p)
    {place : Place} (hplace : place ∈ i.inputs) : ∃ k, p.Holds place k :=
  (sound_iff.1 h).exists_of_mem hplace

theorem Sound.issued {p : Pool α} {i : Instruction α (Operand α)} (h : i.Sound p) {place : Place}
    (hplace : place ∈ i.inputs) : p.Issued place.buffer := by
  obtain ⟨k, hk⟩ := h.exists_holds hplace
  exact hk.1

/-! ## The meaning of an instruction -/

/-- The result for given values of the operands, if there are any and no determinant is singular. -/
def meaning [Scalar α] (value : (k : Kind) → ρ k → Option (Value α k)) :
    (i : Instruction α ρ) → Option (Value α i.output)
  | identity => some (.matrix .identity)
  | multiply lhs rhs => do
    let a ← value _ lhs
    let b ← value _ rhs
    return .matrix (a.toMat4.multiply b.toMat4)
  | transpose input => do
    let a ← value _ input
    return .matrix a.toMat4.transpose
  | add lhs rhs => do
    let a ← value _ lhs
    let b ← value _ rhs
    return .matrix (a.toMat4.add b.toMat4)
  | scale input factor => do
    let a ← value _ input
    let c ← value _ factor
    return .matrix (a.toMat4.scale c.toScalar)
  | determinant input threshold => do
    let a ← value _ input
    let det := a.toMat4.determinant
    if threshold.all (Scalar.reaches det) then some (.scalar det) else none
  | adjugate input => do
    let a ← value _ input
    return .matrix a.toMat4.adjugate
  | divide adj det threshold => do
    let a ← value _ adj
    let d ← value _ det
    if Scalar.reaches d.toScalar threshold then
      some (.matrix (a.toMat4.scale (Scalar.recip d.toScalar)))
    else none
  | transform vector matrix => do
    let v ← value _ vector
    let m ← value _ matrix
    return .vector (v.toVec4.transform m.toMat4)

variable [Scalar α]

/-- An instruction that means something has values for all its operands. -/
theorem exists_value_of_meaning {i : Instruction α ρ} {f : (k : Kind) → ρ k → Option (Value α k)}
    {v : Value α i.output} (h : i.meaning f = some v) :
    ∀ x ∈ i.operands, ∃ u, f x.2.1 x.2.2 = some u := by
  intro x hx
  cases i with
  | identity => simp [operands] at hx
  | transpose input | adjugate input | determinant input threshold =>
    obtain ⟨a, ha, -⟩ := Option.bind_eq_some_iff.1 h
    obtain rfl := List.mem_singleton.1 hx
    exact ⟨a, ha⟩
  | multiply l r | add l r | scale l r | transform l r | divide l r threshold =>
    obtain ⟨a, ha, h⟩ := Option.bind_eq_some_iff.1 h
    obtain ⟨b, hb, -⟩ := Option.bind_eq_some_iff.1 h
    simp only [operands, List.mem_cons, List.not_mem_nil, or_false] at hx
    obtain rfl | rfl := hx
    · exact ⟨a, ha⟩
    · exact ⟨b, hb⟩

/-- The meaning depends on the values of the operands only. -/
theorem meaning_congr {i : Instruction α ρ} {f g : (k : Kind) → ρ k → Option (Value α k)}
    (h : ∀ x ∈ i.operands, f x.2.1 x.2.2 = g x.2.1 x.2.2) : i.meaning f = i.meaning g := by
  cases i with
  | identity => rfl
  | transpose input | adjugate input =>
    have hinput := h _ List.mem_cons_self
    simp only [meaning, hinput]
    rfl
  | determinant input threshold =>
    have hinput := h _ List.mem_cons_self
    simp only [meaning, hinput]
  | multiply l r | add l r | scale l r | transform l r =>
    have hl := h _ List.mem_cons_self
    have hr := h _ (List.mem_cons_of_mem _ List.mem_cons_self)
    simp only [meaning, hl, hr]
    rfl
  | divide l r threshold =>
    have hl := h _ List.mem_cons_self
    have hr := h _ (List.mem_cons_of_mem _ List.mem_cons_self)
    simp only [meaning, hl, hr]

/-- More values of operands leave a meaning as it is. -/
theorem meaning_mono {i : Instruction α ρ} {f g : (k : Kind) → ρ k → Option (Value α k)}
    {v : Value α i.output} (h : i.meaning f = some v)
    (hfg : ∀ x ∈ i.operands, ∀ u, f x.2.1 x.2.2 = some u → g x.2.1 x.2.2 = some u) :
    i.meaning g = some v := by
  rw [← h]
  refine (meaning_congr fun x hx => ?_).symm
  obtain ⟨u, hu⟩ := exists_value_of_meaning h x hx
  rw [hu, hfg x hx u hu]

/-! ## Execution -/

variable {p q : Pool α} {i : Instruction α (Operand α)}

theorem execute_congr (h : ∀ x ∈ i.operands, x.2.2.resolve q = x.2.2.resolve p) :
    i.execute q = i.execute p := by
  cases i with
  | identity => rfl
  | transpose input | adjugate input =>
    have hinput := h _ List.mem_cons_self
    simp only [execute, hinput]
    rfl
  | determinant input threshold =>
    have hinput := h _ List.mem_cons_self
    simp only [execute, hinput]
  | multiply l r | add l r | scale l r | transform l r =>
    have hl := h _ List.mem_cons_self
    have hr := h _ (List.mem_cons_of_mem _ List.mem_cons_self)
    simp only [execute, hl, hr]
    rfl
  | divide l r threshold =>
    have hl := h _ List.mem_cons_self
    have hr := h _ (List.mem_cons_of_mem _ List.mem_cons_self)
    simp only [execute, hl, hr]
    rfl

/-- Execution depends on the stores of the buffers that the instruction reads. -/
theorem execute_congr_stores
    (h : ∀ place ∈ i.inputs, q.store? place.buffer = p.store? place.buffer) :
    i.execute q = i.execute p := by
  refine execute_congr fun x hx => ?_
  obtain ⟨name, k, o⟩ := x
  cases o with
  | literal v => rfl
  | handle h' => exact Pool.read_congr (h h'.place (mem_inputs.2 ⟨_, hx, rfl⟩))

theorem checkInvertible_error {det threshold : α} {s : Stop α}
    (h : checkInvertible det threshold = .error s) : s = .failure (.singular det threshold) := by
  unfold checkInvertible at h
  split at h <;> cases h
  rfl

/-- Execution computes the meaning for the values that the operands have in the pool. -/
theorem execute_eq_ok_iff {v : Value α i.output} : i.execute p = .ok v ↔
    i.meaning (fun _ o => (o.resolve p).toOption) = some v := by
  rw [← toOption_eq_some_iff]
  suffices h : (i.execute p).toOption = i.meaning fun _ o => (o.resolve p).toOption by rw [h]
  cases i with
  | identity => rfl
  | transpose input | adjugate input =>
    simp only [execute, meaning]
    cases input.resolve p <;> rfl
  | multiply l r | add l r | scale l r | transform l r =>
    simp only [execute, meaning]
    cases l.resolve p with
    | error e => rfl
    | ok a => cases r.resolve p <;> rfl
  | determinant input threshold =>
    simp only [execute, meaning]
    cases input.resolve p with
    | error e => rfl
    | ok a =>
      cases threshold with
      | none => rfl
      | some t =>
        change ((checkInvertible a.toMat4.determinant t).bind
            fun _ => .ok (Value.scalar _)).toOption =
          if Scalar.reaches a.toMat4.determinant t then some _ else none
        unfold checkInvertible
        split <;> rfl
  | divide adj det threshold =>
    simp only [execute, meaning]
    cases det.resolve p with
    | error e => cases adj.resolve p <;> rfl
    | ok d =>
      cases adj.resolve p with
      | error e =>
        change ((checkInvertible d.toScalar threshold).bind fun _ => .error e).toOption = none
        unfold checkInvertible
        split <;> rfl
      | ok a =>
        change ((checkInvertible d.toScalar threshold).bind
            fun _ => .ok (Value.matrix _)).toOption =
          if Scalar.reaches d.toScalar threshold then some _ else none
        unfold checkInvertible
        split <;> rfl

/-- What an execution with success has read is written. -/
theorem isSome_contents_of_execute (hp : p.Packed) {v : Value α i.output}
    (h : i.execute p = .ok v) {place : Place} (hplace : place ∈ i.inputs) :
    (p.contents? place).isSome := by
  obtain ⟨⟨name, k, o⟩, hx, hinput⟩ := mem_inputs.1 hplace
  obtain ⟨u, hu⟩ := exists_value_of_meaning (execute_eq_ok_iff.1 h) _ hx
  have hresolve := toOption_eq_some_iff.1 hu
  cases o with
  | literal u' => cases hinput
  | handle g =>
    cases hinput
    have hcontents := Pool.contents_of_read hp hresolve
    rw [hcontents]
    rfl

/-- What stops an execution is a singular determinant or what stops the reading of an operand. -/
theorem execute_error_cases {s : Stop α} (h : i.execute p = .error s) :
    (∃ det threshold, s = .failure (.singular det threshold)) ∨
      ∃ x ∈ i.operands, x.2.2.resolve p = .error s := by
  cases i with
  | identity => cases h
  | transpose input | adjugate input =>
    obtain h | ⟨a, -, h⟩ := error_of_bind h
    · exact Or.inr ⟨_, List.mem_cons_self, h⟩
    · cases h
  | multiply l r | add l r | scale l r | transform l r =>
    obtain h | ⟨a, -, h⟩ := error_of_bind h
    · exact Or.inr ⟨_, List.mem_cons_self, h⟩
    · obtain h | ⟨b, -, h⟩ := error_of_bind h
      · exact Or.inr ⟨_, List.mem_cons_of_mem _ List.mem_cons_self, h⟩
      · cases h
  | determinant input threshold =>
    obtain h | ⟨a, -, h⟩ := error_of_bind h
    · exact Or.inr ⟨_, List.mem_cons_self, h⟩
    · cases threshold with
      | none => cases h
      | some t =>
        obtain h | ⟨u, -, h⟩ := error_of_bind h
        · exact Or.inl ⟨_, _, checkInvertible_error h⟩
        · cases h
  | divide adj det threshold =>
    obtain h | ⟨d, -, h⟩ := error_of_bind h
    · exact Or.inr ⟨_, List.mem_cons_of_mem _ List.mem_cons_self, h⟩
    · obtain h | ⟨u, -, h⟩ := error_of_bind h
      · exact Or.inl ⟨_, _, checkInvertible_error h⟩
      · obtain h | ⟨a, -, h⟩ := error_of_bind h
        · exact Or.inr ⟨_, List.mem_cons_self, h⟩
        · cases h

end Instruction

end DeferredMatrix
