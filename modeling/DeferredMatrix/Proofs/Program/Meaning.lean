import DeferredMatrix.Proofs.Program.Execution

/-!
# Eager meanings

The steps that have been made and the values that have been written from outside give every slot
a meaning at once, by recursion over the order in which the steps were made. No pool, no
evaluation and no graph takes part in it.

* `meaningOf` : the meaning of every slot.
* `meaningOf_eq_eager` : the slot of a step means what its instruction makes of the meanings of
  the slots that it reads.
* `below_meaningOf_append`, `below_meaningOf_cons` : new steps and new values change no meaning
  but those that were unknown.
* `Instruction.eager_of_execute` : an execution that reads meanings computes one.
-/

namespace DeferredMatrix

variable {α : Type}

/-! ## Meanings -/

/-- What a slot means. -/
inductive Meaning (α : Type) where
  /-- It depends on a slot that has not been written from outside. -/
  | unknown
  /-- It depends on a determinant that does not reach its threshold. -/
  | refused
  | known (contents : List α)

namespace Meaning

def value? (k : Kind) : Meaning α → Option (Value α k)
  | known xs => Value.ofSlots? k xs
  | unknown | refused => none

def isUnknown : Meaning α → Bool
  | unknown => true
  | refused | known _ => false

def isRefused : Meaning α → Bool
  | refused => true
  | unknown | known _ => false

/-- The second meaning is the first, unless that was unknown. -/
def Below (a b : Meaning α) : Prop := a = unknown ∨ a = b

theorem Below.refl (a : Meaning α) : a.Below a := Or.inr rfl

theorem Below.trans {a b c : Meaning α} (hab : a.Below b) (hbc : b.Below c) : a.Below c := by
  rcases hab with h | rfl
  · exact Or.inl h
  · exact hbc

theorem Below.eq {a b : Meaning α} (h : a.Below b) (ha : a.isUnknown = false) : a = b := by
  rcases h with rfl | h
  · cases ha
  · exact h

theorem isRefused_iff {a : Meaning α} : a.isRefused = true ↔ a = refused := by
  cases a <;> simp [isRefused]

theorem exists_of_value? {k : Kind} {a : Meaning α} {v : Value α k} (h : a.value? k = some v) :
    ∃ xs, a = known xs := by
  cases a with
  | unknown | refused => cases h
  | known xs => exact ⟨xs, rfl⟩

end Meaning

/-! ## The meaning of an instruction -/

section Eager

variable {m n : Place → Meaning α}

/-- The value of an operand if slots mean `m`. -/
def Operand.eager (m : Place → Meaning α) {k : Kind} : Operand α k → Option (Value α k)
  | literal v => some v
  | handle h => (m h.place).value? k

namespace Instruction

variable [Scalar α] {i : Instruction α (Operand α)}

/-- What the instruction computes if slots mean `m`. It is refused together with an operand. -/
def eager (m : Place → Meaning α) (i : Instruction α (Operand α)) : Meaning α :=
  if i.inputs.any fun place => (m place).isRefused then .refused
  else if i.inputs.any fun place => (m place).isUnknown then .unknown
  else match i.meaning fun _ o => o.eager m with
    | some v => .known v.slots
    | none => .refused

omit [Scalar α] in
theorem eager_operand_congr (h : ∀ place ∈ i.inputs, m place = n place) :
    ∀ x ∈ i.operands, x.2.2.eager m = x.2.2.eager n := by
  rintro ⟨name, k, o⟩ hx
  cases o with
  | literal v => rfl
  | handle g =>
    show (m g.place).value? k = (n g.place).value? k
    rw [h g.place (mem_inputs.2 ⟨_, hx, rfl⟩)]

theorem eager_congr (h : ∀ place ∈ i.inputs, m place = n place) : i.eager m = i.eager n := by
  have hany : ∀ f : Meaning α → Bool,
      (i.inputs.any fun place => f (m place)) = i.inputs.any fun place => f (n place) := by
    intro f
    rw [Bool.eq_iff_iff, List.any_eq_true, List.any_eq_true]
    apply exists_congr
    intro place
    exact and_congr_right fun hplace => by rw [h place hplace]
  unfold eager
  rw [hany Meaning.isRefused, hany Meaning.isUnknown, meaning_congr (eager_operand_congr h)]

/-- Later knowledge of operands changes a meaning only if that was unknown. -/
theorem eager_mono (h : ∀ place ∈ i.inputs, (m place).Below (n place)) :
    (i.eager m).Below (i.eager n) := by
  by_cases hrefused : i.inputs.any fun place => (m place).isRefused
  · obtain ⟨place, hplace, hm⟩ := List.any_eq_true.1 hrefused
    rw [Meaning.isRefused_iff] at hm
    have hn : (n place).isRefused := by
      rw [Meaning.isRefused_iff, ← hm]
      exact ((h place hplace).eq (hm ▸ rfl)).symm
    have hrefused' : i.inputs.any fun place => (n place).isRefused :=
      List.any_eq_true.2 ⟨place, hplace, hn⟩
    apply Or.inr
    rw [eager, if_pos hrefused, eager, if_pos hrefused']
  · by_cases hunknown : i.inputs.any fun place => (m place).isUnknown
    · apply Or.inl
      rw [eager, if_neg hrefused, if_pos hunknown]
    · apply Or.inr
      apply eager_congr
      intro place hplace
      apply (h place hplace).eq
      have hall := List.any_eq_false.1 (Bool.eq_false_iff.2 hunknown) place hplace
      exact Bool.eq_false_iff.2 hall

theorem known_of_meaning {v : Value α i.output}
    (h : (i.meaning fun _ o => o.eager m) = some v) :
    ∀ place ∈ i.inputs, ∃ xs, m place = .known xs := by
  intro place hplace
  obtain ⟨⟨name, k, o⟩, hx, hinput⟩ := mem_inputs.1 hplace
  obtain ⟨u, hu⟩ := exists_value_of_meaning h _ hx
  cases o with
  | literal w => cases hinput
  | handle g =>
    cases hinput
    exact Meaning.exists_of_value? hu

/-- A meaning is known if the meanings of the operands are, and no determinant is singular. -/
theorem eager_eq_known_iff {xs : List α} : i.eager m = .known xs ↔
    ∃ v, (i.meaning fun _ o => o.eager m) = some v ∧ v.slots = xs := by
  constructor
  · intro h
    unfold eager at h
    split at h
    · cases h
    · split at h
      · cases h
      · split at h
        · rename_i v hv
          cases h
          exact ⟨v, hv, rfl⟩
        · cases h
  · rintro ⟨v, hv, rfl⟩
    have hnot : ∀ f : Meaning α → Bool, (∀ xs, f (.known xs) = false) →
        (i.inputs.any fun place => f (m place)) = false := by
      intro f hf
      apply List.any_eq_false.2
      intro place hplace
      obtain ⟨xs, hxs⟩ := known_of_meaning hv place hplace
      rw [hxs, hf]
      exact Bool.false_ne_true
    unfold eager
    rw [hnot Meaning.isRefused fun _ => rfl, hnot Meaning.isUnknown fun _ => rfl, hv]
    rfl

/-- An execution that finds what slots mean computes the meaning. -/
theorem eager_of_execute {p : Pool α} (hi : i.Sound p) (hp : p.Packed)
    (hm : ∀ place xs, p.contents? place = some xs → m place = .known xs) {v : Value α i.output}
    (h : i.execute p = .ok v) : i.eager m = .known v.slots := by
  apply eager_eq_known_iff.2
  refine ⟨v, meaning_mono (execute_eq_ok_iff.1 h) ?_, rfl⟩
  rintro ⟨name, k, o⟩ hx u hu
  have hresolve := toOption_eq_some_iff.1 hu
  cases o with
  | literal w =>
    cases hresolve
    rfl
  | handle g =>
    have hcontents := (Pool.read_eq_ok_iff hp (hi _ hx)).1 hresolve
    show (m g.place).value? k = some u
    rw [hm _ _ hcontents]
    exact Value.ofSlots?_slots u

end Instruction

end Eager

/-! ## Renamed slots -/

section Rename

variable {ρ : Place → Place}

def Operand.rename (ρ : Place → Place) {k : Kind} : Operand α k → Operand α k
  | literal v => literal v
  | handle h => handle ⟨(ρ h.place).buffer, (ρ h.place).slot⟩

namespace Instruction

variable [Scalar α]

/-- Replacing operands and looking them up then is looking up their replacements. -/
theorem meaning_traverse {σ τ : Kind → Type} {f : (k : Kind) → τ k → Option (Value α k)}
    {g : (k : Kind) → σ k → τ k} {i : Instruction α σ} {j : Instruction α τ}
    (h : i.traverse (fun k r => some (g k r)) = some j) :
    (j.meaning f).map Value.slots = (i.meaning fun k r => f k (g k r)).map Value.slots := by
  cases i <;> cases h <;> rfl

/-- An instruction computes the same from renamed slots that mean the same. -/
theorem eq_of_eager_rename {m n : Place → Meaning α} {i j : Instruction α (Operand α)}
    (hij : i.traverse (fun _ o => some (o.rename ρ)) = some j)
    (hmn : ∀ place ∈ i.inputs, ∀ xs ys, m place = .known xs → n (ρ place) = .known ys → xs = ys)
    {xs ys : List α} (hi : i.eager m = .known xs) (hj : j.eager n = .known ys) : xs = ys := by
  obtain ⟨v, hv, rfl⟩ := eager_eq_known_iff.1 hi
  obtain ⟨u, hu, rfl⟩ := eager_eq_known_iff.1 hj
  have hslots := meaning_traverse (f := fun _ o => o.eager n) hij
  rw [hu, Option.map_some] at hslots
  obtain ⟨w, hw, hwu⟩ := Option.map_eq_some_iff.1 hslots.symm
  have hsame : i.meaning (fun _ o => o.eager m) = i.meaning fun _ o => (o.rename ρ).eager n := by
    apply meaning_congr
    rintro ⟨name, k, o⟩ hx
    cases o with
    | literal c => rfl
    | handle h =>
      obtain ⟨a, ha⟩ := exists_value_of_meaning hv _ hx
      obtain ⟨b, hb⟩ := exists_value_of_meaning hw _ hx
      obtain ⟨as, has⟩ := Meaning.exists_of_value? ha
      obtain ⟨bs, hbs⟩ := Meaning.exists_of_value? hb
      obtain rfl := hmn h.place (mem_inputs.2 ⟨_, hx, rfl⟩) as bs has hbs
      show (m h.place).value? k = (n (ρ h.place)).value? k
      rw [has]
      exact congrArg (Meaning.value? k) hbs.symm
  rw [hsame, hw] at hv
  cases hv
  exact hwu

end Instruction

end Rename

/-! ## The meaning of all slots -/

/-- A step: the slot that its result goes to, and its instruction. -/
structure Definition (α : Type) where
  place : Place
  instruction : Instruction α (Operand α)

/-- What has been written to a slot from outside. -/
structure Writing (α : Type) where
  place : Place
  contents : List α

/-- The meaning of a slot that no step computes. -/
def Meaning.ofWritings (ws : List (Writing α)) (place : Place) : Meaning α :=
  match ws.find? (·.place = place) with
  | some w => .known w.contents
  | none => .unknown

/-- The meaning of every slot, by recursion over the steps in the order in which they were made. -/
def meaningOf [Scalar α] (ws : List (Writing α)) : List (Definition α) → Place → Meaning α
  | [], place => .ofWritings ws place
  | d :: older, place =>
    if d.place = place then d.instruction.eager (meaningOf ws older) else meaningOf ws older place

/-- Steps have slots of their own and read slots of older steps only. -/
def InOrder (ds : List (Definition α)) : Prop :=
  ds.Pairwise (fun newer older =>
    newer.place ≠ older.place ∧ newer.place ∉ older.instruction.inputs) ∧
  ∀ d ∈ ds, d.place ∉ d.instruction.inputs

section Meaning

variable [Scalar α] {ws : List (Writing α)} {ds news : List (Definition α)} {place : Place}

omit [Scalar α] in
theorem exists_of_ofWritings {xs : List α} (h : Meaning.ofWritings ws place = .known xs) :
    ∃ w ∈ ws, w.place = place ∧ w.contents = xs := by
  unfold Meaning.ofWritings at h
  split at h
  · rename_i w hw
    cases h
    have hplace := List.find?_some hw
    exact ⟨w, List.mem_of_find?_eq_some hw, by simpa using hplace, rfl⟩
  · cases h

omit [Scalar α] in
theorem ofWritings_of_mem (hws : ws.Pairwise fun a b => a.place ≠ b.place) {w : Writing α}
    (hw : w ∈ ws) : Meaning.ofWritings ws w.place = .known w.contents := by
  induction ws with
  | nil => cases hw
  | cons newest older ih =>
    obtain ⟨hnewest, hrest⟩ := List.pairwise_cons.1 hws
    rcases List.mem_cons.1 hw with rfl | hw
    · simp [Meaning.ofWritings]
    · rw [Meaning.ofWritings, List.find?_cons_of_neg (by simpa using hnewest w hw)]
      exact ih hrest hw

theorem meaningOf_append (h : ∀ d ∈ news, d.place ≠ place) :
    meaningOf ws (news ++ ds) place = meaningOf ws ds place := by
  induction news with
  | nil => rfl
  | cons d news ih =>
    rw [List.cons_append, meaningOf, if_neg (h d List.mem_cons_self)]
    exact ih fun d' hd' => h d' (List.mem_cons_of_mem _ hd')

theorem meaningOf_eq_ofWritings (h : ∀ d ∈ ds, d.place ≠ place) :
    meaningOf ws ds place = .ofWritings ws place := by
  have happend : meaningOf ws (ds ++ []) place = meaningOf ws [] place := meaningOf_append h
  rwa [List.append_nil] at happend

/-- The slot of a step means what its instruction makes of the meanings of its operands. -/
theorem meaningOf_eq_eager (h : InOrder ds) {d : Definition α} (hd : d ∈ ds) :
    meaningOf ws ds d.place = d.instruction.eager (meaningOf ws ds) := by
  induction ds with
  | nil => cases hd
  | cons newest older ih =>
    obtain ⟨hpairwise, hself⟩ := h
    obtain ⟨hnewest, hrest⟩ := List.pairwise_cons.1 hpairwise
    have hin : InOrder older := ⟨hrest, fun d' hd' => hself d' (List.mem_cons_of_mem _ hd')⟩
    -- No step on the list reads the slot of the newest one.
    have hsame : ∀ d' ∈ newest :: older, d'.instruction.eager (meaningOf ws (newest :: older)) =
        d'.instruction.eager (meaningOf ws older) := by
      intro d' hd'
      apply Instruction.eager_congr
      intro input hinput
      have hne : newest.place ≠ input := by
        rintro rfl
        rcases List.mem_cons.1 hd' with rfl | hd'
        · exact hself d' List.mem_cons_self hinput
        · exact (hnewest d' hd').2 hinput
      rw [meaningOf, if_neg hne]
    rw [hsame d hd]
    rcases List.mem_cons.1 hd with rfl | hd
    · rw [meaningOf, if_pos rfl]
    · rw [meaningOf, if_neg (hnewest d hd).1]
      exact ih hin hd

theorem below_meaningOf_append (hds : ∀ d ∈ news, ∀ d' ∈ ds, d'.place ≠ d.place)
    (hws : ∀ d ∈ news, ∀ w ∈ ws, w.place ≠ d.place) (place : Place) :
    (meaningOf ws ds place).Below (meaningOf ws (news ++ ds) place) := by
  by_cases hnew : ∃ d ∈ news, d.place = place
  · obtain ⟨d, hd, rfl⟩ := hnew
    apply Or.inl
    have hnone : ws.find? (fun w => w.place = d.place) = none := by
      apply List.find?_eq_none.2
      intro w hw
      simpa using hws d hd w hw
    rw [meaningOf_eq_ofWritings (hds d hd), Meaning.ofWritings, hnone]
  · rw [meaningOf_append fun d hd hplace => hnew ⟨d, hd, hplace⟩]
    exact .refl _

theorem below_meaningOf_cons {w : Writing α} (hw : ∀ w' ∈ ws, w'.place ≠ w.place)
    (place : Place) : (meaningOf ws ds place).Below (meaningOf (w :: ws) ds place) := by
  induction ds generalizing place with
  | nil =>
    by_cases hplace : w.place = place
    · apply Or.inl
      have hnone : ws.find? (fun w' => w'.place = place) = none := by
        apply List.find?_eq_none.2
        intro w' hw'
        simpa [← hplace] using hw w' hw'
      rw [meaningOf, Meaning.ofWritings, hnone]
    · apply Or.inr
      rw [meaningOf, meaningOf, Meaning.ofWritings, Meaning.ofWritings,
        List.find?_cons_of_neg (by simpa using hplace)]
  | cons d older ih =>
    by_cases hplace : d.place = place
    · rw [meaningOf, if_pos hplace, meaningOf, if_pos hplace]
      exact Instruction.eager_mono fun input _ => ih input
    · rw [meaningOf, if_neg hplace, meaningOf, if_neg hplace]
      exact ih place

end Meaning

end DeferredMatrix
