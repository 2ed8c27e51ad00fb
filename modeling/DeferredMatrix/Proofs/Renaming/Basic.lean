import DeferredMatrix.Session.Command
import DeferredMatrix.Proofs.Node.Steps
import DeferredMatrix.Proofs.Program.Meaning

/-!
# Renamed buffers

What becomes of data if every buffer `b` is called `σ b` instead. Nothing but the equality of
buffers can be seen in the numbers they have, so whatever is computed from renamed data is the
renamed result as long as `σ` is injective.

* `Instruction.map` replaces the operands of an instruction.
* `Object.rename`, `Stop.rename`, `Event.rename` and `Answer.rename` replace buffers.
* `Node.handle_rename` : the handle of a renamed node.
* `Node.text_rename` : texts call buffers by labels, so they stay the same if labels do.
-/

namespace DeferredMatrix

variable {α : Type}

/-! ## Operands and instructions -/

/-- Replaces every operand. -/
def Instruction.map {ρ τ : Kind → Type} (f : (k : Kind) → ρ k → τ k) :
    Instruction α ρ → Instruction α τ
  | identity => identity
  | multiply lhs rhs => multiply (f _ lhs) (f _ rhs)
  | transpose input => transpose (f _ input)
  | add lhs rhs => add (f _ lhs) (f _ rhs)
  | scale input factor => scale (f _ input) (f _ factor)
  | determinant input threshold => determinant (f _ input) threshold
  | adjugate input => adjugate (f _ input)
  | divide adj det threshold => divide (f _ adj) (f _ det) threshold
  | transform vector matrix => transform (f _ vector) (f _ matrix)

namespace Instruction

variable {ρ τ υ : Kind → Type} {f : (k : Kind) → ρ k → τ k}

@[simp]
theorem code_map (i : Instruction α ρ) : (i.map f).code = i.code := by
  cases i <;> rfl

@[simp]
theorem operands_map (i : Instruction α ρ) :
    (i.map f).operands = i.operands.map fun x => ⟨x.1, x.2.1, f _ x.2.2⟩ := by
  cases i <;> rfl

theorem map_congr {g : (k : Kind) → ρ k → τ k} {i : Instruction α ρ}
    (h : ∀ x ∈ i.operands, f _ x.2.2 = g _ x.2.2) : i.map f = i.map g := by
  cases i <;> simp_all [map, operands]

/-- Looking operands up elsewhere, where they are found replaced. -/
theorem traverse_eq_map {g : (k : Kind) → υ k → Option (ρ k)}
    {g' : (k : Kind) → υ k → Option (τ k)} {i : Instruction α υ}
    (h : ∀ x ∈ i.operands, g' _ x.2.2 = (g _ x.2.2).map (f _)) :
    i.traverse g' = (i.traverse g).map (Instruction.map f) := by
  cases i with
  | identity => rfl
  | transpose a | adjugate a | determinant a t =>
    have ha := h _ List.mem_cons_self
    simp only [traverse, ha]
    cases g _ a <;> rfl
  | multiply a b | add a b | scale a b | transform a b | divide a b t =>
    have ha := h _ List.mem_cons_self
    have hb := h _ (List.mem_cons_of_mem _ List.mem_cons_self)
    simp only [traverse, ha, hb]
    cases g _ a <;> cases g _ b <;> rfl

end Instruction

/-- Replaces every operand. -/
def Recipe.map {ρ τ : Kind → Type} (f : (k : Kind) → ρ k → τ k) : Recipe α ρ → Recipe α τ
  | single i => single (i.map f)
  | inverse input epsilon => inverse (f _ input) epsilon

/-- Replaces the operand beside the gap, if there is one. -/
def Link.map {ρ τ : Kind → Type} (f : (k : Kind) → ρ k → τ k) : Link α ρ → Link α τ
  | transpose => transpose
  | scale factor => scale (f _ factor)
  | multiply rhs => multiply (f _ rhs)
  | multiplyLeft lhs => multiplyLeft (f _ lhs)
  | add rhs => add (f _ rhs)

theorem Link.map_fill {ρ τ : Kind → Type} {f : (k : Kind) → ρ k → τ k} (previous : ρ .matrix)
    (l : Link α ρ) : (l.map f).fill (f _ previous) = (l.fill previous).map f := by
  cases l <;> rfl

section Rename

variable (σ : BufferId → BufferId)

/-! ## Replacing buffers -/

def Place.rename (p : Place) : Place := ⟨σ p.buffer, p.slot⟩

def Handle.rename {k : Kind} (h : Handle k) : Handle k := ⟨σ h.buffer, h.slot⟩

def Instruction.rename (i : Instruction α (Operand α)) : Instruction α (Operand α) :=
  i.map fun _ o => o.rename (Place.rename σ)

def Recipe.rename (r : Recipe α (Operand α)) : Recipe α (Operand α) :=
  r.map fun _ o => o.rename (Place.rename σ)

def Link.rename (l : Link α (Operand α)) : Link α (Operand α) :=
  l.map fun _ o => o.rename (Place.rename σ)

def Lease.rename (l : Lease) : Lease := { l with buffer := σ l.buffer }

def Step.rename (s : Step α) : Step α := { s with instruction := s.instruction.rename σ }

def Operation.rename (o : Operation α) : Operation α where
  instruction := o.instruction.rename σ
  lease := o.lease.rename σ
  evaluated := o.evaluated

def Compound.rename (c : Compound α) : Compound α where
  lease := c.lease.rename σ
  steps := c.steps.map (Step.rename σ)
  completed := c.completed
  steps_ne_nil := mt List.map_eq_nil_iff.1 c.steps_ne_nil

def Node.rename : Node α → Node α
  | operation o => operation (o.rename σ)
  | compound c => compound (c.rename σ)

def Draft.rename (d : Draft α) : Draft α where
  lease := d.lease.rename σ
  steps := d.steps.map (Step.rename σ)

def Graph.rename (g : Graph α) : Graph α := ⟨g.nodes.map (Node.rename σ)⟩

def Object.rename : Object α → Object α
  | buffer l => buffer (l.rename σ)
  | handle k h => handle k (h.rename σ)
  | draft d => draft (d.rename σ)
  | node n => node (n.rename σ)
  | graph g => graph (g.rename σ)

def Failure.rename : Failure α → Failure α
  | dangling b => dangling (σ b)
  | singular determinant epsilon => singular determinant epsilon
  | unevaluated place => unevaluated (place.rename σ)

def Breach.rename : Breach → Breach
  | slotKind place held wanted => slotKind (place.rename σ) held wanted
  | noSlot place => noSlot (place.rename σ)
  | b => b

def Stop.rename : Stop α → Stop α
  | failure f => failure (f.rename σ)
  | breach b => breach (b.rename σ)

def Event.rename : Event α → Event α
  | allocated b slots => allocated (σ b) slots
  | released b => released (σ b)
  | evaluated b code => evaluated (σ b) code
  | stepEvaluated b step code => stepEvaluated (σ b) step code
  | stepFailed b step f => stepFailed (σ b) step (f.rename σ)
  | e => e

def Description.rename (d : Description) : Description :=
  { d with inputs := d.inputs.map (Place.rename σ) }

def Answer.rename : Answer α → Answer α
  | place p => place (p.rename σ)
  | values vs => values (vs.map (Except.mapError (Stop.rename σ)))
  | node s b live inputs => node s (σ b) live (inputs.map σ)
  | description d => description (d.rename σ)
  | descriptions ds => descriptions (ds.map (Description.rename σ))
  | a => a

/-! ## What stays as it is -/

variable {σ}

theorem Operand.input?_rename {k : Kind} (o : Operand α k) :
    (o.rename (Place.rename σ)).input? = o.input?.map (Place.rename σ) := by
  cases o <;> rfl

@[simp]
theorem Operand.isHandle_rename {k : Kind} (o : Operand α k) :
    (o.rename (Place.rename σ)).isHandle = o.isHandle := by
  cases o <;> rfl

namespace Instruction

variable (i : Instruction α (Operand α))

@[simp]
theorem code_rename : (i.rename σ).code = i.code := code_map i

@[simp]
theorem output_rename : (i.rename σ).output = i.output := congrArg Opcode.output (code_map i)

@[simp]
theorem inputs_rename : (i.rename σ).inputs = i.inputs.map (Place.rename σ) := by
  simp only [inputs, rename, operands_map, List.filterMap_map, List.map_filterMap]
  exact congrArg (i.operands.filterMap ·) (funext fun x => Operand.input?_rename x.2.2)

end Instruction

namespace Compound

variable (c : Compound α)

@[simp]
theorem numSteps_rename : (c.rename σ).numSteps = c.numSteps := List.length_map _

@[simp]
theorem last_rename : (c.rename σ).last = c.last.rename σ := List.getLast_map _

end Compound

namespace Node

variable (n : Node α)

@[simp]
theorem lease_rename : (n.rename σ).lease = n.lease.rename σ := by
  cases n <;> rfl

@[simp]
theorem buffer_rename : (n.rename σ).buffer = σ n.buffer := by
  cases n <;> rfl

theorem setLease_rename (l : Lease) :
    (n.rename σ).setLease (l.rename σ) = (n.setLease l).rename σ := by
  cases n <;> rfl

@[simp]
theorem kind_rename : (n.rename σ).kind = n.kind := by
  cases n with
  | operation o => exact o.instruction.output_rename
  | compound c => simp [rename, kind, Compound.kind, Step.rename]

theorem place_rename : (n.rename σ).handle.place = n.handle.place.rename σ := by
  cases n with
  | operation o => rfl
  | compound c =>
    have hslot : (c.rename σ).last.slot = c.last.slot := by rw [c.last_rename]; rfl
    exact congrArg (Place.mk _) hslot

@[simp]
theorem state_rename : (n.rename σ).state = n.state := by
  cases n with
  | operation o => rfl
  | compound c =>
    have hsteps : (c.rename σ).numSteps = c.numSteps := c.numSteps_rename
    simp only [rename, state, Compound.isEvaluated, hsteps]
    rfl

end Node

theorem Handle.sigma_eq {k k' : Kind} {h : Handle k} {h' : Handle k'} (hk : k = k')
    (hplace : h.place = h'.place) : (⟨k, h⟩ : (k : Kind) × Handle k) = ⟨k', h'⟩ := by
  subst hk
  cases h
  cases h'
  cases hplace
  rfl

/-- The handle of a renamed node is the renamed one, of the same kind. -/
theorem Node.handle_rename (n : Node α) :
    (⟨(n.rename σ).kind, (n.rename σ).handle⟩ : (k : Kind) × Handle k) =
      ⟨n.kind, n.handle.rename σ⟩ :=
  Handle.sigma_eq n.kind_rename n.place_rename

/-! ## What renaming depends on -/

section Congruence

variable {τ : BufferId → BufferId}

theorem Instruction.rename_congr {i : Instruction α (Operand α)}
    (h : ∀ place ∈ i.inputs, σ place.buffer = τ place.buffer) : i.rename σ = i.rename τ := by
  refine map_congr fun x hx => ?_
  obtain ⟨name, k, o⟩ := x
  cases o with
  | literal v => rfl
  | handle g =>
    have hbuffer : σ g.buffer = τ g.buffer := h g.place (mem_inputs.2 ⟨_, hx, rfl⟩)
    simp only [Operand.rename, Place.rename, Handle.place, hbuffer]

theorem Lease.rename_congr {l : Lease} (h : σ l.buffer = τ l.buffer) : l.rename σ = l.rename τ := by
  rw [rename, rename, h]

theorem Node.rename_congr {n : Node α} (hbuffer : σ n.buffer = τ n.buffer)
    (hsteps : ∀ step ∈ n.steps, step.instruction.rename σ = step.instruction.rename τ) :
    n.rename σ = n.rename τ := by
  cases n with
  | operation o =>
    have hlease : o.lease.rename σ = o.lease.rename τ := Lease.rename_congr hbuffer
    have hinstruction : o.instruction.rename σ = o.instruction.rename τ :=
      hsteps ⟨o.instruction, 0⟩ List.mem_cons_self
    simp only [rename, Operation.rename, hinstruction, hlease]
  | compound c =>
    have hlease : c.lease.rename σ = c.lease.rename τ := Lease.rename_congr hbuffer
    have hmap : c.steps.map (Step.rename σ) = c.steps.map (Step.rename τ) :=
      List.map_congr_left fun step hstep => congrArg (Step.mk · step.slot) (hsteps step hstep)
    simp only [rename, Compound.rename, hmap, hlease]

end Congruence

/-! ## Text -/

section Text

variable {label label' : BufferId → String} (hlabel : ∀ b, label' (σ b) = label b)

include hlabel

theorem BufferId.text_rename (b : BufferId) : (σ b).text label' = b.text label := by
  rw [text, text, hlabel]

theorem Handle.text_rename {k : Kind} (h : Handle k) :
    (h.rename σ).text label' = h.text label := by
  simp only [text, rename, BufferId.text_rename hlabel]

theorem Lease.text_rename (l : Lease) : (l.rename σ).text label' = l.text label := by
  simp only [text, rename, BufferId.text_rename hlabel]

variable [ToText α]

theorem Operand.text_rename {k : Kind} (o : Operand α k) :
    (o.rename (Place.rename σ)).text label' = o.text label := by
  cases o with
  | literal v => rfl
  | handle h => exact congrArg (Text.wrapped "Handle") (h.text_rename hlabel)

theorem Instruction.text_rename (i : Instruction α (Operand α)) :
    (i.rename σ).text label' = i.text label := by
  have hfields : (i.rename σ).thresholdFields = i.thresholdFields := by cases i <;> rfl
  have hoperands : (i.rename σ).operands.map (fun x => (x.1, x.2.2.text label')) =
      i.operands.map fun x => (x.1, x.2.2.text label) := by
    simp only [rename, operands_map, List.map_map]
    exact List.map_congr_left fun x _ => congrArg (Prod.mk x.1) (x.2.2.text_rename hlabel)
  simp only [text, hfields, code_rename, hoperands]

theorem Step.listText_rename (steps : List (Step α)) :
    listText label' (steps.map (Step.rename σ)) = listText label steps := by
  simp only [listText, List.map_map]
  refine congrArg Text.list (List.map_congr_left fun s _ => ?_)
  simp only [Function.comp_apply, text, rename, Instruction.text_rename hlabel]

theorem Draft.text_rename (d : Draft α) : (d.rename σ).text label' = d.text label := by
  simp only [text, rename, Lease.text_rename hlabel, Step.listText_rename hlabel]

theorem Node.text_rename (n : Node α) : (n.rename σ).text label' = n.text label := by
  cases n with
  | operation o =>
    have hbuffer : (o.rename σ).buffer.text label' = o.buffer.text label :=
      BufferId.text_rename hlabel _
    simp only [rename, text, Operation.text, hbuffer]
    simp only [Operation.rename, Instruction.text_rename hlabel]
  | compound c =>
    have hbuffer : (c.rename σ).buffer.text label' = c.buffer.text label :=
      BufferId.text_rename hlabel _
    simp only [rename, text, Compound.text, hbuffer]
    simp only [Compound.rename, Step.listText_rename hlabel]

end Text

/-! ## Which buffers are the same -/

section Injective

variable (hσ : Function.Injective σ)

include hσ

theorem Handle.rename_inj {k : Kind} {g h : Handle k} : g.rename σ = h.rename σ ↔ g = h := by
  cases g
  cases h
  simp [rename, hσ.eq_iff]

theorem Operand.listing_rename {k : Kind} (o : Operand α k) (owner : Option BufferId) :
    (o.rename (Place.rename σ)).listing (owner.map σ) = o.listing owner := by
  cases o with
  | literal v => rfl
  | handle h =>
    have howner : some (σ h.buffer) = owner.map σ ↔ some h.buffer = owner := by
      cases owner <;> simp [hσ.eq_iff]
    simp only [rename, listing, Place.rename, Handle.place, howner]

theorem Instruction.listing_rename (i : Instruction α (Operand α)) (owner : Option BufferId) :
    (i.rename σ).listing (owner.map σ) = i.listing owner := by
  have hoperands : (i.rename σ).operands.map (fun x => x.2.2.listing (owner.map σ)) =
      i.operands.map fun x => x.2.2.listing owner := by
    simp only [rename, operands_map, List.map_map]
    exact List.map_congr_left fun x _ => x.2.2.listing_rename hσ owner
  simp only [listing, code_rename, hoperands]

theorem Instruction.describe_rename (owner : BufferId) (i : Instruction α (Operand α)) :
    (i.rename σ).describe (σ owner) = (i.describe owner).rename σ := by
  have hnone : (i.rename σ).listing none = i.listing none := i.listing_rename hσ none
  have howner : (i.rename σ).listing (some (σ owner)) = i.listing (some owner) :=
    i.listing_rename hσ (some owner)
  simp only [describe, Description.rename, hnone, howner, code_rename, inputs_rename]

theorem Compound.listing_rename (c : Compound α) : (c.rename σ).listing = c.listing := by
  simp only [listing, rename, List.map_map]
  refine congrArg _ (List.map_congr_left fun s _ => ?_)
  have hlisting := s.instruction.listing_rename hσ (some c.buffer)
  exact congrArg (("$" ++ toString s.slot ++ " = ") ++ ·) hlisting

theorem Draft.slotAhead?_rename (d : Draft α) (i : Instruction α (Operand α)) :
    (d.rename σ).slotAhead? (i.rename σ) = d.slotAhead? i := by
  have hpred : ∀ place : Place,
      ((place.rename σ).buffer = (d.rename σ).buffer ∧ (d.rename σ).nextSlot ≤ place.slot) ↔
        (place.buffer = d.buffer ∧ d.nextSlot ≤ place.slot) := by
    intro place
    simp [Place.rename, rename, buffer, nextSlot, Lease.rename, hσ.eq_iff]
  simp only [slotAhead?, Instruction.inputs_rename, List.find?_map, Option.map_map,
    Function.comp_def]
  simp only [show ∀ place : Place, (place.rename σ).slot = place.slot from fun _ => rfl, hpred]

theorem Node.externalInputs_rename (n : Node α) :
    (n.rename σ).externalInputs = n.externalInputs.map σ := by
  cases n with
  | operation o =>
    simp [rename, externalInputs, Operation.externalInputs, Operation.rename, Place.rename,
      Function.comp_def]
  | compound c =>
    have hinputs : ((c.rename σ).steps.flatMap fun s => s.instruction.inputs.map Place.buffer) =
        (c.steps.flatMap fun s => s.instruction.inputs.map Place.buffer).map σ := by
      simp [Compound.rename, Step.rename, Place.rename, List.flatMap_map, List.map_flatMap,
        Function.comp_def]
    simp only [rename, externalInputs, Compound.externalInputs, hinputs, List.filter_map]
    exact congrArg (List.map σ)
      (congrArg (List.filter · _) (funext fun b => decide_eq_decide.2 hσ.ne_iff))

theorem producer?_rename (nodes : Array (Node α)) (b : BufferId) :
    producer? (nodes.map (Node.rename σ)) (σ b) = producer? nodes b := by
  have hbelow : ∀ n, ownerBelow? (nodes.map (Node.rename σ)) (σ b) n = ownerBelow? nodes b n := by
    intro n
    induction n with
    | zero => rfl
    | succ n ih =>
      rw [ownerBelow?, ownerBelow?, ih]
      simp [Function.comp_def, hσ.eq_iff, Option.map_eq_some_iff]
  rw [producer?, producer?, Array.size_map, hbelow]

theorem dependencies_rename (nodes : Array (Node α)) (n : Node α) :
    dependencies (nodes.map (Node.rename σ)) (n.rename σ) = dependencies nodes n := by
  rw [dependencies, dependencies, n.externalInputs_rename hσ, List.filterMap_map]
  exact congrArg (n.externalInputs.filterMap ·) (funext fun b => producer?_rename hσ nodes b)

end Injective

end Rename

end DeferredMatrix
