import DeferredMatrix.Graph.Walk
import DeferredMatrix.Proofs.Node.Evaluation
import Mathlib.Logic.Relation

/-!
# Dependencies between the nodes of a graph

Nodes are known by their places. A node reads another one if it reads the buffer that the other
one owns. In a graph that has its place in the pool no two nodes own one buffer, so the dependencies
that a walk computes are the nodes that a node reads (`mem_dependenciesOf`), however far the nodes
have been evaluated.
-/

namespace DeferredMatrix

variable {α : Type}

namespace Graph

/-- The node at the place `n` reads the buffer of the node at the place `m`. -/
def Reads (g : Graph α) (n m : Nat) : Prop :=
  ∃ x y, g.nodes[n]? = some x ∧ g.nodes[m]? = some y ∧ y.buffer ∈ x.externalInputs

def Acyclic (g : Graph α) : Prop := ∀ n, ¬ Relation.TransGen g.Reads n n

/-- The node lies on a cycle of nodes that read each other. -/
def OnCycle (g : Graph α) (n : Nat) : Prop := Relation.TransGen g.Reads n n

structure Fits (g : Graph α) (p : Pool α) : Prop where
  packed : p.Packed
  distinct : ∀ (i j : Nat) (x y : Node α), g.nodes[i]? = some x → g.nodes[j]? = some y →
    x.buffer = y.buffer → i = j
  fits : ∀ (i : Nat) (x : Node α), g.nodes[i]? = some x → x.Fits p

/-- As `Fits`, whatever the slots hold that operands point to. -/
structure Placed (g : Graph α) (p : Pool α) : Prop where
  packed : p.Packed
  distinct : ∀ (i j : Nat) (x y : Node α), g.nodes[i]? = some x → g.nodes[j]? = some y →
    x.buffer = y.buffer → i = j
  placed : ∀ (i : Nat) (x : Node α), g.nodes[i]? = some x → x.Placed p

theorem Fits.placed {g : Graph α} {p : Pool α} (h : g.Fits p) : g.Placed p :=
  ⟨h.packed, h.distinct, fun i x hx => (h.fits i x hx).placed⟩

theorem Reads.lt_left {g : Graph α} {n m : Nat} (h : g.Reads n m) : n < g.nodes.size := by
  obtain ⟨x, y, hx, -, -⟩ := h
  exact (Array.getElem?_eq_some_iff.1 hx).1

theorem Reads.lt_right {g : Graph α} {n m : Nat} (h : g.Reads n m) : m < g.nodes.size := by
  obtain ⟨x, y, -, hy, -⟩ := h
  exact (Array.getElem?_eq_some_iff.1 hy).1

/-- If every node is ranked above those it reads, there are no cycles. -/
theorem acyclic_of_rank {g : Graph α} (rank : Nat → Nat)
    (h : ∀ n m, g.Reads n m → rank m < rank n) : g.Acyclic := by
  intro n hcycle
  have hpath : ∀ {a b : Nat}, Relation.TransGen g.Reads a b → rank b < rank a := by
    intro a b hab
    induction hab with
    | single hread => exact h _ _ hread
    | tail _ hread ih => exact Nat.lt_trans (h _ _ hread) ih
  exact Nat.lt_irrefl _ (hpath hcycle)

end Graph

/-! ## Nodes that differ in their progress only -/

namespace Node

structure Alike (n m : Node α) : Prop where
  lease : m.lease = n.lease
  steps : m.steps = n.steps
  inputs : m.externalInputs = n.externalInputs

theorem Alike.refl (n : Node α) : n.Alike n := ⟨rfl, rfl, rfl⟩

theorem Alike.trans {l m n : Node α} (h : l.Alike m) (h' : m.Alike n) : l.Alike n :=
  ⟨h'.lease.trans h.lease, h'.steps.trans h.steps, h'.inputs.trans h.inputs⟩

theorem Alike.symm {n m : Node α} (h : n.Alike m) : m.Alike n :=
  ⟨h.lease.symm, h.steps.symm, h.inputs.symm⟩

theorem Alike.buffer {n m : Node α} (h : n.Alike m) : m.buffer = n.buffer :=
  congrArg Lease.buffer h.lease

theorem alike_advance (n : Node α) : n.Alike n.advance :=
  ⟨lease_advance n, steps_advance n, externalInputs_advance n⟩

theorem Evaluates.alike [Scalar α] {n : Node α} {w : World α} {a : Attempt (Node α) α}
    (h : n.Evaluates w a) : n.Alike a.node := by
  induction h with
  | dead | complete | stop => exact .refl _
  | @advance n n' w w' a h ha ih =>
    obtain ⟨-, step, v, q, -, -, -, rfl, -⟩ := h
    exact (alike_advance n).trans ih

/-- Whatever happens, an evaluation changes the progress only. -/
theorem alike_evaluate [Scalar α] (n : Node α) (w : World α) : n.Alike (n.evaluate w).node := by
  cases n with
  | operation o =>
    simp only [evaluate, Operation.evaluate]
    split
    · exact .refl _
    · split
      · exact .refl _
      · split <;> exact ⟨rfl, rfl, rfl⟩
  | compound c =>
    simp only [evaluate, Compound.evaluate]
    split
    · exact .refl _
    · exact ⟨rfl, rfl, rfl⟩

end Node

/-! ## What a walk computes -/

/-- A walk leaves the nodes of its graph as they are, apart from their progress. -/
structure Walk.Keeps (v : Walk α) (g : Graph α) : Prop where
  size : v.nodes.size = g.nodes.size
  alike : ∀ (i : Nat) (x y : Node α), g.nodes[i]? = some x → v.nodes[i]? = some y → x.Alike y

theorem Walk.Keeps.of_nodes {u v : Walk α} (h : u.nodes = v.nodes) : u.Keeps ⟨v.nodes⟩ where
  size := congrArg Array.size h
  alike := by
    intro i x y hx hy
    rw [h] at hy
    cases hx.symm.trans hy
    exact .refl _

theorem Graph.keeps_start (g : Graph α) (w : World α) : (Walk.start g.nodes w).Keeps g :=
  .of_nodes (v := Walk.start g.nodes w) rfl

theorem Walk.Keeps.exists_node {v : Walk α} {g : Graph α} (h : v.Keeps g) {i : Nat} {x : Node α}
    (hx : g.nodes[i]? = some x) : ∃ y, v.nodes[i]? = some y ∧ x.Alike y := by
  have hlt := (Array.getElem?_eq_some_iff.1 hx).1
  rw [← h.size] at hlt
  have hy := Array.getElem?_eq_getElem hlt
  exact ⟨_, hy, h.alike i x _ hx hy⟩

theorem Walk.Keeps.exists_original {v : Walk α} {g : Graph α} (h : v.Keeps g) {i : Nat}
    {y : Node α} (hy : v.nodes[i]? = some y) : ∃ x, g.nodes[i]? = some x ∧ x.Alike y := by
  have hlt := (Array.getElem?_eq_some_iff.1 hy).1
  rw [h.size] at hlt
  have hx := Array.getElem?_eq_getElem hlt
  exact ⟨_, hx, h.alike i _ y hx hy⟩

theorem Walk.Keeps.record {v : Walk α} {g : Graph α} (hv : v.Keeps g) {n : Nat} {x : Node α}
    {a : Attempt (Node α) α} (hx : v.nodes[n]? = some x) (ha : x.Alike a.node)
    (rest : List Task) : (v.record n a rest).Keeps g where
  size := Array.size_setIfInBounds.trans hv.size
  alike := by
    intro i y z hy hz
    rw [show (v.record n a rest).nodes = v.nodes.setIfInBounds n a.node from rfl,
      Array.getElem?_setIfInBounds] at hz
    by_cases hin : n = i
    · subst hin
      rw [if_pos rfl, if_pos (Array.getElem?_eq_some_iff.1 hx).1] at hz
      cases hz
      exact (hv.alike n y x hy hx).trans ha
    · rw [if_neg hin] at hz
      exact hv.alike i y z hy hz

/-- A graph that fits goes on to do so while it keeps its place. -/
theorem Graph.Fits.of_placed {g : Graph α} {p q : Pool α} {v : Walk α} (hg : g.Fits p)
    (hpq : p.Extends q) (hv : v.Keeps g) (hplaced : Placed ⟨v.nodes⟩ q) : Fits ⟨v.nodes⟩ q := by
  refine ⟨hplaced.packed, hplaced.distinct, fun i y hy => ?_⟩
  obtain ⟨x, hx, hxy⟩ := hv.exists_original hy
  exact (hg.fits i x hx).of_placed hpq hxy.steps (hplaced.placed i y hy)

/-! ## Producers -/

section Producer

variable {nodes : Array (Node α)} {b : BufferId} {m n : Nat}

theorem map_buffer_of_ownerBelow? (h : ownerBelow? nodes b n = some m) :
    nodes[m]?.map Node.buffer = some b := by
  induction n with
  | zero => cases h
  | succ n ih =>
    unfold ownerBelow? at h
    split at h
    · rename_i hb
      cases h
      exact hb
    · exact ih h

theorem exists_ownerBelow? (hm : m < n) (hb : nodes[m]?.map Node.buffer = some b) :
    ∃ k, ownerBelow? nodes b n = some k := by
  induction n with
  | zero => cases hm
  | succ n ih =>
    unfold ownerBelow?
    split
    · exact ⟨n, rfl⟩
    · rename_i hne
      have hmn : m ≠ n := fun h => hne (h ▸ hb)
      exact ih (by omega)

/-- No two nodes own one buffer, so the node that is found is the only one. -/
theorem producer?_eq_some_iff
    (hdistinct : ∀ (i j : Nat) (x y : Node α), nodes[i]? = some x → nodes[j]? = some y →
      x.buffer = y.buffer → i = j) :
    producer? nodes b = some m ↔ ∃ y, nodes[m]? = some y ∧ y.buffer = b := by
  constructor
  · intro h
    exact Option.map_eq_some_iff.1 (map_buffer_of_ownerBelow? h)
  · rintro ⟨y, hy, rfl⟩
    have hm := (Array.getElem?_eq_some_iff.1 hy).1
    obtain ⟨k, hk⟩ := exists_ownerBelow? hm (by rw [hy, Option.map_some])
    obtain ⟨x, hx, hxy⟩ := Option.map_eq_some_iff.1 (map_buffer_of_ownerBelow? hk)
    rw [producer?, hk, hdistinct k m x y hx hy hxy]

end Producer

theorem mem_dependenciesOf {g : Graph α} {p : Pool α} {v : Walk α} (hg : g.Placed p)
    (hv : v.Keeps g) {n m : Nat} : m ∈ v.dependenciesOf n ↔ g.Reads n m := by
  have hdistinct : ∀ (i j : Nat) (x y : Node α), v.nodes[i]? = some x → v.nodes[j]? = some y →
      x.buffer = y.buffer → i = j := by
    intro i j x y hx hy hxy
    obtain ⟨x₀, hx₀, hxa⟩ := hv.exists_original hx
    obtain ⟨y₀, hy₀, hya⟩ := hv.exists_original hy
    exact hg.distinct i j x₀ y₀ hx₀ hy₀ (hxa.buffer.symm.trans (hxy.trans hya.buffer))
  constructor
  · intro hm
    unfold Walk.dependenciesOf at hm
    cases hx : v.nodes[n]? with
    | none => simp [hx] at hm
    | some x =>
      simp only [hx, Option.elim_some, dependencies, List.mem_filterMap] at hm
      obtain ⟨b, hb, hmb⟩ := hm
      obtain ⟨y, hy, rfl⟩ := (producer?_eq_some_iff hdistinct).1 hmb
      obtain ⟨x₀, hx₀, hxa⟩ := hv.exists_original hx
      obtain ⟨y₀, hy₀, hya⟩ := hv.exists_original hy
      exact ⟨x₀, y₀, hx₀, hy₀, hxa.inputs ▸ hya.buffer ▸ hb⟩
  · rintro ⟨x₀, y₀, hx₀, hy₀, hb⟩
    obtain ⟨x, hx, hxa⟩ := hv.exists_node hx₀
    obtain ⟨y, hy, hya⟩ := hv.exists_node hy₀
    simp only [Walk.dependenciesOf, hx, Option.elim_some, dependencies, List.mem_filterMap]
    refine ⟨y₀.buffer, hxa.inputs ▸ hb, (producer?_eq_some_iff hdistinct).2 ⟨y, hy, hya.buffer⟩⟩

end DeferredMatrix
