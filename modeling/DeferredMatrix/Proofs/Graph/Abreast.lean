import DeferredMatrix.Proofs.Graph.Order

/-!
# Walks abreast

Two walks over nodes that differ in their progress only are abreast while they have the same marks
and the same tasks (`Walk.Abreast`). They stay so as long as each attempt succeeds in both or fails
in both, since the dependencies of a node do not depend on its progress.
-/

namespace DeferredMatrix

variable {α : Type}

/-! ## Dependencies -/

/-- Which node owns a buffer depends on the buffers of the nodes. -/
theorem producer?_congr {nodes nodes' : Array (Node α)}
    (h : nodes.map Node.buffer = nodes'.map Node.buffer) (b : BufferId) :
    producer? nodes b = producer? nodes' b := by
  have hsize : nodes.size = nodes'.size := by simpa using congrArg Array.size h
  have hget : ∀ i : Nat, nodes[i]?.map Node.buffer = nodes'[i]?.map Node.buffer := by
    intro i
    rw [← Array.getElem?_map, h, Array.getElem?_map]
  have hbelow : ∀ n, ownerBelow? nodes b n = ownerBelow? nodes' b n := by
    intro n
    induction n with
    | zero => rfl
    | succ n ih => rw [ownerBelow?, ownerBelow?, hget, ih]
  rw [producer?, producer?, hsize, hbelow]

namespace Walk

variable {v u : Walk α} {g : Graph α}

theorem Keeps.refl (v : Walk α) : v.Keeps ⟨v.nodes⟩ := .of_nodes rfl

theorem Keeps.trans (hu : u.Keeps ⟨v.nodes⟩) (hv : v.Keeps g) : u.Keeps g where
  size := hu.size.trans hv.size
  alike := by
    intro i x z hx hz
    obtain ⟨y, hy, hxy⟩ := hv.exists_node hx
    exact hxy.trans (hu.alike i y z hy hz)

theorem Keeps.symm (hu : u.Keeps ⟨v.nodes⟩) : v.Keeps ⟨u.nodes⟩ where
  size := hu.size.symm
  alike := fun i x y hx hy => (hu.alike i y x hy hx).symm

/-- A walk has no more nodes than its graph. -/
theorem Keeps.getElem?_eq_none (hu : u.Keeps g) {n : Nat} (hn : g.nodes[n]? = none) :
    u.nodes[n]? = none := by
  rw [Array.getElem?_eq_none_iff] at hn ⊢
  exact hu.size ▸ hn

theorem Keeps.map_buffer (hu : u.Keeps ⟨v.nodes⟩) :
    u.nodes.map Node.buffer = v.nodes.map Node.buffer := by
  apply Array.ext_getElem?
  intro i
  rw [Array.getElem?_map, Array.getElem?_map]
  cases hx : v.nodes[i]? with
  | none => rw [hu.getElem?_eq_none hx]
  | some x =>
    obtain ⟨y, hy, hxy⟩ := hu.exists_node hx
    rw [hy, Option.map_some, Option.map_some, hxy.buffer]

theorem Keeps.dependenciesOf (hu : u.Keeps ⟨v.nodes⟩) (n : Nat) :
    u.dependenciesOf n = v.dependenciesOf n := by
  have hproducer : producer? u.nodes = producer? v.nodes :=
    funext (producer?_congr hu.map_buffer)
  unfold Walk.dependenciesOf
  cases hx : v.nodes[n]? with
  | none =>
    rw [hu.getElem?_eq_none hx]
    rfl
  | some x =>
    obtain ⟨y, hy, hxy⟩ := hu.exists_node hx
    rw [hy, Option.elim_some, Option.elim_some, dependencies, dependencies, hproducer, hxy.inputs]

/-! ## Marks and tasks -/

structure Abreast (v u : Walk α) : Prop where
  keeps : u.Keeps ⟨v.nodes⟩
  marks : u.marks = v.marks
  tasks : u.tasks = v.tasks

namespace Abreast

theorem start (hu : u.Keeps g) (w w' : World α) :
    (Walk.start g.nodes w).Abreast (Walk.start u.nodes w') where
  keeps := ⟨hu.size, hu.alike⟩
  marks := by
    rw [Walk.start, Walk.start, hu.size]
  tasks := rfl

theorem mark (h : v.Abreast u) (n : Nat) : u.mark n = v.mark n := by
  rw [Walk.mark, h.marks, Walk.mark]

/-- Tasks that change no node. -/
theorem pass (h : v.Abreast u) (rest : List Task) :
    Abreast { v with tasks := rest } { u with tasks := rest } :=
  ⟨⟨h.keeps.size, h.keeps.alike⟩, h.marks, rfl⟩

theorem enter (h : v.Abreast u) (n : Nat) (rest : List Task) :
    (v.enter n rest).Abreast (u.enter n rest) where
  keeps := ⟨h.keeps.size, h.keeps.alike⟩
  marks := by
    show u.marks.setIfInBounds n .entered = v.marks.setIfInBounds n .entered
    rw [h.marks]
  tasks := by
    have hmark : ∀ d, (u.setMark n .entered).mark d = (v.setMark n .entered).mark d := by
      intro d
      unfold Walk.mark setMark
      rw [h.marks]
    rw [tasks_enter, tasks_enter, entering, entering, h.keeps.dependenciesOf]
    simp only [hmark]

/-- An attempt that has succeeded in both walks or in none. -/
theorem record (h : v.Abreast u) {n : Nat} {x y : Node α} {a b : Attempt (Node α) α}
    (hx : v.nodes[n]? = some x) (hy : u.nodes[n]? = some y) (ha : x.Alike a.node)
    (hb : y.Alike b.node) (hresult : b.result.isOk = a.result.isOk) (rest : List Task) :
    (v.record n a rest).Abreast (u.record n b rest) where
  keeps := by
    have hv : (v.record n a rest).Keeps ⟨v.nodes⟩ := (Keeps.refl v).record hx ha rest
    have hu : (u.record n b rest).Keeps ⟨v.nodes⟩ :=
      ((Keeps.refl u).record hy hb rest).trans h.keeps
    exact hu.trans hv.symm
  marks := by
    unfold Walk.record
    cases hr : a.result <;> cases hr' : b.result <;> simp_all [Except.isOk, Except.toBool, h.marks]
  tasks := rfl

end Abreast

end Walk

end DeferredMatrix
