import DeferredMatrix.Proofs.Graph.Safety
import DeferredMatrix.Proofs.Inversion.Compound
import DeferredMatrix.Proofs.Session.HandlePhases
import DeferredMatrix.Proofs.Session.NodeOrigins

/-!
# Inversions in sessions

Between commands an inversion is done in full or not at all, whatever becomes of the buffers that
it reads. `Session.Calls` are the evaluations of nodes that a session may ask for, by themselves or
along the walk of a graph.

* `Session.Orderly.invertsFully_run` : no inversion is ever left halfway.
* `inversions_are_all_or_nothing` : what an inversion does when it is evaluated.
-/

namespace DeferredMatrix

variable {α : Type} [Scalar α]

/-! ## Inversions along changes -/

section Compound

variable {c c' : Compound α} {epsilon : α} {p q : Pool α}

theorem Pool.HoldsInverse.mono {b : BufferId} {m : Mat4 α} (h : p.HoldsInverse b m)
    (hpq : ∀ place : Place, place.buffer = b → ∀ xs, p.contents? place = some xs →
      q.contents? place = some xs) : q.HoldsInverse b m where
  determinant := hpq _ rfl _ h.determinant
  adjugate := hpq _ rfl _ h.adjugate
  inverse := hpq _ rfl _ h.inverse

/-- It is enough to look at what is in the buffer of the compound while that is live. -/
theorem Compound.AllOrNothing.of_contents (h : c.AllOrNothing epsilon p)
    (hcompleted : c'.completed = c.completed) (hbuffer : c'.buffer = c.buffer)
    (hreleased : c'.lease.released = false → c.lease.released = false)
    (hpq : c'.lease.released = false → ∀ place : Place, place.buffer = c.buffer →
      ∀ xs, p.contents? place = some xs → q.contents? place = some xs) :
    c'.AllOrNothing epsilon q := by
  rcases h with h0 | ⟨h3, hslots⟩
  · exact Or.inl (hcompleted.trans h0)
  · refine Or.inr ⟨hcompleted.trans h3, fun hr => ?_⟩
    obtain ⟨m, hreaches, hinverse⟩ := hslots (hreleased hr)
    rw [hbuffer]
    exact ⟨m, hreaches, hinverse.mono (hpq hr)⟩

theorem Compound.AllOrNothing.of_store (h : c.AllOrNothing epsilon p)
    (hstore : q.store? c.buffer = p.store? c.buffer) : c.AllOrNothing epsilon q := by
  refine h.of_contents rfl rfl id fun _ place hplace xs hxs => ?_
  rw [← hplace] at hstore
  exact (Pool.contents?_congr hstore).trans hxs

end Compound

namespace Session

variable {s : Session α}

/-- No inversion is halfway done. -/
def InvertsFully (s : Session α) : Prop :=
  ∀ (c : Compound α) (input : Operand α .matrix) (epsilon : α),
    .node (.compound c) ∈ s.objects.holders → c.Inverts input epsilon →
      c.AllOrNothing epsilon s.pool

theorem invertsFully_empty : (empty : Session α).InvertsFully := by
  intro c input epsilon hc
  cases hc

/-- The session may evaluate the node in this world, by itself or when the walk of a graph has come
to it. -/
inductive Calls (s : Session α) : Node α → World α → Prop
  | node {name : String} {n : Node α} (hn : s.node? name = some n) : Calls s n s.world
  | graph {name : String} {g : Graph α} {v : Walk α} {place : Nat} {rest : List Task}
      {n : Node α} (hg : s.graph? name = some g) (hv : g.Passes s.world v)
      (hover : ¬ v.isOver) (htasks : v.tasks = .finish place :: rest)
      (hn : v.nodes[place]? = some n) : Calls s n v.world

/-- A node that is evaluated is as it was before the command. -/
theorem Orderly.of_calls (hs : s.Orderly True) {n : Node α} {u : World α}
    (h : s.Calls n u) : .node n ∈ s.objects.holders ∧ n.Placed u.pool ∧ u.pool.Packed := by
  cases h with
  | node hn =>
    exact ⟨Catalog.mem_holders (object?_of_node? hn) List.mem_cons_self, hs.node_placed hn,
      hs.estate.tidy.packed⟩
  | @graph name g v place rest n hg hv hover htasks hn =>
    obtain ⟨as, has⟩ := hv.tracks (hs.graph_placed hg)
    obtain ⟨hstop, -⟩ := Walk.step_cases hover
    obtain ⟨-, hnew⟩ := has.not_mem_of_pending hstop (htasks ▸ List.mem_cons_self)
    have hn₀ : g.nodes[place]? = some n := (has.untouched place hnew).symm.trans hn
    exact ⟨Catalog.mem_holders (object?_of_graph? hg) (mem_nodeHolders hn₀),
      has.placed.placed place n hn, has.placed.packed⟩

variable [ToText α]

/-- What has been written to the buffer of a node is there as long as the buffer is live. -/
theorem Orderly.contents_next (hs : s.Orderly True) (c : Command α) {n : Node α}
    (hn : .node n ∈ s.objects.holders) {place : Place} (hplace : place.buffer = n.buffer)
    {xs : List α} (hxs : s.pool.contents? place = some xs)
    (hlive : (s.next c).pool.isLive n.buffer) : (s.next c).pool.contents? place = some xs := by
  obtain ⟨log, hchanges⟩ := hs.changes_next (c := c) (Or.inl trivial)
  have hprivate : s.estate.IsPrivate place.buffer := by
    intro l hl hb
    cases hs.estate.tidy.eq_of_owned hl hn (hb.trans hplace)
  rcases hchanges.contents hs.estate.tidy hxs hprivate with hkept | hdead
  · exact hkept
  · exact absurd (hplace ▸ hlive) hdead

theorem Orderly.invertsFully_next (hs : s.Orderly True) (h : s.InvertsFully) (c : Command α) :
    (s.next c).InvertsFully := by
  intro d input epsilon hd hinverts
  have hs' : (s.next c).Orderly True := hs.next (Or.inl trivial)
  have hplaced' : (Node.compound d).Placed (s.next c).pool := hs'.estate.tidy.placed _ hd
  have horigin := hs.origin_next c hd
  generalize hd' : Node.compound d = n' at horigin
  cases horigin with
  | new h0 =>
    subst hd'
    exact Or.inl h0
  | @kept n _ hn hremains =>
    obtain ⟨l, rfl, hbuffer, hreleased⟩ := hremains
    cases n with
    | operation o => cases hd'
    | compound c₀ =>
      cases hd'
      have hsteps : c₀.Inverts input epsilon := by
        have hbuffer' : l.buffer = c₀.buffer := hbuffer
        show c₀.steps = inverseSteps c₀.buffer input epsilon
        rw [← hbuffer']
        exact hinverts
      refine (h c₀ input epsilon hn hsteps).of_contents rfl hbuffer hreleased
        fun hr place hplace xs hxs => hs.contents_next c hn hplace hxs ?_
      have hlive := not_not.1 (mt hplaced'.released_iff.2 (Bool.eq_false_iff.1 hr))
      exact hbuffer ▸ hlive
  | @evaluated n u hn hp hplaced hbefore hafter =>
    cases n with
    | operation o => cases hd'
    | compound c₀ =>
      cases hd'
      have hinverts₀ : c₀.Inverts input epsilon := (c₀.inverts_evaluate u input epsilon).1 hinverts
      have hu := (h c₀ input epsilon hn hinverts₀).of_store hbefore
      have hbuffer : (c₀.evaluate u).node.buffer = c₀.buffer :=
        congrArg Lease.buffer (c₀.lease_evaluate u)
      refine (hinverts₀.allOrNothing_evaluate hplaced hp hu).of_store ?_
      rw [hbuffer]
      exact hafter

theorem Orderly.invertsFully_run (hs : s.Orderly True) (h : s.InvertsFully)
    (cs : List (Command α)) : (s.run cs).InvertsFully := by
  induction cs generalizing s with
  | nil => exact h
  | cons c cs ih => exact ih (hs.next (Or.inl trivial)) (hs.invertsFully_next h c)

/-- What comes of an inversion inverts the same operand. -/
theorem Orderly.inverts_run (hs : s.Orderly True) (cs : List (Command α)) {c₀ c : Compound α}
    (hc₀ : .node (.compound c₀) ∈ s.objects.holders)
    (hc : .node (.compound c) ∈ (s.run cs).objects.holders) (hbuffer : c.buffer = c₀.buffer)
    {input : Operand α .matrix} {epsilon : α} (h : c₀.Inverts input epsilon) :
    c.Inverts input epsilon := by
  rcases hs.descends_run cs hc with ⟨h₀, hh₀, hbecomes⟩ | hnew
  · obtain rfl := hs.estate.tidy.eq_of_owned hh₀ hc₀ (hbecomes.owned.symm.trans hbuffer)
    have hsteps : c.steps = c₀.steps := (hbecomes.node _ rfl).1
    rw [Compound.Inverts, hsteps, hbuffer]
    exact h
  · have hissued : s.pool.Issued c₀.buffer := (hs.estate.tidy.placed _ hc₀).issued
    rw [← hbuffer] at hissued
    exact absurd hissued hnew

/-! ## Making inversions -/

theorem Orderly.inverts_of_make (hs : s.Orderly True) {name : String} {r : Reference α .matrix}
    {epsilon : α} {o : Outcome α}
    (ho : s.perform (.node (.make name (.inverse r epsilon))) = some o) :
    ∃ input c, s.resolve .matrix r = some input ∧ o.session.node? name = some (.compound c) ∧
      c.Inverts input epsilon := by
  obtain ⟨r', hr', ho⟩ := Option.bind_eq_some_iff.1 ho
  obtain ⟨input, hinput, rfl⟩ := Option.map_eq_some_iff.1 hr'
  have hissued : ∀ place, input.input? = some place → s.world.pool.Issued place.buffer := by
    intro place hplace
    have htrusts := hs.all_resolve hinput
    cases input with
    | literal v => cases hplace
    | handle g =>
      cases hplace
      exact Estate.Trusts.issued htrusts
  obtain ⟨c, w, hmake, -, hinverts, -⟩ :=
    Recipe.exists_makeInverse hs.estate.tidy.packed name epsilon hissued
  have hmade : (Recipe.inverse input epsilon).make s.world name = .ok (.compound c, w) :=
    bind_of_ok hmake
  simp only [hmade] at ho
  obtain ⟨objects, hobjects, ho⟩ := Option.bind_eq_some_iff.1 ho
  cases ho
  refine ⟨input, c, hinput, ?_, hinverts⟩
  rcases withNew_cases hobjects with ⟨h, -⟩ | ⟨_, h, -, rfl⟩
  · cases h
  · cases h
    simp only [change, node?, object?, Catalog.get?_insert, if_true]

end Session

/-- An evaluation that gives the quotient of the adjugate and the determinant, or says why there is
none and changes nothing. -/
structure Compound.InvertsOrFails (c : Compound α) (input : Operand α .matrix)
    (epsilon : α) (u : World α) : Prop where
  unresolved : ∀ s, input.resolve u.pool = .error s →
    (c.evaluate u).result = .error s ∧ (c.evaluate u).node = c ∧
      (c.evaluate u).world.pool = u.pool
  succeeds_iff : ∀ m, input.resolve u.pool = .ok (.matrix m) →
    ((c.evaluate u).result = .ok () ↔ Scalar.reaches m.determinant epsilon = true)
  inverse : ∀ m, input.resolve u.pool = .ok (.matrix m) →
    Scalar.reaches m.determinant epsilon = true →
    (c.evaluate u).node.isEvaluated = true ∧
      (c.evaluate u).world.pool.read (⟨c.buffer, c.handle.slot⟩ : Handle .matrix) =
        .ok (.matrix (m.adjugate.scale (Scalar.recip m.determinant)))
  singular : ∀ m, input.resolve u.pool = .ok (.matrix m) →
    Scalar.reaches m.determinant epsilon = false →
    (c.evaluate u).result = .error (.failure (.singular m.determinant epsilon)) ∧
      (c.evaluate u).node = c ∧ (c.evaluate u).world.pool = u.pool

theorem Compound.Inverts.invertsOrFails {c : Compound α} {input : Operand α .matrix}
    {epsilon : α} {u : World α} (h : c.Inverts input epsilon)
    (hc : (Node.compound c).Placed u.pool) (hp : u.pool.Packed) (hr : c.lease.released = false)
    (h0 : c.completed = 0) : c.InvertsOrFails input epsilon u := by
  refine ⟨fun s hs => ?_, fun m hm => ⟨fun hok => ?_, fun hreaches => ?_⟩,
    fun m hm hreaches => ?_, fun m hm hsingular => ?_⟩
  · obtain ⟨hnode, hpool, hresult⟩ := h.evaluate_of_error hc hp hr h0 hs
    exact ⟨hresult, hnode, hpool⟩
  · by_contra hreaches
    obtain ⟨-, -, hresult⟩ :=
      h.evaluate_of_singular hc hp hr h0 hm (Bool.eq_false_iff.2 hreaches)
    cases hresult.symm.trans hok
  · exact (h.evaluate_of_reaches hc hp hr h0 hm hreaches).2.1
  · obtain ⟨hnode, -, -, hread⟩ := h.evaluate_of_reaches hc hp hr h0 hm hreaches
    have hslot : c.handle.slot = 2 := congrArg Place.slot h.place_handle.2
    have h' := (c.inverts_evaluate u input epsilon).2 h
    refine ⟨h'.isEvaluated_iff.2 (congrArg Compound.completed hnode), ?_⟩
    rw [hslot]
    exact hread
  · obtain ⟨hnode, hpool, hresult⟩ := h.evaluate_of_singular hc hp hr h0 hm hsingular
    exact ⟨hresult, hnode, hpool⟩

variable [ToText α]

theorem inversions_are_all_or_nothing (cs : List (Command α)) {name : String}
    {r : Reference α .matrix} {epsilon : α} {o : Outcome α}
    (ho : (Session.empty.run cs).perform (.node (.make name (.inverse r epsilon))) = some o) :
    (∀ x y : Float32, (Scalar.reaches x y = true ↔ y ≤ x.abs) ∧ Scalar.recip x = 1 / x) ∧
    ∃ input c₀, (Session.empty.run cs).resolve .matrix r = some input ∧
      o.session.node? name = some (.compound c₀) ∧
      ∀ (cs' : List (Command α)) (c : Compound α),
        .node (.compound c) ∈ (o.session.run cs').objects.holders → c.buffer = c₀.buffer →
        (c.completed = 0 ∨ c.completed = 3) ∧
        (c.completed = 3 → c.lease.released = false → ∃ m : Mat4 α,
          Scalar.reaches m.determinant epsilon = true ∧
            (o.session.run cs').pool.HoldsInverse c.buffer m) ∧
        ∀ u, (o.session.run cs').Calls (.compound c) u → c.lease.released = false →
          c.isEvaluated = false → c.InvertsOrFails input epsilon u := by
  have hs := Session.orderly_run cs
  obtain ⟨input, c₀, hinput, hc₀, hinverts₀⟩ := hs.inverts_of_make ho
  have hs₁ : o.session.Orderly True := (hs.performs (Or.inl trivial) ho).orderly hs
  have hfully₁ : o.session.InvertsFully := by
    have hnext : (Session.empty.run cs).next (.node (.make name (.inverse r epsilon))) =
        o.session := by
      rw [Session.next, ho]
      rfl
    have hfully : (Session.empty.run cs).InvertsFully :=
      Session.orderly_empty.invertsFully_run Session.invertsFully_empty cs
    exact hnext ▸ hs.invertsFully_next hfully _
  refine ⟨fun x y => ⟨decide_eq_true_iff, rfl⟩, input, c₀, hinput, hc₀,
    fun cs' c hc hbuffer => ?_⟩
  have hmem₀ : .node (.compound c₀) ∈ o.session.objects.holders :=
    Catalog.mem_holders (Session.object?_of_node? hc₀) List.mem_cons_self
  have hinverts := hs₁.inverts_run cs' hmem₀ hc hbuffer hinverts₀
  have hall := hs₁.invertsFully_run hfully₁ cs' c input epsilon hc hinverts
  refine ⟨hall.imp_right And.left, fun h3 hr => ?_, fun u hu hr he => ?_⟩
  · rcases hall with h0 | ⟨-, hslots⟩
    · cases h0.symm.trans h3
    · obtain ⟨m, hreaches, hinverse⟩ := hslots hr
      exact ⟨m, hreaches, hinverse⟩
  · obtain ⟨-, hplaced, hp⟩ := (hs₁.run cs').of_calls hu
    have h0 : c.completed = 0 := hall.resolve_right fun h3 =>
      Bool.false_ne_true (he.symm.trans (hinverts.isEvaluated_iff.2 h3.1))
    exact hinverts.invertsOrFails hplaced hp hr h0

/-- Allocates a buffer for a matrix and makes a handle to it. -/
def matrixOfUser : List (Command Float32) :=
  [.buffer (.allocate "user" [.matrix]), .buffer (.takeHandle "user" .matrix 0 "input")]

/-- Makes an inversion of that matrix. -/
def inversionOfUser : Command Float32 := .node (.make "inverse" (.inverse (.handle "input") 1))

/-- Evaluates the inversion, which is too early, and then writes the matrix. -/
def earlyInversion : List (Command Float32) :=
  [.node (.evaluate "inverse"), .buffer (.write "user" 0 .matrix (.matrix .identity))]

theorem earlyInversion_is_all_or_nothing : ∃ o c,
    (Session.empty.run matrixOfUser).perform inversionOfUser = some o ∧
    .node (.compound c) ∈ o.session.objects.holders ∧
    .node (.compound c) ∈ (o.session.run earlyInversion).objects.holders ∧
    (c.completed = 0 ∨ c.completed = 3) ∧ c.isEvaluated = false ∧
    (c.evaluate o.session.world).result = .error (.failure (.unevaluated ⟨⟨0⟩, 0⟩)) ∧
    ((c.evaluate (o.session.run earlyInversion).world).result = .ok () ↔
      1 ≤ (Mat4.identity : Mat4 Float32).determinant.abs) := by
  obtain ⟨o, ho⟩ : ∃ o, (Session.empty.run matrixOfUser).perform inversionOfUser = some o :=
    ⟨_, rfl⟩
  obtain ⟨hfloats, input, c₀, hinput, hc₀, hall⟩ := inversions_are_all_or_nothing matrixOfUser ho
  cases ho
  cases hinput
  cases hc₀
  obtain ⟨-, -, hearly⟩ := hall [] _ List.mem_cons_self rfl
  obtain ⟨hcompleted, -, hlate⟩ := hall earlyInversion _ List.mem_cons_self rfl
  have hfails := hearly _ (.node (show Session.node? _ "inverse" = _ from rfl)) rfl rfl
  have hdecides := hlate _ (.node (show Session.node? _ "inverse" = _ from rfl)) rfl rfl
  exact ⟨_, _, rfl, List.mem_cons_self, List.mem_cons_self, hcompleted, rfl,
    (hfails.unresolved _ rfl).1, (hdecides.succeeds_iff _ rfl).trans (hfloats _ _).1⟩

end DeferredMatrix
