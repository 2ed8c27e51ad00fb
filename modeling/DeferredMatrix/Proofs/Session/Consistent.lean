import DeferredMatrix.Proofs.Session.Catalog
import DeferredMatrix.Session.Command

/-!
# Consistent sessions

In a consistent session names stand for one object each, the holders among the objects form a
consistent estate with the pool, and handles hold values of their kind. In an orderly session
handles point to places that may be relied on; so it is even if handles to buffers are made freely.
`Session.Performs` is an outcome that changes lead to; it is orderly again.

* `Orderly.all_resolve` : references stand for operands that may be relied on.
* `Orderly.performs_new`, `performs_handle`, `performs_replace`, `performs_same`,
  `performs_erase` : the ways in which commands change the objects of a session.
-/

namespace DeferredMatrix

variable {α : Type}

/-! ## Consistent sessions -/

/-- Handles hold values of their kind. -/
def Catalog.HandlesHold (c : Catalog (Object α)) (p : Pool α) : Prop :=
  ∀ e ∈ c, ∀ (k : Kind) (h : Handle k), e.2 = .handle k h → p.Holds h.place k

/-- Handles have a property. -/
def Catalog.HandlesAll (c : Catalog (Object α)) (T : Place → Kind → Prop) : Prop :=
  ∀ e ∈ c, ∀ (k : Kind) (h : Handle k), e.2 = .handle k h → T h.place k

namespace Catalog.HandlesAll

variable {c : Catalog (Object α)} {T U : Place → Kind → Prop} {name : String} {x : Object α}

theorem imp (hc : c.HandlesAll T) (hTU : ∀ place k, T place k → U place k) : c.HandlesAll U :=
  fun e he k h hx => hTU _ _ (hc e he k h hx)

theorem insert (hc : c.HandlesAll T)
    (hx : ∀ (k : Kind) (h : Handle k), x = .handle k h → T h.place k) :
    (c.insert name x).HandlesAll T := by
  intro e he
  rcases List.mem_cons.1 he with rfl | he
  · exact hx
  · exact hc e he

theorem replace (hc : c.HandlesAll T)
    (hx : ∀ (k : Kind) (h : Handle k), x = .handle k h → T h.place k) :
    (c.replace name x).HandlesAll T := by
  intro e he
  rcases Catalog.mem_replace he with he | rfl
  · exact hc e he
  · exact hx

theorem erase (hc : c.HandlesAll T) : (c.erase name).HandlesAll T :=
  fun e he => hc e (Catalog.mem_erase he)

end Catalog.HandlesAll

namespace Session

def estate (s : Session α) : Estate α := ⟨s.world, s.objects.holders⟩

structure Consistent (s : Session α) : Prop where
  names : s.objects.names.Nodup
  estate : s.estate.Consistent
  handles : s.objects.HandlesHold s.pool

/-- As `Consistent`, except that handles to buffers may be made `free`ly. -/
structure Orderly (free : Prop) (s : Session α) : Prop where
  names : s.objects.names.Nodup
  estate : s.estate.Orderly free
  handles : s.objects.HandlesAll (s.estate.Trusts free)

theorem consistent_iff {s : Session α} : s.Consistent ↔ s.Orderly False := by
  constructor
  · intro hs
    exact ⟨hs.names, Estate.consistent_iff.1 hs.estate,
      fun e he k h hx => Or.inl (hs.handles e he k h hx)⟩
  · intro hs
    exact ⟨hs.names, Estate.consistent_iff.2 hs.estate,
      fun e he k h hx => Estate.trusts_false_iff.1 (hs.handles e he k h hx)⟩

end Session

def Outcome.estate (o : Outcome α) : Estate α :=
  ⟨⟨o.session.pool, o.events⟩, o.session.objects.holders⟩

/-- An outcome that changes lead to. -/
structure Session.Performs [Scalar α] (free : Prop) (s : Session α) (ph : Phase α)
    (o : Outcome α) : Prop where
  changes : Changes free ph s.estate o.estate
  names : o.session.objects.names.Nodup
  handles : o.session.objects.HandlesAll (o.estate.Trusts free)

namespace Session

variable {free : Prop} {s : Session α} {ph : Phase α} {o : Outcome α}

theorem Performs.orderly [Scalar α] (h : s.Performs free ph o) (hs : s.Orderly free) :
    o.session.Orderly free where
  names := h.names
  estate :=
    have ho := h.changes.orderly hs.estate
    ⟨⟨ho.tidy.packed, ho.tidy.distinct, ho.tidy.placed, ho.tidy.covered⟩, ho.trusted⟩
  handles := h.handles

theorem Orderly.performs_answer [Scalar α] (hs : s.Orderly free) (r : Reply α) :
    s.Performs free ph (s.answer r) :=
  ⟨.refl _, hs.names, hs.handles⟩

/-! ## Looking up -/

theorem object?_of_buffer? {name : String} {l : Lease} (h : s.buffer? name = some l) :
    s.object? name = some (.buffer l) := by
  unfold buffer? at h
  split at h
  · rename_i hx
    cases h
    exact hx
  · cases h

theorem object?_of_handle? {name : String} {k : Kind} {h' : Handle k}
    (h : s.handle? name = some ⟨k, h'⟩) : s.object? name = some (.handle k h') := by
  unfold handle? at h
  split at h
  · rename_i hx
    cases h
    exact hx
  · cases h

theorem object?_of_draft? {name : String} {d : Draft α} (h : s.draft? name = some d) :
    s.object? name = some (.draft d) := by
  unfold draft? at h
  split at h
  · rename_i hx
    cases h
    exact hx
  · cases h

theorem object?_of_node? {name : String} {n : Node α} (h : s.node? name = some n) :
    s.object? name = some (.node n) := by
  unfold node? at h
  split at h
  · rename_i hx
    cases h
    exact hx
  · cases h

theorem object?_of_graph? {name : String} {g : Graph α} (h : s.graph? name = some g) :
    s.object? name = some (.graph g) := by
  unfold graph? at h
  split at h
  · rename_i hx
    cases h
    exact hx
  · cases h

/-- The node that a name stands for after it has been evaluated. -/
theorem node?_replace {name : String} {n m : Node α} {p : Pool α}
    (hn : s.node? name = some n) :
    node? ⟨p, s.objects.replace name (.node m)⟩ name = some m := by
  have hx : s.objects.get? name = some (.node n) := object?_of_node? hn
  simp only [node?, object?, Catalog.get?_replace, if_true, hx, Option.map_some]

theorem graph?_replace {name : String} {g h : Graph α} {p : Pool α}
    (hg : s.graph? name = some g) :
    graph? ⟨p, s.objects.replace name (.graph h)⟩ name = some h := by
  have hx : s.objects.get? name = some (.graph g) := object?_of_graph? hg
  simp only [graph?, object?, Catalog.get?_replace, if_true, hx, Option.map_some]

namespace Orderly

variable (hs : s.Orderly free)

include hs

theorem node_placed {name : String} {n : Node α} (h : s.node? name = some n) :
    n.Placed s.pool :=
  hs.estate.tidy.placed (.node n) (Catalog.mem_holders (object?_of_node? h) List.mem_cons_self)

theorem trusts_handle {name : String} {k : Kind} {h' : Handle k}
    (h : s.handle? name = some ⟨k, h'⟩) : s.estate.Trusts free h'.place k :=
  hs.handles _ (Catalog.mem_of_get? (object?_of_handle? h)) k h' rfl

/-- What a reference stands for may be relied on. -/
theorem all_resolve {k : Kind} {r : Reference α k} {o : Operand α k}
    (h : s.resolve k r = some o) : o.All (s.estate.Trusts free) := by
  have hkind : ∀ {j : Kind} {g : Handle j} {g' : Handle k}, s.estate.Trusts free g.place j →
      ofKind k ⟨j, g⟩ = some g' → s.estate.Trusts free g'.place k := by
    intro j g g' hg hg'
    unfold ofKind at hg'
    simp only at hg'
    split at hg'
    · rename_i hjk
      cases hg'
      exact hjk ▸ hg
    · cases hg'
  cases r with
  | literal v =>
    cases h
    trivial
  | handle name =>
    obtain ⟨g', hg', rfl⟩ := Option.map_eq_some_iff.1 h
    obtain ⟨⟨j, g⟩, hg, hof⟩ := Option.bind_eq_some_iff.1 hg'
    exact hkind (hs.trusts_handle hg) hof
  | node name =>
    obtain ⟨n, hn, h⟩ := Option.bind_eq_some_iff.1 h
    obtain ⟨g', hg', rfl⟩ := Option.map_eq_some_iff.1 h
    exact hkind (Or.inl (hs.node_placed hn).holds_handle) hg'

end Orderly

end Session

/-! ## Replacing references by operands -/

section Traverse

variable {ρ : Kind → Type} {T : Place → Kind → Prop}
  {f : (k : Kind) → ρ k → Option (Operand α k)}
  (hf : ∀ (k : Kind) (r : ρ k) (o : Operand α k), f k r = some o → o.All T)

include hf

theorem Instruction.all_traverse {i : Instruction α ρ} {j : Instruction α (Operand α)}
    (h : i.traverse f = some j) : j.All T := by
  intro x hx
  cases i with
  | identity =>
    cases h
    cases hx
  | transpose r | adjugate r | determinant r =>
    obtain ⟨o, ho, h⟩ := Option.bind_eq_some_iff.1 h
    cases h
    obtain rfl := List.mem_singleton.1 hx
    exact hf _ _ _ ho
  | multiply l r | add l r | scale l r | transform l r | divide l r =>
    obtain ⟨o, ho, h⟩ := Option.bind_eq_some_iff.1 h
    obtain ⟨o', ho', h⟩ := Option.bind_eq_some_iff.1 h
    cases h
    simp only [Instruction.operands, List.mem_cons, List.not_mem_nil, or_false] at hx
    rcases hx with rfl | rfl
    · exact hf _ _ _ ho
    · exact hf _ _ _ ho'

theorem Recipe.all_traverse {r : Recipe α ρ} {r' : Recipe α (Operand α)}
    (h : r.traverse f = some r') : r'.All T := by
  cases r with
  | single i =>
    obtain ⟨j, hj, rfl⟩ := Option.map_eq_some_iff.1 h
    exact Instruction.all_traverse hf hj
  | inverse input epsilon =>
    obtain ⟨o, ho, rfl⟩ := Option.map_eq_some_iff.1 h
    exact hf _ _ _ ho

theorem Link.all_traverse {l : Link α ρ} {l' : Link α (Operand α)}
    (h : l.traverse f = some l') : l'.All T := by
  cases l with
  | transpose =>
    cases h
    trivial
  | scale r | multiply r | multiplyLeft r | add r =>
    obtain ⟨o, ho, rfl⟩ := Option.map_eq_some_iff.1 h
    exact hf _ _ _ ho

end Traverse

namespace Session

/-! ## Adding objects -/

variable {free : Prop} {s : Session α} {ph : Phase α} {o : Outcome α}

/-- A free name or none at all is what a new object needs. -/
theorem withNew_cases {name : Option String} {x : Object α} {objects : Catalog (Object α)}
    (h : s.withNew name x = some objects) : name = none ∧ objects = s.objects ∨
      ∃ n, name = some n ∧ s.object? n = none ∧ objects = s.objects.insert n x := by
  unfold withNew at h
  cases name with
  | none =>
    cases h
    exact Or.inl ⟨rfl, rfl⟩
  | some n =>
    simp only at h
    split at h
    · rename_i hfree
      cases h
      exact Or.inr ⟨n, rfl, Option.isNone_iff_eq_none.1 hfree, rfl⟩
    · cases h

theorem withNew_spec (hnames : s.objects.names.Nodup) {T : Place → Kind → Prop}
    (hhandles : s.objects.HandlesAll T) {name : Option String} {x : Object α}
    {objects : Catalog (Object α)} (h : s.withNew name x = some objects)
    (hx : ∀ (k : Kind) (h : Handle k), x = .handle k h → T h.place k) :
    objects.names.Nodup ∧ objects.HandlesAll T ∧
      ∀ other y, s.object? other = some y → objects.get? other = some y := by
  rcases withNew_cases h with ⟨rfl, rfl⟩ | ⟨n, rfl, hfree, rfl⟩
  · exact ⟨hnames, hhandles, fun other y hy => hy⟩
  · refine ⟨List.nodup_cons.2 ⟨Catalog.not_mem_names hfree, hnames⟩, hhandles.insert hx,
      fun other y hy => ?_⟩
    rw [Catalog.get?_insert, if_neg]
    · exact hy
    · rintro rfl
      rw [hfree] at hy
      cases hy

/-- A new handle holds no lease. -/
theorem holders_withNew_handle {name : Option String} {k : Kind} {g : Handle k}
    {objects : Catalog (Object α)} (h : s.withNew name (.handle k g) = some objects) :
    objects.holders = s.objects.holders := by
  rcases withNew_cases h with ⟨-, rfl⟩ | ⟨n, -, -, rfl⟩
  · rfl
  · exact Catalog.holders_insert _ _ _

theorem holders_withNew_some {name : String} {x : Object α} {objects : Catalog (Object α)}
    (h : s.withNew (some name) x = some objects) :
    objects.holders = x.holders ++ s.objects.holders := by
  rcases withNew_cases h with ⟨h, -⟩ | ⟨n, -, -, rfl⟩
  · cases h
  · exact Catalog.holders_insert _ _ _

/-! ## Commands -/

namespace Orderly

variable [Scalar α] (hs : s.Orderly free) {name : String} {x y : Object α}
  {objects : Catalog (Object α)} {w : World α} {r : Reply α}

include hs

/-- A new object with its own holders, made by changes. -/
theorem performs_new (h : s.withNew name x = some objects)
    (hchanges : Changes free ph s.estate ⟨w, x.holders ++ s.objects.holders⟩)
    (hx : ∀ (k : Kind) (h : Handle k), x ≠ .handle k h) :
    s.Performs free ph (change w objects r) := by
  rw [← holders_withNew_some h] at hchanges
  obtain ⟨hnames, hhandles, -⟩ := withNew_spec hs.names
    (hs.handles.imp fun _ _ => hchanges.trusts hs.estate.tidy) h
    fun k h hxh => absurd hxh (hx k h)
  exact ⟨hchanges, hnames, hhandles⟩

/-- A new handle to a place that may be relied on. -/
theorem performs_handle {name : Option String} {k : Kind} {g : Handle k}
    (h : s.withNew name (.handle k g) = some objects) (hg : s.estate.Trusts free g.place k) :
    s.Performs free ph (change s.world objects r) := by
  obtain ⟨hnames, hhandles, -⟩ := withNew_spec hs.names hs.handles h fun j g' hx => by
    cases hx
    exact hg
  have hestate : (⟨s.world, objects.holders⟩ : Estate α) = s.estate := by
    rw [holders_withNew_handle h]
    rfl
  refine ⟨?_, hnames, ?_⟩
  · exact (show Changes free ph s.estate ⟨s.world, objects.holders⟩ from hestate ▸ .refl _)
  · exact (show objects.HandlesAll (Estate.Trusts free ⟨s.world, objects.holders⟩) from
      hestate ▸ hhandles)

/-- What an object holds changes, and the object with it. Handles to slots may have been added
before. -/
theorem performs_replace_in (hnames : objects.names.Nodup)
    (hholders : objects.holders = s.objects.holders)
    (hhandles : objects.HandlesAll fun place k =>
      s.estate.Trusts free place k ∨ w.pool.Holds place k)
    (hx : objects.get? name = some x)
    (hchanges : ∀ hs, Changes free ph s.estate ⟨s.world, x.holders ++ hs⟩ →
      Changes free ph ⟨s.world, x.holders ++ hs⟩ ⟨w, y.holders ++ hs⟩)
    (hy : ∀ (k : Kind) (h : Handle k), y ≠ .handle k h) :
    s.Performs free ph (change w (objects.replace name y) r) := by
  obtain ⟨hs', hperm, hreplace, -⟩ := Catalog.exists_holders hnames hx
  have hfirst : Changes free ph s.estate ⟨s.world, x.holders ++ hs'⟩ := .perm (hholders ▸ hperm)
  have hall := (hfirst.trans (hchanges hs' hfirst)).trans (.perm (hreplace y).symm)
  refine ⟨hall, (Catalog.names_replace objects name y).symm ▸ hnames, ?_⟩
  have hkept : objects.HandlesAll (Estate.Trusts free ⟨w, (objects.replace name y).holders⟩) :=
    hhandles.imp fun _ _ h => h.elim (hall.trusts hs.estate.tidy) Or.inl
  exact hkept.replace fun k h hyh => absurd hyh (hy k h)

theorem performs_replace (hx : s.object? name = some x)
    (hchanges : ∀ hs, Changes free ph s.estate ⟨s.world, x.holders ++ hs⟩ →
      Changes free ph ⟨s.world, x.holders ++ hs⟩ ⟨w, y.holders ++ hs⟩)
    (hy : ∀ (k : Kind) (h : Handle k), y ≠ .handle k h) :
    s.Performs free ph (change w (s.objects.replace name y) r) :=
  hs.performs_replace_in hs.names rfl (hs.handles.imp fun _ _ => Or.inl) hx hchanges hy

/-- What an object holds changes, and the object stays as it is. -/
theorem performs_same (hx : s.object? name = some x)
    (hchanges : ∀ hs, Changes free ph s.estate ⟨s.world, x.holders ++ hs⟩ →
      Changes free ph ⟨s.world, x.holders ++ hs⟩ ⟨w, x.holders ++ hs⟩) :
    s.Performs free ph (change w s.objects r) := by
  obtain ⟨hs', hperm, -, -⟩ := Catalog.exists_holders hs.names hx
  have hfirst : Changes free ph s.estate ⟨s.world, x.holders ++ hs'⟩ := .perm hperm
  have hall := (hfirst.trans (hchanges hs' hfirst)).trans (.perm hperm.symm)
  exact ⟨hall, hs.names, hs.handles.imp fun _ _ => hall.trusts hs.estate.tidy⟩

/-- What an object holds goes, and the object with it. -/
theorem performs_erase (hx : s.object? name = some x)
    (hchanges : ∀ hs, Changes free ph s.estate ⟨s.world, x.holders ++ hs⟩ →
      Changes free ph ⟨s.world, x.holders ++ hs⟩ ⟨w, hs⟩) :
    s.Performs free ph (change w (s.objects.erase name) r) := by
  obtain ⟨hs', hperm, -, herase⟩ := Catalog.exists_holders hs.names hx
  have hfirst : Changes free ph s.estate ⟨s.world, x.holders ++ hs'⟩ := .perm hperm
  have hall := (hfirst.trans (hchanges hs' hfirst)).trans (.perm herase.symm)
  have hkept : s.objects.HandlesAll (Estate.Trusts free ⟨w, (s.objects.erase name).holders⟩) :=
    hs.handles.imp fun _ _ => hall.trusts hs.estate.tidy
  exact ⟨hall, hs.names.sublist (Catalog.names_erase s.objects name), hkept.erase⟩

end Orderly

end Session

end DeferredMatrix
