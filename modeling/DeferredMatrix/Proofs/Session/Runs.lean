import DeferredMatrix.Graph.Chain
import DeferredMatrix.Node.Recipe
import DeferredMatrix.Proofs.Session.Computes

/-!
# Larger changes made of moves

Making a node from a recipe, building a chain and releasing a graph are sequences of moves. Other
holders, which may be any, keep their leases throughout.
-/

namespace DeferredMatrix

variable {α : Type} [Scalar α] {ph : Phase α} {w w' : World α} {hs : List (Holder α)}

/-! ## Releasing graphs -/

omit [Scalar α] in
theorem perm_cons_middle (h : Holder α) (hs ks : List (Holder α)) :
    (h :: (hs ++ ks)).Perm (hs ++ h :: ks) :=
  List.perm_middle.symm

theorem moves_releaseNodes (ns : List (Node α)) : ∀ (acc : Array (Node α)) (w : World α)
    (hs : List (Holder α)), ∃ ms : List (Node α),
    let r := ns.foldl (fun (nodes, w) n =>
      let (n, w) := n.release w
      (nodes.push n, w)) (acc, w)
    r.1.toList = acc.toList ++ ms ∧
      Moves ph ⟨w, ns.map .node ++ hs⟩ ⟨r.2, ms.map .node ++ hs⟩ ∧
      Moves ph ⟨w, ns.map .node ++ hs⟩ ⟨r.2, hs⟩ := by
  induction ns with
  | nil => exact fun acc w hs => ⟨[], by simp, .refl _, .refl _⟩
  | cons n ns ih =>
    intro acc w hs
    have hfirst : Move ph ⟨w, .node n :: (ns.map .node ++ hs)⟩
        ⟨(n.release w).2, .node (n.release w).1 :: (ns.map .node ++ hs)⟩ :=
      .release (.node n) (fun d hd => by cases hd)
    have hgone : Move ph ⟨w, .node n :: (ns.map .node ++ hs)⟩
        ⟨(n.release w).2, ns.map .node ++ hs⟩ := .discard (.node n)
    obtain ⟨ms, hms, hkept, -⟩ :=
      ih (acc.push (n.release w).1) (n.release w).2 (.node (n.release w).1 :: hs)
    obtain ⟨-, -, -, hdropped⟩ := ih (acc.push (n.release w).1) (n.release w).2 hs
    refine ⟨(n.release w).1 :: ms, ?_, ?_, ?_⟩
    · simpa using hms
    · refine (Moves.single hfirst).trans ?_
      refine (Moves.single (.perm (perm_cons_middle _ _ _))).trans ?_
      exact hkept.trans (.single (.perm (perm_cons_middle _ _ _).symm))
    · exact (Moves.single hgone).trans hdropped

theorem Graph.moves_release (g : Graph α) (w : World α) (hs : List (Holder α)) :
    Moves ph ⟨w, nodeHolders g.nodes ++ hs⟩
      ⟨(g.release w).2, nodeHolders (g.release w).1.nodes ++ hs⟩ ∧
    Moves ph ⟨w, nodeHolders g.nodes ++ hs⟩ ⟨(g.release w).2, hs⟩ := by
  obtain ⟨ms, hms, hkept, hdropped⟩ := moves_releaseNodes g.nodes.toList #[] w hs
  simp only [Array.foldl_toList] at hms hkept hdropped
  unfold nodeHolders Graph.release
  refine ⟨?_, hdropped⟩
  rw [hms]
  exact hkept

/-! ## Making nodes -/

variable {free : Prop}

/-- What appending a step to a draft among other holders amounts to. -/
theorem Draft.changes_push {base : Pool α} {d d' : Draft α} {k : Kind}
    {i : Instruction α (Operand α)} {h : Handle k} (he : Estate.Tidy ⟨w, .draft d :: hs⟩)
    (hi : i.All (Estate.Trusts free ⟨w, .draft d :: hs⟩))
    (hreads : free ∨ ∀ place ∈ i.inputs, place.buffer = d.buffer ∨ ∃ k, base.Holds place k)
    (hd : d.push w k i = .ok (h, d', w')) :
    Changes free (.building base) ⟨w, .draft d :: hs⟩ ⟨w', .draft d' :: hs⟩ ∧
      w'.pool.Holds h.place k ∧ h.buffer = d.buffer ∧ d'.buffer = d.buffer := by
  obtain ⟨-, -, -, -, -, -, hholds⟩ :=
    Draft.push_spec hd (he.placed _ List.mem_cons_self) he.packed
  exact ⟨.single (.push hi hreads hd), hholds, Draft.buffer_push hd⟩

omit [Scalar α] in
/-- Operands that may be relied on are sound if handles are made with care. -/
theorem Estate.reads_of_all_trusts {e : Estate α} {i : Instruction α (Operand α)}
    (hi : i.All (e.Trusts free)) (b : BufferId) :
    free ∨ ∀ place ∈ i.inputs, place.buffer = b ∨ ∃ k, e.world.pool.Holds place k := by
  by_cases hfree : free
  · exact Or.inl hfree
  · refine Or.inr fun place hplace => Or.inr ?_
    obtain ⟨k, hk⟩ := hi.exists_of_mem hplace
    exact ⟨k, hk.resolve_right fun h => hfree h.1⟩

theorem Recipe.changes_makeInverse {label : String} {input : Operand α .matrix} {epsilon : α}
    {c : Compound α} (h : makeInverse w label input epsilon = .ok (c, w'))
    (he : Estate.Tidy ⟨w, hs⟩) (hinput : input.All (Estate.Trusts free ⟨w, hs⟩)) :
    Changes free (.building w.pool) ⟨w, hs⟩ ⟨w', .node (.compound c) :: hs⟩ := by
  unfold makeInverse at h
  obtain ⟨⟨det, d₁, w₁⟩, h₁, h⟩ := ok_of_bind h
  obtain ⟨⟨adj, d₂, w₂⟩, h₂, h⟩ := ok_of_bind h
  obtain ⟨⟨quotient, d₃, w₃⟩, h₃, h⟩ := ok_of_bind h
  simp only at h₁ h₂ h₃ h
  -- The first two steps read the one input, which was there before.
  have hall : ∀ {i : Instruction α (Operand α)}, i.operands = [("input", ⟨.matrix, input⟩)] →
      i.All (Estate.Trusts free ⟨w, hs⟩) := by
    intro i hi x hx
    rw [hi] at hx
    obtain rfl := List.mem_singleton.1 hx
    exact hinput
  have hcreate : Changes free (.building w.pool) ⟨w, hs⟩
      ⟨(Draft.create w label).2, .draft (Draft.create w label).1 :: hs⟩ :=
    .single (.move (.create label))
  obtain ⟨hpush₁, hdet, hdetbuffer, hd₁⟩ := Draft.changes_push (hcreate.tidy he)
    ((hall rfl).imp fun _ _ => hcreate.trusts he) (Estate.reads_of_all_trusts (hall rfl) _) h₁
  have hfirst := hcreate.trans hpush₁
  obtain ⟨hpush₂, hadj, hadjbuffer, hd₂⟩ := Draft.changes_push (hfirst.tidy he)
    ((hall rfl).imp fun _ _ => hfirst.trusts he) (Estate.reads_of_all_trusts (hall rfl) _) h₂
  have hsecond := hfirst.trans hpush₂
  -- The last one reads the slots of the others.
  have hquotient : (Instruction.divide (.handle adj) (.handle det) epsilon).All
      (Estate.Trusts free ⟨w₂, .draft d₂ :: hs⟩) := by
    intro x hx
    simp only [Instruction.operands, List.mem_cons, List.not_mem_nil, or_false] at hx
    rcases hx with rfl | rfl
    · exact Or.inl hadj
    · exact Or.inl (hdet.mono (hpush₂.extends_pool (hfirst.tidy he)))
  have hown : ∀ place ∈ (Instruction.divide (.handle adj) (.handle det) epsilon).inputs,
      place.buffer = d₂.buffer ∨ ∃ k, w.pool.Holds place k := by
    intro place hplace
    rcases List.mem_pair.1 hplace with rfl | rfl
    · exact Or.inl (hadjbuffer.trans hd₂.symm)
    · exact Or.inl (hdetbuffer.trans (hd₁.symm.trans hd₂.symm))
  obtain ⟨hpush₃, -⟩ := Draft.changes_push (hsecond.tidy he) hquotient (Or.inr hown) h₃
  split at h
  · rename_i c' w'' hfinish
    cases h
    exact (hsecond.trans hpush₃).trans (.single (.move (.finish hfinish)))
  · cases h

/-- All places that the operands of a recipe are read from have a property. -/
def Recipe.All (T : Place → Kind → Prop) : Recipe α (Operand α) → Prop
  | single i => i.All T
  | inverse input _ => input.All T

theorem Recipe.changes_make {label : String} {r : Recipe α (Operand α)} {n : Node α}
    (h : r.make w label = .ok (n, w')) (he : Estate.Tidy ⟨w, hs⟩)
    (hr : r.All (Estate.Trusts free ⟨w, hs⟩)) :
    Changes free (.building w.pool) ⟨w, hs⟩ ⟨w', .node n :: hs⟩ := by
  cases r with
  | single i =>
    cases h
    exact .single (.start label hr)
  | inverse input epsilon =>
    obtain ⟨⟨c, w''⟩, hmake, h⟩ := ok_of_bind h
    cases h
    exact changes_makeInverse hmake he hr

/-! ## Chains -/

/-- All places that the operands of a link are read from have a property. -/
def Link.All (T : Place → Kind → Prop) : Link α (Operand α) → Prop
  | transpose => True
  | scale factor => factor.All T
  | multiply m | multiplyLeft m | add m => m.All T

omit [Scalar α] in
theorem Link.All.imp {T U : Place → Kind → Prop} (hTU : ∀ place k, T place k → U place k)
    {l : Link α (Operand α)} (h : l.All T) : l.All U := by
  cases l with
  | transpose => trivial
  | scale o | multiply o | multiplyLeft o | add o => exact Operand.All.imp hTU h

omit [Scalar α] in
theorem Link.All.fill {T : Place → Kind → Prop} {l : Link α (Operand α)}
    {previous : Operand α .matrix} (h : l.All T) (hprevious : previous.All T) :
    (l.fill previous).All T := by
  intro x hx
  cases l with
  | transpose =>
    obtain rfl := List.mem_singleton.1 hx
    exact hprevious
  | scale o | multiply o | multiplyLeft o | add o =>
    simp only [Link.fill, Instruction.operands, List.mem_cons, List.not_mem_nil, or_false] at hx
    rcases hx with rfl | rfl <;> assumption

variable {base : Pool α}

/-- What has been built of a chain: its operations hold their leases, and the next one may take
the result of the last. -/
def Chain.Built (free : Prop) (base : Pool α) (w : World α) (hs : List (Holder α))
    (c : Chain α) : Prop :=
  Changes free (.building base) ⟨w, hs⟩ ⟨c.world, nodeHolders c.nodes ++ hs⟩ ∧
    c.next.All (Estate.Trusts free ⟨c.world, nodeHolders c.nodes ++ hs⟩)

theorem Chain.Built.extend {label : String} {link : Link α (Operand α)} {c : Chain α}
    (h : Built free base w hs c) (he : Estate.Tidy ⟨w, hs⟩)
    (hlink : link.All (Estate.Trusts free ⟨w, hs⟩)) :
    Built free base w hs (c.extend label link) := by
  obtain ⟨hchanges, hnext⟩ := h
  have hi : (link.fill c.next).All (Estate.Trusts free ⟨c.world, nodeHolders c.nodes ++ hs⟩) :=
    (hlink.imp fun _ _ => hchanges.trusts he).fill hnext
  have hstart : Changes free (.building base) ⟨c.world, nodeHolders c.nodes ++ hs⟩ _ :=
    .single (.start (label ++ "." ++ toString c.nodes.size) hi)
  have hperm : (nodeHolders (c.extend label link).nodes ++ hs).Perm
      (.node (.operation (Operation.start c.world (label ++ "." ++ toString c.nodes.size)
        (link.fill c.next)).1) :: (nodeHolders c.nodes ++ hs)) := by
    simp only [nodeHolders, Chain.extend, Array.toList_push, List.map_append, List.map_cons,
      List.map_nil, List.append_assoc, List.singleton_append]
    exact List.perm_middle
  refine ⟨hchanges.trans (hstart.trans (.perm hperm.symm)), Or.inl ?_⟩
  have hplaced := ((hchanges.trans hstart).tidy he).placed _ List.mem_cons_self
  have hholds : (c.extend label link).world.pool.Holds ⟨c.world.pool.fresh, 0⟩
      (link.fill c.next).output := Node.Placed.holds_handle hplaced
  rw [link.output_fill] at hholds
  exact hholds

theorem Chain.built_build {label : String} {link : Link α (Operand α)} {first : Operand α .matrix}
    (length : Nat) (he : Estate.Tidy ⟨w, hs⟩)
    (hlink : link.All (Estate.Trusts free ⟨w, hs⟩))
    (hfirst : first.All (Estate.Trusts free ⟨w, hs⟩)) :
    Built free base w hs (Chain.build w label link first length) := by
  unfold Chain.build
  induction length with
  | zero => exact ⟨.refl _, hfirst⟩
  | succ length ih =>
    rw [List.range_succ, List.foldl_append]
    exact ih.extend he hlink

end DeferredMatrix
