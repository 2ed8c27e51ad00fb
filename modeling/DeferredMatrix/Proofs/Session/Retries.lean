import DeferredMatrix.Proofs.Session.Behind

/-!
# Failed attempts

Nodes and graphs may be evaluated at any time, with or without success. Once everything is there
that a graph needs, its evaluation succeeds and gives the same results as if nothing had been
attempted before, cycles or not.
-/

namespace DeferredMatrix

variable {α : Type} [Scalar α] {s t : Session α}

/-- Slots of users are not among those that steps compute. -/
theorem Session.Behind.place_ne (h : s.Behind t) {buffer : String} {l : Lease}
    (hl : s.buffer? buffer = some l) (slot : Nat) :
    ∀ d ∈ definitionsOf s.objects.holders, d.place ≠ ⟨l.buffer, slot⟩ := by
  intro d hd hplace
  obtain ⟨k, hk, step, hstep, rfl⟩ := exists_step_of_mem_definitionsOf hd
  have hmem : .buffer l ∈ s.objects.holders :=
    Catalog.mem_holders (Session.object?_of_buffer? hl) List.mem_cons_self
  obtain rfl := h.orderly.estate.tidy.eq_of_owned hk hmem (congrArg Place.buffer hplace)
  cases hstep

variable [ToText α]

namespace Session

/-- The command writes to a slot of a user that is not written. -/
def WritesFirst (s : Session α) : Command α → Prop
  | .buffer (.write buffer slot _ _) =>
    ∀ l, s.buffer? buffer = some l → s.pool.contents? ⟨l.buffer, slot⟩ = none
  | _ => False

/-- The commands evaluate nodes and graphs and write to slots of users for the first time. -/
def Prepares (s : Session α) : List (Command α) → Prop
  | [] => True
  | c :: cs => (c.evaluates ∨ s.WritesFirst c) ∧ (s.next c).Prepares cs

theorem next_write {buffer : String} {slot : Nat} {k : Kind} {v : Value α k} {l : Lease}
    (hl : s.buffer? buffer = some l) : s.next (.buffer (.write buffer slot k v)) =
      match s.pool.write ⟨l.buffer, slot⟩ v.slots with
      | .ok p => ⟨p, s.objects⟩
      | .error _ => s := by
  simp only [next, perform, performBuffer, hl, Option.bind_eq_bind, Option.bind_some]
  cases s.pool.write ⟨l.buffer, slot⟩ v.slots <;> rfl

theorem objects_next_of_writesFirst {c : Command α} (hc : s.WritesFirst c) :
    (s.next c).objects = s.objects := by
  unfold WritesFirst at hc
  split at hc
  · rename_i buffer slot k v
    cases hl : s.buffer? buffer with
    | none => simp [next, perform, performBuffer, hl]
    | some l =>
      rw [next_write hl]
      split <;> rfl
  · cases hc

namespace Behind

/-- Both sessions write to a slot for the first time. -/
theorem write (h : s.Behind t) {c : Command α} (hc : s.WritesFirst c) :
    (s.next c).Behind (t.next c) := by
  have hs := h.orderly.next (c := c) (Or.inl trivial)
  have ht := h.orderly_ahead.next (c := c) (Or.inl trivial)
  unfold WritesFirst at hc
  split at hc
  · rename_i buffer slot k v
    have hbuffer := h.buffer?_eq buffer
    cases hl : s.buffer? buffer with
    | none =>
      have hs' : s.next (.buffer (.write buffer slot k v)) = s := by
        simp [next, perform, performBuffer, hl]
      have ht' : t.next (.buffer (.write buffer slot k v)) = t := by
        simp [next, perform, performBuffer, hbuffer, hl]
      rwa [hs', ht']
    | some l =>
      rw [next_write hl] at hs ⊢
      rw [next_write (hbuffer.trans hl)] at ht ⊢
      have hpacked := h.orderly.estate.tidy.packed
      have hpacked' := h.orderly_ahead.estate.tidy.packed
      have hiff : (∃ p, s.pool.write ⟨l.buffer, slot⟩ v.slots = .ok p) ↔
          ∃ q, t.pool.write ⟨l.buffer, slot⟩ v.slots = .ok q :=
        h.pool.grows.exists_write hpacked hpacked'
      cases hp : s.pool.write ⟨l.buffer, slot⟩ v.slots with
      | error e =>
        cases hq : t.pool.write ⟨l.buffer, slot⟩ v.slots with
        | error e' => exact h
        | ok q =>
          obtain ⟨p, hp'⟩ := hiff.2 ⟨q, hq⟩
          cases hp.symm.trans hp'
      | ok p =>
        obtain ⟨q, hq⟩ := hiff.1 ⟨p, hp⟩
        rw [hp] at hs
        rw [hq] at ht ⊢
        exact ⟨hs, ht, h.objects,
          h.pool.write hpacked hpacked' hp hq (h.place_ne hl slot) (hc l hl)⟩
  · cases hc

/-- The session ahead evaluates things on its own. -/
theorem ahead_run (h : s.Behind t) (cs : List (Command α)) (hcs : ∀ c ∈ cs, c.evaluates) :
    s.Behind (t.run cs) := by
  induction cs generalizing t with
  | nil => exact h
  | cons c cs ih =>
    exact ih (h.ahead (hcs c List.mem_cons_self)) fun c hc => hcs c (List.mem_cons_of_mem _ hc)

theorem run (h : s.Behind t) (cs : List (Command α)) (hcs : s.Prepares cs) :
    (s.run cs).Behind (t.run cs) := by
  induction cs generalizing s t with
  | nil => exact h
  | cons c cs ih =>
    obtain ⟨hc | hc, hcs⟩ := hcs
    · exact ih (h.both hc) hcs
    · exact ih (h.write hc) hcs

end Behind

/-- Graphs keep their nodes. -/
theorem Orderly.exists_graph_run (hs : s.Orderly True) {name : String} {g : Graph α}
    (hg : s.graph? name = some g) (cs : List (Command α)) (hcs : s.Prepares cs) :
    ∃ v : Walk α, (s.run cs).graph? name = some ⟨v.nodes⟩ ∧ v.Keeps g := by
  induction cs generalizing s g with
  | nil => exact ⟨Walk.start g.nodes .empty, hg, g.keeps_start _⟩
  | cons c cs ih =>
    obtain ⟨hc, hcs⟩ := hcs
    have hnext : ∃ v : Walk α, (s.next c).graph? name = some ⟨v.nodes⟩ ∧ v.Keeps g := by
      rcases hc with hc | hc
      · rcases ((Behind.refl hs).ahead hc).graph?_cases name with ⟨hnone, -⟩ | ⟨g', v, hg', hv⟩
        · cases hg.symm.trans hnone
        · cases hg.symm.trans hg'
          exact ⟨v, hv⟩
      · refine ⟨Walk.start g.nodes .empty, ?_, g.keeps_start _⟩
        unfold graph? object? at hg ⊢
        rwa [objects_next_of_writesFirst hc]
    obtain ⟨v, hv, hgv⟩ := hnext
    obtain ⟨u, hu, hvu⟩ := ih (hs.next (Or.inl trivial)) hv hcs
    exact ⟨u, hu, hvu.trans hgv⟩

/-- The outcome of evaluating a graph. -/
theorem perform_evaluate {name : String} {g : Graph α} (hg : s.graph? name = some g) :
    s.perform (.graph (.evaluate name)) = some (change (g.evaluate s.world).world
      (s.objects.replace name (.graph (g.evaluate s.world).node))
      ((g.evaluate s.world).result.map fun () => .done)) := by
  simp [perform, performGraph, hg]

end Session

theorem failed_attempts_never_poison (cs : List (Command α)) {graph : String} {g : Graph α}
    (hg : (Session.empty.run cs).graph? graph = some g) {attempts preparations : List (Command α)}
    (hattempts : ∀ c ∈ attempts, c.evaluates)
    (hpreparations : (Session.empty.run cs).Prepares preparations)
    (hok : ((Session.empty.run (cs ++ preparations)).perform (.graph (.evaluate graph))).map
      Outcome.reply = some (.ok .done)) :
    ((Session.empty.run (cs ++ attempts ++ preparations)).perform (.graph (.evaluate graph))).map
      Outcome.reply = some (.ok .done) ∧
    ∀ n ∈ g.nodes,
      ((Session.empty.run (cs ++ attempts ++ preparations)).next
        (.graph (.evaluate graph))).pool.cells? n.buffer =
      ((Session.empty.run (cs ++ preparations)).next
        (.graph (.evaluate graph))).pool.cells? n.buffer := by
  have hs := Session.orderly_run cs
  have happend : ∀ as bs : List (Command α),
      Session.empty.run (as ++ bs) = (Session.empty.run as).run bs :=
    fun as bs => List.foldl_append
  rw [happend] at hok
  rw [happend, happend, happend]
  generalize Session.empty.run cs = s at hs hg hpreparations hok
  have hbehind := ((Session.Behind.refl hs).ahead_run attempts hattempts).run _ hpreparations
  obtain ⟨v, hv, hgv⟩ := hs.exists_graph_run hg _ hpreparations
  rcases hbehind.graph?_cases graph with ⟨hnone, -⟩ | ⟨g', u, hg', hu, hgu⟩
  · cases hv.symm.trans hnone
  cases hv.symm.trans hg'
  rw [Session.next, Session.next, Session.perform_evaluate hu, Session.perform_evaluate hv]
  rw [Session.perform_evaluate hv] at hok
  have hresult : (Graph.evaluate ⟨v.nodes⟩ ((s.run preparations).world)).result = .ok () := by
    cases hr : (Graph.evaluate ⟨v.nodes⟩ ((s.run preparations).world)).result with
    | ok _ => rfl
    | error e =>
      rw [hr] at hok
      cases hok
  obtain ⟨hok', hcells⟩ := hbehind.graph_ok hg' hu hgu hresult
  refine ⟨?_, fun n hn => ?_⟩
  · simp only [Session.change, Option.map_some, hok', Except.map]
  · obtain ⟨i, hi⟩ := Array.mem_iff_getElem?.1 hn
    obtain ⟨m, hm, hnm⟩ := hgv.exists_node hi
    rw [← hnm.buffer]
    exact hcells m (Array.mem_of_getElem? hm)

/-- Makes a graph with an operation that transposes a slot of a user. -/
def userTranspose : List (Command Float32) :=
  [.buffer (.allocate "user" [.matrix]), .buffer (.takeHandle "user" .matrix 0 "input"),
    .node (.operation "transpose" .matrix (.transpose (.handle "input"))),
    .graph (.create "g"), .graph (.push "g" "transpose" none)]

def userTransposeGraph : Graph Float32 :=
  ⟨#[.operation ⟨.transpose (.handle ⟨⟨0⟩, 0⟩), ⟨⟨1⟩, false⟩, false⟩]⟩

/-- Evaluates the graph twice, which fails because the slot is not written. -/
def earlyAttempts : List (Command Float32) := [.graph (.evaluate "g"), .graph (.evaluate "g")]

def userWrites : List (Command Float32) := [.buffer (.write "user" 0 .matrix (.initial .matrix))]

theorem earlyAttempts_do_not_poison_userTranspose :
    (Session.empty.run userTranspose).graph? "g" = some userTransposeGraph ∧
    ((Session.empty.run (userTranspose ++ userWrites)).perform (.graph (.evaluate "g"))).map
      Outcome.reply = some (.ok .done) ∧
    ((Session.empty.run (userTranspose ++ earlyAttempts ++ userWrites)).perform
      (.graph (.evaluate "g"))).map Outcome.reply = some (.ok .done) := by
  have hg : (Session.empty.run userTranspose).graph? "g" = some userTransposeGraph := rfl
  have hpreparations : (Session.empty.run userTranspose).Prepares userWrites := by
    refine ⟨Or.inr fun l hl => ?_, trivial⟩
    cases hl
    rfl
  have hg' : (Session.empty.run (userTranspose ++ userWrites)).graph? "g" =
      some userTransposeGraph := rfl
  -- The walk enters the one node and finishes it.
  have hstop :
      (userTransposeGraph.walk (Session.empty.run (userTranspose ++ userWrites)).world).stop =
        none := by
    show (Walk.run _).stop = none
    rw [Walk.run_of_not_isOver (by decide), Walk.run_of_not_isOver (by decide +kernel),
      Walk.run_of_isOver (by decide +kernel)]
    exact Option.isNone_iff_eq_none.1 (by decide +kernel)
  have hok : ((Session.empty.run (userTranspose ++ userWrites)).perform
      (.graph (.evaluate "g"))).map Outcome.reply = some (.ok .done) := by
    rw [Session.perform_evaluate hg']
    simp only [Session.change, Option.map_some, Graph.evaluate_result_eq_ok_iff.2 hstop, Except.map]
  exact ⟨hg, hok, (failed_attempts_never_poison userTranspose hg (by decide) hpreparations hok).1⟩

end DeferredMatrix
