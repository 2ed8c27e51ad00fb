import DeferredMatrix.Proofs.Graph.Dependencies
import DeferredMatrix.Proofs.Graph.Runs

/-!
# The order of a graph walk

The invariant of the walk is about its stack (`Walk.Ordered`): the nodes that have been entered
and not finished are those whose finishing is pending, each is read by the next one below it, and
what a pending node reads is finished, or comes before it, or reads the pending node in turn.

* `Walk.step_cases` : what a step does.
* `Walk.Ordered.pass`, `Walk.Ordered.enter`, `Walk.Ordered.finish` : each of these keeps the
  invariant.
* `Walk.Ordered.start`, `Walk.Ordered.root` : the invariant holds at the start, and of an empty
  stack once it has got the next root.
-/

namespace DeferredMatrix

variable {α : Type}

/-! ## Tasks on a stack -/

namespace Task

def place : Task → Nat
  | enter n | finish n => n

def finishing? : Task → Option Nat
  | enter _ => none
  | finish n => some n

/-- The places whose finishing is pending, the next one first. -/
def pending (ts : List Task) : List Nat := ts.filterMap finishing?

theorem mem_pending {ts : List Task} {n : Nat} : n ∈ pending ts ↔ finish n ∈ ts := by
  unfold pending
  rw [List.mem_filterMap]
  constructor
  · rintro ⟨t, ht, hn⟩
    cases t with
    | enter m => cases hn
    | finish m =>
      cases hn
      exact ht
  · exact fun h => ⟨_, h, rfl⟩

theorem pending_enter_append (ds : List Nat) (ts : List Task) :
    pending (ds.map enter ++ ts) = pending ts := by
  induction ds with
  | nil => rfl
  | cons d ds ih => exact ih

/-- Every task is for a place that the next pending node below it reads. -/
def Linked (reads : Nat → Nat → Prop) : List Task → Prop
  | [] => True
  | t :: ts => (∀ n, (pending ts).head? = some n → reads n t.place) ∧ Linked reads ts

variable {reads : Nat → Nat → Prop} {ts : List Task}

theorem Linked.of_append {above : List Task} (h : Linked reads (above ++ ts)) :
    Linked reads ts := by
  induction above with
  | nil => exact h
  | cons t above ih => exact ih h.2

/-- Pending nodes reach those above them. -/
theorem Linked.path {n m : Nat} (h : Linked reads (finish n :: ts)) (hm : finish m ∈ ts) :
    Relation.TransGen reads m n := by
  induction ts generalizing n with
  | nil => cases hm
  | cons t ts ih =>
    cases t with
    | enter d =>
      rcases List.mem_cons.1 hm with hm | hm
      · cases hm
      · exact ih ⟨h.1, h.2.2⟩ hm
    | finish k =>
      have hedge : reads k n := h.1 k rfl
      rcases List.mem_cons.1 hm with hm | hm
      · cases hm
        exact .single hedge
      · exact (ih h.2 hm).tail hedge

theorem Linked.path_of_mem {n m : Nat} (h : Linked reads (finish n :: ts))
    (hm : finish m ∈ finish n :: ts) : Relation.ReflTransGen reads m n := by
  rcases List.mem_cons.1 hm with hm | hm
  · cases hm
    exact .refl
  · exact (h.path hm).to_reflTransGen

theorem Linked.push {n : Nat} (h : Linked reads (finish n :: ts)) {ds : List Nat}
    (hds : ∀ d ∈ ds, reads n d) : Linked reads (ds.map enter ++ finish n :: ts) := by
  induction ds with
  | nil => exact h
  | cons d ds ih =>
    refine ⟨fun m hm => ?_, ih fun e he => hds e (List.mem_cons_of_mem _ he)⟩
    have hhead : (pending (ds.map enter ++ finish n :: ts)).head? = some m := hm
    rw [pending_enter_append] at hhead
    cases hhead
    exact hds d List.mem_cons_self

/-- A pending task below newly entered ones is the one that they are for, or lies deeper. -/
theorem split_push {ds : List Nat} {n k : Nat} {above below : List Task}
    (h : ds.map enter ++ finish n :: ts = above ++ finish k :: below) :
    above = ds.map enter ∧ k = n ∨
      ∃ above', above = ds.map enter ++ finish n :: above' ∧ ts = above' ++ finish k :: below := by
  rcases List.append_eq_append_iff.1 h with ⟨xs, hx, hy⟩ | ⟨xs, hx, hy⟩
  · cases xs with
    | nil =>
      cases hy
      exact Or.inl ⟨by simpa using hx, rfl⟩
    | cons x xs =>
      cases hy
      exact Or.inr ⟨xs, hx, rfl⟩
  · cases xs with
    | nil =>
      cases hy
      exact Or.inl ⟨by simpa using hx.symm, rfl⟩
    | cons x xs =>
      cases hy
      have hmem : finish k ∈ ds.map enter := hx ▸ List.mem_append_right _ List.mem_cons_self
      obtain ⟨d, -, hd⟩ := List.mem_map.1 hmem
      cases hd

end Task

/-! ## The kinds of steps -/

namespace Walk

variable {v : Walk α}

theorem mark_lt {n : Nat} {m : Mark} (h : v.mark n = m) (hm : m ≠ .finished) :
    n < v.marks.size := by
  by_contra hge
  rw [mark, Array.getElem?_eq_none (by omega)] at h
  exact hm h.symm

theorem mark_setMark {n : Nat} (hn : n < v.marks.size) (m : Mark) (k : Nat) :
    (v.setMark n m).mark k = if k = n then m else v.mark k := by
  unfold mark setMark
  simp only [Array.getElem?_setIfInBounds]
  by_cases hk : k = n
  · subst hk
    simp [hn]
  · rw [if_neg hk, if_neg (Ne.symm hk)]

/-- The dependencies that are put on the stack when a node is entered, from the top. -/
def entering (v : Walk α) (n : Nat) : List Nat :=
  ((v.dependenciesOf n).filter fun d => (v.setMark n .entered).mark d = .unseen).reverse

theorem tasks_enter (v : Walk α) (n : Nat) (rest : List Task) :
    (v.enter n rest).tasks = (v.entering n).map Task.enter ++ .finish n :: rest := rfl

/-- Entering a node is recorded and changes no buffer. -/
theorem pool_enter (v : Walk α) (n : Nat) (rest : List Task) :
    (v.enter n rest).world.pool = v.world.pool := by
  have hemit : ∀ (ds : List Nat) (w : World α),
      (ds.foldl (fun world d => world.emit (.edgeSkipped n d)) w).pool = w.pool := by
    intro ds
    induction ds with
    | nil => exact fun w => rfl
    | cons d ds ih => exact fun w => ih _
  exact hemit _ _

theorem mem_entering {n d : Nat} : d ∈ v.entering n ↔
    d ∈ v.dependenciesOf n ∧ (v.setMark n .entered).mark d = .unseen := by
  simp [entering]

variable [Scalar α]

theorem step_enter {n : Nat} {rest : List Task} (h : v.tasks = .enter n :: rest) :
    v.step = if v.mark n = .unseen then v.enter n rest else { v with tasks := rest } := by
  simp only [step, h]

theorem step_finish {n : Nat} {rest : List Task} (h : v.tasks = .finish n :: rest) :
    v.step = v.finish n rest := by
  simp only [step, h]

theorem attempt?_enter {n : Nat} {rest : List Task} (h : v.tasks = .enter n :: rest) :
    v.attempt? = none := by
  simp only [attempt?, h]

theorem attempt?_finish {n : Nat} {rest : List Task} (h : v.tasks = .finish n :: rest) :
    v.attempt? = (v.nodes[n]?).map fun x => ⟨n, (x.evaluate v.world).result⟩ := by
  simp only [attempt?, h]

theorem finish_of_some {n : Nat} {x : Node α} (h : v.nodes[n]? = some x) (rest : List Task) :
    v.finish n rest = v.record n (x.evaluate v.world) rest := by
  simp only [finish, h]

theorem finish_of_none {n : Nat} (h : v.nodes[n]? = none) (rest : List Task) :
    v.finish n rest = { v with tasks := rest } := by
  simp only [finish, h]

/-- A step passes over a place, enters it, or finishes it. -/
theorem step_cases (h : ¬ v.isOver) : v.stop = none ∧
    ((∃ n rest, v.tasks = .enter n :: rest ∧ v.mark n ≠ .unseen ∧
        v.step = { v with tasks := rest } ∧ v.attempt? = none) ∨
      (∃ n rest, v.tasks = .enter n :: rest ∧ v.mark n = .unseen ∧
        v.step = v.enter n rest ∧ v.attempt? = none) ∨
      ∃ n rest, v.tasks = .finish n :: rest ∧ v.step = v.finish n rest ∧
        v.attempt? = (v.nodes[n]?).map fun x => ⟨n, (x.evaluate v.world).result⟩) := by
  have hstop : v.stop = none := by
    cases hs : v.stop with
    | none => rfl
    | some s => simp [isOver, hs] at h
  refine ⟨hstop, ?_⟩
  have htasks := tasks_ne_nil h
  cases ht : v.tasks with
  | nil => exact absurd ht htasks
  | cons t rest =>
    cases t with
    | enter n =>
      have hattempt := attempt?_enter ht
      by_cases hm : v.mark n = .unseen
      · exact Or.inr (Or.inl ⟨n, rest, rfl, hm, by rw [step_enter ht, if_pos hm], hattempt⟩)
      · exact Or.inl ⟨n, rest, rfl, hm, by rw [step_enter ht, if_neg hm], hattempt⟩
    | finish n => exact Or.inr (Or.inr ⟨n, rest, rfl, step_finish ht, attempt?_finish ht⟩)

end Walk

/-! ## The invariant of the stack -/

section Ordered

variable {g : Graph α} {p : Pool α} {v : Walk α}

structure Walk.Ordered (v : Walk α) (g : Graph α) : Prop where
  marks : v.marks.size = g.nodes.size
  entered : ∀ n, v.mark n = .entered ↔ .finish n ∈ v.tasks
  nodup : (Task.pending v.tasks).Nodup
  linked : Task.Linked g.Reads v.tasks
  waits : ∀ above n below, v.tasks = above ++ .finish n :: below → ∀ m, g.Reads n m →
    v.mark m = .finished ∨ .enter m ∈ above ∨ .finish m ∈ above ∨
      Relation.ReflTransGen g.Reads m n

namespace Walk.Ordered

/-- A node that has been entered and is not above a pending node reaches it. -/
theorem path (hv : v.Ordered g) {above below : List Task} {n m : Nat}
    (htasks : v.tasks = above ++ .finish n :: below) (hm : v.mark m = .entered) :
    .finish m ∈ above ∨ Relation.ReflTransGen g.Reads m n := by
  have hmem := (hv.entered m).1 hm
  rw [htasks] at hmem
  rcases List.mem_append.1 hmem with hmem | hmem
  · exact Or.inl hmem
  · have hlinked := hv.linked
    rw [htasks] at hlinked
    exact Or.inr (hlinked.of_append.path_of_mem hmem)

theorem not_mem_of_nodup (hv : v.Ordered g) {n : Nat} {rest : List Task}
    (htasks : v.tasks = .finish n :: rest) : .finish n ∉ rest := by
  have hnodup := hv.nodup
  rw [htasks] at hnodup
  intro hmem
  exact (List.nodup_cons.1 hnodup).1 (Task.mem_pending.2 hmem)

/-- A place that is not unseen is passed over. -/
theorem pass (hv : v.Ordered g) {n : Nat} {rest : List Task}
    (htasks : v.tasks = .enter n :: rest) (hn : v.mark n ≠ .unseen) :
    Ordered { v with tasks := rest } g where
  marks := hv.marks
  entered := by
    intro k
    have hk := hv.entered k
    rw [htasks] at hk
    show v.mark k = .entered ↔ .finish k ∈ rest
    simpa using hk
  nodup := by
    have hnodup := hv.nodup
    rw [htasks] at hnodup
    exact hnodup
  linked := by
    have hlinked := hv.linked
    rw [htasks] at hlinked
    exact hlinked.2
  waits := by
    intro above k below hrest m hread
    have hsplit : v.tasks = (.enter n :: above) ++ .finish k :: below := by
      rw [htasks, List.cons_append, ← hrest]
    rcases hv.waits _ k below hsplit m hread with hm | hm | hm | hm
    · exact Or.inl hm
    · rcases List.mem_cons.1 hm with hm | hm
      · have hmn : m = n := by
          cases hm
          rfl
        rw [← hmn] at hn
        -- The dependency has been seen: it is finished, or pending above or below.
        cases hmark : v.mark m with
        | unseen => exact absurd hmark hn
        | finished => exact Or.inl hmark
        | entered =>
          rcases hv.path hsplit hmark with hm | hm
          · exact Or.inr (Or.inr (Or.inl (by simpa using hm)))
          · exact Or.inr (Or.inr (Or.inr hm))
      · exact Or.inr (Or.inl hm)
    · exact Or.inr (Or.inr (Or.inl (by simpa using hm)))
    · exact Or.inr (Or.inr (Or.inr hm))

/-- Entering a node puts the task of finishing it on the stack. -/
theorem entered_enter (hv : v.Ordered g) {n : Nat} {rest : List Task}
    (htasks : v.tasks = .enter n :: rest) (hn : v.mark n = .unseen) (k : Nat) :
    (v.enter n rest).mark k = .entered ↔ .finish k ∈ (v.enter n rest).tasks := by
  have hmark : (v.enter n rest).mark k = if k = n then .entered else v.mark k :=
    mark_setMark (mark_lt hn (by decide)) .entered k
  have hmem : .finish k ∈ (v.enter n rest).tasks ↔ k = n ∨ .finish k ∈ rest := by
    rw [tasks_enter]
    simp
  rw [hmark, hmem]
  by_cases hkn : k = n
  · simp [hkn]
  · have hk := hv.entered k
    rw [htasks] at hk
    simpa [hkn] using hk

theorem enter (hv : v.Ordered g) (hg : g.Placed p) (hk : v.Keeps g) {n : Nat} {rest : List Task}
    (htasks : v.tasks = .enter n :: rest) (hn : v.mark n = .unseen) :
    (v.enter n rest).Ordered g := by
  have hlt : n < v.marks.size := mark_lt hn (by decide)
  have hmark : ∀ k, (v.enter n rest).mark k = if k = n then .entered else v.mark k :=
    fun k => mark_setMark hlt .entered k
  have hnot : .finish n ∉ rest := by
    intro hmem
    have hentered := (hv.entered n).2 (htasks ▸ List.mem_cons_of_mem _ hmem)
    rw [hn] at hentered
    cases hentered
  have hlinked : Task.Linked g.Reads (.finish n :: rest) := by
    have hlinked := hv.linked
    rw [htasks] at hlinked
    exact ⟨hlinked.1, hlinked.2⟩
  refine ⟨?_, hv.entered_enter htasks hn, ?_, ?_, ?_⟩
  · exact Array.size_setIfInBounds.trans hv.marks
  · rw [tasks_enter, Task.pending_enter_append]
    have hnodup := hv.nodup
    rw [htasks] at hnodup
    exact List.nodup_cons.2 ⟨fun h => hnot (Task.mem_pending.1 h), hnodup⟩
  · rw [tasks_enter]
    refine hlinked.push fun d hd => ?_
    exact (mem_dependenciesOf hg hk).1 (mem_entering.1 hd).1
  · intro above k below hsplit m hread
    rw [tasks_enter] at hsplit
    rcases Task.split_push hsplit with ⟨rfl, rfl⟩ | ⟨above', rfl, hrest⟩
    · -- The node that has just been entered.
      have hm := (mem_dependenciesOf hg hk).2 hread
      cases hmm : (v.enter k rest).mark m with
      | finished => exact Or.inl rfl
      | unseen =>
        exact Or.inr (Or.inl (List.mem_map_of_mem (mem_entering.2 ⟨hm, hmm⟩)))
      | entered =>
        have hpending := (hv.entered_enter htasks hn m).1 hmm
        rw [tasks_enter] at hpending
        refine Or.inr (Or.inr (Or.inr (hlinked.path_of_mem ?_)))
        simpa using hpending
    · have hold : v.tasks = (.enter n :: above') ++ .finish k :: below := by
        rw [htasks, hrest, List.cons_append]
      rcases hv.waits _ k below hold m hread with hm | hm | hm | hm
      · left
        rw [hmark]
        by_cases hmn : m = n
        · rw [hmn, hn] at hm
          cases hm
        · rw [if_neg hmn, hm]
      · rcases List.mem_cons.1 hm with hm | hm
        · cases hm
          simp
        · simp [hm]
      · have hm' : Task.finish m ∈ above' := by simpa using hm
        simp [hm']
      · exact Or.inr (Or.inr (Or.inr hm))

/-- Finishing a node that has been evaluated. -/
theorem finish (hv : v.Ordered g) {n : Nat} {rest : List Task}
    (htasks : v.tasks = .finish n :: rest) {v' : Walk α}
    (hmarks : v'.marks = v.marks.setIfInBounds n .finished) (htasks' : v'.tasks = rest) :
    v'.Ordered g := by
  have hn : v.mark n = .entered := (hv.entered n).2 (htasks ▸ List.mem_cons_self)
  have hlt : n < v.marks.size := mark_lt hn (by decide)
  have hmark : ∀ k, v'.mark k = if k = n then .finished else v.mark k := by
    intro k
    rw [← mark_setMark hlt]
    unfold mark setMark
    rw [hmarks]
  have hnot := hv.not_mem_of_nodup htasks
  have hlinked := hv.linked
  have hnodup := hv.nodup
  rw [htasks] at hlinked hnodup
  refine ⟨?_, ?_, ?_, ?_, ?_⟩
  · rw [hmarks, Array.size_setIfInBounds, hv.marks]
  · intro k
    rw [hmark, htasks']
    by_cases hkn : k = n
    · simp [hkn, hnot]
    · have hk := hv.entered k
      rw [htasks] at hk
      simpa [hkn] using hk
  · rw [htasks']
    exact (List.nodup_cons.1 hnodup).2
  · rw [htasks']
    exact hlinked.2
  · intro above k below hsplit m hread
    rw [htasks'] at hsplit
    have hold : v.tasks = (.finish n :: above) ++ .finish k :: below := by
      rw [htasks, hsplit, List.cons_append]
    have hmn : m = n → v'.mark m = .finished := by
      rintro rfl
      rw [hmark, if_pos rfl]
    rcases hv.waits _ k below hold m hread with hm | hm | hm | hm
    · left
      rw [hmark, hm, ite_self]
    · exact Or.inr (Or.inl (by simpa using hm))
    · rcases List.mem_cons.1 hm with hm | hm
      · cases hm
        exact Or.inl (hmn rfl)
      · exact Or.inr (Or.inr (Or.inl hm))
    · exact Or.inr (Or.inr (Or.inr hm))

theorem start (g : Graph α) (w : World α) : (Walk.start g.nodes w).Ordered g where
  marks := Array.size_replicate
  entered := by
    intro n
    refine iff_of_false (fun hn => ?_) List.not_mem_nil
    have hlt : n < (Array.replicate g.nodes.size Mark.unseen).size := mark_lt hn (by decide)
    simp only [Array.size_replicate] at hlt
    simp [mark, Walk.start, hlt] at hn
  nodup := List.nodup_nil
  linked := trivial
  waits := by
    intro above n below hsplit
    simp [Walk.start] at hsplit

/-- Nothing is pending when a root is pushed. -/
theorem root (hv : v.Ordered g) (htasks : v.tasks = []) (n : Nat) :
    Ordered { v with tasks := [.enter n] } g where
  marks := hv.marks
  entered := by
    intro k
    have hk := hv.entered k
    rw [htasks] at hk
    show v.mark k = .entered ↔ .finish k ∈ [Task.enter n]
    simpa using hk
  nodup := List.nodup_nil
  linked := ⟨nofun, trivial⟩
  waits := by
    intro above k below hsplit
    have hmem : Task.finish k ∈ [Task.enter n] := by
      rw [show [Task.enter n] = _ from hsplit]
      simp
    simp at hmem

end Walk.Ordered

end Ordered

end DeferredMatrix
