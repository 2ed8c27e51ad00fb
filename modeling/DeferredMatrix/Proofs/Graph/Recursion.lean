import DeferredMatrix.Proofs.Graph.Outcome
import Mathlib.Data.Finset.Card

/-!
# Graph walks as recursion

The walk with its stack of tasks does what a plain recursive walk does. The recursion takes the
places that it is given in turn. It marks a place that is unmarked, goes to the dependencies of its
node, the last one first, and then attempts the node. The first failure ends it.

The stack has the tasks of places that have been marked since they were pushed, and it lacks the
places that were marked before. Neither makes a difference to the recursion, which looks at a mark
when it comes to a place (`Walk.simulates`).

* `Descent.visit_eq` : the recursion.
* `graphs_are_walked_recursively` : every walk ends, and makes the attempts of the recursion.
-/

namespace DeferredMatrix

variable {α : Type}

/-! ## The recursion -/

/-- A recursive walk under way. The attempts are listed in order. -/
structure Descent (α : Type) where
  nodes : Array (Node α)
  world : World α
  unmarked : Finset Nat
  attempts : List (Tried α)
  stop : Option (Stop α)

namespace Descent

/-- The walk before its first root. -/
def start (nodes : Array (Node α)) (w : World α) : Descent α :=
  ⟨nodes, w, Finset.range nodes.size, [], none⟩

def mark (t : Descent α) (place : Nat) : Descent α :=
  { t with unmarked := t.unmarked.erase place }

/-- The places of the nodes whose results the node at a place reads, in order. -/
def dependenciesOf (t : Descent α) (place : Nat) : List Nat :=
  t.nodes[place]?.elim [] (dependencies t.nodes)

variable [Scalar α] {t : Descent α}

/-- Evaluates the node at a place, unless the walk has been stopped. -/
def attempt (t : Descent α) (place : Nat) : Descent α :=
  match t.stop, t.nodes[place]? with
  | none, some n =>
    let a := n.evaluate t.world
    { t with
      nodes := t.nodes.setIfInBounds place a.node
      world := a.world
      attempts := t.attempts ++ [⟨place, a.result⟩]
      stop :=
        match a.result with
        | .ok () => none
        | .error s => some s }
  | _, _ => t

theorem unmarked_attempt (t : Descent α) (place : Nat) :
    (t.attempt place).unmarked = t.unmarked := by
  unfold attempt
  split <;> rfl

/-- Visits one place after the other. Nothing is unmarked on the way, so that the places still to be
marked become fewer with each node that is entered. -/
def visitAll (t : Descent α) :
    (places : List Nat) → { t' : Descent α // t'.unmarked ⊆ t.unmarked }
  | [] => ⟨t, subset_rfl⟩
  | place :: places =>
    if h : t.stop = none ∧ place ∈ t.unmarked then
      let below := visitAll (t.mark place) (t.dependenciesOf place).reverse
      have hbelow : (below.1.attempt place).unmarked ⊆ t.unmarked.erase place :=
        (unmarked_attempt below.1 place).subset.trans below.2
      have : (below.1.attempt place).unmarked.card < t.unmarked.card :=
        (Finset.card_le_card hbelow).trans_lt (Finset.card_erase_lt_of_mem h.2)
      let rest := visitAll (below.1.attempt place) places
      ⟨rest.1, rest.2.trans (hbelow.trans (Finset.erase_subset _ _))⟩
    else visitAll t places
termination_by places => (t.unmarked.card, places.length)
decreasing_by
  · exact Prod.Lex.left _ _ (Finset.card_erase_lt_of_mem h.2)
  · exact Prod.Lex.left _ _ this
  · exact Prod.Lex.right _ (Nat.lt_succ_self _)

/-- Visits a place. -/
def visit (t : Descent α) (place : Nat) : Descent α := (t.visitAll [place]).1

def result (t : Descent α) : Except (Stop α) Unit :=
  match t.stop with
  | none => .ok ()
  | some s => .error s

theorem visitAll_nil (t : Descent α) : (t.visitAll []).1 = t := by rw [visitAll]

theorem visitAll_of_unmarked {place : Nat} (h : t.stop = none ∧ place ∈ t.unmarked)
    (places : List Nat) : (t.visitAll (place :: places)).1 =
      ((((t.mark place).visitAll (t.dependenciesOf place).reverse).1.attempt place).visitAll
        places).1 := by
  rw [visitAll, dif_pos h]

theorem visitAll_of_marked {place : Nat} (h : ¬ (t.stop = none ∧ place ∈ t.unmarked))
    (places : List Nat) : (t.visitAll (place :: places)).1 = (t.visitAll places).1 := by
  rw [visitAll, dif_neg h]

theorem visitAll_cons (t : Descent α) (place : Nat) (places : List Nat) :
    (t.visitAll (place :: places)).1 = ((t.visit place).visitAll places).1 := by
  unfold visit
  by_cases h : t.stop = none ∧ place ∈ t.unmarked
  · rw [visitAll_of_unmarked h, visitAll_of_unmarked h, visitAll_nil]
  · rw [visitAll_of_marked h, visitAll_of_marked h, visitAll_nil]

theorem visitAll_eq_foldl (places : List Nat) : ∀ t : Descent α,
    (t.visitAll places).1 = places.foldl visit t := by
  induction places with
  | nil => exact visitAll_nil
  | cons place places ih =>
    intro t
    rw [visitAll_cons, ih, List.foldl_cons]

/-- A place that is unmarked is marked, then its dependencies are visited in reverse order, then
its node is attempted. -/
theorem visit_eq (t : Descent α) (place : Nat) : t.visit place =
    if t.stop = none ∧ place ∈ t.unmarked then
      ((t.dependenciesOf place).reverse.foldl visit (t.mark place)).attempt place
    else t := by
  unfold visit
  split
  · rename_i h
    rw [visitAll_of_unmarked h, visitAll_nil, visitAll_eq_foldl]
    rfl
  · rename_i h
    rw [visitAll_of_marked h, visitAll_nil]

theorem attempt_of_stop {s : Stop α} (h : t.stop = some s) (place : Nat) :
    t.attempt place = t := by
  simp only [attempt, h]

theorem attempt_of_none {place : Nat} (h : t.nodes[place]? = none) : t.attempt place = t := by
  cases hstop : t.stop <;> simp only [attempt, hstop, h]

theorem attempt_of_some {place : Nat} {n : Node α} (hstop : t.stop = none)
    (h : t.nodes[place]? = some n) : t.attempt place =
      { t with
        nodes := t.nodes.setIfInBounds place (n.evaluate t.world).node
        world := (n.evaluate t.world).world
        attempts := t.attempts ++ [⟨place, (n.evaluate t.world).result⟩]
        stop :=
          match (n.evaluate t.world).result with
          | .ok () => none
          | .error s => some s } := by
  simp only [attempt, hstop, h]

end Descent

variable [Scalar α]

/-- The recursive walk that visits every node of the graph in turn. -/
def Graph.descend (g : Graph α) (w : World α) : Descent α :=
  (List.range g.nodes.size).foldl Descent.visit (.start g.nodes w)

/-! ## Runs of the stack -/

namespace Walk

variable {v u : Walk α} {as : List (Tried α)}

/-- Steps of a run lead from the walk `v` to another one and make some attempts. -/
inductive Leads (v : Walk α) : List (Tried α) → Walk α → Prop
  | refl : Leads v [] v
  | step {as : List (Tried α)} {u : Walk α} (h : Leads v as u) (hover : ¬ u.isOver) :
      Leads v (as ++ u.attempt?.toList) u.step

namespace Leads

theorem single (hover : ¬ v.isOver) : v.Leads v.attempt?.toList v.step :=
  Leads.refl.step hover

theorem trans {x : Walk α} {bs : List (Tried α)} (h : v.Leads as u) (h' : u.Leads bs x) :
    v.Leads (as ++ bs) x := by
  induction h' with
  | refl =>
    rw [List.append_nil]
    exact h
  | step _ hover ih =>
    rw [← List.append_assoc]
    exact ih.step hover

theorem run (h : v.Leads as u) : v.run = u.run ∧ v.attempts = as ++ u.attempts := by
  induction h with
  | refl => exact ⟨rfl, rfl⟩
  | step _ hover ih =>
    obtain ⟨hrun, hattempts⟩ := ih
    rw [hrun, hattempts, run_of_not_isOver hover, attempts_of_not_isOver hover, List.append_assoc]
    exact ⟨rfl, rfl⟩

end Leads

/-- A run is finitely many steps, up to the first walk that is over. -/
theorem exists_iterate_eq_run (v : Walk α) :
    ∃ n, (∀ k < n, ¬ (step^[k] v).isOver) ∧ step^[n] v = v.run := by
  induction v using run.induct with
  | case1 v h => exact ⟨0, fun k hk => absurd hk k.not_lt_zero, (run_of_isOver h).symm⟩
  | case2 v h _ ih =>
    obtain ⟨n, hsteps, hrun⟩ := ih
    refine ⟨n + 1, fun k hk => ?_, ?_⟩
    · cases k with
      | zero => exact h
      | succ k =>
        rw [Function.iterate_succ_apply]
        exact hsteps k (Nat.lt_of_succ_lt_succ hk)
    · rw [Function.iterate_succ_apply, hrun, run_of_not_isOver h]

/-! ## The stack and the recursion -/

/-- The walk is where the recursion is. -/
structure Agrees (v : Walk α) (t : Descent α) : Prop where
  nodes : v.nodes = t.nodes
  pool : v.world.pool = t.world.pool
  unmarked : ∀ n, v.mark n = .unseen ↔ n ∈ t.unmarked
  stop : v.stop = t.stop

namespace Agrees

variable {t : Descent α} {n : Nat} {rest : List Task}

section States

omit [Scalar α]

theorem start (g : Graph α) (w : World α) :
    (Walk.start g.nodes w).Agrees (.start g.nodes w) where
  nodes := rfl
  pool := rfl
  unmarked := by
    intro n
    rw [Descent.start, Finset.mem_range]
    by_cases hn : n < g.nodes.size
    · simp [Walk.mark, Walk.start, hn]
    · simp [Walk.mark, Walk.start, hn]
  stop := rfl

theorem withTasks (h : v.Agrees t) (ts : List Task) : Agrees { v with tasks := ts } t :=
  ⟨h.nodes, h.pool, h.unmarked, h.stop⟩

theorem not_isOver (h : v.Agrees t) (hstop : t.stop = none) (htasks : v.tasks ≠ []) :
    ¬ v.isOver := by
  simp [isOver, h.stop, hstop, htasks]

theorem enter (h : v.Agrees t) (hn : v.mark n = .unseen) (rest : List Task) :
    (v.enter n rest).Agrees (t.mark n) where
  nodes := h.nodes
  pool := (v.pool_enter n rest).trans h.pool
  unmarked := by
    intro k
    have hmark : (v.enter n rest).mark k = if k = n then .entered else v.mark k :=
      mark_setMark (mark_lt hn (by decide)) .entered k
    rw [hmark, Descent.mark, Finset.mem_erase, ← h.unmarked k]
    by_cases hk : k = n
    · simp [hk]
    · simp [hk]
  stop := h.stop

/-- What is pushed are the dependencies that are unmarked, in the order of the recursion. -/
theorem entering_eq (h : v.Agrees t) (hn : v.mark n = .unseen) :
    v.entering n = (t.dependenciesOf n).reverse.filter (· ∈ (t.mark n).unmarked) := by
  have hunmarked := (h.enter hn []).unmarked
  have hdeps : v.dependenciesOf n = t.dependenciesOf n := by
    rw [Walk.dependenciesOf, Descent.dependenciesOf, h.nodes]
  rw [entering, hdeps, List.filter_reverse]
  refine congrArg List.reverse (List.filter_congr fun d _ => ?_)
  exact decide_eq_decide.2 (hunmarked d)

/-- Attempting a node that has been marked unmarks nothing. -/
theorem unmarked_record (h : v.Agrees t) (hn : n ∉ t.unmarked) (a : Attempt (Node α) α) (k : Nat) :
    (v.record n a rest).mark k = .unseen ↔ k ∈ t.unmarked := by
  rw [← h.unmarked k]
  cases hr : a.result with
  | error s =>
    unfold mark
    rw [(record_of_error hr).1]
  | ok u =>
    unfold mark
    rw [(record_of_ok hr).1, Array.getElem?_setIfInBounds]
    split
    · rename_i hk
      subst hk
      have hseen : v.mark n ≠ .unseen := fun hunseen => hn ((h.unmarked n).1 hunseen)
      unfold mark at hseen
      split
      · simp [hseen]
      · rename_i hlt
        simp [hlt]
    · rfl

end States

end Agrees

/-- Steps of the walk `v` do what leads the recursion from `t` to `t'`, and leave the tasks `rest`
unless they are stopped. -/
def Simulates (v : Walk α) (t t' : Descent α) (rest : List Task) : Prop :=
  ∃ as u, v.Leads as u ∧ u.Agrees t' ∧ t'.attempts = t.attempts ++ as ∧
    (t'.stop = none → u.tasks = rest)

theorem Simulates.bind {t t₁ t₂ : Descent α} {rest rest' : List Task} (h : v.Simulates t t₁ rest)
    (hnext : ∀ u : Walk α, u.Agrees t₁ → (t₁.stop = none → u.tasks = rest) →
      u.Simulates t₁ t₂ rest') : v.Simulates t t₂ rest' := by
  obtain ⟨as, u, hleads, hagrees, hattempts, hrest⟩ := h
  obtain ⟨bs, x, hleads', hagrees', hattempts', hrest'⟩ := hnext u hagrees hrest
  exact ⟨_, x, hleads.trans hleads', hagrees', by rw [hattempts', hattempts, List.append_assoc],
    hrest'⟩

namespace Agrees

variable {t : Descent α} {n : Nat} {rest : List Task}

/-- A task of entering attempts nothing. -/
theorem simulates_enter (h : v.Agrees t) (hstop : t.stop = none)
    (htasks : v.tasks = .enter n :: rest) {t' : Descent α} (hagrees : v.step.Agrees t')
    (hattempts : t'.attempts = t.attempts) : v.Simulates t t' v.step.tasks := by
  have hover := h.not_isOver hstop (htasks ▸ List.cons_ne_nil _ _)
  refine ⟨_, _, .single hover, hagrees, ?_, fun _ => rfl⟩
  rw [attempt?_enter htasks, hattempts, Option.toList_none, List.append_nil]

/-- The task of finishing a node is the attempt of the recursion. -/
theorem simulates_attempt (h : v.Agrees t) (hn : n ∉ t.unmarked)
    (htasks : t.stop = none → v.tasks = .finish n :: rest) :
    v.Simulates t (t.attempt n) rest := by
  cases hstop : t.stop with
  | some s =>
    rw [Descent.attempt_of_stop hstop]
    refine ⟨[], v, .refl, h, (List.append_nil _).symm, fun hnone => ?_⟩
    cases hstop.symm.trans hnone
  | none =>
    have htasks := htasks hstop
    have hover := h.not_isOver hstop (htasks ▸ List.cons_ne_nil _ _)
    refine ⟨_, _, .single hover, ?_⟩
    rw [step_finish htasks, attempt?_finish htasks]
    cases hx : t.nodes[n]? with
    | none =>
      have hx' : v.nodes[n]? = none := h.nodes ▸ hx
      rw [Descent.attempt_of_none hx, finish_of_none hx', hx']
      exact ⟨h.withTasks rest, (List.append_nil _).symm, fun _ => rfl⟩
    | some x =>
      have hx' : v.nodes[n]? = some x := h.nodes ▸ hx
      obtain ⟨hnode, hpool, hresult⟩ := x.evaluate_congr h.pool
      rw [finish_of_some hx', hx', Option.map_some, hresult, Descent.attempt_of_some hstop hx]
      refine ⟨⟨?_, hpool, h.unmarked_record hn _, ?_⟩, rfl, fun _ => rfl⟩
      · rw [record, h.nodes, hnode]
      · cases hr : (x.evaluate t.world).result with
        | ok u => exact (record_of_ok (hresult.trans hr)).2.trans (h.stop.trans hstop)
        | error s => exact (record_of_error (hresult.trans hr)).2

end Agrees

section Stack

omit [Scalar α]

/-- The tasks `rest` below those of entering the places that are in a set. -/
def stackOf (pushed : Finset Nat) (places : List Nat) (rest : List Task) : List Task :=
  (places.filter (· ∈ pushed)).map Task.enter ++ rest

variable {pushed : Finset Nat} {place : Nat}

theorem stackOf_cons_of_mem (h : place ∈ pushed) (places : List Nat) (rest : List Task) :
    stackOf pushed (place :: places) rest = .enter place :: stackOf pushed places rest := by
  rw [stackOf, List.filter_cons_of_pos (by simpa using h)]
  rfl

theorem stackOf_cons_of_notMem (h : place ∉ pushed) (places : List Nat) (rest : List Task) :
    stackOf pushed (place :: places) rest = stackOf pushed places rest := by
  rw [stackOf, List.filter_cons_of_neg (by simpa using h), stackOf]

end Stack

/-- What is on the stack may be any places that were unmarked when they were pushed. -/
theorem simulates (t : Descent α) (places : List Nat) : ∀ (v : Walk α) (pushed : Finset Nat)
    (rest : List Task), v.Agrees t → t.unmarked ⊆ pushed →
    (t.stop = none → v.tasks = stackOf pushed places rest) →
    v.Simulates t (t.visitAll places).1 rest := by
  induction t, places using Descent.visitAll.induct with
  | case1 t =>
    intro v pushed rest h _ htasks
    rw [Descent.visitAll_nil]
    exact ⟨[], v, .refl, h, (List.append_nil _).symm, htasks⟩
  | case2 t place places hplace below hbelow _ ihbelow _ ihrest =>
    intro v pushed rest h hpushed htasks
    rw [Descent.visitAll_of_unmarked hplace]
    have hunseen : v.mark place = .unseen := (h.unmarked place).2 hplace.2
    have htop := (htasks hplace.1).trans (stackOf_cons_of_mem (hpushed hplace.2) places rest)
    have hstep : v.step = v.enter place (stackOf pushed places rest) :=
      (step_enter htop).trans (if_pos hunseen)
    have hentered : v.step.Agrees (t.mark place) := hstep ▸ h.enter hunseen _
    -- The dependencies lie on top of the task of finishing the node, and that on top of the rest.
    have hstack : v.step.tasks = stackOf (t.mark place).unmarked (t.dependenciesOf place).reverse
        (.finish place :: stackOf pushed places rest) := by
      rw [hstep, tasks_enter, h.entering_eq hunseen]
      rfl
    refine (h.simulates_enter hplace.1 htop hentered rfl).bind fun v₀ hagrees₀ htasks₀ => ?_
    refine (ihbelow v₀ _ _ hagrees₀ subset_rfl fun hstop => (htasks₀ hstop).trans hstack).bind
      fun v₁ hagrees₁ htasks₁ => ?_
    have hmarked : place ∉ below.1.unmarked :=
      fun hmem => Finset.notMem_erase place _ (below.2 hmem)
    refine (hagrees₁.simulates_attempt hmarked htasks₁).bind fun v₂ hagrees₂ htasks₂ => ?_
    exact ihrest v₂ pushed rest hagrees₂
      (hbelow.trans ((Finset.erase_subset _ _).trans hpushed)) htasks₂
  | case3 t place places hplace ih =>
    intro v pushed rest h hpushed htasks
    rw [Descent.visitAll_of_marked hplace]
    cases hstop : t.stop with
    | some s =>
      refine ih v pushed rest h hpushed fun hnone => ?_
      cases hstop.symm.trans hnone
    | none =>
      have hmarked : place ∉ t.unmarked := fun hmem => hplace ⟨hstop, hmem⟩
      by_cases hmem : place ∈ pushed
      · -- The place has been marked since it was pushed.
        have htop := (htasks hstop).trans (stackOf_cons_of_mem hmem places rest)
        have hseen : v.mark place ≠ .unseen := fun hunseen => hmarked ((h.unmarked place).1 hunseen)
        have hstep : v.step = { v with tasks := stackOf pushed places rest } :=
          (step_enter htop).trans (if_neg hseen)
        refine (h.simulates_enter hstop htop (hstep ▸ h.withTasks _) rfl).bind
          fun v₀ hagrees₀ htasks₀ => ih v₀ pushed rest hagrees₀ hpushed fun hnone => ?_
        rw [htasks₀ hnone, hstep]
      · exact ih v pushed rest h hpushed fun _ =>
          (htasks hstop).trans (stackOf_cons_of_notMem hmem places rest)

/-! ## Roots -/

theorem Agrees.visit {t : Descent α} (h : v.Agrees t) (root : Nat) :
    (v.visit root).Agrees (t.visit root) ∧ (t.visit root).attempts = t.attempts ++
      if v.stop.isSome then [] else { v with tasks := [.enter root] }.attempts := by
  cases hstop : t.stop with
  | some s =>
    have hsome : v.stop.isSome := by rw [h.stop, hstop, Option.isSome_some]
    have hnot : ¬ (t.stop = none ∧ root ∈ t.unmarked) := by simp [hstop]
    rw [Walk.visit, if_pos hsome, if_pos hsome, Descent.visit_eq, if_neg hnot, List.append_nil]
    exact ⟨h, rfl⟩
  | none =>
    have hnone : ¬ v.stop.isSome := by simp [h.stop, hstop]
    rw [Walk.visit, if_neg hnone, if_neg hnone]
    have htasks : [.enter root] = stackOf (insert root t.unmarked) [root] [] :=
      (stackOf_cons_of_mem (Finset.mem_insert_self _ _) [] []).symm
    obtain ⟨as, u, hleads, hagrees, hattempts, hrest⟩ :=
      simulates t [root] _ (insert root t.unmarked) [] (h.withTasks [.enter root])
        (Finset.subset_insert _ _) fun _ => htasks
    have hover : u.isOver := by
      cases hend : (t.visitAll [root]).1.stop with
      | some s => simp [isOver, hagrees.stop, hend]
      | none => simp [isOver, hrest hend]
    obtain ⟨hrun, hall⟩ := hleads.run
    rw [run_of_isOver hover] at hrun
    rw [attempts_of_isOver hover, List.append_nil] at hall
    rw [hrun, hall]
    exact ⟨hagrees, hattempts⟩

theorem Agrees.roots (roots : List Nat) : ∀ (v : Walk α) (t : Descent α), v.Agrees t →
    (roots.foldl Walk.visit v).Agrees (roots.foldl Descent.visit t) ∧
      (roots.foldl Descent.visit t).attempts = t.attempts ++ v.attemptsFrom roots := by
  induction roots with
  | nil => exact fun v t h => ⟨h, (List.append_nil _).symm⟩
  | cons root roots ih =>
    intro v t h
    obtain ⟨hvisit, hattempts⟩ := h.visit root
    obtain ⟨hroots, hattempts'⟩ := ih _ _ hvisit
    refine ⟨hroots, ?_⟩
    rw [List.foldl_cons, hattempts', hattempts, attemptsFrom, List.append_assoc]

end Walk

theorem graphs_are_walked_recursively (g : Graph α) (w : World α) :
    (∀ v : Walk α, ∃ n, (∀ k < n, ¬ (Walk.step^[k] v).isOver) ∧ Walk.step^[n] v = v.run ∧
      v.run.isOver) ∧
    (∀ (t : Descent α) (place : Nat), t.visit place =
      if t.stop = none ∧ place ∈ t.unmarked then
        ((t.dependenciesOf place).reverse.foldl Descent.visit (t.mark place)).attempt place
      else t) ∧
    g.attempts w = (g.descend w).attempts ∧
    (g.evaluate w).result = (g.descend w).result ∧
    (g.evaluate w).node = ⟨(g.descend w).nodes⟩ ∧
    (g.evaluate w).world.pool = (g.descend w).world.pool := by
  obtain ⟨hagrees, hattempts⟩ :=
    Walk.Agrees.roots (List.range g.nodes.size) _ _ (Walk.Agrees.start g w)
  refine ⟨fun v => ?_, Descent.visit_eq, hattempts.symm, ?_, ?_, ?_⟩
  · obtain ⟨n, hsteps, hrun⟩ := v.exists_iterate_eq_run
    exact ⟨n, hsteps, hrun, v.isOver_run⟩
  · have hstop : (g.walk w).stop = (g.descend w).stop := hagrees.stop
    unfold Descent.result
    split
    · rename_i hnone
      exact Graph.evaluate_result_eq_ok_iff.2 (hstop.trans hnone)
    · rename_i s hsome
      exact Graph.evaluate_result_eq_error_iff.2 (hstop.trans hsome)
  · rw [g.evaluate_node, show (g.walk w).nodes = (g.descend w).nodes from hagrees.nodes]
  · exact (g.evaluate_pool w).trans hagrees.pool

end DeferredMatrix
