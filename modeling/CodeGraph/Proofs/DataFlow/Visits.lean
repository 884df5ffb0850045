import CodeGraph.Proofs.DataFlow.Converse
import CodeGraph.Proofs.DataFlow.Equations
import Mathlib

/-!
# How many visits the solver makes

A run that is given more visits than it needs stops when its worklist is empty.  So there is one
number of visits after which it is done, or there is none (`Problem.exists_done`).

*Reaching definitions.*  This number is at least the number of positions, since every position waits
at first.  It is at most that and, for each position that defines something, the number of edges.

*Acyclic methods.*  Positions are numbered in reverse post-order, with the parameters before and the
exit after the rest.  If control does not flow in a circle, then it flows from each position to
later ones only (`Built.lt_of_mem_succ`).  During the first sweep these are still waiting, so none
is put on the worklist again, whatever the facts are.
-/

namespace CodeGraph.DataFlow

variable {V : Type} [DecidableEq V]

/-! ## The end of a run -/

namespace State

variable {p : Problem V} {s : State V}

theorem run_of_nil (h : s.worklist = []) (limit : Nat) : s.run p limit = s := by
  cases limit with
  | zero => rfl
  | succ limit => rw [run, h]; rfl

theorem run_add (a b : Nat) (s : State V) : s.run p (a + b) = (s.run p a).run p b := by
  induction a generalizing s with
  | zero => rw [Nat.zero_add, run]
  | succ a ih =>
    rw [Nat.succ_add, run, run]
    split
    · next hdone => rw [run_of_nil (List.isEmpty_iff.mp hdone)]
    · exact ih _

/-- A run that is not done has made all the visits that it was given. -/
theorem iterations_run (limit : Nat) (s : State V)
    (h : ∀ k < limit, (s.run p k).worklist ≠ []) :
    (s.run p limit).iterations = s.iterations + limit := by
  induction limit generalizing s with
  | zero => rfl
  | succ limit ih =>
    cases hw : s.worklist with
    | nil => exact absurd hw (h 0 (Nat.succ_pos limit))
    | cons i w =>
      have hrun : ∀ k, s.run p (k + 1) = (s.visit p i w).run p k := by
        intro k
        rw [run, step, hw]
        rfl
      rw [hrun, ih, visit_iterations]
      · omega
      · intro k hk
        rw [← hrun]
        exact h (k + 1) (Nat.succ_lt_succ hk)

end State

/-- If the worklist runs empty, then there is a number of visits that it takes.  With fewer visits
the run is not done, and with more it comes to the same. -/
theorem Problem.exists_done {p : Problem V} {limit : Nat} (h : (p.run limit).worklist = []) :
    ∃ k ≤ limit, (∀ n, (p.run n).worklist = [] ↔ k ≤ n) ∧ (∀ n, k ≤ n → p.run n = p.run k) ∧
      (p.run k).iterations = k := by
  have hexists : ∃ k, (p.run k).worklist = [] := ⟨limit, h⟩
  have hdone := Nat.find_spec hexists
  have hstays : ∀ n, Nat.find hexists ≤ n → p.run n = p.run (Nat.find hexists) := by
    intro n hn
    obtain ⟨m, rfl⟩ := Nat.exists_eq_add_of_le hn
    rw [run, State.run_add]
    exact State.run_of_nil hdone m
  refine ⟨Nat.find hexists, Nat.find_min' hexists h, fun n => ⟨Nat.find_min' hexists, ?_⟩, hstays,
    ?_⟩
  · intro hn
    rw [hstays n hn]
    exact hdone
  · have hcount := State.iterations_run (p := p) (Nat.find hexists) (State.initial p)
      fun k hk => Nat.find_min hexists hk
    rw [run, hcount]
    exact Nat.zero_add _

theorem Problem.sweeping_run (p : Problem V) (limit : Nat) : (p.run limit).Sweeping p :=
  State.run_induction (fun _ _ _ hw h => h.visit hw) limit _ (State.sweeping_initial p)

theorem Problem.solve?_of_done {p : Problem V} {limit : Nat} (h : (p.run limit).worklist = []) :
    p.solve? limit = some (p.solution (p.run limit)) := by
  simp [solve?, h]

omit [DecidableEq V] in
theorem Problem.iterations_solution (p : Problem V) (s : State V) :
    (p.solution s).iterations = s.iterations := by
  unfold solution
  cases p.direction <;> rfl

/-! ## Reaching definitions -/

namespace ReachingDefs

open Finset (range)

theorem definitionCount_eq_card {r : ReachingDefs} (h : r.defines.size = r.graph.size) :
    r.definitionCount = {i ∈ range r.graph.size | (r.definedAt? i).isSome}.card := by
  rw [← length_definers, definers, h]
  simp [Finset.card_def, Multiset.range]

/-- However successors and predecessors are related, the worklist runs empty, and the number of
visits is between the number of positions and that number plus, for each position that defines a
variable, the number of all successors.  All neighbours are positions, so every visit finds the
facts that it asks for. -/
theorem visits_of_ofMethod {g : Graph} {method : NodeId} {r : ReachingDefs}
    (hr : ofMethod g method = .ok r) :
    (∀ i j, j ∈ r.graph.succ i ∨ j ∈ r.graph.pred i → j < r.graph.size) ∧
      (∀ limit, (r.problem.run limit).worklist = [] ↔ r.solve.iterations ≤ limit) ∧
      (∀ limit, r.solve.iterations ≤ limit → r.problem.solve? limit = some r.solve) ∧
      r.graph.size ≤ r.solve.iterations ∧
      r.solve.iterations ≤ r.graph.size +
        {i ∈ range r.graph.size | (r.definedAt? i).isSome}.card *
          ∑ i ∈ range r.graph.size, (r.graph.succ i).length := by
  obtain ⟨hfg, _, _⟩ := eq_of_ofMethod hr
  obtain ⟨l, hbuilt⟩ := FlowGraph.built_of_ofMethod hfg
  obtain ⟨k, hle, hdone, hstays, hk⟩ := Problem.exists_done (worklist_run_of_ofMethod hr)
  have hsolve : r.solve = r.problem.solution (r.problem.run k) := by
    rw [solve, hstays _ hle]
  have hiterations : r.solve.iterations = k := by
    rw [hsolve, Problem.iterations_solution, hk]
  rw [hiterations]
  refine ⟨?_, hdone, ?_, ?_, ?_⟩
  · rintro i j (hj | hj)
    · exact (hbuilt.lt_size_of_mem_succ hj).2
    · exact hbuilt.pred_lt_size hj
  · intro limit hlimit
    rw [Problem.solve?_of_done ((hdone limit).mpr hlimit), hstays limit hlimit, hsolve]
  · have hsweep := (r.problem.sweeping_run k).size_le_iterations ((hdone k).mpr le_rfl)
    rw [hk] at hsweep
    exact hsweep
  · rw [← definitionCount_eq_card (size_defines_of_ofMethod hr),
      ← edgeCount_eq_sum hbuilt.size_succTable]
    exact hle

/-- The call after the return statement is a successor of nothing, and its predecessor does not
announce it. -/
theorem lateCall_visits :
    ofMethod lateCall ⟨1⟩ = .ok lateCallDefs ∧ ¬ lateCallDefs.graph.Converse ∧
      7 ≤ lateCallDefs.solve.iterations ∧ lateCallDefs.solve.iterations ≤ 7 + 2 * 7 := by
  obtain ⟨_, _, _, hlower, hupper⟩ := visits_of_ofMethod ofMethod_lateCall
  refine ⟨ofMethod_lateCall, fun hconv => ?_, hlower, hupper.trans_eq ?_⟩
  · exact absurd ((hconv 3 4).mpr (by decide)) (by decide)
  · decide

end ReachingDefs

/-! ## Acyclic methods -/

namespace State

variable {p : Problem V} {s : State V} {i : Nat} {w : List Nat}

theorem foldl_enqueue_of_subset {is : List Nat} (h : ∀ i ∈ is, i ∈ w) :
    is.foldl enqueue w = w := by
  induction is with
  | nil => rfl
  | cons i is ih =>
    obtain ⟨hi, his⟩ := List.forall_mem_cons.mp h
    rw [List.foldl_cons, enqueue, if_pos hi]
    exact ih his

/-- The positions that were not visited yet wait in their order, and no others. -/
def FirstSweep (p : Problem V) (s : State V) : Prop :=
  s.worklist = List.range' s.iterations (p.graph.size - s.iterations)

omit [DecidableEq V] in
theorem firstSweep_initial (p : Problem V) : FirstSweep p (initial p) := by
  simp [FirstSweep, initial, List.range_eq_range']

/-- Where facts flow to later positions only, all dependents of a visited position wait already. -/
theorem FirstSweep.worklist_visit (h : FirstSweep p s)
    (hlater : ∀ i j, j ∈ p.dependents i → i < j ∧ j < p.graph.size) (hw : s.worklist = i :: w) :
    (s.visit p i w).worklist = w ∧ w = List.range' (s.iterations + 1)
      (p.graph.size - (s.iterations + 1)) := by
  rw [FirstSweep, hw] at h
  cases hk : p.graph.size - s.iterations with
  | zero => simp [hk] at h
  | succ k =>
    rw [hk, List.range'_succ] at h
    obtain ⟨rfl, rfl⟩ := List.cons.inj h
    refine ⟨?_, by rw [show p.graph.size - (s.iterations + 1) = k by omega]⟩
    by_cases hsame :
        p.transfer s.iterations ((s.refreshed p s.iterations).getD s.iterations p.empty) =
          s.output.getD s.iterations p.empty
    · exact visit_worklist_of_eq hsame
    · rw [visit_worklist_of_ne hsame]
      refine foldl_enqueue_of_subset fun j hj => ?_
      obtain ⟨hlt, hsize⟩ := hlater _ j hj
      rw [List.mem_range'_1]
      omega

theorem FirstSweep.visit (h : FirstSweep p s)
    (hlater : ∀ i j, j ∈ p.dependents i → i < j ∧ j < p.graph.size) (hw : s.worklist = i :: w) :
    FirstSweep p (s.visit p i w) := by
  obtain ⟨hsame, hrest⟩ := h.worklist_visit hlater hw
  rw [FirstSweep, hsame, visit_iterations]
  exact hrest

end State

/-- Where facts flow to later positions only, the first sweep is the last. -/
theorem Problem.worklist_run_size_eq_nil {p : Problem V}
    (hlater : ∀ i j, j ∈ p.dependents i → i < j ∧ j < p.graph.size) :
    (p.run p.graph.size).worklist = [] := by
  refine State.worklist_run_eq_nil (P := State.FirstSweep p) (μ := fun s => s.worklist.length)
    (fun _ _ _ hw h => h.visit hlater hw) ?_ _ _ (State.firstSweep_initial p) ?_
  · intro s i w hw h
    rw [(h.worklist_visit hlater hw).1, hw]
    exact Nat.lt_succ_self _
  · simp [State.initial]

namespace FlowGraph

/-- A method in which control does not flow in a circle, through parameters, or out of the exit. -/
structure FlowsOneWay (g : Graph) (method exit : NodeId) : Prop where
  nodup_params : (g.parametersOf method).Nodup
  untouched : ∀ x ∈ g.parametersOf method, ∀ y, ¬ g.FlowsTo x y ∧ ¬ g.FlowsTo y x
  acyclic : ∀ x, g.Reaches method x → ¬ Relation.TransGen g.FlowsTo x x
  ends : ∀ y, ¬ g.FlowsTo exit y

namespace Built

variable {g : Graph} {method : NodeId} {fg : FlowGraph} {l : Layout} {i j : Nat} {x y : NodeId}

/-- Control leaves the parameters as it leaves the method. -/
theorem flowsTo_of_mem_succ_paramCount (h : Built g method fg l) (hg : g.WellFormed)
    (hj : j ∈ fg.succ l.paramCount) : ∃ y, g.FlowsTo method y ∧ l.nodes[j]? = some y := by
  rcases Nat.eq_zero_or_pos l.paramCount with hzero | hpos
  · have hrow := h.successors_eq h.getElem?_entry
    rw [Layout.successors, l.role_zero] at hrow
    simp only [if_neg (Nat.not_lt.mpr hzero.le), h.graph_eq] at hrow
    rw [hzero, ← Except.ok.inj hrow, Layout.mem_positions h.nodup_layout] at hj
    obtain ⟨y, hy, hj⟩ := hj
    exact ⟨y, hg.mem_successors.mp hy, hj⟩
  · have hrow := h.successors_eq (List.getElem?_eq_getElem h.paramCount_lt)
    rw [Layout.successors, Layout.role_of_le hpos.ne' le_rfl] at hrow
    simp only [if_neg (show ¬ l.paramCount - 1 + 1 < l.paramCount by omega)] at hrow
    rw [← Except.ok.inj hrow, Layout.mem_positions h.nodup_layout] at hj
    obtain ⟨y, hy, hj⟩ := hj
    rw [Option.mem_toList, h.first_eq] at hy
    exact ⟨y, hg.mem_successors.mp (List.mem_of_find?_eq_some hy), hj⟩

section OneWay

variable (h : Built g method fg l) (hg : g.WellFormed) (hs : FlowsOneWay g method l.exit)

include h hg hs

/-- Control does not flow from a node of the table to one before it. -/
theorem pairwise_nodes : l.nodes.Pairwise fun x y => ¬ g.FlowsTo y x := by
  obtain ⟨slot, hslot⟩ := Graph.exists_slot_of_kind? h.isMethod
  have hreach : ∀ x ∈ g.reversePostOrder method, g.Reaches method x :=
    fun x => (hg.mem_reversePostOrder_iff hslot).mp
  have hbody : (g.reversePostOrder method).Pairwise fun x y => ¬ g.FlowsTo y x := by
    refine (hg.pairwise_reversePostOrder method).imp_of_mem fun {x y} _ hy hback hflow => ?_
    exact hs.acyclic y (hreach y hy) (Relation.TransGen.head' hflow (hback hflow))
  rw [h.nodes_eq hg hs.nodup_params, List.pairwise_cons, List.pairwise_append, List.pairwise_append]
  refine ⟨?_, ⟨?_, hbody.sublist List.filter_sublist, ?_⟩, List.pairwise_singleton _ _, ?_⟩
  · intro y hy hflow
    simp only [List.mem_append, List.mem_filter, List.mem_singleton] at hy
    rcases hy with (hparam | ⟨hmem, _⟩) | rfl
    · exact (hs.untouched y hparam method).1 hflow
    · exact hs.acyclic method .refl (Relation.TransGen.tail' (hreach y hmem) hflow)
    · exact hs.ends method hflow
  · exact List.pairwise_of_forall_mem_list fun x hx y _ => (hs.untouched x hx y).2
  · exact fun x hx y _ => (hs.untouched x hx y).2
  · intro x _ y hy
    rw [List.mem_singleton.mp hy]
    exact hs.ends x

/-- Control flows from each node of the table to later ones. -/
theorem lt_of_flowsTo (hx : l.nodes[i]? = some x) (hy : l.nodes[j]? = some y)
    (hflow : g.FlowsTo x y) : i < j := by
  obtain ⟨hi, rfl⟩ := List.getElem?_eq_some_iff.mp hx
  obtain ⟨hj, rfl⟩ := List.getElem?_eq_some_iff.mp hy
  rcases Nat.lt_trichotomy i j with hlt | rfl | hgt
  · exact hlt
  · -- a node that flows to itself is a circle, unless it is a parameter or the exit
    rcases (h.mem_nodes_iff hg hs.nodup_params).mp (List.getElem_mem hi) with
      heq | hparam | hreach | heq
    · rw [heq] at hflow
      exact absurd (.single hflow) (hs.acyclic method .refl)
    · exact absurd hflow (hs.untouched _ hparam _).1
    · exact absurd (.single hflow) (hs.acyclic _ hreach)
    · rw [heq] at hflow
      exact absurd hflow (hs.ends _)
  · exact absurd hflow (List.pairwise_iff_getElem.mp (h.pairwise_nodes hg hs) j i hj hi hgt)

/-- The first node of the body comes after the parameters. -/
theorem paramCount_lt_of_flowsTo (hy : l.nodes[j]? = some y) (hflow : g.FlowsTo method y) :
    l.paramCount < j := by
  have hpos := h.lt_of_flowsTo hg hs h.getElem?_entry hy hflow
  by_contra hle
  have hparam := (h.mem_parametersOf_iff hg hs.nodup_params hy).mpr ⟨hpos, Nat.not_lt.mp hle⟩
  exact (hs.untouched y hparam method).2 hflow

/-- From a return statement control flows to the exit, which is last. -/
theorem lt_of_role_ret (hx : l.nodes[i]? = some x) (hrole : l.role i x = .ret)
    (hj : l.nodes[j]? = some l.exit) : i < j := by
  obtain ⟨code, hkind⟩ := Layout.kind_of_role_ret hrole
  have hlast := h.node?_exit hg hs.nodup_params
  rw [h.node?_eq] at hlast
  obtain rfl := h.eq_of_getElem? hj hlast
  have hne : i ≠ fg.exit := by
    rintro rfl
    rw [hlast, Option.some.injEq] at hx
    rw [h.graph_eq, ← hx, Graph.kind?_of_methodReturn? h.exit_eq] at hkind
    cases hkind
  have hlt := (List.getElem?_eq_some_iff.mp hx).1
  rw [exit, h.size_eq] at hne ⊢
  omega

theorem lt_of_mem_succ (hj : j ∈ fg.succ i) : i < j := by
  rcases Nat.lt_trichotomy i l.paramCount with hi | rfl | hi
  · rw [(h.succ_of_lt i hi).2, List.mem_singleton] at hj
    omega
  · obtain ⟨y, hflow, hy⟩ := h.flowsTo_of_mem_succ_paramCount hg hj
    exact h.paramCount_lt_of_flowsTo hg hs hy hflow
  have hlength : i < l.nodes.length := h.size_eq ▸ (h.lt_size_of_mem_succ hj).1
  obtain ⟨x, hx⟩ : ∃ x, l.nodes[i]? = some x := ⟨_, List.getElem?_eq_getElem hlength⟩
  have hrow := h.successors_eq hx
  rw [Layout.successors] at hrow
  cases hrole : l.role i x with
  | entry => exact absurd hrole (Layout.role_ne_entry (by omega))
  | param k => exact absurd hrole (Layout.role_ne_param hi)
  | ret =>
    simp only [hrole] at hrow
    rw [← Except.ok.inj hrow, Layout.mem_positions h.nodup_layout] at hj
    obtain ⟨y, hy, hj⟩ := hj
    rw [List.mem_singleton.mp hy] at hj
    exact h.lt_of_role_ret hg hs hx hrole hj
  | statement | exit =>
    simp only [hrole, h.graph_eq] at hrow
    rw [← Except.ok.inj hrow, Layout.mem_positions h.nodup_layout] at hj
    obtain ⟨y, hflow, hy⟩ := hj
    exact h.lt_of_flowsTo hg hs hx hy (hg.mem_successors.mp hflow)
  | isolated =>
    simp only [hrole] at hrow
    rw [← Except.ok.inj hrow] at hj
    cases hj

end OneWay

end Built

end FlowGraph

/-- Of a forward problem over a method in which control flows one way, each position is visited
exactly once.  The transfer function, the meet and the given facts may be any. -/
theorem Problem.visits_of_flowsOneWay {g : Graph} {method exit : NodeId} {fg : FlowGraph}
    (hg : g.WellFormed) (hfg : FlowGraph.ofMethod g method = .ok fg)
    (hexit : g.methodReturn? method = some exit) (hs : FlowGraph.FlowsOneWay g method exit)
    (p : Problem V) (hgraph : p.graph = fg) (hforward : p.direction = .forward) :
    (∀ limit, (p.run limit).worklist = [] ↔ fg.size ≤ limit) ∧
      ∃ sol, (∀ limit, fg.size ≤ limit → p.solve? limit = some sol) ∧ sol.iterations = fg.size := by
  obtain ⟨l, hbuilt⟩ := FlowGraph.built_of_ofMethod hfg
  obtain rfl : l.exit = exit := Option.some.inj (hbuilt.exit_eq.symm.trans hexit)
  subst hgraph
  have hlater : ∀ i j, j ∈ p.dependents i → i < j ∧ j < p.graph.size := by
    intro i j hj
    rw [dependents, hforward] at hj
    exact ⟨hbuilt.lt_of_mem_succ hg hs hj, (hbuilt.lt_size_of_mem_succ hj).2⟩
  obtain ⟨k, hle, hdone, hstays, hk⟩ := exists_done (worklist_run_size_eq_nil hlater)
  have hge := (p.sweeping_run k).size_le_iterations ((hdone k).mpr le_rfl)
  obtain rfl : k = p.graph.size := by omega
  refine ⟨hdone, p.solution (p.run p.graph.size), fun limit hlimit => ?_, ?_⟩
  · rw [solve?_of_done ((hdone limit).mpr hlimit), hstays limit hlimit]
  · rw [iterations_solution, hk]

namespace FlowGraph

/-- A method with a parameter that returns early in one branch.  A loop of its own is not
reached. -/
def earlyReturn : List Operation :=
  [.addNode (.method "f" "f") {}, .addNode (.parameter "a" 0) {},
    .addNode (.controlStructure "if (a)") {}, .addNode (.ret "return a") {},
    .addNode (.call "g" "g()") {}, .addNode (.call "h" "h()") {}, .addNode .methodReturn {},
    .addNode (.call "k" "k()") {}, .addEdge ⟨1⟩ ⟨2⟩ ⟨.ast, {}⟩, .addEdge ⟨1⟩ ⟨7⟩ ⟨.ast, {}⟩,
    .addEdge ⟨1⟩ ⟨3⟩ ⟨.cfg, {}⟩, .addEdge ⟨3⟩ ⟨4⟩ ⟨.cfg, {}⟩, .addEdge ⟨3⟩ ⟨5⟩ ⟨.cfg, {}⟩,
    .addEdge ⟨3⟩ ⟨6⟩ ⟨.cfg, {}⟩, .addEdge ⟨5⟩ ⟨6⟩ ⟨.cfg, {}⟩, .addEdge ⟨4⟩ ⟨7⟩ ⟨.cfg, {}⟩,
    .addEdge ⟨6⟩ ⟨7⟩ ⟨.cfg, {}⟩, .addEdge ⟨8⟩ ⟨8⟩ ⟨.cfg, {}⟩]

def earlyReturnFlow : FlowGraph where
  method := ⟨1⟩
  nodes := #[⟨1⟩, ⟨2⟩, ⟨3⟩, ⟨5⟩, ⟨6⟩, ⟨4⟩, ⟨7⟩]
  paramCount := 1
  succTable := #[[1], [2], [5, 3, 4], [4], [6], [6], []]
  predTable := #[[], [0], [1], [2], [2, 3], [2], [5, 4]]

theorem wellFormed_earlyReturn : (Graph.built earlyReturn).WellFormed :=
  Graph.wellFormed_built _

theorem flowsOneWay_earlyReturn : FlowsOneWay (Graph.built earlyReturn) ⟨1⟩ ⟨7⟩ := by
  have hparams : (Graph.built earlyReturn).parametersOf ⟨1⟩ = [⟨2⟩] := by cbv
  have hlinks : ∀ l ∈ (Graph.built earlyReturn).allLinks, l.edge.kind = .cfg →
      (l.src = ⟨8⟩ ↔ l.dst = ⟨8⟩) ∧ (l.src.value < l.dst.value ∨ l.src = ⟨8⟩) ∧
        l.src ≠ ⟨2⟩ ∧ l.dst ≠ ⟨2⟩ ∧ l.src ≠ ⟨7⟩ := by decide +kernel
  refine ⟨?_, ?_, ?_, ?_⟩
  · rw [hparams]
    exact List.nodup_singleton _
  · intro x hx y
    rw [hparams, List.mem_singleton] at hx
    subst hx
    constructor
    · rintro ⟨l, hl, hsrc, _, hkind⟩
      exact (hlinks l hl hkind).2.2.1 hsrc
    · rintro ⟨l, hl, _, hdst, hkind⟩
      exact (hlinks l hl hkind).2.2.2.1 hdst
  · -- nodes that are reached flow to nodes with a larger identity
    intro x hreach hcircle
    have hx : x ≠ ⟨8⟩ := by
      clear hcircle
      induction hreach with
      | refl => decide
      | tail _ hflow ih =>
        obtain ⟨l, hl, rfl, rfl, hkind⟩ := hflow
        exact fun hdst => ih ((hlinks l hl hkind).1.mpr hdst)
    have hup : ∀ y, Relation.TransGen (Graph.built earlyReturn).FlowsTo x y →
        y ≠ ⟨8⟩ ∧ x.value < y.value := by
      intro y hy
      induction hy with
      | single hflow =>
        obtain ⟨l, hl, rfl, rfl, hkind⟩ := hflow
        obtain ⟨hsame, hlt, _⟩ := hlinks l hl hkind
        exact ⟨fun hdst => hx (hsame.mpr hdst), hlt.resolve_right hx⟩
      | tail _ hflow ih =>
        obtain ⟨l, hl, rfl, rfl, hkind⟩ := hflow
        obtain ⟨hsame, hlt, _⟩ := hlinks l hl hkind
        exact ⟨fun hdst => ih.1 (hsame.mpr hdst), UInt64.lt_trans ih.2 (hlt.resolve_right ih.1)⟩
    exact UInt64.lt_irrefl _ (hup x hcircle).2
  · rintro y ⟨l, hl, hsrc, _, hkind⟩
    exact (hlinks l hl hkind).2.2.2.2 hsrc

/-- A transfer function that is not monotone, and a meet that depends on the order. -/
def earlyReturnProblem : Problem Nat where
  graph := earlyReturnFlow
  direction := .forward
  empty := 0
  transfer i v := if v < 9 then v + i else 0
  meet a b := 2 * a + b
  initIn i := if i = 0 then some 5 else none

/-- Each of the seven positions is visited once. -/
theorem earlyReturn_visits :
    (Graph.built earlyReturn).WellFormed ∧
    ofMethod (Graph.built earlyReturn) ⟨1⟩ = .ok earlyReturnFlow ∧
    FlowsOneWay (Graph.built earlyReturn) ⟨1⟩ ⟨7⟩ ∧
    (earlyReturnProblem.run 6).worklist ≠ [] ∧
    ∃ sol, earlyReturnProblem.solve? 7 = some sol ∧ sol.iterations = 7 := by
  have hfg : ofMethod (Graph.built earlyReturn) ⟨1⟩ = .ok earlyReturnFlow := by cbv
  have hexit : (Graph.built earlyReturn).methodReturn? ⟨1⟩ = some ⟨7⟩ := by decide +kernel
  obtain ⟨hdone, sol, hsol, hcount⟩ :=
    Problem.visits_of_flowsOneWay wellFormed_earlyReturn hfg hexit flowsOneWay_earlyReturn
      earlyReturnProblem rfl rfl
  refine ⟨wellFormed_earlyReturn, hfg, flowsOneWay_earlyReturn, fun h => ?_, sol, hsol 7 le_rfl,
    hcount⟩
  exact absurd ((hdone 6).mp h) (by decide)

end FlowGraph

end CodeGraph.DataFlow
