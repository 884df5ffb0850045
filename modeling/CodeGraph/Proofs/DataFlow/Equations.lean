import CodeGraph.MethodBuilder
import CodeGraph.Proofs.DataFlow.ReachingDefs
import CodeGraph.Proofs.Graph.Model
import Mathlib

/-!
# Where the equations of reaching definitions hold

The facts before a position are read off its predecessors.  When the facts after a position
change, its successors are visited again.  The two tables are made by different rules, so a
position `i` can have a predecessor `p` without being a successor of `p`.  Then `i` is not told when
the facts after `p` change, and it can be left with fewer facts than its predecessors have.

*What always holds.*  The facts after a position are made of the facts before it, and the facts
before it are after some predecessor (`Current`).

*Edges that are known at both ends.*  There nothing is missed (`Current.announced`).

*Edges out of the chain of parameters.*  The entry and the parameters come first in the sweep
over all positions, each after the one that it hangs on.  So their facts are what they will be
before any other position is visited (`Chained`).

*Other edges.*  They come from a return statement, which has no successor but the exit, or from a
parameter of another method, which has none at all (`Unannounced`).
-/

namespace CodeGraph.DataFlow

/-! ## Control flow and its tables -/

theorem mem_successors_iff {g : Graph} (hg : g.WellFormed) {x y : NodeId} :
    y ∈ g.successors x ↔ x ∈ g.predecessors y := by
  have hout := hg.reflects.outNeighbors x .cfg
  have hin := hg.reflects.inNeighbors y .cfg
  rw [Graph.successors, Graph.predecessors, hout, hin]
  simp only [List.mem_map, List.mem_filter, decide_eq_true_eq]
  constructor
  · rintro ⟨l, ⟨hl, hsrc, hkind⟩, hdst⟩
    exact ⟨l, ⟨hl, hdst, hkind⟩, hsrc⟩
  · rintro ⟨l, ⟨hl, hdst, hkind⟩, hsrc⟩
    exact ⟨l, ⟨hl, hsrc, hkind⟩, hdst⟩

namespace FlowGraph

variable {g : Graph} {method : NodeId} {fg : FlowGraph} {l : Layout} {i p : Nat}

/-- Past the parameters, a predecessor is the last parameter or one in the graph. -/
theorem Layout.mem_of_predecessors {node : NodeId} {js : List Nat} (hnodup : l.nodes.Nodup)
    (hi : l.paramCount < i) (hrow : l.predecessors i node = .ok js) (hp : p ∈ js) :
    p = l.paramCount ∨ ∃ x ∈ l.graph.predecessors node, l.nodes[p]? = some x := by
  have hcases : js = [] ∨ l.firstPredecessors node = .ok js ∨
      js = l.positions (l.graph.predecessors node) := by
    unfold predecessors at hrow
    cases hrole : l.role i node with
    | param k => exact absurd hrole (role_ne_param hi)
    | isolated =>
      rw [hrole] at hrow
      exact Or.inl (Except.ok.inj hrow).symm
    | entry | ret | statement | exit =>
      rw [hrole] at hrow
      dsimp only at hrow
      split at hrow
      · exact Or.inr (Or.inl hrow)
      · exact Or.inr (Or.inr (Except.ok.inj hrow).symm)
  rcases hcases with rfl | hfirst | rfl
  · cases hp
  · unfold firstPredecessors at hfirst
    split at hfirst
    · next last hlast =>
      obtain rfl := Except.ok.inj hfirst
      obtain ⟨x, hx, hxp⟩ := (mem_positions hnodup).mp hp
      obtain ⟨q, hq, rfl⟩ := List.mem_map.mp hx
      split at hxp
      · -- the method stands for the last parameter
        refine Or.inl ?_
        obtain ⟨_, hp'⟩ := List.getElem?_eq_some_iff.mp hxp
        obtain ⟨_, hlast'⟩ := List.getElem?_eq_some_iff.mp hlast
        exact (List.getElem_inj hnodup).mp (hp'.trans hlast'.symm)
      · exact Or.inr ⟨q, hq, hxp⟩
    · cases hfirst
  · obtain ⟨x, hx, hxp⟩ := (mem_positions hnodup).mp hp
    exact Or.inr ⟨x, hx, hxp⟩

namespace Built

/-- A predecessor that is past the parameters and does not know its successor is a return
statement or takes no part in control flow. -/
theorem role_of_not_mem_succ (h : Built g method fg l) (hg : g.WellFormed) (hi : i ≠ 0)
    (hp : p ∈ fg.pred i) (hlt : l.paramCount < p) (hsucc : i ∉ fg.succ p) :
    ∃ x, l.nodes[p]? = some x ∧ (l.role p x = .ret ∨ l.role p x = .isolated) := by
  have hsize : i < l.nodes.length := h.size_eq ▸ h.lt_size_of_mem_pred hp
  have hilt : l.paramCount < i := by
    by_contra hle
    obtain ⟨k, rfl⟩ : ∃ k, i = k + 1 := ⟨i - 1, by omega⟩
    rw [h.pred_of_lt (by omega), List.mem_singleton] at hp
    omega
  have hy := List.getElem?_eq_getElem hsize
  rcases Layout.mem_of_predecessors h.nodup_layout hilt (h.predecessors_eq hy) hp with
    rfl | ⟨x, hx, hxp⟩
  · omega
  refine ⟨x, hxp, ?_⟩
  rw [h.graph_eq] at hx
  have hrow := h.successors_eq hxp
  have hmem : i ∈ l.positions (g.successors x) :=
    (Layout.mem_positions h.nodup_layout).mpr ⟨_, (mem_successors_iff hg).mpr hx, hy⟩
  cases hrole : l.role p x with
  | entry => exact absurd hrole (Layout.role_ne_entry (by omega))
  | param k => exact absurd hrole (Layout.role_ne_param hlt)
  | ret => exact Or.inl rfl
  | isolated => exact Or.inr rfl
  | statement | exit =>
    rw [Layout.successors, hrole, h.graph_eq] at hrow
    exact absurd (Except.ok.inj hrow ▸ hmem) hsucc

theorem pred_of_isolated (h : Built g method fg l) {x : NodeId} (hx : l.nodes[p]? = some x)
    (hrole : l.role p x = .isolated) : fg.pred p = [] := by
  have hrow := h.predecessors_eq hx
  rw [Layout.predecessors, hrole] at hrow
  exact (Except.ok.inj hrow).symm

end Built

end FlowGraph

namespace ReachingDefs

variable {r : ReachingDefs} {s : State (FactSet Nat)} {i : Nat} {w : List Nat}

/-! ## What always holds -/

/-- What holds of the facts in every state, and of those at a position that is not waiting. -/
structure Current (r : ReachingDefs) (s : State (FactSet Nat)) : Prop where
  growing : Growing r s
  /-- The entry and a position without predecessors are given nothing. -/
  seeded : ∀ i, s.driven? r.problem i = none → s.input.getD i ∅ = ∅
  /-- The facts before a position come from its predecessors. -/
  within : ∀ i, ∀ d ∈ s.input.getD i ∅, ∃ p ∈ r.graph.pred i, d ∈ s.output.getD p ∅
  /-- The facts after a position are made of those before it. -/
  made : ∀ i < r.graph.size, i ∉ s.worklist →
    s.output.getD i ∅ = r.transfer i (s.input.getD i ∅)
  /-- Along an edge that is known at both ends nothing is missed. -/
  announced : ∀ i < r.graph.size, i ≠ r.graph.entry → i ∉ s.worklist →
    ∀ p ∈ r.graph.pred i, i ∈ r.graph.succ p → ∀ d ∈ s.output.getD p ∅, d ∈ s.input.getD i ∅

theorem current_initial (r : ReachingDefs) : Current r (State.initial r.problem) where
  growing := growing_initial r
  seeded := fun i _ => input_initial r i
  within := by
    intro i d hd
    rw [input_initial] at hd
    exact absurd hd (FactSet.not_mem_empty d)
  made := by
    intro i hi hw
    exact absurd (List.mem_range.mpr hi) hw
  announced := by
    intro i hi _ hw
    exact absurd (List.mem_range.mpr hi) hw

/-- A visit gives its position what is after the predecessors. -/
theorem mem_refreshed_iff (hi : i < s.input.size) (hentry : i ≠ r.graph.entry) {p : Nat}
    (hp : p ∈ r.graph.pred i) {d : Nat} :
    d ∈ (s.refreshed r.problem i).getD i ∅ ↔ ∃ q ∈ r.graph.pred i, d ∈ s.output.getD q ∅ := by
  rw [State.getD_refreshed_self hi]
  cases hdriven : s.driven? r.problem i with
  | none =>
    rcases State.driven?_eq_none_iff.mp hdriven with heq | hnil
    · exact absurd heq hentry
    · rw [show r.graph.pred i = [] from hnil] at hp
      cases hp
  | some facts => exact mem_of_driven? hdriven

theorem Current.visit (h : Current r s) (hw : s.worklist = i :: w) :
    Current r (s.visit r.problem i w) where
  growing := h.growing.visit
  seeded := by
    intro j hnone
    rw [State.driven?_eq_none_iff, ← State.driven?_eq_none_iff (s := s)] at hnone
    rw [State.getD_visit_input_of_none hnone]
    exact h.seeded j hnone
  within := by
    intro j d hd
    rw [State.visit_input] at hd
    have hbefore : ∃ p ∈ r.graph.pred j, d ∈ s.output.getD p ∅ := by
      rcases s.getD_refreshed_cases (p := r.problem) (i := i) j ∅ with hsame | ⟨rfl, hdriven⟩
      · rw [hsame] at hd
        exact h.within j d hd
      · exact (mem_of_driven? hdriven).mp hd
    obtain ⟨p, hp, hdp⟩ := hbefore
    exact ⟨p, hp, h.growing.output_subset p d hdp⟩
  made := State.made_visit (p := r.problem) h.growing.size_output hw h.made
  announced := by
    intro j hj hentry hwait p hp hsucc d hd
    -- had the facts after `p` changed, `j` would be waiting
    have hsame : (s.visit r.problem i w).output.getD p ∅ = s.output.getD p ∅ := by
      by_cases hnew : r.transfer i ((s.refreshed r.problem i).getD i ∅) = s.output.getD i ∅
      · rw [State.visit_output_of_eq (p := r.problem) hnew]
      · rw [State.visit_worklist_of_ne (p := r.problem) hnew, State.mem_foldl_enqueue] at hwait
        have hip : i ≠ p := by
          rintro rfl
          exact hwait (Or.inr hsucc)
        exact State.getD_visit_output_of_ne hip ∅
    rw [hsame] at hd
    rw [State.visit_input]
    by_cases hij : i = j
    · subst hij
      exact (mem_refreshed_iff (h.growing.size_input ▸ hj) hentry hp).mpr ⟨p, hp, hd⟩
    · rw [State.getD_refreshed_of_ne hij]
      exact h.announced j hj hentry (State.not_mem_worklist_of_visit hw hij hwait) p hp hsucc d hd

/-! ## The chain of parameters -/

/-- The facts after the entry and after each parameter. -/
def chainFacts (r : ReachingDefs) : Nat → FactSet Nat
  | 0 => r.transfer 0 ∅
  | k + 1 => r.transfer (k + 1) (r.chainFacts k)

/-- The positions up to `n` are a chain of predecessors. -/
structure Chain (r : ReachingDefs) (n : Nat) : Prop where
  lt_size : n < r.graph.size
  pred : ∀ k < n, r.graph.pred (k + 1) = [k]

/-- A position of the chain that was visited has the facts that it will have, and one past the
chain that was visited has been given them. -/
structure Chained (r : ReachingDefs) (n : Nat) (s : State (FactSet Nat)) : Prop where
  current : Current r s
  sweeping : s.Sweeping r.problem
  final : ∀ k ≤ n, k < s.iterations → s.output.getD k ∅ = r.chainFacts k
  handed : ∀ i < r.graph.size, n < i → i < s.iterations → ∀ p ∈ r.graph.pred i, p ≤ n →
    ∀ d ∈ r.chainFacts p, d ∈ s.input.getD i ∅

theorem chained_initial (r : ReachingDefs) (n : Nat) : Chained r n (State.initial r.problem) where
  current := current_initial r
  sweeping := State.sweeping_initial r.problem
  final := by
    intro k _ hk
    exact absurd hk (Nat.not_lt_zero k)
  handed := by
    intro i _ _ hi
    exact absurd hi (Nat.not_lt_zero i)

/-- A position that was visited, counting the visit under way, is the one that is visited or was
visited before. -/
theorem lt_iterations_of_visit (h : s.Sweeping r.problem) (hw : s.worklist = i :: w) {j : Nat}
    (hj : j < r.graph.size) (hlt : j < s.iterations + 1) (hij : i ≠ j) : j < s.iterations := by
  by_contra hge
  obtain rfl : s.iterations = j := by omega
  exact hij (h.eq_iterations hw hj)

/-- Positions before the one that is visited were visited. -/
theorem lt_iterations_of_lt (h : s.Sweeping r.problem) (hw : s.worklist = i :: w) {j : Nat}
    (hj : j < i) (hi : i < r.graph.size) : j < s.iterations := by
  by_contra hge
  have hlt : s.iterations < r.problem.graph.size := show s.iterations < r.graph.size by omega
  have := h.eq_iterations hw hlt
  omega

theorem Chained.visit {n : Nat} (hc : Chain r n) (h : Chained r n s) (hw : s.worklist = i :: w) :
    Chained r n (s.visit r.problem i w) where
  current := h.current.visit hw
  sweeping := h.sweeping.visit hw
  final := by
    intro k hk hlt
    have hsize : k < r.graph.size := Nat.lt_of_le_of_lt hk hc.lt_size
    rw [State.visit_iterations] at hlt
    by_cases hik : i = k
    · subst hik
      have hout : i < s.output.size := h.current.growing.size_output ▸ hsize
      have hin : i < s.input.size := h.current.growing.size_input ▸ hsize
      rw [State.getD_visit_output_self hout]
      cases i with
      | zero =>
        have hnone : s.driven? r.problem 0 = none := State.driven?_eq_none_iff.mpr (Or.inl rfl)
        have hinput : (s.refreshed r.problem 0).getD 0 ∅ = ∅ := by
          rw [State.getD_refreshed_self hin, hnone]
          exact h.current.seeded 0 hnone
        exact congrArg (r.transfer 0) hinput
      | succ k =>
        have hbefore := h.final k (by omega) (lt_iterations_of_lt h.sweeping hw (by omega) hsize)
        have hpred := hc.pred k (by omega)
        have hinput : (s.refreshed r.problem (k + 1)).getD (k + 1) ∅ = r.chainFacts k := by
          apply FactSet.ext
          intro d
          rw [mem_refreshed_iff hin (Nat.succ_ne_zero k) (p := k) (by rw [hpred]; simp), hpred,
            ← hbefore]
          simp
        exact congrArg (r.transfer (k + 1)) hinput
    · rw [State.getD_visit_output_of_ne hik]
      exact h.final k hk (lt_iterations_of_visit h.sweeping hw hsize hlt hik)
  handed := by
    intro j hj hnj hlt p hp hpn d hd
    rw [State.visit_iterations] at hlt
    rw [State.visit_input]
    by_cases hij : i = j
    · subst hij
      have hentry : i ≠ r.graph.entry := Nat.ne_of_gt (Nat.zero_lt_of_lt hnj)
      rw [mem_refreshed_iff (h.current.growing.size_input ▸ hj) hentry hp]
      refine ⟨p, hp, ?_⟩
      rw [h.final p hpn (lt_iterations_of_lt h.sweeping hw (by omega) hj)]
      exact hd
    · rw [State.getD_refreshed_of_ne hij]
      exact h.handed j hj hnj (lt_iterations_of_visit h.sweeping hw hj hlt hij) p hp hpn d hd

theorem chained_run {n : Nat} (hc : Chain r n) (limit : Nat) :
    Chained r n (r.problem.run limit) :=
  State.run_induction (fun _ _ _ hw h => h.visit hc hw) limit _ (chained_initial r n)

/-! ## Facts that are missed -/

theorem kind_of_definition? {g : Graph} {x : NodeId} {v : String} (h : definition? g x = some v) :
    (∃ order, g.kind? x = some (.parameter v order)) ∨
      ∃ name code, g.kind? x = some (.call name code) := by
  unfold definition? at h
  split at h
  · next name order hkind =>
    obtain rfl := Option.some.inj h
    exact Or.inl ⟨order, hkind⟩
  · next name code hkind => exact Or.inr ⟨name, code, hkind⟩
  · cases h

theorem definedAt?_eq {g : Graph} {p : Nat} {x : NodeId}
    (hdefines : r.defines = r.graph.nodes.map (definition? g)) (hx : r.graph.node? p = some x) :
    r.definedAt? p = definition? g x := by
  rw [FlowGraph.node?] at hx
  rw [definedAt?, hdefines, Array.getElem?_map, hx]
  rfl

theorem usedAt_eq {g : Graph} {p : Nat} {x : NodeId}
    (huses : r.uses = r.graph.nodes.map (usesOf g)) (hx : r.graph.node? p = some x) :
    r.usedAt p = usesOf g x := by
  rw [FlowGraph.node?] at hx
  rw [usedAt, huses, Array.getD_eq_getD_getElem?, Array.getElem?_map, hx]
  rfl

/-- What is defined and used at a position is defined and used by the node there. -/
theorem at_eq_of_ofMethod {g : Graph} {method : NodeId} (hr : ofMethod g method = .ok r) (i : Nat) :
    r.definedAt? i = (r.graph.node? i).bind (definition? g) ∧
      r.usedAt i = ((r.graph.node? i).map (usesOf g)).getD [] := by
  obtain ⟨_, hdefines, huses⟩ := eq_of_ofMethod hr
  cases hi : r.graph.node? i with
  | some x => exact ⟨definedAt?_eq hdefines hi, usedAt_eq huses hi⟩
  | none =>
    rw [FlowGraph.node?] at hi
    rw [definedAt?, usedAt, hdefines, huses, Array.getD_eq_getD_getElem?, Array.getElem?_map,
      Array.getElem?_map, hi]
    exact ⟨rfl, rfl⟩

/-- An edge that only its target knows.  It comes from past the parameters.  Where every id is
carried by one node, it comes from a return statement or from a parameter. -/
structure Unannounced (g : Graph) (r : ReachingDefs) (p i : Nat) : Prop where
  not_mem_succ : i ∉ r.graph.succ p
  past_params : r.graph.paramCount < p
  kind : g.WellFormed → ∃ x, r.graph.node? p = some x ∧
    ((∃ code, g.kind? x = some (.ret code)) ∨
      ∃ name order, g.kind? x = some (.parameter name order))

section

variable {g : Graph} {method : NodeId} {l : FlowGraph.Layout}

theorem chain_of_built (h : r.graph.Built g method l) : Chain r l.paramCount where
  lt_size := h.size_eq ▸ h.paramCount_lt
  pred := fun _ hk => h.pred_of_lt hk

/-- A node without a part in control flow has facts after it only if it is a parameter. -/
theorem Current.isParameter_of_isolated (hs : Current r s) (hdone : s.worklist = [])
    (hdefines : r.defines = r.graph.nodes.map (definition? g)) (h : r.graph.Built g method l)
    {p d : Nat} {x : NodeId} (hx : l.nodes[p]? = some x) (hrole : l.role p x = .isolated)
    (hd : d ∈ s.output.getD p ∅) : ∃ name order, g.kind? x = some (.parameter name order) := by
  have hp : p < r.graph.size := h.size_eq ▸ (List.getElem?_eq_some_iff.mp hx).1
  have hempty : s.input.getD p ∅ = ∅ :=
    hs.seeded p (State.driven?_eq_none_iff.mpr (Or.inr (h.pred_of_isolated hx hrole)))
  rw [hs.made p hp (by simp [hdone]), hempty, mem_transfer] at hd
  rcases hd with ⟨_, hdef⟩ | ⟨hd, _⟩
  · obtain ⟨v, hv⟩ := Option.isSome_iff_exists.mp hdef
    rw [definedAt?_eq hdefines (by rw [h.node?_eq, hx])] at hv
    rcases kind_of_definition? hv with ⟨order, hkind⟩ | ⟨name, code, hkind⟩
    · exact ⟨v, order, hkind⟩
    · exact absurd hrole (FlowGraph.Layout.role_ne_isolated_of_call (by rw [h.graph_eq, hkind]))
  · exact absurd hd (FactSet.not_mem_empty d)

/-- Facts are missed along edges only that their source does not know. -/
theorem Chained.unannounced (hs : Chained r l.paramCount s) (hdone : s.worklist = [])
    (hdefines : r.defines = r.graph.nodes.map (definition? g)) (h : r.graph.Built g method l)
    (hi : i < r.graph.size) (hentry : i ≠ r.graph.entry) {p d : Nat} (hp : p ∈ r.graph.pred i)
    (hd : d ∈ s.output.getD p ∅) (hmissed : d ∉ s.input.getD i ∅) : Unannounced g r p i := by
  have hsucc : i ∉ r.graph.succ p := by
    intro hmem
    exact hmissed (hs.current.announced i hi hentry (by simp [hdone]) p hp hmem d hd)
  have hvisited : r.graph.size ≤ s.iterations := hs.sweeping.size_le_iterations hdone
  have hi' : i < s.iterations := Nat.lt_of_lt_of_le hi hvisited
  have hpast : l.paramCount < p := by
    by_contra hle
    have hplt : p < s.iterations := by
      have hlast := (chain_of_built h).lt_size
      omega
    by_cases hilt : l.paramCount < i
    · apply hmissed
      apply hs.handed i hi hilt hi' p hp (by omega)
      rw [← hs.final p (by omega) hplt]
      exact hd
    · -- within the chain both ends know the edge
      obtain ⟨k, rfl⟩ : ∃ k, i = k + 1 := ⟨i - 1, by have : i ≠ 0 := hentry; omega⟩
      rw [h.pred_of_lt (by omega), List.mem_singleton] at hp
      subst hp
      exact hsucc (by rw [(h.succ_of_lt p (by omega)).2]; simp)
  refine ⟨hsucc, by rw [h.paramCount]; exact hpast, fun hg => ?_⟩
  obtain ⟨x, hx, hrole | hrole⟩ := h.role_of_not_mem_succ hg hentry hp hpast hsucc
  · obtain ⟨code, hkind⟩ := FlowGraph.Layout.kind_of_role_ret hrole
    rw [h.graph_eq] at hkind
    exact ⟨x, by rw [h.node?_eq, hx], Or.inl ⟨code, hkind⟩⟩
  · exact ⟨x, by rw [h.node?_eq, hx],
      Or.inr (hs.current.isParameter_of_isolated hdone hdefines h hx hrole hd)⟩

end

/-! ## The equations -/

/-- The facts before a position. -/
def factsBefore (r : ReachingDefs) : Nat → FactSet Nat := r.problem.inputOf r.solve

/-- The facts after a position. -/
def factsAfter (r : ReachingDefs) : Nat → FactSet Nat := r.problem.outputOf r.solve

/-- The solver comes to its end.  The facts after every position are then made of those before it,
and the facts before it come from its predecessors.  Along every edge that its source knows, and
along every edge that does not come from a return statement or from a parameter of another method,
nothing is missed. -/
theorem solve_equations {g : Graph} {method : NodeId} {r : ReachingDefs}
    (hr : ofMethod g method = .ok r) :
    r.problem.solve? r.bound = some r.solve ∧
      ∀ i < r.graph.size,
        r.factsAfter i = r.transfer i (r.factsBefore i) ∧
        (∀ d ∈ r.factsBefore i, ∃ p ∈ r.graph.pred i, d ∈ r.factsAfter p) ∧
        (i ≠ r.graph.entry → ∀ p ∈ r.graph.pred i,
          (∀ d ∈ r.factsAfter p, d ∈ r.factsBefore i) ∨ Unannounced g r p i) := by
  obtain ⟨hfg, hdefines, _⟩ := eq_of_ofMethod hr
  obtain ⟨l, hbuilt⟩ := FlowGraph.built_of_ofMethod hfg
  have hdone := worklist_run_of_ofMethod hr
  have hs := chained_run (chain_of_built hbuilt) r.bound
  have hbefore : r.factsBefore = fun i => (r.problem.run r.bound).input.getD i ∅ :=
    Problem.inputOf_solution_of_size hs.current.growing.size_input
  have hafter : r.factsAfter = fun i => (r.problem.run r.bound).output.getD i ∅ :=
    Problem.outputOf_solution_of_size hs.current.growing.size_output
  rw [hbefore, hafter]
  refine ⟨solve?_of_ofMethod hr, fun i hi => ⟨?_, ?_, ?_⟩⟩
  · exact hs.current.made i hi (by simp [hdone])
  · exact hs.current.within i
  · intro hentry p hp
    by_cases hall : ∀ d ∈ (r.problem.run r.bound).output.getD p ∅,
        d ∈ (r.problem.run r.bound).input.getD i ∅
    · exact Or.inl hall
    · simp only [not_forall] at hall
      obtain ⟨d, hd, hmissed⟩ := hall
      exact Or.inr (hs.unannounced hdone hdefines hbuilt hi hentry hp hd hmissed)

/-- A loop whose body assigns `x`, a return statement after it, and a call after that. -/
def lateCall : Graph :=
  (MethodBuilder.build ∅ "f"
    [.parameter "x", .control "while (x)", .assignment "x" ["x"], .link (.made 2) (.made 1),
      .moveTo (.made 1), .ret (some "x"), .call "print" ["x"]]).finished

/-- The parameter and the assignment define `x`. -/
def lateCallDefs : ReachingDefs where
  graph :=
    { method := ⟨1⟩, nodes := #[⟨1⟩, ⟨4⟩, ⟨5⟩, ⟨9⟩, ⟨11⟩, ⟨6⟩, ⟨3⟩], paramCount := 1
      succTable := #[[1], [2], [5, 3], [6], [6], [2], []]
      predTable := #[[], [0], [1, 5], [2], [3], [2], [3, 4]] }
  defines := #[none, some "x", none, none, none, some "x", none]
  uses := #[[], [], [], ["x"], ["x"], ["x"], []]

theorem ofMethod_lateCall : ofMethod lateCall ⟨1⟩ = .ok lateCallDefs := by cbv

theorem mem_factsAfter_return : 5 ∈ lateCallDefs.factsAfter 3 := by
  have hfacts : (lateCallDefs.factsAfter 3).toList = [1, 5] := by cbv
  change 5 ∈ (lateCallDefs.factsAfter 3).toList
  rw [hfacts]
  decide

theorem not_mem_factsBefore_call : 5 ∉ lateCallDefs.factsBefore 4 := by
  have hfacts : (lateCallDefs.factsBefore 4).toList = [1] := by cbv
  change 5 ∉ (lateCallDefs.factsBefore 4).toList
  rw [hfacts]
  decide

/-- The return statement is the only predecessor of the call, and the call is not told that the
assignment reaches it. -/
theorem lateCall_misses_definition :
    ofMethod lateCall ⟨1⟩ = .ok lateCallDefs ∧ lateCallDefs.graph.pred 4 = [3] ∧
      5 ∈ lateCallDefs.factsAfter 3 ∧ 5 ∉ lateCallDefs.factsBefore 4 :=
  ⟨ofMethod_lateCall, rfl, mem_factsAfter_return, not_mem_factsBefore_call⟩

theorem lateCall_unannounced :
    ofMethod lateCall ⟨1⟩ = .ok lateCallDefs ∧ Unannounced lateCall lateCallDefs 3 4 := by
  obtain ⟨_, hequations⟩ := solve_equations ofMethod_lateCall
  obtain ⟨_, _, hedges⟩ := hequations 4 (by decide)
  rcases hedges (by decide) 3 (by decide) with hall | hunannounced
  · exact absurd (hall 5 mem_factsAfter_return) not_mem_factsBefore_call
  · exact ⟨ofMethod_lateCall, hunannounced⟩

end ReachingDefs

end CodeGraph.DataFlow
