import CodeGraph.Proofs.DataFlow.Numbering
import Mathlib

/-!
# When the two tables of a flow graph agree

The tables of successors and predecessors are made by different rules.  On a method of the usual
shape (`WellShaped`) both describe one relation, `Layout.Follows`: the chain of parameters, and the
edges of control flow between positions, where the last parameter stands in for the method.  Without
parameters the method stands for itself, so this is one case.

Each half is shown by the position whose row is read.  For successors these are the positions before
the last parameter, the last parameter or the method itself, and the positions after it.  For
predecessors they are the parameters and all others.
-/

namespace CodeGraph

/-- Whether a kind is that of a node in the body of a method. -/
def NodeKind.isStatement : NodeKind → Bool
  | .call _ _ | .identifier _ _ | .literal _ _ | .controlStructure _ | .ret _ => true
  | _ => false

namespace DataFlow.FlowGraph

/-- The usual shape of a method. -/
structure WellShaped (g : Graph) (method exit : NodeId) : Prop where
  nodup_params : (g.parametersOf method).Nodup
  /-- Control does not flow through parameters. -/
  untouched : ∀ x ∈ g.parametersOf method, ∀ y, ¬ g.FlowsTo x y ∧ ¬ g.FlowsTo y x
  isStatement : ∀ x, g.Reaches method x → x ≠ method → x ≠ exit →
    (g.kind? x).any NodeKind.isStatement = true
  /-- A return statement is followed by the exit, and by nothing else. -/
  returns : ∀ x code, g.Reaches method x → g.kind? x = some (.ret code) →
    (∃ y, g.FlowsTo x y) ∧ ∀ y, g.FlowsTo x y → y = exit
  /-- With parameters there is one way into the body. -/
  single : g.parametersOf method ≠ [] → ∃ first, first ≠ exit ∧ ∀ y, g.FlowsTo method y → y = first

namespace Layout

variable {l : Layout} {i j : Nat} {x y : NodeId}

/-- A position from which control flows as it does from a node. -/
def StandsFor (l : Layout) (i : Nat) (x : NodeId) : Prop :=
  if x = l.method then i = l.paramCount else l.nodes[i]? = some x

/-- Control flows from one position to another. -/
def Follows (l : Layout) (i j : Nat) : Prop :=
  (i < l.paramCount ∧ j = i + 1) ∨
    ∃ x y, l.graph.FlowsTo x y ∧ l.StandsFor i x ∧ l.nodes[j]? = some y

theorem role_ne_isolated (h : x = l.exit ∨ (l.graph.kind? x).any NodeKind.isStatement = true) :
    l.role i x ≠ .isolated := by
  unfold role
  split_ifs with _ _ hexit
  · simp
  · simp
  · simp
  · cases hkind : l.graph.kind? x with
    | none => simp [hkind, hexit] at h
    | some kind =>
      rw [hkind, or_iff_right hexit] at h
      cases kind with
      | call | identifier | literal | controlStructure | ret => simp
      | _ => cases h

/-- The row of predecessors of a position that is not among the parameters. -/
theorem predecessors_eq (hparam : j = 0 ∨ l.paramCount < j) (hrole : l.role j y ≠ .isolated) :
    l.predecessors j y = if 0 < l.paramCount ∧ some y = l.first then l.firstPredecessors y
      else .ok (l.positions (l.graph.predecessors y)) := by
  unfold predecessors
  cases hr : l.role j y with
  | isolated => exact absurd hr hrole
  | param k =>
    rcases hparam with rfl | hlt
    · rw [role_zero] at hr
      cases hr
    · exact absurd hr (role_ne_param hlt)
  | entry | ret | statement | exit => rfl

end Layout

namespace Built

variable {g : Graph} {method : NodeId} {fg : FlowGraph} {l : Layout} {i j : Nat} {x y : NodeId}

/-! ## Positions -/

theorem eq_of_getElem? (h : Built g method fg l) (hi : l.nodes[i]? = some x)
    (hj : l.nodes[j]? = some x) : i = j :=
  (List.getElem?_inj (List.getElem?_eq_some_iff.mp hi).1 h.nodup_layout).mp (hi.trans hj.symm)

/-- The parameters are at the positions after the entry, up to their number. -/
theorem mem_parametersOf_iff (h : Built g method fg l) (hg : g.WellFormed)
    (hparams : (g.parametersOf method).Nodup) (hx : l.nodes[i]? = some x) :
    x ∈ g.parametersOf method ↔ 0 < i ∧ i ≤ l.paramCount := by
  have hat : ∀ k < l.paramCount, l.nodes[k + 1]? = (g.parametersOf method)[k]? := by
    intro k hk
    rw [h.paramCount_eq] at hk
    rw [h.nodes_eq hg hparams, List.getElem?_cons_succ, List.append_assoc,
      List.getElem?_append_left hk]
  constructor
  · intro hmem
    obtain ⟨k, hk, rfl⟩ := List.mem_iff_getElem.mp hmem
    have hlt : k < l.paramCount := h.paramCount_eq ▸ hk
    have hi := h.eq_of_getElem? hx ((hat k hlt).trans (List.getElem?_eq_getElem hk))
    omega
  · rintro ⟨hpos, hle⟩
    obtain ⟨k, rfl⟩ : ∃ k, i = k + 1 := ⟨i - 1, by omega⟩
    rw [hat k (by omega)] at hx
    exact List.mem_of_getElem? hx

theorem ne_method_of_lt (h : Built g method fg l) (hi : 0 < i) (hx : l.nodes[i]? = some x) :
    x ≠ method := by
  rintro rfl
  exact hi.ne' (h.eq_of_getElem? hx h.getElem?_entry)

/-- The node at the number of parameters is the last parameter, or the method if there is none. -/
theorem standsFor_iff (h : Built g method fg l) {last : NodeId}
    (hlast : l.nodes[l.paramCount]? = some last) :
    l.StandsFor i x ↔ l.nodes[i]? = some (if x = method then last else x) := by
  unfold Layout.StandsFor
  rw [h.method_eq]
  split
  · exact ⟨fun hi => hi ▸ hlast, fun hi => h.eq_of_getElem? hi hlast⟩
  · exact Iff.rfl

theorem standsFor_method (h : Built g method fg l) : l.StandsFor l.paramCount method := by
  rw [Layout.StandsFor, if_pos h.method_eq.symm]

theorem standsFor_of_lt (h : Built g method fg l) (hi : l.paramCount < i)
    (hx : l.nodes[i]? = some x) : l.StandsFor i x := by
  have hne := h.ne_method_of_lt (Nat.zero_lt_of_lt hi) hx
  unfold Layout.StandsFor
  rwa [if_neg (by rwa [h.method_eq])]

/-! ## Well-shaped methods -/

section Shape

variable (h : Built g method fg l) (hg : g.WellFormed) (hs : WellShaped g method l.exit)

include h hg hs

/-- Past the parameters are the nodes that control reaches, and the exit. -/
theorem reaches_of_lt (hi : l.paramCount < i) (hx : l.nodes[i]? = some x) (hexit : x ≠ l.exit) :
    g.Reaches method x := by
  have hmethod := h.ne_method_of_lt (Nat.zero_lt_of_lt hi) hx
  have hparam : x ∉ g.parametersOf method := by
    rw [h.mem_parametersOf_iff hg hs.nodup_params hx]
    omega
  have hmem := (h.mem_nodes_iff hg hs.nodup_params).mp (List.mem_of_getElem? hx)
  tauto

theorem role_ne_isolated_of_wellShaped (hj : j = 0 ∨ l.paramCount < j)
    (hy : l.nodes[j]? = some y) : l.role j y ≠ .isolated := by
  rcases hj with rfl | hlt
  · simp [l.role_zero]
  · refine Layout.role_ne_isolated (or_iff_not_imp_left.mpr fun hexit => ?_)
    rw [h.graph_eq]
    exact hs.isStatement y (h.reaches_of_lt hg hs hlt hy hexit)
      (h.ne_method_of_lt (Nat.zero_lt_of_lt hlt) hy) hexit

/-- A return statement is followed by the exit in the graph as well. -/
theorem flowsTo_iff_of_ret (hi : l.paramCount < i) (hx : l.nodes[i]? = some x)
    (hrole : l.role i x = .ret) : g.FlowsTo x y ↔ y = l.exit := by
  obtain ⟨code, hkind⟩ := Layout.kind_of_role_ret hrole
  rw [h.graph_eq] at hkind
  have hexit : x ≠ l.exit := by
    rintro rfl
    rw [Graph.kind?_of_methodReturn? h.exit_eq] at hkind
    cases hkind
  obtain ⟨⟨z, hz⟩, hall⟩ := hs.returns x code (h.reaches_of_lt hg hs hi hx hexit) hkind
  refine ⟨hall y, ?_⟩
  rintro rfl
  exact hall z hz ▸ hz

/-- Control leaves from the last parameter, or from the method without parameters, and from the
positions after it. -/
theorem cases_of_standsFor (hflow : g.FlowsTo x y) (hi : l.StandsFor i x) :
    (i = l.paramCount ∧ x = method) ∨ (l.paramCount < i ∧ l.nodes[i]? = some x) := by
  unfold Layout.StandsFor at hi
  rw [h.method_eq] at hi
  split at hi
  · next hx => exact Or.inl ⟨hi, hx⟩
  · next hx =>
    refine Or.inr ⟨?_, hi⟩
    by_contra hle
    have hpos : i ≠ 0 := by
      rintro rfl
      rw [h.getElem?_entry, Option.some.injEq] at hi
      exact hx hi.symm
    have hparam : x ∈ g.parametersOf method :=
      (h.mem_parametersOf_iff hg hs.nodup_params hi).mpr (by omega)
    exact (hs.untouched x hparam y).1 hflow

/-- With parameters, the first node of the body is the one that control enters. -/
theorem first_eq_some_iff (hpos : 0 < l.paramCount) : l.first = some y ↔ g.FlowsTo method y := by
  have hne : g.parametersOf method ≠ [] := by
    rintro hnil
    rw [h.paramCount_eq, hnil] at hpos
    cases hpos
  obtain ⟨first, hfirst, hsingle⟩ := hs.single hne
  have hfound : ∀ z, l.first = some z → g.FlowsTo method z := by
    intro z hz
    rw [h.first_eq] at hz
    exact hg.mem_successors.mp (List.mem_of_find?_eq_some hz)
  refine ⟨hfound y, fun hflow => ?_⟩
  have hsome : l.first.isSome := by
    rw [h.first_eq, Graph.firstNode?, List.find?_isSome]
    refine ⟨y, hg.mem_successors.mpr hflow, ?_⟩
    rw [h.exit_eq, hsingle y hflow]
    simpa using hfirst
  obtain ⟨z, hz⟩ := Option.isSome_iff_exists.mp hsome
  rw [hz, hsingle z (hfound z hz), hsingle y hflow]

/-! ### Successors -/

theorem mem_succ_paramCount_iff :
    j ∈ fg.succ l.paramCount ↔ ∃ y, g.FlowsTo method y ∧ l.nodes[j]? = some y := by
  rcases Nat.eq_zero_or_pos l.paramCount with hzero | hpos
  · have hrow := h.successors_eq h.getElem?_entry
    rw [Layout.successors, l.role_zero] at hrow
    simp only [if_neg (Nat.not_lt.mpr hzero.le), h.graph_eq] at hrow
    rw [hzero, ← Except.ok.inj hrow, Layout.mem_positions h.nodup_layout]
    simp only [hg.mem_successors]
  · have hrow := h.successors_eq (List.getElem?_eq_getElem h.paramCount_lt)
    rw [Layout.successors, Layout.role_of_le hpos.ne' le_rfl] at hrow
    simp only [if_neg (show ¬ l.paramCount - 1 + 1 < l.paramCount by omega)] at hrow
    rw [← Except.ok.inj hrow, Layout.mem_positions h.nodup_layout]
    simp only [Option.mem_toList, h.first_eq_some_iff hg hs hpos]

theorem mem_succ_iff_of_lt (hi : l.paramCount < i) (hx : l.nodes[i]? = some x) :
    j ∈ fg.succ i ↔ ∃ y, g.FlowsTo x y ∧ l.nodes[j]? = some y := by
  have hrow := h.successors_eq hx
  have hisolated := h.role_ne_isolated_of_wellShaped hg hs (Or.inr hi) hx
  rw [Layout.successors] at hrow
  cases hrole : l.role i x with
  | entry => exact absurd hrole (Layout.role_ne_entry (by omega))
  | param k => exact absurd hrole (Layout.role_ne_param hi)
  | isolated => exact absurd hrole hisolated
  | statement | exit =>
    simp only [hrole, h.graph_eq] at hrow
    rw [← Except.ok.inj hrow, Layout.mem_positions h.nodup_layout]
    simp only [hg.mem_successors]
  | ret =>
    simp only [hrole] at hrow
    rw [← Except.ok.inj hrow, Layout.mem_positions h.nodup_layout]
    simp only [List.mem_singleton, h.flowsTo_iff_of_ret hg hs hi hx hrole]

theorem mem_succ_iff_follows : j ∈ fg.succ i ↔ l.Follows i j := by
  unfold Layout.Follows
  rw [h.graph_eq]
  constructor
  · intro hj
    rcases Nat.lt_trichotomy i l.paramCount with hi | rfl | hi
    · rw [(h.succ_of_lt i hi).2, List.mem_singleton] at hj
      exact Or.inl ⟨hi, hj⟩
    · obtain ⟨y, hflow, hy⟩ := (h.mem_succ_paramCount_iff hg hs).mp hj
      exact Or.inr ⟨method, y, hflow, h.standsFor_method, hy⟩
    · have hx := List.getElem?_eq_getElem (h.size_eq ▸ (h.lt_size_of_mem_succ hj).1)
      obtain ⟨y, hflow, hy⟩ := (h.mem_succ_iff_of_lt hg hs hi hx).mp hj
      exact Or.inr ⟨_, y, hflow, h.standsFor_of_lt hi hx, hy⟩
  · rintro (⟨hi, rfl⟩ | ⟨x, y, hflow, hx, hy⟩)
    · rw [(h.succ_of_lt i hi).2]
      exact List.mem_singleton_self _
    · rcases h.cases_of_standsFor hg hs hflow hx with ⟨rfl, rfl⟩ | ⟨hi, hx⟩
      · exact (h.mem_succ_paramCount_iff hg hs).mpr ⟨y, hflow, hy⟩
      · exact (h.mem_succ_iff_of_lt hg hs hi hx).mpr ⟨y, hflow, hy⟩

/-! ### Predecessors -/

theorem mem_pred_iff_of_not_param (hj : j = 0 ∨ l.paramCount < j) (hy : l.nodes[j]? = some y) :
    i ∈ fg.pred j ↔ ∃ x, g.FlowsTo x y ∧ l.StandsFor i x := by
  obtain ⟨last, hlast⟩ : ∃ last, l.nodes[l.paramCount]? = some last :=
    ⟨_, List.getElem?_eq_getElem h.paramCount_lt⟩
  have hrow := h.predecessors_eq hy
  rw [Layout.predecessors_eq hj (h.role_ne_isolated_of_wellShaped hg hs hj hy), h.graph_eq] at hrow
  simp only [h.standsFor_iff hlast]
  split at hrow
  · unfold Layout.firstPredecessors at hrow
    simp only [hlast, h.graph_eq, h.method_eq] at hrow
    rw [← Except.ok.inj hrow, Layout.mem_positions h.nodup_layout]
    simp only [List.mem_map, hg.mem_predecessors]
    constructor
    · rintro ⟨_, ⟨x, hflow, rfl⟩, hx⟩
      exact ⟨x, hflow, hx⟩
    · rintro ⟨x, hflow, hx⟩
      exact ⟨_, ⟨x, hflow, rfl⟩, hx⟩
  · next hfirst =>
    rw [← Except.ok.inj hrow, Layout.mem_positions h.nodup_layout]
    simp only [hg.mem_predecessors]
    refine exists_congr fun x => and_congr_right fun hflow => ?_
    split
    · next hx =>
      -- the method leads to its first node only, unless it stands for itself
      subst hx
      have hzero : l.paramCount = 0 := by
        by_contra hpos
        have hpos := Nat.pos_of_ne_zero hpos
        exact hfirst ⟨hpos, ((h.first_eq_some_iff hg hs hpos).mpr hflow).symm⟩
      rw [hzero, h.getElem?_entry, Option.some.injEq] at hlast
      rw [hlast]
    · rfl

theorem mem_pred_iff_follows : i ∈ fg.pred j ↔ l.Follows i j := by
  unfold Layout.Follows
  rw [h.graph_eq]
  by_cases hj : j = 0 ∨ l.paramCount < j
  · constructor
    · intro hi
      have hy := List.getElem?_eq_getElem (h.size_eq ▸ h.lt_size_of_mem_pred hi)
      obtain ⟨x, hflow, hx⟩ := (h.mem_pred_iff_of_not_param hg hs hj hy).mp hi
      exact Or.inr ⟨x, _, hflow, hx, hy⟩
    · rintro (⟨hi, rfl⟩ | ⟨x, y, hflow, hx, hy⟩)
      · omega
      · exact (h.mem_pred_iff_of_not_param hg hs hj hy).mpr ⟨x, hflow, hx⟩
  · obtain ⟨k, rfl⟩ : ∃ k, j = k + 1 := ⟨j - 1, by omega⟩
    rw [h.pred_of_lt (by omega), List.mem_singleton]
    constructor
    · rintro rfl
      exact Or.inl ⟨by omega, rfl⟩
    · rintro (⟨_, hk⟩ | ⟨x, y, hflow, _, hy⟩)
      · omega
      · have hparam : y ∈ g.parametersOf method :=
          (h.mem_parametersOf_iff hg hs.nodup_params hy).mpr (by omega)
        exact absurd hflow (hs.untouched y hparam x).2

end Shape

end Built

/-- On a well-shaped method, a position is a successor of another just if that one is a predecessor
of it. -/
theorem converse_of_wellShaped {g : Graph} {method exit : NodeId} {fg : FlowGraph}
    (hg : g.WellFormed) (hfg : ofMethod g method = .ok fg)
    (hexit : g.methodReturn? method = some exit) (hs : WellShaped g method exit) :
    fg.Converse := by
  obtain ⟨l, h⟩ := built_of_ofMethod hfg
  obtain rfl : l.exit = exit := Option.some.inj (h.exit_eq.symm.trans hexit)
  intro i j
  exact (h.mem_succ_iff_follows hg hs).trans (h.mem_pred_iff_follows hg hs).symm

/-- Two parameters, and a loop at the start of the body, into which a node leads that is not
reached. -/
def whileLoop : List Operation :=
  [.addNode (.method "f" "f") {}, .addNode .methodReturn {}, .addNode (.parameter "a" 0) {},
    .addNode (.parameter "b" 1) {}, .addNode (.controlStructure "while (a)") {},
    .addNode (.call "g" "g(b)") {}, .addNode (.ret "return b") {}, .addNode (.call "h" "h()") {},
    .addEdge ⟨1⟩ ⟨2⟩ ⟨.ast, {}⟩, .addEdge ⟨1⟩ ⟨3⟩ ⟨.ast, {}⟩, .addEdge ⟨1⟩ ⟨4⟩ ⟨.ast, {}⟩,
    .addEdge ⟨1⟩ ⟨5⟩ ⟨.cfg, {}⟩, .addEdge ⟨5⟩ ⟨6⟩ ⟨.cfg, {}⟩, .addEdge ⟨6⟩ ⟨5⟩ ⟨.cfg, {}⟩,
    .addEdge ⟨5⟩ ⟨7⟩ ⟨.cfg, {}⟩, .addEdge ⟨7⟩ ⟨2⟩ ⟨.cfg, {}⟩, .addEdge ⟨8⟩ ⟨5⟩ ⟨.cfg, {}⟩]

def whileLoopFlow : FlowGraph where
  method := ⟨1⟩
  nodes := #[⟨1⟩, ⟨3⟩, ⟨4⟩, ⟨5⟩, ⟨7⟩, ⟨6⟩, ⟨2⟩]
  paramCount := 2
  succTable := #[[1], [2], [3], [5, 4], [6], [3], []]
  predTable := #[[], [0], [1], [2, 5], [3], [3], [4]]

theorem wellFormed_whileLoop : (Graph.built whileLoop).WellFormed :=
  Graph.wellFormed_built _

theorem wellShaped_whileLoop : WellShaped (Graph.built whileLoop) ⟨1⟩ ⟨2⟩ := by
  have hwf := wellFormed_whileLoop
  have hparams : (Graph.built whileLoop).parametersOf ⟨1⟩ = [⟨3⟩, ⟨4⟩] := by cbv
  have hslot : (Graph.built whileLoop).slot? ⟨1⟩ = some 0 := by decide +kernel
  have horder : (Graph.built whileLoop).reversePostOrder ⟨1⟩ = [⟨1⟩, ⟨5⟩, ⟨7⟩, ⟨2⟩, ⟨6⟩] := by
    decide +kernel
  have hreach : ∀ x, (Graph.built whileLoop).Reaches ⟨1⟩ x →
      x ∈ ([⟨1⟩, ⟨5⟩, ⟨7⟩, ⟨2⟩, ⟨6⟩] : List NodeId) := by
    intro x hx
    rw [← horder]
    exact (hwf.mem_reversePostOrder_iff hslot).mpr hx
  refine ⟨?_, ?_, ?_, ?_, ?_⟩
  · rw [hparams]
    decide
  · have hnone : ∀ x ∈ ([⟨3⟩, ⟨4⟩] : List NodeId), (Graph.built whileLoop).successors x = [] ∧
        (Graph.built whileLoop).predecessors x = [] := by decide +kernel
    rw [hparams]
    intro x hx y
    rw [← hwf.mem_successors, ← hwf.mem_predecessors, (hnone x hx).1, (hnone x hx).2]
    exact ⟨List.not_mem_nil, List.not_mem_nil⟩
  · have hkinds : ∀ x ∈ ([⟨1⟩, ⟨5⟩, ⟨7⟩, ⟨2⟩, ⟨6⟩] : List NodeId), x ≠ ⟨1⟩ → x ≠ ⟨2⟩ →
        ((Graph.built whileLoop).kind? x).any NodeKind.isStatement = true := by decide +kernel
    intro x hx
    exact hkinds x (hreach x hx)
  · have hret : ∀ x ∈ ([⟨1⟩, ⟨5⟩, ⟨7⟩, ⟨2⟩, ⟨6⟩] : List NodeId),
        ((Graph.built whileLoop).kind? x).map NodeKind.label = some "RETURN" →
        (Graph.built whileLoop).successors x = [⟨2⟩] := by decide +kernel
    intro x code hx hkind
    have hnext := hret x (hreach x hx) (by rw [hkind]; rfl)
    simp only [← hwf.mem_successors, hnext, List.mem_singleton]
    exact ⟨⟨_, rfl⟩, fun _ => id⟩
  · have hnext : (Graph.built whileLoop).successors ⟨1⟩ = [⟨5⟩] := by decide +kernel
    refine fun _ => ⟨⟨5⟩, by decide, fun y hy => ?_⟩
    rw [← hwf.mem_successors, hnext] at hy
    exact List.mem_singleton.mp hy

/-- The edge back to the start of the loop is known at both ends. -/
theorem whileLoop_converse :
    (Graph.built whileLoop).WellFormed ∧
    ofMethod (Graph.built whileLoop) ⟨1⟩ = .ok whileLoopFlow ∧
    (Graph.built whileLoop).methodReturn? ⟨1⟩ = some ⟨2⟩ ∧
    WellShaped (Graph.built whileLoop) ⟨1⟩ ⟨2⟩ ∧
    3 ∈ whileLoopFlow.succ 5 ∧ 5 ∈ whileLoopFlow.pred 3 ∧ whileLoopFlow.Converse := by
  have hfg : ofMethod (Graph.built whileLoop) ⟨1⟩ = .ok whileLoopFlow := by cbv
  have hexit : (Graph.built whileLoop).methodReturn? ⟨1⟩ = some ⟨2⟩ := by decide +kernel
  have hconverse :=
    converse_of_wellShaped wellFormed_whileLoop hfg hexit wellShaped_whileLoop
  have hsucc : 3 ∈ whileLoopFlow.succ 5 := by decide
  exact ⟨wellFormed_whileLoop, hfg, hexit, wellShaped_whileLoop, hsucc, (hconverse 5 3).mp hsucc,
    hconverse⟩

end DataFlow.FlowGraph

end CodeGraph
