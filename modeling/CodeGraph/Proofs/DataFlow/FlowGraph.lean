import CodeGraph.DataFlow.FlowGraph
import Mathlib.Data.List.Forall2
import Mathlib.Tactic.Cases

/-!
# The tables of a flow graph

What a successful construction says: the node table is that of the layout of the
method and holds no node twice, and the two tables of neighbours have a row for
every position.  Of the graph no more is used than the kinds of nodes, their
neighbours, and the order of the depth-first walk (`ofMethod_congr`).
-/

namespace CodeGraph.DataFlow

/-- A traversal that succeeds has succeeded at every element. -/
theorem forall₂_of_mapM_eq_ok {ε α β : Type} {f : α → Except ε β} :
    ∀ {as : List α} {bs : List β}, as.mapM f = .ok bs →
      List.Forall₂ (fun a b => f a = .ok b) as bs
  | [], bs, h => by
    rw [List.mapM_nil] at h
    cases h
    exact .nil
  | a :: as, bs, h => by
    rw [List.mapM_cons] at h
    cases ha : f a with
    | error e =>
      rw [ha] at h
      cases h
    | ok b =>
      cases has : as.mapM f with
      | error e =>
        rw [ha, has] at h
        cases h
      | ok bs' =>
        rw [ha, has] at h
        cases h
        exact .cons ha (forall₂_of_mapM_eq_ok has)

/-- Only first occurrences are kept, so none is kept twice. -/
theorem nodup_eraseDups {α : Type} [BEq α] [LawfulBEq α] : ∀ as : List α, as.eraseDups.Nodup
  | [] => by simp
  | a :: as => by
    rw [List.eraseDups_cons, List.nodup_cons]
    refine ⟨?_, nodup_eraseDups _⟩
    simp [List.mem_eraseDups]
termination_by as => as.length
decreasing_by
  have := List.length_filter_le (fun b => !b == a) as
  simp only [List.length_cons]
  omega

namespace FlowGraph

/-- Successors and predecessors say the same. -/
def Converse (fg : FlowGraph) : Prop := ∀ i j, j ∈ fg.succ i ↔ i ∈ fg.pred j

/-- What a flow graph is made of. -/
structure Built (g : Graph) (method : NodeId) (fg : FlowGraph) (l : Layout) : Prop where
  /-- The layout is that of the method with its exit. -/
  layout : ∃ exit, g.methodReturn? method = some exit ∧ l = Layout.ofMethod g method exit
  isMethod : (g.kind? method).any NodeKind.isMethod = true
  nodes : fg.nodes = l.nodes.toArray
  paramCount : fg.paramCount = l.paramCount
  /-- The row of successors of each position. -/
  succs : List.Forall₂ (fun ni js => l.successors ni.2 ni.1 = .ok js) l.nodes.zipIdx
    fg.succTable.toList
  /-- The row of predecessors of each position. -/
  preds : List.Forall₂ (fun ni js => l.predecessors ni.2 ni.1 = .ok js) l.nodes.zipIdx
    fg.predTable.toList

theorem built_of_ofMethod {g : Graph} {method : NodeId} {fg : FlowGraph}
    (h : ofMethod g method = .ok fg) : ∃ l, Built g method fg l := by
  unfold ofMethod at h
  cases hm : (g.kind? method).any NodeKind.isMethod with
  | false =>
    rw [hm] at h
    cases h
  | true =>
    cases he : g.methodReturn? method with
    | none =>
      rw [hm, he] at h
      cases h
    | some exit =>
      rw [hm, he] at h
      cases hs : (Layout.ofMethod g method exit).table
          (Layout.ofMethod g method exit).successors with
      | error e =>
        simp only [hs] at h
        cases h
      | ok succs =>
        cases hp : (Layout.ofMethod g method exit).table
            (Layout.ofMethod g method exit).predecessors with
        | error e =>
          simp only [hs, hp] at h
          cases h
        | ok preds =>
          simp only [hs, hp] at h
          cases h
          exact ⟨_, ⟨exit, he, rfl⟩, hm, rfl, rfl, forall₂_of_mapM_eq_ok hs,
            forall₂_of_mapM_eq_ok hp⟩

/-! ## Positions -/

namespace Layout

variable {l : Layout} {i j : Nat}

/-- In a table without repetition, the position of a node is where it stands. -/
theorem mem_positions (hnodup : l.nodes.Nodup) {ids : List NodeId} :
    j ∈ l.positions ids ↔ ∃ id ∈ ids, l.nodes[j]? = some id := by
  rw [positions, List.mem_filterMap]
  refine exists_congr fun id => and_congr_right fun _ => ?_
  rw [List.idxOf?_eq_some_iff, List.getElem?_eq_some_iff]
  constructor
  · rintro ⟨hj, hid, -⟩
    exact ⟨hj, hid⟩
  · rintro ⟨hj, rfl⟩
    refine ⟨hj, rfl, fun k hk heq => ?_⟩
    exact absurd ((List.getElem_inj hnodup).mp heq) (by omega)

theorem positions_of_getElem? (hnodup : l.nodes.Nodup) {id : NodeId}
    (hid : l.nodes[i]? = some id) : l.positions [id] = [i] := by
  have hi : l.nodes.idxOf? id = some i := by
    have hmem : i ∈ l.positions [id] := (mem_positions hnodup).mpr ⟨id, by simp, hid⟩
    simpa [positions] using hmem
  simp [positions, hi]

theorem position_eq_ok (hnodup : l.nodes.Nodup) {js : List Nat} (h : l.position i = .ok js) :
    i < l.nodes.length ∧ js = [i] := by
  unfold position at h
  cases hid : l.nodes[i]? with
  | none =>
    rw [hid] at h
    cases h
  | some id =>
    simp only [hid, positions_of_getElem? hnodup hid] at h
    cases h
    exact ⟨(List.getElem?_eq_some_iff.mp hid).1, rfl⟩

/-- A row of a table is what was made for its position. -/
theorem row_of_forall₂ {row : Nat → NodeId → Except FlowError (List Nat)}
    {rows : Array (List Nat)} {id : NodeId}
    (h : List.Forall₂ (fun ni js => row ni.2 ni.1 = .ok js) l.nodes.zipIdx rows.toList)
    (hid : l.nodes[i]? = some id) : row i id = .ok (rows.getD i []) := by
  obtain ⟨hlength, hrow⟩ := List.forall₂_iff_get.mp h
  obtain ⟨hi, rfl⟩ := List.getElem?_eq_some_iff.mp hid
  rw [List.length_zipIdx, Array.length_toList] at hlength
  have hi' : i < rows.size := hlength ▸ hi
  simpa [hi'] using hrow i (by simpa using hi) (by simpa using hi')

/-! ## Roles -/

theorem role_zero (l : Layout) (node : NodeId) : l.role 0 node = .entry := by
  rw [role, if_pos rfl]

theorem role_of_le {node : NodeId} (hi : i ≠ 0) (hle : i ≤ l.paramCount) :
    l.role i node = .param (i - 1) := by
  rw [role, if_neg hi, if_pos hle]

theorem kind_of_role_ret {node : NodeId} (h : l.role i node = .ret) :
    ∃ code, l.graph.kind? node = some (.ret code) := by
  unfold role at h
  split_ifs at h
  split at h
  case h_1 code hkind => exact ⟨code, hkind⟩
  all_goals cases h

/-- A call takes part in control flow wherever it stands. -/
theorem role_ne_isolated_of_call {node : NodeId} {name code : String}
    (hkind : l.graph.kind? node = some (.call name code)) : l.role i node ≠ .isolated := by
  unfold role
  rw [hkind]
  split_ifs <;> simp

theorem role_ne_entry {node : NodeId} (hi : i ≠ 0) : l.role i node ≠ .entry := by
  unfold role
  rw [if_neg hi]
  split_ifs
  · simp
  · simp
  · split <;> simp

theorem role_ne_param {node : NodeId} {k : Nat} (hlt : l.paramCount < i) :
    l.role i node ≠ .param k := by
  unfold role
  rw [if_neg (show i ≠ 0 by omega), if_neg (show ¬ i ≤ l.paramCount by omega)]
  split_ifs
  · simp
  · split <;> simp

end Layout

namespace Built

variable {g : Graph} {method : NodeId} {fg : FlowGraph} {l : Layout}

theorem size_succTable (h : Built g method fg l) : fg.succTable.size = fg.size := by
  have := h.succs.length_eq
  simpa [FlowGraph.size, h.nodes] using this.symm

theorem size_predTable (h : Built g method fg l) : fg.predTable.size = fg.size := by
  have := h.preds.length_eq
  simpa [FlowGraph.size, h.nodes] using this.symm

theorem nodup_nodes (h : Built g method fg l) : fg.nodes.toList.Nodup := by
  obtain ⟨exit, _, rfl⟩ := h.layout
  rw [h.nodes]
  exact nodup_eraseDups _

theorem nodup_layout (h : Built g method fg l) : l.nodes.Nodup := by
  have hnodup := h.nodup_nodes
  rwa [h.nodes] at hnodup

theorem node?_eq (h : Built g method fg l) (i : Nat) : fg.node? i = l.nodes[i]? := by
  rw [node?, h.nodes, List.getElem?_toArray]

theorem size_eq (h : Built g method fg l) : fg.size = l.nodes.length := by
  rw [size, h.nodes, List.size_toArray]

theorem graph_eq (h : Built g method fg l) : l.graph = g := by
  obtain ⟨exit, _, rfl⟩ := h.layout
  rfl

theorem method_eq (h : Built g method fg l) : l.method = method := by
  obtain ⟨exit, _, rfl⟩ := h.layout
  rfl

/-- The method is the node of the entry. -/
theorem getElem?_entry (h : Built g method fg l) : l.nodes[0]? = some method := by
  obtain ⟨exit, _, rfl⟩ := h.layout
  simp [Layout.ofMethod, List.eraseDups_cons]

theorem successors_eq (h : Built g method fg l) {i : Nat} {id : NodeId}
    (hid : l.nodes[i]? = some id) : l.successors i id = .ok (fg.succ i) :=
  Layout.row_of_forall₂ h.succs hid

theorem predecessors_eq (h : Built g method fg l) {i : Nat} {id : NodeId}
    (hid : l.nodes[i]? = some id) : l.predecessors i id = .ok (fg.pred i) :=
  Layout.row_of_forall₂ h.preds hid

theorem lt_size_of_mem_pred (h : Built g method fg l) {i p : Nat} (hp : p ∈ fg.pred i) :
    i < fg.size := by
  by_contra hi
  simp [pred, h.size_predTable, Nat.not_lt.mp hi] at hp

/-! ### The chain of parameters -/

/-- The entry is followed by the first parameter and each parameter but the last by the next.  That
these rows were made shows that there are so many positions. -/
theorem succ_of_lt (h : Built g method fg l) :
    ∀ k, k < l.paramCount → k + 1 < l.nodes.length ∧ fg.succ k = [k + 1]
  | 0, hk => by
    have hrow := h.successors_eq h.getElem?_entry
    rw [Layout.successors, l.role_zero] at hrow
    simp only [if_pos hk] at hrow
    exact Layout.position_eq_ok h.nodup_layout hrow
  | k + 1, hk => by
    obtain ⟨hlt, _⟩ := h.succ_of_lt k (by omega)
    have hrow := h.successors_eq (List.getElem?_eq_getElem hlt)
    rw [Layout.successors, Layout.role_of_le (by omega) (by omega)] at hrow
    simp only [Nat.add_sub_cancel, if_pos hk] at hrow
    exact Layout.position_eq_ok h.nodup_layout hrow

theorem paramCount_lt (h : Built g method fg l) : l.paramCount < l.nodes.length := by
  cases hc : l.paramCount with
  | zero => exact (List.getElem?_eq_some_iff.mp h.getElem?_entry).1
  | succ k => exact (h.succ_of_lt k (by omega)).1

/-- Each parameter comes after the one before it, and the first after the entry. -/
theorem pred_of_lt (h : Built g method fg l) {k : Nat} (hk : k < l.paramCount) :
    fg.pred (k + 1) = [k] := by
  have hrow := h.predecessors_eq (List.getElem?_eq_getElem (h.succ_of_lt k hk).1)
  rw [Layout.predecessors, Layout.role_of_le (by omega) (by omega), Nat.add_sub_cancel] at hrow
  cases k with
  | zero =>
    have hentry := Layout.positions_of_getElem? h.nodup_layout h.getElem?_entry
    simp only [h.method_eq, hentry] at hrow
    exact (Except.ok.inj hrow).symm
  | succ k => exact (Layout.position_eq_ok h.nodup_layout hrow).2

end Built

/-! ## What a flow graph is read off -/

variable {g h : Graph}

namespace Layout

variable {l : Layout}

theorem role_withGraph (hkind : g.kind? = l.graph.kind?) :
    ({ l with graph := g } : Layout).role = l.role := by
  funext i node
  simp only [role, hkind]

theorem successors_withGraph (hkind : g.kind? = l.graph.kind?)
    (hsucc : g.successors = l.graph.successors) :
    ({ l with graph := g } : Layout).successors = l.successors := by
  funext i node
  rw [successors, role_withGraph hkind, successors]
  simp only [hsucc]
  rfl

theorem predecessors_withGraph (hkind : g.kind? = l.graph.kind?)
    (hpred : g.predecessors = l.graph.predecessors) :
    ({ l with graph := g } : Layout).predecessors = l.predecessors := by
  funext i node
  rw [predecessors, role_withGraph hkind, predecessors]
  simp only [firstPredecessors, hpred]
  rfl

end Layout

/-- A flow graph is known from the kinds of nodes, the children and the control flow of each node in
their order, and the order of the walk. -/
theorem ofMethod_congr (hkind : g.kind? = h.kind?)
    (hast : ∀ id, g.outNeighbors id .ast = h.outNeighbors id .ast)
    (hsucc : g.successors = h.successors) (hpred : g.predecessors = h.predecessors)
    (horder : ∀ method, g.reversePostOrder method = h.reversePostOrder method) (method : NodeId) :
    ofMethod g method = ofMethod h method := by
  have hreturn : g.methodReturn? method = h.methodReturn? method := by
    rw [Graph.methodReturn?, Graph.methodReturn?, hkind, hast]
  have hparams : g.parametersOf method = h.parametersOf method := by
    have hparameter : g.parameter? = h.parameter? := by
      funext id
      rw [Graph.parameter?, Graph.parameter?, hkind]
    rw [Graph.parametersOf, Graph.parametersOf, hparameter, hast]
  have hlayout : ∀ exit, Layout.ofMethod g method exit =
      { Layout.ofMethod h method exit with graph := g } := by
    intro exit
    have hfirst : g.firstNode? method = h.firstNode? method := by
      rw [Graph.firstNode?, Graph.firstNode?, hsucc, hreturn]
    simp only [Layout.ofMethod, hparams, horder, hfirst]
  rw [ofMethod, ofMethod, hkind, hreturn]
  cases h.methodReturn? method with
  | none => rfl
  | some exit =>
    have hs := Layout.successors_withGraph (l := Layout.ofMethod h method exit) hkind hsucc
    have hp := Layout.predecessors_withGraph (l := Layout.ofMethod h method exit) hkind hpred
    simp only [hlayout exit, hs, hp]
    rfl

end FlowGraph

end CodeGraph.DataFlow
