import CodeGraph.Proofs.DataFlow.Parameters
import CodeGraph.Proofs.Graph.DepthFirst
import Mathlib

/-!
# The numbering of a method

The nodes of a flow graph are numbered as they are found: the method, its parameters, the nodes
that the depth-first walk lists, and the exit.  These sources overlap.  A parameter or the exit may
be reached by control flow, and it keeps its place among the parameters or at the end.

When no parameter is repeated, nothing else is: the walk lists every node once.  So the table is the
four parts one after the other (`Built.nodes_eq`), and the nodes in it are the method, its
parameters, all that control flow reaches from it, and the exit.  Every position that a row of
neighbours names is the position of a node, since rows are made by looking nodes up
(`exists_positions_of_successors`, `exists_positions_of_predecessors`).
-/

namespace CodeGraph

namespace Graph

variable {g : Graph} {method exit id : NodeId}

theorem exists_slot_of_kind? {p : NodeKind → Bool} (h : (g.kind? id).any p = true) :
    ∃ i, g.slot? id = some i := by
  cases hi : g.slot? id with
  | none => simp [kind?, node?, hi] at h
  | some i => exact ⟨i, rfl⟩

theorem kind?_of_methodReturn? (he : g.methodReturn? method = some exit) :
    g.kind? exit = some .methodReturn := by
  have hexit := isMethodReturn_of_methodReturn? he
  cases hkind : g.kind? exit with
  | none => simp [hkind] at hexit
  | some kind =>
    rw [hkind] at hexit
    cases kind with
    | methodReturn => rfl
    | _ => cases hexit

/-- The walk lists every node once, so nothing is left out of the body for being repeated. -/
theorem WellFormed.bodyNodes_eq (hg : g.WellFormed) (method exit : NodeId) :
    g.bodyNodes method exit = (g.reversePostOrder method).filter fun id =>
      id ≠ method ∧ id ≠ exit ∧ id ∉ g.parametersOf method := by
  rw [bodyNodes, eraseDups_of_nodup ((hg.nodup_reversePostOrder method).filter _)]
  refine List.filter_congr fun id _ => ?_
  simp [Bool.and_assoc]

end Graph

namespace DataFlow.FlowGraph

/-! ## Rows of neighbours -/

namespace Layout

variable {l : Layout} {i j : Nat} {node : NodeId} {js : List Nat}

theorem exists_positions_of_position (h : l.position i = .ok js) : ∃ ids, js = l.positions ids := by
  unfold position at h
  split at h
  · next id _ => exact ⟨[id], (Except.ok.inj h).symm⟩
  · cases h

theorem exists_positions_of_successors (h : l.successors i node = .ok js) :
    ∃ ids, js = l.positions ids := by
  unfold successors at h
  split at h
  · exact ⟨_, (Except.ok.inj h).symm⟩
  · split at h
    · exact exists_positions_of_position h
    · exact ⟨_, (Except.ok.inj h).symm⟩
  · split at h
    · exact exists_positions_of_position h
    · exact ⟨_, (Except.ok.inj h).symm⟩
  · exact ⟨_, (Except.ok.inj h).symm⟩
  · exact ⟨_, (Except.ok.inj h).symm⟩
  · exact ⟨[], (Except.ok.inj h).symm⟩

theorem exists_positions_of_predecessors (h : l.predecessors i node = .ok js) :
    ∃ ids, js = l.positions ids := by
  unfold predecessors at h
  split at h
  · exact ⟨_, (Except.ok.inj h).symm⟩
  · exact exists_positions_of_position h
  · exact ⟨[], (Except.ok.inj h).symm⟩
  all_goals
    split at h
    · unfold firstPredecessors at h
      split at h
      · exact ⟨_, (Except.ok.inj h).symm⟩
      · cases h
    · exact ⟨_, (Except.ok.inj h).symm⟩

theorem lt_length_of_mem_positions {ids : List NodeId} (h : j ∈ l.positions ids) :
    j < l.nodes.length := by
  obtain ⟨id, _, hid⟩ := List.mem_filterMap.mp h
  exact (List.idxOf?_eq_some_iff.mp hid).1

end Layout

namespace Built

variable {g : Graph} {method : NodeId} {fg : FlowGraph} {l : Layout} {i j : Nat}

theorem lt_size_of_mem_succ (h : Built g method fg l) (hj : j ∈ fg.succ i) :
    i < fg.size ∧ j < fg.size := by
  have hi : i < fg.size := by
    by_contra hi
    simp [succ, h.size_succTable, Nat.not_lt.mp hi] at hj
  have hid := List.getElem?_eq_getElem (h.size_eq ▸ hi)
  obtain ⟨ids, hids⟩ := Layout.exists_positions_of_successors (h.successors_eq hid)
  rw [hids] at hj
  exact ⟨hi, h.size_eq ▸ Layout.lt_length_of_mem_positions hj⟩

theorem pred_lt_size (h : Built g method fg l) (hj : j ∈ fg.pred i) : j < fg.size := by
  have hid := List.getElem?_eq_getElem (h.size_eq ▸ h.lt_size_of_mem_pred hj)
  obtain ⟨ids, hids⟩ := Layout.exists_positions_of_predecessors (h.predecessors_eq hid)
  rw [hids] at hj
  exact h.size_eq ▸ Layout.lt_length_of_mem_positions hj

/-! ## The table of nodes -/

theorem paramCount_eq (h : Built g method fg l) :
    l.paramCount = (g.parametersOf method).length := by
  obtain ⟨exit, _, rfl⟩ := h.layout
  rfl

theorem exit_eq (h : Built g method fg l) : g.methodReturn? method = some l.exit := by
  obtain ⟨exit, he, rfl⟩ := h.layout
  exact he

theorem first_eq (h : Built g method fg l) : l.first = g.firstNode? method := by
  obtain ⟨exit, _, rfl⟩ := h.layout
  rfl

/-- Without repeated parameters the table is made of its parts as they are. -/
theorem nodes_eq (h : Built g method fg l) (hg : g.WellFormed)
    (hparams : (g.parametersOf method).Nodup) :
    l.nodes = method :: (g.parametersOf method ++
      ((g.reversePostOrder method).filter fun id =>
        id ≠ method ∧ id ≠ l.exit ∧ id ∉ g.parametersOf method) ++ [l.exit]) := by
  have hm := h.isMethod
  obtain ⟨exit, he, rfl⟩ := h.layout
  rw [Layout.nodes_ofMethod hm he, Graph.methodNodes, eraseDups_of_nodup hparams, hg.bodyNodes_eq]
  rfl

theorem mem_nodes_iff (h : Built g method fg l) (hg : g.WellFormed)
    (hparams : (g.parametersOf method).Nodup) {id : NodeId} :
    id ∈ l.nodes ↔
      id = method ∨ id ∈ g.parametersOf method ∨ g.Reaches method id ∨ id = l.exit := by
  obtain ⟨i, hi⟩ := Graph.exists_slot_of_kind? h.isMethod
  rw [h.nodes_eq hg hparams]
  simp only [List.mem_cons, List.mem_append, List.mem_filter, decide_eq_true_eq, List.not_mem_nil,
    or_false, hg.mem_reversePostOrder_iff hi]
  tauto

theorem indexOf?_eq_some_iff (h : Built g method fg l) {id : NodeId} :
    fg.indexOf? id = some i ↔ fg.node? i = some id := by
  have hmem : i ∈ l.positions [id] ↔ ∃ id' ∈ [id], l.nodes[i]? = some id' :=
    Layout.mem_positions h.nodup_layout
  rw [h.node?_eq, indexOf?, h.nodes]
  simpa [Layout.positions] using hmem

theorem node?_exit (h : Built g method fg l) (hg : g.WellFormed)
    (hparams : (g.parametersOf method).Nodup) : fg.node? fg.exit = some l.exit := by
  rw [h.node?_eq, exit, h.size_eq, ← List.getLast?_eq_getElem?, h.nodes_eq hg hparams,
    ← List.cons_append, List.getLast?_concat]

end Built

/-- The numbering of a method whose parameters are the targets of different syntax edges.  The table
lists the method, the parameters, the rest of what control flow reaches in reverse post-order, and
the exit.  It lists no node twice, and a node is found at its position.  All neighbours of positions
are positions. -/
theorem ofMethod_numbering {g : Graph} {method : NodeId} {fg : FlowGraph} (hg : g.WellFormed)
    (hfg : ofMethod g method = .ok fg)
    (hparams : ((g.outNeighbors method .ast).filter fun id => (g.parameter? id).isSome).Nodup) :
    ∃ exit, g.methodReturn? method = some exit ∧ g.kind? exit = some .methodReturn ∧
      fg.nodes.toList = [method] ++ g.parametersOf method ++
        ((g.reversePostOrder method).filter fun id =>
          id ≠ method ∧ id ≠ exit ∧ id ∉ g.parametersOf method) ++ [exit] ∧
      fg.nodes.toList.Nodup ∧
      (∀ id, id ∈ fg.nodes.toList ↔
        id = method ∨ id ∈ g.parametersOf method ∨ g.Reaches method id ∨ id = exit) ∧
      (∀ i < fg.size, ∃ id, fg.node? i = some id ∧ fg.indexOf? id = some i) ∧
      (∀ id, id ∉ fg.nodes.toList → fg.indexOf? id = none) ∧
      fg.entry = 0 ∧ fg.node? fg.entry = some method ∧ fg.node? fg.exit = some exit ∧
      (∀ i j, j ∈ fg.succ i ∨ j ∈ fg.pred i → j < fg.size) := by
  obtain ⟨l, h⟩ := built_of_ofMethod hfg
  have hnodup := (g.perm_parametersOf method).nodup_iff.mpr hparams
  have hnodes : fg.nodes.toList = l.nodes := by rw [h.nodes]
  refine ⟨l.exit, h.exit_eq, Graph.kind?_of_methodReturn? h.exit_eq, ?_, h.nodup_nodes, ?_, ?_, ?_,
    rfl, ?_, h.node?_exit hg hnodup, ?_⟩
  · rw [hnodes, h.nodes_eq hg hnodup]
    simp
  · intro id
    rw [hnodes]
    exact h.mem_nodes_iff hg hnodup
  · intro i hi
    have hid : fg.node? i = some (fg.nodes[i]) := Array.getElem?_eq_getElem hi
    exact ⟨_, hid, h.indexOf?_eq_some_iff.mpr hid⟩
  · intro id hid
    rw [indexOf?, List.idxOf?_eq_none_iff]
    exact hid
  · rw [h.node?_eq]
    exact h.getElem?_entry
  · rintro i j (hj | hj)
    · exact (h.lt_size_of_mem_succ hj).2
    · exact h.pred_lt_size hj

/-- Two parameters, of which the second is in the loop of the body.  The body leads on to another
method, and the exit is not reached. -/
def entangled : List Operation :=
  [.addNode (.method "f" "f") {}, .addNode .methodReturn {}, .addNode (.parameter "b" 1) {},
    .addNode (.parameter "a" 0) {}, .addNode (.call "u" "u()") {}, .addNode (.call "v" "v()") {},
    .addNode (.method "g" "g") {}, .addNode (.call "w" "w()") {},
    .addEdge ⟨1⟩ ⟨3⟩ ⟨.ast, {}⟩, .addEdge ⟨1⟩ ⟨2⟩ ⟨.ast, {}⟩, .addEdge ⟨1⟩ ⟨4⟩ ⟨.ast, {}⟩,
    .addEdge ⟨1⟩ ⟨5⟩ ⟨.cfg, {}⟩, .addEdge ⟨5⟩ ⟨3⟩ ⟨.cfg, {}⟩, .addEdge ⟨3⟩ ⟨6⟩ ⟨.cfg, {}⟩,
    .addEdge ⟨6⟩ ⟨5⟩ ⟨.cfg, {}⟩, .addEdge ⟨6⟩ ⟨7⟩ ⟨.cfg, {}⟩, .addEdge ⟨8⟩ ⟨5⟩ ⟨.cfg, {}⟩]

def entangledFlow : FlowGraph where
  method := ⟨1⟩
  nodes := #[⟨1⟩, ⟨4⟩, ⟨3⟩, ⟨5⟩, ⟨6⟩, ⟨7⟩, ⟨2⟩]
  paramCount := 2
  succTable := #[[1], [2], [3], [2], [3, 5], [], []]
  predTable := #[[], [0], [1], [2, 4], [2], [], []]

/-- The parameter in the loop keeps its place, and the node that leads into the loop has none. -/
theorem entangled_numbering :
    (Graph.built entangled).WellFormed ∧
    ofMethod (Graph.built entangled) ⟨1⟩ = .ok entangledFlow ∧
    (((Graph.built entangled).outNeighbors ⟨1⟩ .ast).filter fun id =>
      ((Graph.built entangled).parameter? id).isSome).Nodup ∧
    (Graph.built entangled).reversePostOrder ⟨1⟩ = [⟨1⟩, ⟨5⟩, ⟨3⟩, ⟨6⟩, ⟨7⟩] ∧
    (Graph.built entangled).Reaches ⟨1⟩ ⟨7⟩ ∧ entangledFlow.indexOf? ⟨8⟩ = none ∧
    (Graph.built entangled).methodReturn? ⟨1⟩ = entangledFlow.node? entangledFlow.exit := by
  have hwf : (Graph.built entangled).WellFormed := Graph.wellFormed_built _
  have hfg : ofMethod (Graph.built entangled) ⟨1⟩ = .ok entangledFlow := by cbv
  have hparams : (((Graph.built entangled).outNeighbors ⟨1⟩ .ast).filter fun id =>
      ((Graph.built entangled).parameter? id).isSome).Nodup := by decide +kernel
  obtain ⟨exit, he, _, _, _, hmem, _, hother, _, _, hexit, _⟩ := ofMethod_numbering hwf hfg hparams
  have hreach : (Graph.built entangled).Reaches ⟨1⟩ ⟨7⟩ := by
    have hkind : ((Graph.built entangled).kind? ⟨7⟩).any NodeKind.isMethod = true := by
      decide +kernel
    have hparam := Graph.notMem_parametersOf (fun _ _ => rfl) hkind ⟨1⟩
    have hexit' : exit = ⟨2⟩ := (Option.some.inj hexit).symm
    rcases (hmem ⟨7⟩).mp (by decide) with heq | hmem | hreach | heq
    · exact absurd heq (by decide)
    · exact absurd hmem hparam
    · exact hreach
    · exact absurd (heq.trans hexit') (by decide)
  exact ⟨hwf, hfg, hparams, by decide +kernel, hreach, hother ⟨8⟩ (by decide), he.trans hexit.symm⟩

end DataFlow.FlowGraph

end CodeGraph
