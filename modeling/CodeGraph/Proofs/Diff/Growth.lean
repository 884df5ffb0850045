import CodeGraph.Proofs.Diff.Assignment
import CodeGraph.Proofs.Pass.DefUse
import Mathlib

/-!
# How much a script adds

A builder records new nodes, new edges and properties, and nothing that takes anything away.  So a
graph gains a node for every node that a script creates and an edge for every edge, and properties
change neither number (`Graph.WellFormed.gains_apply`).  As many new ids are reported as the script
creates nodes, if its keys can tell them apart (`Graph.WellFormed.length_newNodeIds`).
-/

namespace CodeGraph

/-- Whether a change creates an edge. -/
def Change.isCreateEdge : Change → Bool
  | .createEdge _ _ _ => true
  | _ => false

namespace Diff

/-- The number of edges created. -/
def newEdgeCount (d : Diff) : Nat := d.changes.countP Change.isCreateEdge

/-- A script that a builder has recorded. -/
def Built (d : Diff) : Prop := ∃ es, Diff.ofEdits es = .ok d

theorem isRecorded_of_mem_changesFrom {n : Nat} {es : List Edit} :
    ∀ c ∈ Edit.changesFrom n es, c.isRecorded := by
  induction es generalizing n with
  | nil => exact List.forall_mem_nil _
  | cons e es ih =>
    refine List.forall_mem_cons.mpr ⟨?_, ih⟩
    cases e <;> rfl

theorem Built.recorded {d : Diff} (h : d.Built) : d.Recorded := by
  obtain ⟨es, h⟩ := h
  obtain ⟨refs, b, hrecord, rfl⟩ := DiffBuilder.exists_recordAll h
  rw [Recorded, DiffBuilder.changes_build hrecord]
  exact isRecorded_of_mem_changesFrom

theorem countP_changesFrom (n : Nat) (es : List Edit) :
    (Edit.changesFrom n es).countP Change.isCreateNode = (Edit.kinds es).length := by
  induction es generalizing n with
  | nil => rfl
  | cons e es ih =>
    rw [Edit.changesFrom, Edit.kinds_cons, List.countP_cons, ih, List.length_append, Nat.add_comm]
    cases e <;> rfl

theorem expandedSize_eq (d : Diff) :
    d.expandedSize = d.size + (d.changes.map Change.carried).sum := by
  have hfold : ∀ (cs : List Change) (n : Nat), cs.foldl (fun n c => n + 1 + c.carried) n =
      n + cs.length + (cs.map Change.carried).sum := by
    intro cs
    induction cs with
    | nil => exact fun n => rfl
    | cons c cs ih =>
      intro n
      rw [List.foldl_cons, ih, List.length_cons, List.map_cons, List.sum_cons]
      omega
  rw [expandedSize, hfold, Nat.zero_add, size]

end Diff

namespace Graph

variable {g h f : Graph} {nodes edges more added : Nat}

/-! ## Nodes and edges -/

theorem WellFormed.setOf_isSome_node? (hg : g.WellFormed) :
    {id | (g.node? id).isSome} = ((g.allNodes.map Node.id).toFinset : Set NodeId) := by
  ext id
  rw [List.coe_toFinset, Set.mem_ofPred_eq, Set.mem_ofPred_eq, List.mem_map,
    Option.isSome_iff_exists]
  constructor
  · rintro ⟨n, hn⟩
    have hid := hg.id_of_node? hn
    exact ⟨n, hg.mem_allNodes.mpr (hid.symm ▸ hn), hid⟩
  · rintro ⟨n, hn, rfl⟩
    exact ⟨n, hg.mem_allNodes.mp hn⟩

/-- There are as many nodes as ids that are taken. -/
theorem WellFormed.nodeCount_eq (hg : g.WellFormed) :
    g.nodeCount = {id | (g.node? id).isSome}.ncard := by
  rw [hg.setOf_isSome_node?, Set.ncard_coe_finset, List.toFinset_card_of_nodup hg.nodup_ids,
    List.length_map]
  rfl

theorem WellFormed.nodeCount_of_update (hg : g.WellFormed) {id : NodeId} {n : Node}
    {links : List Link} (hh : h.Shows (Function.update g.node? id (some n)) links) :
    h.nodeCount = g.nodeCount + if (g.node? id).isSome then 0 else 1 := by
  have hset : {k | (h.node? k).isSome} = insert id {k | (g.node? k).isSome} := by
    ext k
    rw [Set.mem_insert_iff, Set.mem_ofPred_eq, Set.mem_ofPred_eq, hh.node?_eq,
      Function.update_apply]
    by_cases hk : k = id <;> simp [hk]
  have hfinite : {k | (g.node? k).isSome}.Finite := by
    rw [hg.setOf_isSome_node?]
    exact Finset.finite_toSet _
  rw [hh.wellFormed.nodeCount_eq, hg.nodeCount_eq, hset]
  split
  · next hid => rw [Set.insert_eq_of_mem (Set.mem_ofPred_eq ▸ hid), Nat.add_zero]
  · next hid => exact Set.ncard_insert_of_notMem hid hfinite

theorem Shows.edgeCount_eq {node : NodeId → Option Node} {links : List Link}
    (hh : h.Shows node links) : h.edgeCount = links.length := by
  rw [hh.wellFormed.edgeCount_eq, hh.links_eq]

/-- A graph with some nodes and edges more than another. -/
structure Gains (g h : Graph) (nodes edges : Nat) : Prop where
  wellFormed : h.WellFormed
  nodeCount_eq : h.nodeCount = g.nodeCount + nodes
  edgeCount_eq : h.edgeCount = g.edgeCount + edges

theorem WellFormed.gains_zero (hg : g.WellFormed) : g.Gains g 0 0 := ⟨hg, rfl, rfl⟩

theorem Gains.trans (hgh : g.Gains h nodes edges) (hhf : h.Gains f more added) :
    g.Gains f (nodes + more) (edges + added) where
  wellFormed := hhf.wellFormed
  nodeCount_eq := by rw [hhf.nodeCount_eq, hgh.nodeCount_eq, Nat.add_assoc]
  edgeCount_eq := by rw [hhf.edgeCount_eq, hgh.edgeCount_eq, Nat.add_assoc]

theorem WellFormed.gains_insertNode (hg : g.WellFormed) {n : Node}
    (h' : g.insertNode n = .ok h) : g.Gains h 1 0 := by
  obtain ⟨hnew, hshows⟩ := hg.shows_of_insertNode h'
  refine ⟨hshows.wellFormed, ?_, ?_⟩
  · rw [hg.nodeCount_of_update hshows, hnew]
    rfl
  · rw [hshows.edgeCount_eq, hg.edgeCount_eq, Nat.add_zero]

theorem WellFormed.gains_addEdge (hg : g.WellFormed) {src dst : NodeId} {edge : Edge}
    (h' : g.addEdge src dst edge = .ok h) : g.Gains h 0 1 := by
  obtain ⟨_, _, hshows⟩ := hg.shows_of_addEdge h'
  refine ⟨hshows.wellFormed, ?_, ?_⟩
  · rw [hshows.wellFormed.nodeCount_eq, hg.nodeCount_eq, hshows.node?_eq, Nat.add_zero]
  · rw [hshows.edgeCount_eq, hg.edgeCount_eq, List.length_cons]

theorem WellFormed.gains_updateProperties (hg : g.WellFormed) {id : NodeId} {key : String}
    {f : Properties → Except GraphError Properties} {previous : Option PropertyValue}
    (h' : g.updateProperties id key f = .ok (previous, h)) : g.Gains h 0 0 := by
  obtain ⟨n, _, hn, _, _, hshows⟩ := hg.shows_of_updateProperties h'
  refine ⟨hshows.wellFormed, ?_, ?_⟩
  · rw [hg.nodeCount_of_update hshows, hn]
    rfl
  · rw [hshows.edgeCount_eq, hg.edgeCount_eq, Nat.add_zero]

end Graph

/-! ## Scripts -/

namespace Progress

variable {p p' : Progress} {c : Change} {cs : List Change}

theorem gains_commit {r : Except GraphError (Graph × List Change)} {nodes edges : Nat}
    (h : p.commit r = (p', none))
    (hr : ∀ g us, r = .ok (g, us) → p.graph.Gains g nodes edges) :
    p.graph.Gains p'.graph nodes edges := by
  obtain ⟨g, us, hok, rfl⟩ := commit_eq_none h
  exact hr g us hok

/-- What a change of the kinds that analyses record adds. -/
theorem gains_apply (hp : p.graph.WellFormed) (hc : c.isRecorded) (h : p.apply c = (p', none)) :
    p.graph.Gains p'.graph c.isCreateNode.toNat c.isCreateEdge.toNat := by
  cases c with
  | createNode key kind properties =>
    obtain ⟨id, p₁, g, hdraw, hinsert, rfl⟩ := createNode_eq_none h
    have hinserted := (draw_eq_ok hp hdraw).1.gains_insertNode hinsert
    -- the allocator or the pool moves on, but nodes and edges stay as they are
    obtain ⟨_, _, rfl⟩ | ⟨_, _, _, _, rfl⟩ := draw_cases hdraw
    · exact ⟨hinserted.wellFormed, hinserted.nodeCount_eq, hinserted.edgeCount_eq⟩
    · exact hinserted
  | createEdge src dst edge =>
    refine gains_commit h fun g us hok => ?_
    obtain ⟨src, _, hok⟩ := bind_eq_ok hok
    obtain ⟨dst, _, hok⟩ := bind_eq_ok hok
    obtain ⟨g, hadd, hok⟩ := bind_eq_ok hok
    cases hok
    exact hp.gains_addEdge hadd
  | setProperty node key value =>
    refine gains_commit h fun g us hok => ?_
    obtain ⟨node, _, hok⟩ := bind_eq_ok hok
    obtain ⟨⟨previous, g⟩, hset, hok⟩ := bind_eq_ok hok
    cases hok
    exact hp.gains_updateProperties hset
  | addProperty node key value =>
    refine gains_commit h fun g us hok => ?_
    obtain ⟨node, _, hok⟩ := bind_eq_ok hok
    obtain ⟨⟨previous, g⟩, hadd, hok⟩ := bind_eq_ok hok
    cases hok
    exact hp.gains_updateProperties hadd
  | removeNode | removeEdge | restoreProperty | restoreNode => cases hc

theorem gains_applyAll (hp : p.graph.WellFormed) (hcs : ∀ c ∈ cs, c.isRecorded)
    (h : p.applyAll cs = (p', none)) : p.graph.Gains p'.graph (cs.countP Change.isCreateNode)
      (cs.countP Change.isCreateEdge) := by
  induction cs generalizing p with
  | nil =>
    cases h
    exact hp.gains_zero
  | cons c cs ih =>
    obtain ⟨hc, hcs⟩ := List.forall_mem_cons.mp hcs
    obtain ⟨p₁, happly, hrest⟩ := applyAll_cons_eq_none h
    have hfirst := gains_apply hp hc happly
    have hall := hfirst.trans (ih hfirst.wellFormed hcs hrest)
    rw [List.countP_cons, List.countP_cons, Nat.add_comm, Nat.add_comm (cs.countP _)]
    simpa only [Bool.toNat, Bool.cond_eq_ite] using hall

end Progress

namespace Graph

variable {g : Graph} {d : Diff} {pool : Option KeyPool} {withInverse : Bool} {a : Applied}

theorem diff_of_apply (h : (g.apply d pool withInverse).result = .ok a) : a.diff = d := by
  obtain ⟨_, _, _, rfl⟩ := apply_eq_ok h
  rfl

/-- A script adds the nodes and the edges that it creates. -/
theorem WellFormed.gains_apply (hg : g.WellFormed) (hd : d.Recorded)
    (h : (g.apply d pool withInverse).result = .ok a) :
    g.Gains (g.apply d pool withInverse).graph d.newNodeCount d.newEdgeCount := by
  obtain ⟨p, hall, hgraph, _⟩ := apply_eq_ok h
  rw [hgraph]
  exact Progress.gains_applyAll hg hd hall

/-- A script reports an id for every node that it creates. -/
theorem WellFormed.length_newNodeIds (hg : g.WellFormed) (hd : d.Built)
    (h : (g.apply d pool withInverse).result = .ok a) :
    a.newNodeIds.length = d.newNodeCount := by
  obtain ⟨es, hd⟩ := hd
  obtain ⟨refs, b, hrecord, rfl⟩ := DiffBuilder.exists_recordAll hd
  obtain ⟨_, hchanges, hkeys⟩ := DiffBuilder.recordAll_eq_ok (n := 0) rfl hrecord
  obtain ⟨p, hall, _, ha⟩ := apply_eq_ok h
  rw [DiffBuilder.changes_build hrecord] at hall
  obtain ⟨ids, hids⟩ := Progress.exists_assigns hg hall
  have hlength := hids.length_eq
  have hsize : ids.length ≤ UInt32.size := by omega
  have hcreated : ∀ key : UInt32, a.created[key]? = ids[key.toNat]? := by
    rw [ha]
    exact hids.getElem?_created_start rfl hsize
  rw [Applied.newNodeIds_eq hsize hcreated, Diff.newNodeCount, DiffBuilder.changes_build hrecord,
    Diff.countP_changesFrom, hlength]

end Graph

end CodeGraph
