import CodeGraph.Pass.ReachingDefs
import CodeGraph.Proofs.DataFlow.FlowGraph
import CodeGraph.Proofs.Graph.Model
import CodeGraph.Proofs.Graph.Reload
import Mathlib

/-!
# What the analysis of a method reads

Of the edges of a graph, the analysis of a method reads all but those that record reaching
definitions.  `flowArcs` lists the others, newest first.  Graphs that agree on these, on their nodes
and on their index (`SameFlow`) give the same answers to every question that the analysis asks: the
neighbours of each kind in their order, the depth-first walk, the arguments of a call, and so the
flow graph and the definitions and uses.

Edges that record reaching definitions can be added and removed without a change to any of this
(`Annotated`), although they share slots and adjacency with the other edges.
-/

namespace CodeGraph.Graph

variable {g h : Graph} {id src dst : NodeId} {i j k : Nat} {edge : Edge} {kind : EdgeKind}

/-- The arc in a slot, unless it records a reaching definition. -/
def flowArc? (g : Graph) (k : Nat) : Option Arc :=
  (g.arcs.get? k).filter fun a => a.edge.kind ≠ .reachingDef

/-- The arcs that record no reaching definition, newest first. -/
def flowArcs (g : Graph) : List Arc := g.recent.filterMap g.flowArc?

/-- Two graphs have the same nodes and the same edges of all kinds but one, in the same order. -/
structure SameFlow (g h : Graph) : Prop where
  nodes : g.nodes = h.nodes
  index : g.index = h.index
  flowArcs : g.flowArcs = h.flowArcs

/-! ## Questions -/

/-- What is read off the edges without those that record reaching definitions. -/
theorem filterMap_recent_eq {β : Type} {f : Arc → Option β}
    (hf : ∀ a, a.edge.kind = .reachingDef → f a = none) :
    (g.recent.filterMap fun k => (g.arcs.get? k).bind f) = g.flowArcs.filterMap f := by
  rw [flowArcs, List.filterMap_filterMap]
  refine List.filterMap_congr fun k _ => ?_
  unfold flowArc?
  cases g.arcs.get? k with
  | none => rfl
  | some a =>
    by_cases ha : a.edge.kind = .reachingDef
    · simp [Option.filter_some, ha, hf a ha]
    · simp [Option.filter_some, ha]

/-- The neighbours over arcs that a test selects. -/
theorem neighbors_eq (p : Arc → Bool) (f : Link → NodeId) (hkind : kind ≠ .reachingDef) :
    (((g.linksOf (g.recent.filter fun k => (g.arcs.get? k).any p)).reverse.filter
        fun l => l.edge.kind = kind).map f) =
      (g.flowArcs.filterMap fun a =>
        if p a && a.edge.kind = kind then (g.link? a).map f else none).reverse := by
  rw [← filterMap_recent_eq]
  · rw [List.filter_reverse, List.map_reverse, linksOf, List.filter_filterMap, List.map_filterMap,
      List.filterMap_filter]
    congr 1
    refine List.filterMap_congr fun k _ => ?_
    cases g.arcs.get? k with
    | none => rfl
    | some a =>
      have hlink : ∀ l, g.link? a = some l → l.edge = a.edge := by
        intro l hl
        unfold link? at hl
        split at hl
        · cases hl; rfl
        · cases hl
      cases hl : g.link? a with
      | none => simp [hl]
      | some l =>
        have := hlink l hl
        by_cases hp : p a <;> by_cases hk : a.edge.kind = kind <;> simp [hl, hp, hk, this]
  · intro a ha
    rw [if_neg]
    simp [ha, Ne.symm hkind]

namespace SameFlow

theorem refl (g : Graph) : SameFlow g g := ⟨rfl, rfl, rfl⟩

theorem trans {f : Graph} (hgh : SameFlow g h) (hhf : SameFlow h f) : SameFlow g f :=
  ⟨hgh.nodes.trans hhf.nodes, hgh.index.trans hhf.index, hgh.flowArcs.trans hhf.flowArcs⟩

theorem slot?_eq (hs : SameFlow g h) : g.slot? = h.slot? := by
  funext id
  rw [slot?, slot?, hs.index]

theorem node?_eq (hs : SameFlow g h) : g.node? = h.node? := by
  funext id
  rw [node?, node?, hs.slot?_eq, hs.nodes]

theorem kind?_eq (hs : SameFlow g h) : g.kind? = h.kind? := by
  funext id
  rw [kind?, kind?, hs.node?_eq]

theorem link?_eq (hs : SameFlow g h) : g.link? = h.link? := by
  funext a
  rw [link?, link?, hs.nodes]

theorem methods_eq (hs : SameFlow g h) : g.methods = h.methods := by
  rw [methods, methods, allNodes, allNodes, hs.nodes]

theorem outNeighbors_eq (hs : SameFlow g h) (id : NodeId) (hkind : kind ≠ .reachingDef) :
    g.outNeighbors id kind = h.outNeighbors id kind := by
  rw [outNeighbors, outNeighbors, outLinks, outLinks, hs.slot?_eq]
  cases h.slot? id with
  | none => rfl
  | some i =>
    simp only [leaving]
    rw [neighbors_eq _ _ hkind, neighbors_eq _ _ hkind, hs.flowArcs, hs.link?_eq]

theorem inNeighbors_eq (hs : SameFlow g h) (id : NodeId) (hkind : kind ≠ .reachingDef) :
    g.inNeighbors id kind = h.inNeighbors id kind := by
  rw [inNeighbors, inNeighbors, inLinks, inLinks, hs.slot?_eq]
  cases h.slot? id with
  | none => rfl
  | some i =>
    simp only
    rw [neighbors_eq _ _ hkind, neighbors_eq _ _ hkind, hs.flowArcs, hs.link?_eq]

theorem arguments_eq (hs : SameFlow g h) : g.arguments = h.arguments := by
  funext call
  rw [arguments, arguments, hs.outNeighbors_eq call (by decide), hs.node?_eq]

theorem nextSlots_eq (hs : SameFlow g h) : g.nextSlots = h.nextSlots := by
  have hnext : ∀ (g : Graph) (i : Nat), g.nextSlots i =
      (g.flowArcs.filterMap fun a =>
        if a.src = i && a.edge.kind = .cfg then some a.dst else none).reverse := by
    intro g i
    rw [← filterMap_recent_eq]
    · rw [nextSlots]
      congr 2
      funext k
      cases g.arcs.get? k <;> rfl
    · intro a ha
      simp [ha]
  funext i
  rw [hnext, hnext, hs.flowArcs]

theorem reversePostOrder_eq (hs : SameFlow g h) (method : NodeId) :
    g.reversePostOrder method = h.reversePostOrder method := by
  rw [reversePostOrder, reversePostOrder, hs.slot?_eq, hs.nextSlots_eq, nodeCount, nodeCount,
    hs.nodes]

end SameFlow

/-! ## Edges that record reaching definitions -/

/-- The same graph up to edges that record reaching definitions. -/
structure Annotated (g h : Graph) : Prop extends SameFlow g h where
  consistent : h.Consistent

theorem Consistent.annotated (hg : g.Consistent) : Annotated g g := ⟨.refl g, hg⟩

theorem Annotated.trans {f : Graph} (hgh : Annotated g h) (hhf : Annotated h f) : Annotated g f :=
  ⟨hgh.toSameFlow.trans hhf.toSameFlow, hhf.consistent⟩

/-- The new arc is not read, and takes a slot that was vacant. -/
theorem Consistent.flowArcs_join (hg : g.Consistent) (hkind : edge.kind = .reachingDef) :
    (g.join i j edge).flowArcs = g.flowArcs := by
  have hnew := hg.not_mem_recent_insert ⟨i, j, edge⟩
  have hget := hg.arcs.get?_insert ⟨i, j, edge⟩
  have hskip : (g.join i j edge).flowArc? (g.arcs.insert ⟨i, j, edge⟩).1 = none := by
    simp [flowArc?, arcs_join, hget, Option.filter_some, hkind]
  rw [flowArcs, recent_join, List.filterMap_cons_none hskip]
  refine List.filterMap_congr fun k hk => ?_
  have hne : k ≠ (g.arcs.insert ⟨i, j, edge⟩).1 := by
    rintro rfl
    exact hnew hk
  simp [flowArc?, arcs_join, hget, hne]

/-- Taking out what a selection passes over does not change the selection. -/
theorem filterMap_erase_of_eq_none {β : Type} {f : Nat → Option β} (hk : f k = none)
    (ks : List Nat) : (ks.erase k).filterMap f = ks.filterMap f := by
  induction ks with
  | nil => rfl
  | cons m ks ih =>
    by_cases hm : m = k
    · subst hm
      rw [List.erase_cons_head, List.filterMap_cons_none hk]
    · rw [List.erase_cons_tail (by simpa using hm), List.filterMap_cons, List.filterMap_cons, ih]

theorem flowArcs_cut (hk : g.flowArc? k = none) : (g.cut k).flowArcs = g.flowArcs := by
  have hsame : (g.cut k).flowArc? = g.flowArc? := by
    funext m
    by_cases hm : m = k
    · subst hm
      rw [hk]
      simp [flowArc?, cut, Slots.get?_erase]
    · simp [flowArc?, cut, Slots.get?_erase, hm]
  rw [flowArcs, hsame]
  exact filterMap_erase_of_eq_none hk g.recent

theorem Consistent.annotated_addEdge (hg : g.Consistent) (hkind : edge.kind = .reachingDef)
    (hok : g.addEdge src dst edge = .ok h) : Annotated g h := by
  obtain ⟨i, j, hi, hj, rfl⟩ := addEdge_eq_ok hok
  exact ⟨⟨rfl, rfl, (hg.flowArcs_join hkind).symm⟩,
    hg.join (hg.isSome_of_slot? hi) (hg.isSome_of_slot? hj) edge⟩

/-- The edge that is removed is of the kind that was asked for. -/
theorem Consistent.annotated_removeEdge (hg : g.Consistent) (hkind : edge.kind = .reachingDef)
    {removed : Edge} (hok : g.removeEdge src dst edge = .ok (removed, h)) :
    Annotated g h ∧ removed.kind = .reachingDef := by
  obtain ⟨k, a, ha, rfl, hsame, rfl⟩ := removeEdge_eq_ok hok
  simp only [Edge.same, Bool.and_eq_true, decide_eq_true_eq] at hsame
  have hremoved : a.edge.kind = .reachingDef := hsame.1.trans hkind
  have hskip : g.flowArc? k = none := by simp [flowArc?, ha, Option.filter_some, hremoved]
  exact ⟨⟨⟨rfl, rfl, (flowArcs_cut hskip).symm⟩, hg.cut k⟩, hremoved⟩

end CodeGraph.Graph

namespace CodeGraph

open CodeGraph.Graph (SameFlow)
open DataFlow (FlowGraph ReachingDefs)

variable {g h : Graph}

/-! ## The analysis of a method -/

theorem Graph.SameFlow.flowGraph_eq (hs : SameFlow g h) (method : NodeId) :
    FlowGraph.ofMethod g method = FlowGraph.ofMethod h method :=
  FlowGraph.ofMethod_congr hs.kind?_eq (fun id => hs.outNeighbors_eq id (by decide))
    (funext fun id => hs.outNeighbors_eq id (by decide))
    (funext fun id => hs.inNeighbors_eq id (by decide)) hs.reversePostOrder_eq method

theorem Graph.SameFlow.reachingDefs_eq (hs : SameFlow g h) (method : NodeId) :
    ReachingDefs.ofMethod g method = ReachingDefs.ofMethod h method := by
  have hdefines : ReachingDefs.definition? g = ReachingDefs.definition? h := by
    funext id
    rw [ReachingDefs.definition?, ReachingDefs.definition?, hs.kind?_eq, hs.arguments_eq]
  have huses : ReachingDefs.usesOf g = ReachingDefs.usesOf h := by
    funext id
    rw [ReachingDefs.usesOf, ReachingDefs.usesOf, hs.kind?_eq, hs.arguments_eq]
  rw [ReachingDefs.ofMethod, ReachingDefs.ofMethod, hs.flowGraph_eq, hdefines, huses]

theorem Graph.SameFlow.reachingDefsPart_eq (hs : SameFlow g h) (method : NodeId) :
    reachingDefsPart method g = reachingDefsPart method h := by
  rw [reachingDefsPart, reachingDefsPart, hs.reachingDefs_eq]

end CodeGraph
