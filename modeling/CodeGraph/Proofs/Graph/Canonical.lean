import CodeGraph.Proofs.Graph.Reload
import Mathlib

/-!
# Contents as canonical forms

The content of a graph is a value that can be compared with another.  It is faithful: no more is
forgotten than slots, the state of the allocator, the order in which edges were added and the order
of names in property maps.  It is canonical: whatever has been forgotten does not show.

The second is in question where edges run between the same nodes and are of one kind.  They are
sorted by the text of their properties, so all depends on different properties having different
texts (`ContentEdge.text_injective`).
-/

namespace CodeGraph.Graph

variable {g h : Graph}

/-- The same ids with the same kinds and the same values of properties. -/
def SameNodes (g h : Graph) : Prop :=
  ∀ id, (g.node? id).map Node.view = (h.node? id).map Node.view

/-- The same edges, each as often, where the order of properties does not count. -/
def SameEdges (g h : Graph) : Prop :=
  (g.allLinks.map Link.view : Multiset EdgeView) = h.allLinks.map Link.view

theorem sameNodes_iff : SameNodes g h ↔ g.view.node = h.view.node := funext_iff.symm

theorem WellFormed.edges_view (hg : g.WellFormed) :
    g.view.edges = (g.allLinks.map Link.view : Multiset EdgeView) :=
  Multiset.coe_eq_coe.mpr (hg.perm_allLinks.map _).symm

theorem sameEdges_iff (hg : g.WellFormed) (hh : h.WellFormed) :
    SameEdges g h ↔ g.view.edges = h.view.edges := by
  rw [SameEdges, hg.edges_view, hh.edges_view]

theorem content_nodes_eq_iff (hg : g.WellFormed) (hh : h.WellFormed) :
    g.content.nodes = h.content.nodes ↔ SameNodes g h := by
  rw [sameNodes_iff]
  refine ⟨fun hnodes => ?_, content_nodes_eq hg hh⟩
  exact view_node_eq_of_allNodes hg hh (content_nodes_view hg hh hnodes)
    (content_nodes_view hh hg hnodes.symm)

theorem content_edges_eq_iff (hg : g.WellFormed) (hh : h.WellFormed) :
    g.content.edges = h.content.edges ↔ SameEdges g h := by
  rw [sameEdges_iff hg hh]
  exact ⟨content_edges_view hg hh, content_edges_eq hg hh⟩

/-- Two graphs have the same content exactly when they have the same nodes and the same edges.  The
list of edges is determined by the edges alone. -/
theorem content_faithful (hg : g.WellFormed) (hh : h.WellFormed) :
    (g.content = h.content ↔ SameNodes g h ∧ SameEdges g h) ∧
      (g.content.edges = h.content.edges ↔ SameEdges g h) := by
  refine ⟨?_, content_edges_eq_iff hg hh⟩
  rw [← content_nodes_eq_iff hg hh, ← content_edges_eq_iff hg hh]
  constructor
  · intro hcontent
    exact ⟨congrArg Content.nodes hcontent, congrArg Content.edges hcontent⟩
  · rintro ⟨hnodes, hedges⟩
    rw [Content.mk.injEq]
    exact ⟨hnodes, hedges⟩

/-- Edges between the same nodes whose properties look alike as texts. -/
def parallels : List Operation :=
  [.addNode .block {}, .addNode .block (.ofList [("line", .int 1), ("code", .str "{}")]),
    .addEdge ⟨1⟩ ⟨2⟩ ⟨.cfg, .ofList [("a", .int 1), ("b", .bool true)]⟩,
    .addEdge ⟨1⟩ ⟨2⟩ ⟨.cfg, .ofList [("a", .str "1,\"b\":true")]⟩,
    .addEdge ⟨1⟩ ⟨2⟩ ⟨.cfg, .ofList [("a", .list [.int 1, .list []])]⟩]

/-- The same edges added the other way round, after some that are gone. -/
def parallelsReversed : List Operation :=
  [.insertNode ⟨⟨2⟩, .block, .ofList [("code", .str "{}"), ("line", .int 1)]⟩,
    .insertNode ⟨⟨7⟩, .block, {}⟩, .insertNode ⟨⟨1⟩, .block, {}⟩, .addEdge ⟨7⟩ ⟨1⟩ ⟨.cfg, {}⟩,
    .addEdge ⟨1⟩ ⟨2⟩ ⟨.cfg, .ofList [("a", .list [.int 1, .list []])]⟩,
    .addEdge ⟨1⟩ ⟨2⟩ ⟨.cfg, .ofList [("a", .str "1,\"b\":true")]⟩, .removeNode ⟨7⟩,
    .addEdge ⟨1⟩ ⟨2⟩ ⟨.cfg, .ofList [("b", .bool true), ("a", .int 1)]⟩]

theorem parallels_content :
    (built parallels).WellFormed ∧ (built parallelsReversed).WellFormed ∧
    (built parallels).allLinks ≠ (built parallelsReversed).allLinks ∧
    (built parallels).content = (built parallelsReversed).content ∧
    (built parallels).content.edges = (built parallelsReversed).content.edges := by
  have hg : (built parallels).WellFormed := wellFormed_built _
  have hh : (built parallelsReversed).WellFormed := wellFormed_built _
  have hview : (built parallels).view = (built parallelsReversed).view := by
    refine view_eq_of_same hg hh (by decide +kernel) (by decide +kernel)
      [⟨⟨1⟩, ⟨2⟩, ⟨.cfg, .ofList [("a", .list [.int 1, .list []])]⟩⟩,
        ⟨⟨1⟩, ⟨2⟩, ⟨.cfg, .ofList [("a", .str "1,\"b\":true")]⟩⟩,
        ⟨⟨1⟩, ⟨2⟩, ⟨.cfg, .ofList [("b", .bool true), ("a", .int 1)]⟩⟩] ?_ ?_
    · decide +kernel
    · decide +kernel
  have hedges := (sameEdges_iff hg hh).mpr (congrArg View.edges hview)
  obtain ⟨hcontent, hlist⟩ := content_faithful hg hh
  exact ⟨hg, hh, by decide +kernel,
    hcontent.mpr ⟨sameNodes_iff.mpr (congrArg View.node hview), hedges⟩, hlist.mpr hedges⟩

end CodeGraph.Graph
