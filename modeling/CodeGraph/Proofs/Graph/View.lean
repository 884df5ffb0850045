import CodeGraph.Graph.Content
import CodeGraph.Proofs.Graph.WellFormed
import CodeGraph.Proofs.Property
import Mathlib.Data.Multiset.Basic

/-!
# The view of a graph

The *view* of a graph is its content without a chosen order: which node an id
has, what properties are found in it, and the multiset of edges.  Two well-formed
graphs of one view have the same content (`content_eq_of_view_eq`), and the other way
round (`view_eq_of_content_eq`), so what is proved of views holds of contents.

The sorted lists of a content say no more than the view.  For the nodes this is
so because ids are distinct.  For the edges it takes that their order is
antisymmetric, and it is, since no two lists of properties have the same text.
-/

namespace CodeGraph

/-! ## The order of edges -/

namespace ContentEdge

theorem order_eq : order = compareLex (compareOn src) (compareLex (compareOn dst)
    (compareLex (compareOn fun e => e.kind.rank) (compareOn text))) := rfl

instance : Std.TransCmp order := by
  rw [order_eq]
  infer_instance

theorem rank_injective {k l : EdgeKind} (h : k.rank = l.rank) : k = l := by
  cases k <;> cases l <;> first | rfl | cases h

theorem text_injective {e f : ContentEdge} (h : e.text = f.text) : e.properties = f.properties := by
  have hjson := Json.render_injective .compact (Properties.bounded_membersOf e.properties)
    (Properties.bounded_membersOf f.properties) h
  exact Properties.membersOf_injective (Json.obj.inj hjson)

instance : Std.LawfulEqCmp order where
  eq_of_compare {e f} h := by
    simp only [order, Ordering.then_eq_eq, Std.LawfulEqOrd.compare_eq_iff_eq] at h
    obtain ⟨hsrc, hdst, hkind, htext⟩ := h
    change (⟨e.src, e.dst, e.kind, e.properties⟩ : ContentEdge) =
      ⟨f.src, f.dst, f.kind, f.properties⟩
    rw [hsrc, hdst, rank_injective hkind, text_injective htext]

theorem pairwise_mergeSort (es : List ContentEdge) :
    (es.mergeSort fun e f => (e.order f).isLE).Pairwise fun e f => (e.order f).isLE := by
  refine List.pairwise_mergeSort (fun e f k => Std.TransCmp.isLE_trans) ?_ es
  intro e f
  have hswap : e.order f = (f.order e).swap := Std.OrientedCmp.eq_swap
  rw [hswap]
  cases f.order e <;> rfl

end ContentEdge

/-! ## Views -/

/-- A node without its id and without the order of its properties. -/
structure NodeView where
  kind : NodeKind
  properties : String → Option PropertyValue

/-- An edge without the order of its properties. -/
structure EdgeView where
  src : NodeId
  dst : NodeId
  kind : EdgeKind
  properties : String → Option PropertyValue

/-- The nodes by id and the edges of a graph. -/
structure View where
  node : NodeId → Option NodeView
  edges : Multiset EdgeView

namespace View

/-- The view with another node under an id, or without a node there. -/
def put (v : View) (id : NodeId) (n : Option NodeView) : View :=
  { v with node := Function.update v.node id n }

@[simp]
theorem put_put (v : View) (id : NodeId) (m n : Option NodeView) :
    (v.put id m).put id n = v.put id n := by
  rw [put, put, Function.update_idem]
  rfl

@[simp]
theorem put_self (v : View) (id : NodeId) : v.put id (v.node id) = v := by
  rw [put, Function.update_eq_self]

@[simp]
theorem node_put_self (v : View) (id : NodeId) (n : Option NodeView) :
    (v.put id n).node id = n := by
  simp [put]

end View

def Node.view (n : Node) : NodeView := ⟨n.kind, n.properties.get?⟩

def Link.view (l : Link) : EdgeView := ⟨l.src, l.dst, l.edge.kind, l.edge.properties.get?⟩

/-- The view of a graph. -/
def Graph.view (g : Graph) : View := ⟨Option.map Node.view ∘ g.node?, g.links.map Link.view⟩

theorem Link.same_iff {l k : Link} : l.same k ↔ l.view = k.view := by
  simp [Link.same, Edge.same, Link.view, Properties.same_iff, and_assoc]

/-- Whether two nodes differ in no more than the order of their properties. -/
def Node.same (n m : Node) : Bool :=
  n.id = m.id && n.kind = m.kind && n.properties.same m.properties

theorem Node.same_iff {n m : Node} : n.same m ↔ n.id = m.id ∧ n.view = m.view := by
  simp [Node.same, Node.view, Properties.same_iff, and_assoc]

theorem ContentEdge.ofLink_eq_of_view_eq {l k : Link} (h : l.view = k.view) :
    ofLink l = ofLink k := by
  obtain ⟨hsrc, hdst, hkind, hprops⟩ := EdgeView.mk.inj h
  rw [ofLink, ofLink, hsrc, hdst, hkind, Properties.sorted_eq_iff.mpr hprops]

theorem ContentNode.ofNode_eq_of_view_eq {n m : Node} (hid : n.id = m.id) (h : n.view = m.view) :
    ofNode n = ofNode m := by
  obtain ⟨hkind, hprops⟩ := NodeView.mk.inj h
  rw [ofNode, ofNode, hid, hkind, Properties.sorted_eq_iff.mpr hprops]

theorem ContentEdge.view_eq_of_ofLink_eq {l k : Link} (h : ofLink l = ofLink k) :
    l.view = k.view := by
  obtain ⟨hsrc, hdst, hkind, hprops⟩ := ContentEdge.mk.inj h
  rw [Link.view, Link.view, hsrc, hdst, hkind, Properties.sorted_eq_iff.mp hprops]

theorem ContentNode.view_eq_of_ofNode_eq {n m : Node} (h : ofNode n = ofNode m) :
    n.id = m.id ∧ n.view = m.view := by
  obtain ⟨hid, hkind, hprops⟩ := ContentNode.mk.inj h
  rw [Node.view, Node.view, hkind, Properties.sorted_eq_iff.mp hprops]
  exact ⟨hid, rfl⟩

namespace Graph

variable {g h : Graph} {id : NodeId} {n : Node}

/-! ## The nodes of a content -/

theorem WellFormed.mem_allNodes (hg : WellFormed g) : n ∈ g.allNodes ↔ g.node? n.id = some n := by
  unfold allNodes
  rw [Slots.mem_elements]
  constructor
  · rintro ⟨i, hi⟩
    exact hg.node?_eq_some_iff.mpr ⟨rfl, i, hg.slot?_of_get? hi, hi⟩
  · intro hn
    obtain ⟨_, i, _, hi⟩ := hg.node?_eq_some_iff.mp hn
    exact ⟨i, hi⟩

/-- Of what is put in under one id the last is kept. -/
theorem getElem?_foldl_insert {α β : Type} (key : α → NodeId) (value : α → β) (es : List α)
    (m : Std.TreeMap NodeId β) (id : NodeId) :
    (es.foldl (fun m e => m.insert (key e) (value e)) m)[id]? =
      ((es.reverse.find? fun e => key e = id).map value).or m[id]? := by
  induction es generalizing m with
  | nil => simp
  | cons e es ih =>
    rw [List.foldl_cons, ih, Std.TreeMap.getElem?_insert, List.reverse_cons, List.find?_append]
    by_cases hid : key e = id
    · cases es.reverse.find? fun e => key e = id <;> simp [hid]
    · simp [hid]

theorem WellFormed.getElem?_nodesById (hg : WellFormed g) (id : NodeId) :
    g.nodesById[id]? = g.node? id := by
  have hempty : ({} : Std.TreeMap NodeId Node)[id]? = none := Std.TreeMap.getElem?_emptyc
  rw [nodesById, getElem?_foldl_insert Node.id fun n => n, hempty, Option.or_none,
    Option.map_id_fun']
  apply Option.ext
  intro n
  constructor
  · intro hfind
    have hid : n.id = id := by simpa using List.find?_some hfind
    rw [← hid, ← hg.mem_allNodes]
    exact List.mem_reverse.mp (List.mem_of_find?_eq_some hfind)
  · intro hn
    have hid := hg.id_of_node? hn
    have hmem : n ∈ g.allNodes := hg.mem_allNodes.mpr (hid ▸ hn)
    cases hfind : g.allNodes.reverse.find? fun n => n.id = id with
    | none => simpa [hid] using List.find?_eq_none.mp hfind n (List.mem_reverse.mpr hmem)
    | some m =>
      have hmid : m.id = id := by simpa using List.find?_some hfind
      have hm := hg.mem_allNodes.mp (List.mem_reverse.mp (List.mem_of_find?_eq_some hfind))
      rw [hmid, hn] at hm
      exact hm.symm

theorem WellFormed.mem_content_nodes (hg : WellFormed g) {c : ContentNode} :
    c ∈ g.content.nodes ↔ ∃ id n, g.node? id = some n ∧ ContentNode.ofNode n = c := by
  simp only [content, List.mem_map, Prod.exists, Std.TreeMap.mem_toList_iff_getElem?_eq_some,
    hg.getElem?_nodesById]

theorem WellFormed.pairwise_content_nodes (hg : WellFormed g) :
    g.content.nodes.Pairwise fun a b => compare a.id b.id = .lt := by
  refine List.pairwise_map.mpr ?_
  refine Std.TreeMap.ordered_keys_toList.imp_of_mem ?_
  rintro ⟨a, n⟩ ⟨b, m⟩ hn hm hlt
  rw [Std.TreeMap.mem_toList_iff_getElem?_eq_some, hg.getElem?_nodesById] at hn hm
  simp only [ContentNode.ofNode, hg.id_of_node? hn, hg.id_of_node? hm]
  exact hlt

theorem content_nodes_subset (hg : WellFormed g) (hh : WellFormed h)
    (hnodes : g.view.node = h.view.node) {c : ContentNode} (hc : c ∈ g.content.nodes) :
    c ∈ h.content.nodes := by
  obtain ⟨id, n, hn, rfl⟩ := hg.mem_content_nodes.mp hc
  have hnode : (g.node? id).map Node.view = (h.node? id).map Node.view := congrFun hnodes id
  rw [hn, Option.map_some, eq_comm, Option.map_eq_some_iff] at hnode
  obtain ⟨m, hm, hmn⟩ := hnode
  have hid : m.id = n.id := (hh.id_of_node? hm).trans (hg.id_of_node? hn).symm
  exact hh.mem_content_nodes.mpr ⟨id, m, hm, ContentNode.ofNode_eq_of_view_eq hid hmn⟩

theorem content_nodes_eq (hg : WellFormed g) (hh : WellFormed h)
    (hnodes : g.view.node = h.view.node) : g.content.nodes = h.content.nodes := by
  have hnodup : ∀ {g : Graph}, WellFormed g → g.content.nodes.Nodup := by
    intro g hg
    refine hg.pairwise_content_nodes.imp ?_
    rintro a b hlt rfl
    rw [Std.ReflOrd.compare_self] at hlt
    cases hlt
  have hperm : g.content.nodes.Perm h.content.nodes := by
    refine (List.perm_ext_iff_of_nodup (hnodup hg) (hnodup hh)).mpr fun c => ?_
    exact ⟨content_nodes_subset hg hh hnodes, content_nodes_subset hh hg hnodes.symm⟩
  refine hperm.eq_of_pairwise ?_ hg.pairwise_content_nodes hh.pairwise_content_nodes
  intro a b _ _ hab hba
  have hswap : compare a.id b.id = (compare b.id a.id).swap := Std.OrientedOrd.eq_swap
  rw [hba, hab] at hswap
  cases hswap

/-! ## The edges of a content -/

theorem perm_content_edges (g : Graph) :
    g.content.edges.Perm (g.allLinks.map ContentEdge.ofLink) :=
  List.mergeSort_perm _ _

theorem content_edges_eq (hg : WellFormed g) (hh : WellFormed h)
    (hedges : g.view.edges = h.view.edges) : g.content.edges = h.content.edges := by
  -- the content of an edge is a function of its view
  have : Nonempty ContentEdge := ⟨.ofLink default⟩
  obtain ⟨f, hf⟩ := (Function.factorsThrough_iff ContentEdge.ofLink).mp
    fun _ _ => ContentEdge.ofLink_eq_of_view_eq
  have hlinks : (g.links.map Link.view).Perm (h.links.map Link.view) :=
    Multiset.coe_eq_coe.mp hedges
  have hlinks := hlinks.map f
  rw [List.map_map, List.map_map, ← hf] at hlinks
  have hall : (g.allLinks.map ContentEdge.ofLink).Perm (h.allLinks.map ContentEdge.ofLink) :=
    ((hg.perm_allLinks.map _).trans hlinks).trans (hh.perm_allLinks.map _).symm
  refine List.Perm.eq_of_pairwise ?_ (ContentEdge.pairwise_mergeSort _)
    (ContentEdge.pairwise_mergeSort _)
    (g.perm_content_edges.trans (hall.trans h.perm_content_edges.symm))
  intro a b _ _ hab hba
  exact Std.LawfulEqCmp.eq_of_compare (Std.OrientedCmp.isLE_antisymm hab hba)

/-- Well-formed graphs of one view have the same content. -/
theorem content_eq_of_view_eq (hg : WellFormed g) (hh : WellFormed h) (hview : g.view = h.view) :
    g.content = h.content := by
  rw [Content.mk.injEq]
  exact ⟨content_nodes_eq hg hh (congrArg View.node hview),
    content_edges_eq hg hh (congrArg View.edges hview)⟩

/-! ## What a view says of a graph -/

theorem node?_eq_none_of_view (h : g.view.node id = none) : g.node? id = none :=
  Option.map_eq_none_iff.mp h

theorem node?_eq_some_of_view {v : NodeView} (h : g.view.node id = some v) :
    ∃ n, g.node? id = some n ∧ n.view = v :=
  Option.map_eq_some_iff.mp h

theorem exists_node?_of_view (h : (g.view.node id).isSome) : ∃ n, g.node? id = some n :=
  Option.isSome_iff_exists.mp (Option.isSome_map.symm.trans h)

theorem view_node_of_node? (h : g.node? id = some n) : g.view.node id = some n.view := by
  change (g.node? id).map Node.view = _
  rw [h, Option.map_some]

/-! ## The view of a content -/

/-- Where every node of a graph has one of the same id and view in another graph, what is seen
there under an id is seen here. -/
theorem view_node_of_allNodes (hg : WellFormed g) (hh : WellFormed h)
    (hall : ∀ n ∈ g.allNodes, ∃ m ∈ h.allNodes, m.id = n.id ∧ m.view = n.view) {v : NodeView}
    (hv : g.view.node id = some v) : h.view.node id = some v := by
  obtain ⟨n, hn, rfl⟩ := node?_eq_some_of_view hv
  have hid := hg.id_of_node? hn
  obtain ⟨m, hm, hmid, hview⟩ := hall n (hg.mem_allNodes.mpr (hid ▸ hn))
  rw [hh.mem_allNodes, hmid, hid] at hm
  rw [view_node_of_node? hm, hview]

theorem view_node_eq_of_allNodes (hg : WellFormed g) (hh : WellFormed h)
    (hnodes : ∀ n ∈ g.allNodes, ∃ m ∈ h.allNodes, m.id = n.id ∧ m.view = n.view)
    (hnodes' : ∀ n ∈ h.allNodes, ∃ m ∈ g.allNodes, m.id = n.id ∧ m.view = n.view) :
    g.view.node = h.view.node := by
  funext id
  apply Option.ext
  intro v
  exact ⟨view_node_of_allNodes hg hh hnodes, view_node_of_allNodes hh hg hnodes'⟩

theorem content_nodes_view (hg : WellFormed g) (hh : WellFormed h)
    (hnodes : g.content.nodes = h.content.nodes) :
    ∀ n ∈ g.allNodes, ∃ m ∈ h.allNodes, m.id = n.id ∧ m.view = n.view := by
  intro n hn
  have hmem : ContentNode.ofNode n ∈ g.content.nodes :=
    hg.mem_content_nodes.mpr ⟨n.id, n, hg.mem_allNodes.mp hn, rfl⟩
  obtain ⟨id, m, hm, hmn⟩ := hh.mem_content_nodes.mp (hnodes ▸ hmem)
  have hid := hh.id_of_node? hm
  exact ⟨m, hh.mem_allNodes.mpr (hid ▸ hm), ContentNode.view_eq_of_ofNode_eq hmn⟩

theorem content_edges_view (hg : WellFormed g) (hh : WellFormed h)
    (hedges : g.content.edges = h.content.edges) : g.view.edges = h.view.edges := by
  -- the view of an edge is a function of its content
  have : Nonempty EdgeView := ⟨Link.view default⟩
  obtain ⟨f, hf⟩ := (Function.factorsThrough_iff Link.view).mp
    fun _ _ => ContentEdge.view_eq_of_ofLink_eq
  have hall : (g.allLinks.map ContentEdge.ofLink).Perm (h.allLinks.map ContentEdge.ofLink) :=
    (g.perm_content_edges.symm.trans (.of_eq hedges)).trans h.perm_content_edges
  have hlinks : (g.links.map ContentEdge.ofLink).Perm (h.links.map ContentEdge.ofLink) :=
    ((hg.perm_allLinks.map _).symm.trans hall).trans (hh.perm_allLinks.map _)
  have hlinks := hlinks.map f
  rw [List.map_map, List.map_map, ← hf] at hlinks
  exact Multiset.coe_eq_coe.mpr hlinks

/-- Well-formed graphs of the same content have one view. -/
theorem view_eq_of_content_eq (hg : WellFormed g) (hh : WellFormed h)
    (hcontent : g.content = h.content) : g.view = h.view := by
  obtain ⟨hnodes, hedges⟩ := Content.mk.inj hcontent
  rw [View.mk.injEq]
  exact ⟨view_node_eq_of_allNodes hg hh (content_nodes_view hg hh hnodes)
    (content_nodes_view hh hg hnodes.symm), content_edges_view hg hh hedges⟩

/-- Graphs with the same nodes and edges have one view, whatever their order. -/
theorem view_eq_of_same (hg : WellFormed g) (hh : WellFormed h)
    (hnodes : ∀ n ∈ g.allNodes, ∃ m ∈ h.allNodes, m.same n)
    (hnodes' : ∀ n ∈ h.allNodes, ∃ m ∈ g.allNodes, m.same n)
    (ls : List Link) (hperm : ls.Perm h.links) (hlinks : g.links.Forall₂ (fun l k => l.same k) ls) :
    g.view = h.view := by
  have hedges : g.links.map Link.view = ls.map Link.view := by
    rw [← List.forall₂_eq_eq_eq, List.forall₂_map_left_iff, List.forall₂_map_right_iff]
    exact hlinks.imp fun l k => Link.same_iff.mp
  rw [View.mk.injEq]
  refine ⟨view_node_eq_of_allNodes hg hh ?_ ?_, ?_⟩
  · simpa only [Node.same_iff] using hnodes
  · simpa only [Node.same_iff] using hnodes'
  · exact Multiset.coe_eq_coe.mpr (hedges ▸ hperm.map _)

/-! ## Values -/

/-- The values of the properties of a graph. -/
def values (g : Graph) : List PropertyValue :=
  g.allNodes.flatMap (fun n => n.properties.values) ++
    g.allLinks.flatMap fun l => l.edge.properties.values

theorem mem_values_of_mem_allNodes {x : PropertyValue} (hn : n ∈ g.allNodes)
    (hx : x ∈ n.properties.values) : x ∈ g.values :=
  List.mem_append_left _ (List.mem_flatMap.mpr ⟨n, hn, hx⟩)

theorem mem_values_of_mem_allLinks {l : Link} {x : PropertyValue} (hl : l ∈ g.allLinks)
    (hx : x ∈ l.edge.properties.values) : x ∈ g.values :=
  List.mem_append_right _ (List.mem_flatMap.mpr ⟨l, hl, hx⟩)

/-! ## The view after an operation -/

theorem Shows.view_eq {node : NodeId → Option Node} {links : List Link} (h : Shows g node links) :
    g.view = ⟨Option.map Node.view ∘ node, links.map Link.view⟩ := by
  rw [view, h.node?_eq, h.links_eq]

/-- The view after the node of one id has changed. -/
theorem Shows.view_put {m : Option Node} {links : List Link}
    (hs : Shows h (Function.update g.node? id m) links) :
    h.view = { g.view.put id (m.map Node.view) with edges := links.map Link.view } := by
  rw [hs.view_eq, Function.comp_update]
  rfl

theorem WellFormed.ends_of_mem_edges (hg : WellFormed g) {e : EdgeView} (he : e ∈ g.view.edges) :
    (g.view.node e.src).isSome ∧ (g.view.node e.dst).isSome := by
  obtain ⟨l, hl, rfl⟩ := List.mem_map.mp (Multiset.mem_coe.mp he)
  obtain ⟨hs, hd⟩ := hg.ends_of_mem_links hl
  exact ⟨Option.isSome_map.trans hs, Option.isSome_map.trans hd⟩

end Graph

end CodeGraph
