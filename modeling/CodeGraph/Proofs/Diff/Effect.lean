import CodeGraph.Diff.Apply
import CodeGraph.Proofs.Graph.View
import Mathlib

/-!
# What a change makes of a view

A change that names nodes by their ids depends on the view of the graph alone.
`Effect` says what it makes of a view, and where it can be made.  A change with an
effect on the view of a well-formed graph is carried out there
(`Progress.apply_of_effect`).  The other way round, an operation of a graph that
succeeds has the effect of its change on the view.
-/

namespace CodeGraph

namespace View

/-- The list that a value is appended to.  A missing list counts as empty. -/
def listed? : Option PropertyValue → Option (List PropertyValue)
  | none => some []
  | some (.list items) => some items
  | some _ => none

/-- What a change makes of a view, where it can be made. -/
inductive Effect : Change → View → View → Prop where
  | restoreNode {v : View} {n : Node} (hnew : v.node n.id = none) :
      Effect (.restoreNode n) v (v.put n.id (some n.view))
  | removeNode {v : View} {id : NodeId} {n : NodeView} (hnode : v.node id = some n) :
      Effect (.removeNode id) v
        { v.put id none with edges := v.edges.filter fun e => ¬ (e.src = id ∨ e.dst = id) }
  | restoreProperty {v : View} {id : NodeId} {n : NodeView} (hnode : v.node id = some n)
      (key : String) (value : Option PropertyValue) :
      Effect (.restoreProperty id key value) v
        (v.put id (some { n with properties := Function.update n.properties key value }))
  | setProperty {v : View} {id : NodeId} {n : NodeView} (hnode : v.node id = some n)
      (key : String) (value : PropertyValue) :
      Effect (.setProperty (.existing id) key value) v
        (v.put id (some { n with properties := Function.update n.properties key (some value) }))
  | addProperty {v : View} {id : NodeId} {n : NodeView} (hnode : v.node id = some n)
      {key : String} {items : List PropertyValue} (hlist : listed? (n.properties key) = some items)
      (value : PropertyValue) :
      Effect (.addProperty (.existing id) key value) v
        (v.put id (some { n with
          properties := Function.update n.properties key (some (.list (items ++ [value]))) }))
  | createEdge {v : View} {src dst : NodeId} (hsrc : (v.node src).isSome)
      (hdst : (v.node dst).isSome) (edge : Edge) :
      Effect (.createEdge (.existing src) (.existing dst) edge) v
        { v with edges := Link.view ⟨src, dst, edge⟩ ::ₘ v.edges }
  | removeEdge {v : View} {src dst : NodeId} {edge : Edge} {es : Multiset EdgeView}
      (hedges : v.edges = Link.view ⟨src, dst, edge⟩ ::ₘ es) :
      Effect (.removeEdge src dst edge) v { v with edges := es }

/-- What changes one after the other make of a view. -/
inductive Effects : List Change → View → View → Prop where
  | nil {v : View} : Effects [] v v
  | cons {c : Change} {cs : List Change} {v w x : View} (h : Effect c v w) (hs : Effects cs w x) :
      Effects (c :: cs) v x

variable {c : Change} {cs ds : List Change} {u v w : View}

theorem Effect.effects_of_eq (h : Effect c u v) (hv : v = w) : Effects [c] u w :=
  .cons h (hv ▸ .nil)

theorem Effects.append (hcs : Effects cs u v) (hds : Effects ds v w) : Effects (cs ++ ds) u w := by
  induction hcs with
  | nil => exact hds
  | cons h _ ih => exact .cons h (ih hds)

/-- Edges between nodes that are there can be put in, one after the other. -/
theorem effects_createEdges (ls : List Link)
    (hends : ∀ l ∈ ls, (v.node l.src).isSome ∧ (v.node l.dst).isSome) :
    Effects (ls.map fun l => .createEdge (.existing l.src) (.existing l.dst) l.edge) v
      { v with edges := v.edges + ls.map Link.view } := by
  induction ls generalizing v with
  | nil =>
    rw [List.map_nil, List.map_nil, Multiset.coe_nil, Multiset.add_zero]
    exact .nil
  | cons l ls ih =>
    obtain ⟨hl, hls⟩ := List.forall_mem_cons.mp hends
    have hrest := ih (v := { v with edges := l.view ::ₘ v.edges }) hls
    rw [Multiset.cons_add] at hrest
    rw [List.map_cons, List.map_cons, ← Multiset.cons_coe, Multiset.add_cons]
    exact .cons (.createEdge hl.1 hl.2 l.edge) hrest

end View

/-! ## Changes are carried out -/

namespace Graph

variable {g : Graph} {v : View} {id src dst : NodeId} {key : String} {edge : Edge}

/-- Of the edges that are the same as a given one, any may be removed as far as the view goes. -/
theorem edges_eq_cons_eraseP {links : List Link} {l : Link}
    (hl : links.find? (·.same ⟨src, dst, edge⟩) = some l) :
    (links.map Link.view : Multiset EdgeView) =
      Link.view ⟨src, dst, edge⟩ ::ₘ (links.eraseP (·.same ⟨src, dst, edge⟩)).map Link.view := by
  obtain ⟨k, newer, older, _, hk, hlinks, herase⟩ :=
    List.exists_of_eraseP (List.mem_of_find?_eq_some hl) (List.find?_some hl)
  rw [herase, hlinks, ← Link.same_iff.mp hk, Multiset.cons_coe, Multiset.coe_eq_coe]
  rw [List.map_append, List.map_cons, List.map_append]
  exact List.perm_middle

theorem edges_filter (links : List Link) (id : NodeId) :
    ((links.filter fun l => !(l.src = id || l.dst = id)).map Link.view : Multiset EdgeView) =
      (links.map Link.view : Multiset EdgeView).filter fun e => ¬ (e.src = id ∨ e.dst = id) := by
  rw [Multiset.filter_coe, List.filter_map]
  congr 2
  apply List.filter_congr
  intro l _
  change _ = decide (¬ (l.src = id ∨ l.dst = id))
  simp

theorem appended_eq {p : Properties} {items : List PropertyValue}
    (h : View.listed? (p.get? key) = some items) (value : PropertyValue) :
    appended id key value p = .ok (p.insert key (.list (items ++ [value]))) := by
  unfold appended
  cases hp : p.get? key with
  | none =>
    rw [hp] at h
    cases h
    rfl
  | some v =>
    rw [hp] at h
    cases v with
    | list items' => cases h; rfl
    | _ => cases h

theorem listed?_of_appended {p q : Properties} {value : PropertyValue}
    (h : appended id key value p = .ok q) : ∃ items,
    View.listed? (p.get? key) = some items ∧ q = p.insert key (.list (items ++ [value])) := by
  unfold appended at h
  cases hp : p.get? key with
  | none =>
    rw [hp] at h
    cases h
    exact ⟨[], rfl, rfl⟩
  | some v =>
    rw [hp] at h
    cases v with
    | list items => cases h; exact ⟨items, rfl, rfl⟩
    | _ => cases h

/-- The view after a property of a node was changed. -/
theorem WellFormed.view_updateProperties (hg : WellFormed g) {n : NodeView}
    (hn : g.view.node id = some n) {f : Properties → Except GraphError Properties}
    {value : Option PropertyValue}
    (hf : ∀ p, p.get? = n.properties → ∃ q, f p = .ok q ∧
      q.get? = Function.update p.get? key value) :
    ∃ previous g', g.updateProperties id key f = .ok (previous, g') ∧ g'.WellFormed ∧
      g'.view =
        g.view.put id (some { n with properties := Function.update n.properties key value }) := by
  obtain ⟨n, hnode, rfl⟩ := node?_eq_some_of_view hn
  obtain ⟨q, hq, hget⟩ := hf n.properties rfl
  obtain ⟨g', hok, hshows⟩ := hg.shows_updateProperties hnode key hq
  refine ⟨_, g', hok, hshows.wellFormed, ?_⟩
  rw [hshows.view_put, Option.map_some, Node.view, hget]
  rfl

/-- The view after an edge was removed. -/
theorem WellFormed.view_removeEdge (hg : WellFormed g) {es : Multiset EdgeView}
    (hedges : g.view.edges = Link.view ⟨src, dst, edge⟩ ::ₘ es) :
    ∃ removed g', g.removeEdge src dst edge = .ok (removed, g') ∧ g'.WellFormed ∧
      g'.view = { g.view with edges := es } := by
  have hmem : Link.view ⟨src, dst, edge⟩ ∈ g.view.edges := by
    rw [hedges]
    exact Multiset.mem_cons_self _ es
  obtain ⟨l, hl, hview⟩ := List.mem_map.mp (Multiset.mem_coe.mp hmem)
  obtain ⟨hsrc, hdst⟩ := hg.ends_of_mem_edges hmem
  obtain ⟨_, hs⟩ : ∃ n, g.node? src = some n := exists_node?_of_view hsrc
  obtain ⟨_, hd⟩ : ∃ n, g.node? dst = some n := exists_node?_of_view hdst
  have hremove := hg.shows_removeEdge hs hd edge
  cases hfind : g.links.find? (·.same ⟨src, dst, edge⟩) with
  | none => exact absurd (Link.same_iff.mpr hview) (List.find?_eq_none.mp hfind l hl)
  | some k =>
    rw [hfind] at hremove
    obtain ⟨g', hok, hshows⟩ := hremove
    refine ⟨_, g', hok, hshows.wellFormed, ?_⟩
    have hcons := (edges_eq_cons_eraseP hfind).symm.trans hedges
    rw [hshows.view_eq, (Multiset.cons_inj_right _).mp hcons]
    rfl

end Graph

namespace Progress

open View (Effect Effects)

variable {p : Progress} {c : Change} {cs : List Change} {v w : View}

/-- A change that writes a property of a node is carried out. -/
theorem apply_of_updateProperties (hp : p.graph.WellFormed) {id : NodeId} {n : NodeView}
    (hnode : p.graph.view.node id = some n) {key : String} {value : Option PropertyValue}
    {f : Properties → Except GraphError Properties}
    (hf : ∀ q, q.get? = n.properties → ∃ q', f q = .ok q' ∧
      q'.get? = Function.update q.get? key value)
    (hc : ∀ previous g, p.graph.updateProperties id key f = .ok (previous, g) →
      p.apply c = p.commit (.ok (g, [.restoreProperty id key previous]))) :
    ∃ p', p.apply c = (p', none) ∧ p'.graph.WellFormed ∧ p'.graph.view =
      p.graph.view.put id
        (some { n with properties := Function.update n.properties key value }) := by
  obtain ⟨previous, g, hok, hg, hview⟩ := hp.view_updateProperties hnode hf
  exact ⟨_, hc previous g hok, hg, hview⟩

/-- A change that has an effect on the view is carried out. -/
theorem apply_of_effect (hp : p.graph.WellFormed) (h : Effect c p.graph.view w) :
    ∃ p', p.apply c = (p', none) ∧ p'.graph.WellFormed ∧ p'.graph.view = w := by
  generalize hv : p.graph.view = v at h
  cases h with
  | @restoreNode _ n hnew =>
    subst hv
    obtain ⟨g, hok, hshows⟩ := hp.shows_insertNode (Graph.node?_eq_none_of_view hnew)
    exact ⟨_, by rw [apply, hok]; rfl, hshows.wellFormed, hshows.view_put⟩
  | @removeNode _ id n hnode =>
    subst hv
    obtain ⟨n, hn, _⟩ := Graph.node?_eq_some_of_view hnode
    obtain ⟨g, hok, hshows⟩ := hp.shows_removeNode hn
    refine ⟨_, by rw [apply, hok]; rfl, hshows.wellFormed, ?_⟩
    rw [hshows.view_put, Graph.edges_filter]
    rfl
  | @restoreProperty _ id n hnode key value =>
    subst hv
    cases value with
    | some value =>
      refine apply_of_updateProperties hp hnode
        (fun q _ => ⟨q.insert key value, rfl, q.get?_insert key value⟩) fun previous g hok => ?_
      rw [apply]
      dsimp only [Graph.setProperty]
      rw [hok]
      rfl
    | none =>
      refine apply_of_updateProperties hp hnode
        (fun q _ => ⟨q.erase key, rfl, q.get?_erase key⟩) fun previous g hok => ?_
      rw [apply]
      dsimp only [Graph.removeProperty]
      rw [hok]
      rfl
  | @setProperty _ id n hnode key value =>
    subst hv
    refine apply_of_updateProperties hp hnode
      (fun q _ => ⟨q.insert key value, rfl, q.get?_insert key value⟩) fun previous g hok => ?_
    rw [apply]
    dsimp only [resolve, Graph.setProperty, Except.bind, bind]
    rw [hok]
    rfl
  | @addProperty _ id n hnode key items hlist value =>
    subst hv
    refine apply_of_updateProperties hp hnode (f := Graph.appended id key value)
      (fun q hq => ⟨_, Graph.appended_eq (hq ▸ hlist) value, q.get?_insert key _⟩)
      fun previous g hok => ?_
    rw [apply]
    dsimp only [resolve, Graph.appendProperty, Except.bind, bind]
    rw [hok]
    rfl
  | @createEdge _ src dst hsrc hdst edge =>
    subst hv
    obtain ⟨_, hs⟩ := Graph.exists_node?_of_view hsrc
    obtain ⟨_, hd⟩ := Graph.exists_node?_of_view hdst
    obtain ⟨g, hok, hshows⟩ := hp.shows_addEdge hs hd edge
    have happly : p.apply (.createEdge (.existing src) (.existing dst) edge) =
        p.commit (.ok (g, [.removeEdge src dst edge])) := by
      rw [apply]
      dsimp only [resolve, Except.bind, bind]
      rw [hok]
      rfl
    refine ⟨_, happly, hshows.wellFormed, ?_⟩
    rw [hshows.view_eq]
    rfl
  | @removeEdge _ src dst edge es hedges =>
    subst hv
    obtain ⟨removed, g, hok, hg, hview⟩ := hp.view_removeEdge hedges
    exact ⟨_, by rw [apply, hok]; rfl, hg, hview⟩

/-- Changes that have an effect on the view are carried out one after the other. -/
theorem applyAll_of_effects (hp : p.graph.WellFormed) (h : Effects cs p.graph.view w) :
    ∃ p', p.applyAll cs = (p', none) ∧ p'.graph.WellFormed ∧ p'.graph.view = w := by
  generalize hv : p.graph.view = v at h
  induction h generalizing p with
  | nil => exact ⟨p, rfl, hp, hv⟩
  | cons h _ ih =>
    subst hv
    obtain ⟨p₁, happly, hp₁, hview₁⟩ := apply_of_effect hp h
    obtain ⟨p', hall, hp', hview'⟩ := ih hp₁ hview₁
    exact ⟨p', by rw [applyAll, happly]; exact hall, hp', hview'⟩

end Progress

/-! ## Operations have effects -/

namespace Graph

open View (Effect)

variable {g g' : Graph} {id src dst : NodeId} {n : Node} {key : String} {edge : Edge}
  {value : PropertyValue} {previous : Option PropertyValue}

theorem effect_insertNode (hg : WellFormed g) (h : g.insertNode n = .ok g') :
    g'.WellFormed ∧ Effect (.restoreNode n) g.view g'.view := by
  obtain ⟨hnew, hshows⟩ := hg.shows_of_insertNode h
  have hview : g'.view = g.view.put n.id (some n.view) := hshows.view_put
  refine ⟨hshows.wellFormed, ?_⟩
  rw [hview]
  exact .restoreNode (Option.map_eq_none_iff.mpr hnew)

theorem effect_removeNode (hg : WellFormed g) (h : g.removeNode id = .ok (n, g')) :
    g'.WellFormed ∧ Effect (.removeNode id) g.view g'.view := by
  obtain ⟨hn, hshows⟩ := hg.shows_of_removeNode h
  refine ⟨hshows.wellFormed, ?_⟩
  rw [hshows.view_put, edges_filter]
  exact .removeNode (view_node_of_node? hn)

/-- The view after an operation changed the properties of a node. -/
theorem WellFormed.view_of_updateProperties (hg : WellFormed g)
    {f : Properties → Except GraphError Properties}
    (h : g.updateProperties id key f = .ok (previous, g')) : ∃ n p,
    g.view.node id = some (Node.view n) ∧ f n.properties = .ok p ∧
      g'.WellFormed ∧ g'.view = g.view.put id (some { n.view with properties := p.get? }) := by
  obtain ⟨n, p, hn, hp, _, hshows⟩ := hg.shows_of_updateProperties h
  exact ⟨n, p, view_node_of_node? hn, hp, hshows.wellFormed, hshows.view_put⟩

theorem effect_setProperty (hg : WellFormed g)
    (h : g.setProperty id key value = .ok (previous, g')) :
    g'.WellFormed ∧ Effect (.setProperty (.existing id) key value) g.view g'.view ∧
      Effect (.restoreProperty id key (some value)) g.view g'.view := by
  obtain ⟨n, p, hn, hp, hg', hview⟩ := hg.view_of_updateProperties h
  cases hp
  rw [hview, Properties.get?_insert]
  exact ⟨hg', .setProperty hn key value, .restoreProperty hn key (some value)⟩

theorem effect_removeProperty (hg : WellFormed g)
    (h : g.removeProperty id key = .ok (previous, g')) :
    g'.WellFormed ∧ Effect (.restoreProperty id key none) g.view g'.view := by
  obtain ⟨n, p, hn, hp, hg', hview⟩ := hg.view_of_updateProperties h
  cases hp
  rw [hview, Properties.get?_erase]
  exact ⟨hg', .restoreProperty hn key none⟩

theorem effect_appendProperty (hg : WellFormed g)
    (h : g.appendProperty id key value = .ok (previous, g')) :
    g'.WellFormed ∧ Effect (.addProperty (.existing id) key value) g.view g'.view := by
  obtain ⟨n, p, hn, hp, hg', hview⟩ := hg.view_of_updateProperties h
  obtain ⟨items, hlist, rfl⟩ := listed?_of_appended hp
  rw [hview, Properties.get?_insert]
  exact ⟨hg', .addProperty hn hlist value⟩

theorem effect_addEdge (hg : WellFormed g) (h : g.addEdge src dst edge = .ok g') :
    g'.WellFormed ∧ Effect (.createEdge (.existing src) (.existing dst) edge) g.view g'.view := by
  obtain ⟨hsrc, hdst, hshows⟩ := hg.shows_of_addEdge h
  refine ⟨hshows.wellFormed, ?_⟩
  rw [hshows.view_eq]
  exact .createEdge (Option.isSome_map.trans hsrc) (Option.isSome_map.trans hdst) edge

theorem effect_removeEdge (hg : WellFormed g) {removed : Edge}
    (h : g.removeEdge src dst edge = .ok (removed, g')) :
    g'.WellFormed ∧ Effect (.removeEdge src dst edge) g.view g'.view := by
  obtain ⟨l, hfind, _, hshows⟩ := hg.shows_of_removeEdge h
  refine ⟨hshows.wellFormed, ?_⟩
  rw [hshows.view_eq]
  exact .removeEdge (edges_eq_cons_eraseP hfind)

end Graph

end CodeGraph
