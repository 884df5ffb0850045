import CodeGraph.Proofs.Diff.Cursor
import CodeGraph.Proofs.Graph.Reload
import Mathlib

/-!
# Scripts see no more than the content

Graphs of the same content may differ in their slots, in the order in which their
edges were added and in the order of properties.  A script that is applied does not see
this.  Two graphs that differ in nothing else (`Graph.Indistinct`) are taken by each
change to two such graphs, or the change fails on both for the same reason.

The notes that undo a removed node list its edges in an order that the graphs need not
share, so they are not compared.  After a failure each graph goes back to its own
content, and these are the same.
-/

namespace CodeGraph

/-- Two operations fail for the same reason, or succeed with results that are related. -/
inductive Matched {α β : Type} (R : α → β → Prop) :
    Except GraphError α → Except GraphError β → Prop where
  | error (e : GraphError) : Matched R (.error e) (.error e)
  | ok {a : α} {b : β} (h : R a b) : Matched R (.ok a) (.ok b)

namespace Matched

theorem of_eq {α : Type} {x y : Except GraphError α} (h : x = y) : Matched Eq x y := by
  subst h
  cases x with
  | error e => exact .error e
  | ok a => exact .ok rfl

theorem cases {α β : Type} {R : α → β → Prop} {x : Except GraphError α} {y : Except GraphError β}
    (h : Matched R x y) :
    (∃ e, x = .error e ∧ y = .error e) ∨ ∃ a b, x = .ok a ∧ y = .ok b ∧ R a b := by
  cases h with
  | error e => exact .inl ⟨e, rfl, rfl⟩
  | ok hab => exact .inr ⟨_, _, rfl, rfl, hab⟩

theorem bind {α β γ δ : Type} {R : α → β → Prop} {S : γ → δ → Prop} {x : Except GraphError α}
    {y : Except GraphError β} {f : α → Except GraphError γ} {k : β → Except GraphError δ}
    (h : Matched R x y) (hf : ∀ a b, R a b → Matched S (f a) (k b)) :
    Matched S (x >>= f) (y >>= k) := by
  cases h with
  | error e => exact .error e
  | ok hab => exact hf _ _ hab

end Matched

/-! ## Operations on graphs of one content -/

namespace Graph

/-- Two well-formed graphs of one view, whose allocators look next at the same id. -/
structure Indistinct (g h : Graph) : Prop where
  left : g.WellFormed
  right : h.WellFormed
  view : g.view = h.view
  nextId : g.nextId = h.nextId

variable {g h : Graph}

namespace Indistinct

theorem content (hi : Indistinct g h) : g.content = h.content :=
  content_eq_of_view_eq hi.left hi.right hi.view

/-- An id names no node in either graph, or one that looks the same. -/
theorem node?_cases (hi : Indistinct g h) (id : NodeId) :
    (g.node? id = none ∧ h.node? id = none) ∨
      ∃ n m, g.node? id = some n ∧ h.node? id = some m ∧ n.view = m.view := by
  have hnode : g.view.node id = h.view.node id := by rw [hi.view]
  cases hn : g.node? id with
  | none =>
    have hnone : h.view.node id = none := hnode.symm.trans (Option.map_eq_none_iff.mpr hn)
    exact .inl ⟨rfl, node?_eq_none_of_view hnone⟩
  | some n =>
    obtain ⟨m, hm, hview⟩ := node?_eq_some_of_view (hnode.symm.trans (view_node_of_node? hn))
    exact .inr ⟨n, m, rfl, hm, hview.symm⟩

theorem contains_eq (hi : Indistinct g h) : g.contains = h.contains := by
  funext id
  rw [hi.left.contains_eq, hi.right.contains_eq]
  obtain ⟨hn, hm⟩ | ⟨n, m, hn, hm, _⟩ := hi.node?_cases id
  · rw [hn, hm]
  · rw [hn, hm, Option.isSome_some, Option.isSome_some]

theorem withNextId (hi : Indistinct g h) (next : UInt64) :
    Indistinct { g with nextId := next } { h with nextId := next } := by
  have hg := hi.left.shows_withNextId next
  have hh := hi.right.shows_withNextId next
  refine ⟨hg.wellFormed, hh.wellFormed, ?_, rfl⟩
  rw [hg.view_eq, hh.view_eq]
  exact hi.view

/-- The allocators hand out the same id. -/
theorem allocate (hi : Indistinct g h) :
    Matched (fun a b => a.1 = b.1 ∧ Indistinct a.2 b.2) g.allocate h.allocate := by
  have hsupply : g.supply = h.supply := by
    rw [supply, supply, hi.contains_eq, hi.nextId]
  cases hg : g.supply with
  | nil =>
    rw [allocate_of_supply_nil hg, allocate_of_supply_nil (hsupply ▸ hg)]
    exact .error _
  | cons id rest =>
    rw [allocate_of_supply hg, allocate_of_supply (hsupply ▸ hg)]
    exact .ok ⟨rfl, hi.withNextId _⟩

theorem after (hi : Indistinct g h) {g' h' : Graph} {node node' : NodeId → Option Node}
    {links links' : List Link} (hs : Shows g' node links) (hs' : Shows h' node' links')
    (hview : g'.view = h'.view) (hnext : g'.nextId = g.nextId) (hnext' : h'.nextId = h.nextId) :
    Indistinct g' h' :=
  ⟨hs.wellFormed, hs'.wellFormed, hview, hnext.trans (hi.nextId.trans hnext'.symm)⟩

theorem insertNode (hi : Indistinct g h) (n : Node) :
    Matched Indistinct (g.insertNode n) (h.insertNode n) := by
  obtain ⟨hg, hh⟩ | ⟨_, _, hg, hh, _⟩ := hi.node?_cases n.id
  · obtain ⟨g', hok, hs⟩ := hi.left.shows_insertNode hg
    obtain ⟨h', hok', hs'⟩ := hi.right.shows_insertNode hh
    have hview : g'.view = g.view.put n.id (some n.view) := hs.view_put
    have hview' : h'.view = h.view.put n.id (some n.view) := hs'.view_put
    rw [hok, hok']
    refine .ok (hi.after hs hs' ?_ (nextId_insertNode hok) (nextId_insertNode hok'))
    rw [hview, hview', hi.view]
  · rw [hi.left.insertNode_error hg, hi.right.insertNode_error hh]
    exact .error _

theorem removeNode (hi : Indistinct g h) (id : NodeId) :
    Matched (fun a b => Indistinct a.2 b.2) (g.removeNode id) (h.removeNode id) := by
  obtain ⟨hg, hh⟩ | ⟨n, m, hg, hh, _⟩ := hi.node?_cases id
  · rw [hi.left.removeNode_error hg, hi.right.removeNode_error hh]
    exact .error _
  · obtain ⟨g', hok, hs⟩ := hi.left.shows_removeNode hg
    obtain ⟨h', hok', hs'⟩ := hi.right.shows_removeNode hh
    have hlinks : (g.links.map Link.view : Multiset EdgeView) = h.links.map Link.view :=
      congrArg View.edges hi.view
    rw [hok, hok']
    refine .ok (hi.after hs hs' ?_ (nextId_removeNode hok) (nextId_removeNode hok'))
    rw [hs.view_put, hs'.view_put, edges_filter, edges_filter, hlinks, hi.view]

/-- An update that looks at no more than what is found under names has the same result, as
far as that goes. -/
theorem updateProperties (hi : Indistinct g h) (id : NodeId) (key : String)
    {f : Properties → Except GraphError Properties}
    (hf : ∀ p q, p.get? = q.get? → Matched (fun p q => p.get? = q.get?) (f p) (f q)) :
    Matched (fun a b => Indistinct a.2 b.2) (g.updateProperties id key f)
      (h.updateProperties id key f) := by
  obtain ⟨hg, hh⟩ | ⟨n, m, hg, hh, hview⟩ := hi.node?_cases id
  · rw [hi.left.updateProperties_error hg, hi.right.updateProperties_error hh]
    exact .error _
  · obtain ⟨hkind, hprops⟩ := NodeView.mk.inj hview
    obtain ⟨e, hp, hq⟩ | ⟨p, q, hp, hq, hget⟩ := (hf _ _ hprops).cases
    · rw [hi.left.updateProperties_refused hg key hp, hi.right.updateProperties_refused hh key hq]
      exact .error e
    · obtain ⟨g', hok, hs⟩ := hi.left.shows_updateProperties hg key hp
      obtain ⟨h', hok', hs'⟩ := hi.right.shows_updateProperties hh key hq
      have hviewg : g'.view = g.view.put id (some ⟨n.kind, p.get?⟩) := hs.view_put
      have hviewh : h'.view = h.view.put id (some ⟨m.kind, q.get?⟩) := hs'.view_put
      rw [hok, hok']
      refine .ok (hi.after hs hs' ?_ (nextId_updateProperties hok) (nextId_updateProperties hok'))
      rw [hviewg, hviewh, hkind, hget, hi.view]

theorem setProperty (hi : Indistinct g h) (id : NodeId) (key : String) (value : PropertyValue) :
    Matched (fun a b => Indistinct a.2 b.2) (g.setProperty id key value)
      (h.setProperty id key value) := by
  refine hi.updateProperties id key fun p q hpq => .ok ?_
  rw [p.get?_insert, q.get?_insert, hpq]

theorem removeProperty (hi : Indistinct g h) (id : NodeId) (key : String) :
    Matched (fun a b => Indistinct a.2 b.2) (g.removeProperty id key)
      (h.removeProperty id key) := by
  refine hi.updateProperties id key fun p q hpq => .ok ?_
  rw [p.get?_erase, q.get?_erase, hpq]

theorem appendProperty (hi : Indistinct g h) (id : NodeId) (key : String) (value : PropertyValue) :
    Matched (fun a b => Indistinct a.2 b.2) (g.appendProperty id key value)
      (h.appendProperty id key value) := by
  refine hi.updateProperties id key fun p q hpq => ?_
  unfold appended
  rw [hpq]
  cases q.get? key with
  | none => exact .ok (by rw [p.get?_insert, q.get?_insert, hpq])
  | some old =>
    cases old with
    | list items => exact .ok (by rw [p.get?_insert, q.get?_insert, hpq])
    | _ => exact .error _

theorem addEdge (hi : Indistinct g h) (src dst : NodeId) (edge : Edge) :
    Matched Indistinct (g.addEdge src dst edge) (h.addEdge src dst edge) := by
  obtain ⟨hg, hh⟩ | ⟨_, _, hgs, hhs, _⟩ := hi.node?_cases src
  · rw [hi.left.addEdge_error_src hg, hi.right.addEdge_error_src hh]
    exact .error _
  · obtain ⟨hg, hh⟩ | ⟨_, _, hgd, hhd, _⟩ := hi.node?_cases dst
    · rw [hi.left.addEdge_error_dst hgs hg, hi.right.addEdge_error_dst hhs hh]
      exact .error _
    · obtain ⟨g', hok, hs⟩ := hi.left.shows_addEdge hgs hgd edge
      obtain ⟨h', hok', hs'⟩ := hi.right.shows_addEdge hhs hhd edge
      have hview : g'.view =
          { g.view with edges := Link.view ⟨src, dst, edge⟩ ::ₘ g.view.edges } := hs.view_eq
      have hview' : h'.view =
          { h.view with edges := Link.view ⟨src, dst, edge⟩ ::ₘ h.view.edges } := hs'.view_eq
      rw [hok, hok']
      refine .ok (hi.after hs hs' ?_ (nextId_addEdge hok) (nextId_addEdge hok'))
      rw [hview, hview', hi.view]

/-- Whether an edge is found depends on the view. -/
theorem find?_same (hi : Indistinct g h) {l : Link} :
    g.links.find? (·.same l) = none ↔ h.links.find? (·.same l) = none := by
  have hnone : ∀ links : List Link, links.find? (·.same l) = none ↔
      l.view ∉ (links.map Link.view : Multiset EdgeView) := by
    intro links
    rw [List.find?_eq_none, Multiset.mem_coe, List.mem_map]
    constructor
    · rintro hall ⟨k, hk, hview⟩
      exact hall k hk (Link.same_iff.mpr hview)
    · intro hmem k hk hsame
      exact hmem ⟨k, hk, Link.same_iff.mp hsame⟩
  have hedges : (g.links.map Link.view : Multiset EdgeView) = h.links.map Link.view :=
    congrArg View.edges hi.view
  rw [hnone, hnone, hedges]

theorem removeEdge (hi : Indistinct g h) (src dst : NodeId) (edge : Edge) :
    Matched (fun a b => Indistinct a.2 b.2) (g.removeEdge src dst edge)
      (h.removeEdge src dst edge) := by
  obtain ⟨hg, hh⟩ | ⟨_, _, hgs, hhs, _⟩ := hi.node?_cases src
  · rw [hi.left.removeEdge_error_src hg, hi.right.removeEdge_error_src hh]
    exact .error _
  obtain ⟨hg, hh⟩ | ⟨_, _, hgd, hhd, _⟩ := hi.node?_cases dst
  · rw [hi.left.removeEdge_error_dst hgs hg, hi.right.removeEdge_error_dst hhs hh]
    exact .error _
  have hg := hi.left.shows_removeEdge hgs hgd edge
  have hh := hi.right.shows_removeEdge hhs hhd edge
  cases hfind : g.links.find? (·.same ⟨src, dst, edge⟩) with
  | none =>
    rw [hfind] at hg
    rw [hi.find?_same.mp hfind] at hh
    rw [hg, hh]
    exact .error _
  | some l =>
    rw [hfind] at hg
    obtain ⟨k, hfind'⟩ : ∃ k, h.links.find? (·.same ⟨src, dst, edge⟩) = some k := by
      rw [← Option.ne_none_iff_exists', ne_eq, ← hi.find?_same, hfind]
      exact Option.some_ne_none l
    rw [hfind'] at hh
    obtain ⟨g', hok, hs⟩ := hg
    obtain ⟨h', hok', hs'⟩ := hh
    -- the edges left are those that make up the same multiset with the one removed
    have hedges : (g.links.map Link.view : Multiset EdgeView) = h.links.map Link.view :=
      congrArg View.edges hi.view
    rw [edges_eq_cons_eraseP hfind, edges_eq_cons_eraseP hfind', Multiset.cons_inj_right] at hedges
    rw [hok, hok']
    refine .ok (hi.after hs hs' ?_ (nextId_removeEdge hok) (nextId_removeEdge hok'))
    rw [hs.view_eq, hs'.view_eq, hedges]
    exact congrArg (View.mk · _) (congrArg View.node hi.view)

end Indistinct

end Graph

/-! ## Applications side by side -/

namespace Progress

open CodeGraph.Graph (Indistinct)

/-- Two applications have come to graphs that only their slots and orders tell apart, from
the same pool and with the same ids created. -/
structure Abreast (p q : Progress) : Prop where
  graph : Indistinct p.graph q.graph
  pool : p.pool = q.pool
  created : p.created = q.created

variable {p q : Progress}

namespace Abreast

theorem commit (h : Abreast p q) {r s : Except GraphError (Graph × List Change)}
    (hrs : Matched (fun a b => Indistinct a.1 b.1) r s) :
    (p.commit r).2 = (q.commit s).2 ∧ Abreast (p.commit r).1 (q.commit s).1 := by
  cases hrs with
  | error e => exact ⟨rfl, h⟩
  | ok hab => exact ⟨rfl, hab, h.pool, h.created⟩

theorem resolve (h : Abreast p q) (ref : NodeRef) : Matched Eq (p.resolve ref) (q.resolve ref) := by
  cases ref with
  | existing id => exact .ok rfl
  | new key =>
    apply Matched.of_eq
    rw [Progress.resolve, Progress.resolve, h.created]

theorem draw (h : Abreast p q) :
    Matched (fun a b => a.1 = b.1 ∧ Abreast a.2 b.2) p.draw q.draw := by
  unfold Progress.draw
  rw [h.pool]
  cases q.pool with
  | none =>
    dsimp only
    obtain ⟨e, hp, hq⟩ | ⟨_, _, hp, hq, hid, hgraph⟩ := h.graph.allocate.cases
    · rw [hp, hq]
      exact .error e
    · rw [hp, hq]
      exact .ok ⟨hid, hgraph, rfl, h.created⟩
  | some pool =>
    dsimp only
    cases pool.next with
    | error e => exact .error e
    | ok drawn => exact .ok ⟨rfl, h.graph, rfl, h.created⟩

theorem createNode (h : Abreast p q) (key : NewKey) (kind : NodeKind) (properties : Properties) :
    (p.createNode key kind properties).2 = (q.createNode key kind properties).2 ∧
      Abreast (p.createNode key kind properties).1 (q.createNode key kind properties).1 := by
  unfold Progress.createNode
  obtain ⟨e, hp, hq⟩ | ⟨⟨id, p'⟩, ⟨id', q'⟩, hp, hq, hid, h'⟩ := h.draw.cases
  · rw [hp, hq]
    exact ⟨rfl, h⟩
  · cases hid
    rw [hp, hq]
    dsimp only
    obtain ⟨e, hp', hq'⟩ | ⟨g₁, g₂, hp', hq', hgraph⟩ :=
      (h'.graph.insertNode ⟨id, kind, properties⟩).cases
    · rw [hp', hq']
      exact ⟨rfl, h'⟩
    · rw [hp', hq']
      exact ⟨rfl, hgraph, h'.pool, congrArg (·.insert key.value id) h'.created⟩

/-- A change does the same to both. -/
theorem apply (h : Abreast p q) (c : Change) :
    (p.apply c).2 = (q.apply c).2 ∧ Abreast (p.apply c).1 (q.apply c).1 := by
  cases c with
  | createNode key kind properties => exact h.createNode key kind properties
  | createEdge src dst edge =>
    refine h.commit ((h.resolve src).bind ?_)
    rintro src _ rfl
    refine (h.resolve dst).bind ?_
    rintro dst _ rfl
    exact (h.graph.addEdge src dst edge).bind fun _ _ hgraph => .ok hgraph
  | setProperty node key value =>
    refine h.commit ((h.resolve node).bind ?_)
    rintro node _ rfl
    exact (h.graph.setProperty node key value).bind fun _ _ hgraph => .ok hgraph
  | addProperty node key value =>
    refine h.commit ((h.resolve node).bind ?_)
    rintro node _ rfl
    exact (h.graph.appendProperty node key value).bind fun _ _ hgraph => .ok hgraph
  | removeNode node =>
    exact h.commit ((h.graph.removeNode node).bind fun _ _ hgraph => .ok hgraph)
  | removeEdge src dst edge =>
    exact h.commit ((h.graph.removeEdge src dst edge).bind fun _ _ hgraph => .ok hgraph)
  | restoreProperty node key value =>
    cases value with
    | some value =>
      exact h.commit ((h.graph.setProperty node key value).bind fun _ _ hgraph => .ok hgraph)
    | none =>
      exact h.commit ((h.graph.removeProperty node key).bind fun _ _ hgraph => .ok hgraph)
  | restoreNode node =>
    exact h.commit ((h.graph.insertNode node).bind fun _ _ hgraph => .ok hgraph)

theorem applyAll (h : Abreast p q) (cs : List Change) :
    (p.applyAll cs).2 = (q.applyAll cs).2 ∧ Abreast (p.applyAll cs).1 (q.applyAll cs).1 := by
  induction cs generalizing p q with
  | nil => exact ⟨rfl, h⟩
  | cons c cs ih =>
    have hc := h.apply c
    rw [Progress.applyAll, Progress.applyAll]
    cases hp : p.apply c with
    | mk p' error =>
      cases hq : q.apply c with
      | mk q' error' =>
        rw [hp, hq] at hc
        obtain ⟨rfl, h'⟩ := hc
        cases error with
        | none => exact ih h'
        | some e => exact ⟨rfl, h'⟩

end Abreast

end Progress

namespace Graph

variable {g h : Graph}

/-- Two applications came to the same.  They failed for the same reason, or created the same
nodes under each key, and left the same content, allocator and pool. -/
structure SameOutcome (a b : Application) : Prop where
  created : a.result.map Applied.created = b.result.map Applied.created
  newNodeIds : a.result.map Applied.newNodeIds = b.result.map Applied.newNodeIds
  content : a.graph.content = b.graph.content
  nextId : a.graph.nextId = b.graph.nextId
  pool : a.pool = b.pool

/-- What a script comes to depends on the content of the graph and on where the allocator and
the pool look next. -/
theorem sameOutcome_of_content_eq (hg : g.WellFormed) (hh : h.WellFormed)
    (hcontent : g.content = h.content) (hnext : g.nextId = h.nextId) (d : Diff)
    (pool : Option KeyPool) (withInverse : Bool) :
    SameOutcome (g.apply d pool withInverse) (h.apply d pool withInverse) := by
  have hstart : Progress.Abreast { graph := g, pool } { graph := h, pool } :=
    ⟨⟨hg, hh, view_eq_of_content_eq hg hh hcontent, hnext⟩, rfl, rfl⟩
  have hend := hstart.applyAll d.changes
  have hundo := (Progress.canUndo_start hg pool).applyAll d.changes
  have hundo' := (Progress.canUndo_start hh pool).applyAll d.changes
  cases hp : Progress.applyAll { graph := g, pool } d.changes with
  | mk p error =>
    cases hq : Progress.applyAll { graph := h, pool } d.changes with
    | mk q error' =>
      rw [hp, hq] at hend
      rw [hp] at hundo
      rw [hq] at hundo'
      obtain ⟨rfl, hend⟩ := hend
      cases error with
      | none =>
        rw [apply_of_applyAll_none hp, apply_of_applyAll_none hq]
        have hids := congrArg (fun m => (Std.TreeMap.toList m).map Prod.snd) hend.created
        exact ⟨congrArg Except.ok hend.created, congrArg Except.ok hids, hend.graph.content,
          hend.graph.nextId, hend.pool⟩
      | some e =>
        by_cases he : e = .overflow
        · subst he
          rw [apply_of_crash hp, apply_of_crash hq]
          exact ⟨rfl, rfl, hend.graph.content, hend.graph.nextId, hend.pool⟩
        · have hback := hg.content_of_error he (result_apply_of_applyAll_some hp withInverse)
          have hback' := hh.content_of_error he (result_apply_of_applyAll_some hq withInverse)
          obtain ⟨hnextp, hpoolp⟩ := hundo.rollback_cursors
          obtain ⟨hnextq, hpoolq⟩ := hundo'.rollback_cursors
          have hsame := hback.trans (hcontent.trans hback'.symm)
          rw [apply_of_applyAll_some hp he, apply_of_applyAll_some hq he] at hsame ⊢
          exact ⟨rfl, rfl, hsame, hnextp.trans (hend.graph.nextId.trans hnextq.symm),
            hpoolp.trans (hend.pool.trans hpoolq.symm)⟩

/-- A method with two equal edges to its block and a call. -/
def arranged : List Operation :=
  [.addNode (.method "f" "f") (.ofList [("a", .int 1), ("tags", .list [.str "x"])]),
    .addNode .block {}, .addNode (.call "g" "g()") {}, .addEdge ⟨1⟩ ⟨2⟩ ⟨.ast, {}⟩,
    .addEdge ⟨1⟩ ⟨3⟩ ⟨.cfg, .ofList [("u", .int 1), ("w", .bool true)]⟩,
    .addEdge ⟨1⟩ ⟨2⟩ ⟨.ast, {}⟩, .addEdge ⟨3⟩ ⟨3⟩ ⟨.cfg, {}⟩, .allocate]

/-- The same in other slots, with a vacant one, and in other orders. -/
def rearranged : List Operation :=
  [.insertNode ⟨⟨3⟩, .call "g" "g()", {}⟩, .insertNode ⟨⟨9⟩, .block, {}⟩,
    .insertNode ⟨⟨1⟩, .method "f" "f", .ofList [("tags", .list [.str "x"]), ("a", .int 1)]⟩,
    .insertNode ⟨⟨2⟩, .block, {}⟩, .addEdge ⟨3⟩ ⟨3⟩ ⟨.cfg, {}⟩, .addEdge ⟨9⟩ ⟨3⟩ ⟨.cfg, {}⟩,
    .addEdge ⟨1⟩ ⟨2⟩ ⟨.ast, {}⟩, .addEdge ⟨1⟩ ⟨2⟩ ⟨.ast, {}⟩, .removeNode ⟨9⟩,
    .addEdge ⟨1⟩ ⟨3⟩ ⟨.cfg, .ofList [("w", .bool true), ("u", .int 1)]⟩, .allocate]

/-- One of the equal edges goes, then the method with the others. -/
def rebuildMethod : List Change :=
  [.addProperty (.existing ⟨1⟩) "tags" (.str "y"), .removeEdge ⟨1⟩ ⟨2⟩ ⟨.ast, {}⟩, .removeNode ⟨1⟩,
    .createNode ⟨5⟩ .block {}, .createNode ⟨4⟩ .block {},
    .createEdge (.new ⟨5⟩) (.existing ⟨3⟩) ⟨.cfg, {}⟩]

theorem wellFormed_arranged : (built arranged).WellFormed := wellFormed_built _

theorem wellFormed_rearranged : (built rearranged).WellFormed := wellFormed_built _

theorem content_arranged : (built arranged).content = (built rearranged).content := by
  refine content_eq_of_view_eq wellFormed_arranged wellFormed_rearranged ?_
  refine view_eq_of_same wellFormed_arranged wellFormed_rearranged (by decide +kernel)
    (by decide +kernel) [⟨⟨3⟩, ⟨3⟩, ⟨.cfg, {}⟩⟩, ⟨⟨1⟩, ⟨2⟩, ⟨.ast, {}⟩⟩,
      ⟨⟨1⟩, ⟨3⟩, ⟨.cfg, .ofList [("w", .bool true), ("u", .int 1)]⟩⟩, ⟨⟨1⟩, ⟨2⟩, ⟨.ast, {}⟩⟩] ?_ ?_
  · decide +kernel
  · decide +kernel

theorem rearranged_same_outcome :
    (built arranged).content = (built rearranged).content ∧
    (built arranged).nextId = (built rearranged).nextId ∧
    (built arranged).allNodes ≠ (built rearranged).allNodes ∧
    (built arranged).incidentLinks ⟨1⟩ ≠ (built rearranged).incidentLinks ⟨1⟩ ∧
    ((built arranged).apply ⟨rebuildMethod⟩ none true).result.map Applied.newNodeIds =
      .ok [⟨6⟩, ⟨5⟩] ∧
    SameOutcome ((built arranged).apply ⟨rebuildMethod⟩ none true)
      ((built rearranged).apply ⟨rebuildMethod⟩ none true) ∧
    ((built arranged).apply ⟨rebuildMethod ++ [.removeNode ⟨1⟩]⟩ none true).result.map
      Applied.newNodeIds = .error (.nodeNotFound ⟨1⟩) ∧
    SameOutcome ((built arranged).apply ⟨rebuildMethod ++ [.removeNode ⟨1⟩]⟩ none true)
      ((built rearranged).apply ⟨rebuildMethod ++ [.removeNode ⟨1⟩]⟩ none true) := by
  have hnext : (built arranged).nextId = (built rearranged).nextId := by decide +kernel
  have hsame := sameOutcome_of_content_eq wellFormed_arranged wellFormed_rearranged
    content_arranged hnext
  exact ⟨content_arranged, hnext, by decide +kernel, by decide +kernel, by cbv,
    hsame ⟨rebuildMethod⟩ none true, by cbv, hsame ⟨rebuildMethod ++ [.removeNode ⟨1⟩]⟩ none true⟩

end Graph

end CodeGraph
