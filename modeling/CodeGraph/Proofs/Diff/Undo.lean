import CodeGraph.Proofs.Diff.Effect
import CodeGraph.Proofs.Graph.Allocator

/-!
# Undoing an edit script

For every change that is made, changes are noted that undo it.  These name nodes
by their ids, so what they do is an effect on the view of the graph.

While a script is applied, the notes always lead from the graph so far back to
the view of the graph at the start (`CanUndo`).  One change keeps this, whether it
succeeds or fails, and so do all changes of a script.  Both the inverse of a script and
the clean-up after an error replay these notes.
-/

namespace CodeGraph

/-! ## Changes are undone -/

namespace Graph

open View (Effect Effects)

variable {g g' : Graph} {id src dst : NodeId} {n : Node} {key : String} {edge : Edge}

theorem undo_insertNode (hg : WellFormed g) (h : g.insertNode n = .ok g') :
    g'.WellFormed ∧ Effects [.removeNode n.id] g'.view g.view := by
  obtain ⟨hnew, hshows⟩ := hg.shows_of_insertNode h
  have hnone : g.view.node n.id = none := Option.map_eq_none_iff.mpr hnew
  -- no edge was at a node that was not there
  have hedges : (g.view.edges.filter fun e => ¬ (e.src = n.id ∨ e.dst = n.id)) = g.view.edges := by
    refine Multiset.filter_eq_self.mpr ?_
    intro e he hend
    obtain ⟨hsrc, hdst⟩ := hg.ends_of_mem_edges he
    rcases hend with hend | hend
    · rw [hend, hnone] at hsrc
      cases hsrc
    · rw [hend, hnone] at hdst
      cases hdst
  have hview : g'.view = g.view.put n.id (some n.view) := hshows.view_put
  refine ⟨hshows.wellFormed, ?_⟩
  rw [hview]
  refine (Effect.removeNode (View.node_put_self _ _ _)).effects_of_eq ?_
  have hput := g.view.put_self n.id
  rw [hnone] at hput
  rw [View.put_put, hput]
  exact congrArg (View.mk g.view.node) hedges

theorem undo_addEdge (hg : WellFormed g) (h : g.addEdge src dst edge = .ok g') :
    g'.WellFormed ∧ Effects [.removeEdge src dst edge] g'.view g.view := by
  obtain ⟨_, _, hshows⟩ := hg.shows_of_addEdge h
  refine ⟨hshows.wellFormed, ?_⟩
  rw [hshows.view_eq]
  exact (Effect.removeEdge rfl).effects_of_eq rfl

theorem undo_updateProperties (hg : WellFormed g) {f : Properties → Except GraphError Properties}
    {previous : Option PropertyValue}
    (hf : ∀ p q, f p = .ok q → ∃ value, q.get? = Function.update p.get? key value)
    (h : g.updateProperties id key f = .ok (previous, g')) :
    g'.WellFormed ∧ Effects [.restoreProperty id key previous] g'.view g.view := by
  obtain ⟨n, p, hn, hp, rfl, hshows⟩ := hg.shows_of_updateProperties h
  obtain ⟨value, hget⟩ := hf _ _ hp
  have hview : g'.view = g.view.put id (some ⟨n.kind, p.get?⟩) := hshows.view_put
  refine ⟨hshows.wellFormed, ?_⟩
  rw [hview]
  refine (Effect.restoreProperty (View.node_put_self _ _ _) key _).effects_of_eq ?_
  rw [View.put_put, hget, Function.update_idem, Function.update_eq_self]
  exact view_node_of_node? hn ▸ g.view.put_self id

variable {value : PropertyValue} {previous : Option PropertyValue}

theorem undo_setProperty (hg : WellFormed g)
    (h : g.setProperty id key value = .ok (previous, g')) :
    g'.WellFormed ∧ Effects [.restoreProperty id key previous] g'.view g.view := by
  refine undo_updateProperties hg ?_ h
  intro p q hq
  cases hq
  exact ⟨some value, p.get?_insert key value⟩

theorem undo_removeProperty (hg : WellFormed g)
    (h : g.removeProperty id key = .ok (previous, g')) :
    g'.WellFormed ∧ Effects [.restoreProperty id key previous] g'.view g.view := by
  refine undo_updateProperties hg ?_ h
  intro p q hq
  cases hq
  exact ⟨none, p.get?_erase key⟩

theorem undo_appendProperty (hg : WellFormed g)
    (h : g.appendProperty id key value = .ok (previous, g')) :
    g'.WellFormed ∧ Effects [.restoreProperty id key previous] g'.view g.view := by
  refine undo_updateProperties hg ?_ h
  intro p q hq
  unfold appended at hq
  split at hq
  · cases hq
    exact ⟨some (.list [value]), p.get?_insert key _⟩
  · rename_i items _
    cases hq
    exact ⟨some (.list (items ++ [value])), p.get?_insert key _⟩
  · cases hq

theorem undo_removeEdge (hg : WellFormed g) {removed : Edge}
    (h : g.removeEdge src dst edge = .ok (removed, g')) :
    g'.WellFormed ∧
      Effects [.createEdge (.existing src) (.existing dst) removed] g'.view g.view := by
  obtain ⟨l, hfind, rfl, hshows⟩ := hg.shows_of_removeEdge h
  have hsame : l.same ⟨src, dst, edge⟩ := by simpa using List.find?_some hfind
  have hlink := Link.same_iff.mp hsame
  have hends : (g.view.node src).isSome ∧ (g.view.node dst).isSome := by
    have hmem : l.view ∈ g.view.edges :=
      Multiset.mem_coe.mpr (List.mem_map_of_mem (List.mem_of_find?_eq_some hfind))
    rw [hlink] at hmem
    exact hg.ends_of_mem_edges hmem
  -- the edge that comes back is the same as the one named
  have hback : Link.view ⟨src, dst, l.edge⟩ = Link.view ⟨src, dst, edge⟩ := by
    obtain ⟨_, _, hkind, hprops⟩ := EdgeView.mk.inj hlink
    rw [Link.view, hkind, hprops]
    rfl
  refine ⟨hshows.wellFormed, ?_⟩
  rw [hshows.view_eq]
  have hundo := Effect.createEdge
    (v := ⟨g.view.node, (g.links.eraseP (·.same ⟨src, dst, edge⟩)).map Link.view⟩)
    hends.1 hends.2 l.edge
  refine hundo.effects_of_eq ?_
  rw [hback, ← edges_eq_cons_eraseP hfind]
  rfl

theorem undo_removeNode (hg : WellFormed g) (h : g.removeNode id = .ok (n, g')) :
    g'.WellFormed ∧ Effects (Progress.restoring n (g.incidentLinks id)) g'.view g.view := by
  obtain ⟨hn, hshows⟩ := hg.shows_of_removeNode h
  have hid := hg.id_of_node? hn
  have hperm := hg.perm_incidentLinks id
  obtain ⟨rest, hrest⟩ : ∃ rest : Multiset EdgeView,
    rest = (g.links.filter fun l => !(l.src = id || l.dst = id)).map Link.view := ⟨_, rfl⟩
  have hview : g'.view = { g.view.put id none with edges := rest } := hrest ▸ hshows.view_put
  -- first the node comes back
  have hnew : ({ g.view.put id none with edges := rest } : View).node n.id = none := by
    rw [hid]
    exact View.node_put_self _ _ _
  have hnode : ({ g.view.put id none with edges := rest } : View).put n.id (some n.view) =
      { g.view with edges := rest } := by
    have hput := g.view.put_self id
    rw [view_node_of_node? hn] at hput
    change { (g.view.put id none).put n.id (some n.view) with edges := rest } = _
    rw [hid, View.put_put, hput]
  -- then its edges
  have hends : ∀ l ∈ g.incidentLinks id,
      (g.view.node l.src).isSome ∧ (g.view.node l.dst).isSome := by
    intro l hl
    have hmem : l ∈ g.links := hperm.mem_iff.mp (List.mem_append_left _ hl)
    exact hg.ends_of_mem_edges (Multiset.mem_coe.mpr (List.mem_map_of_mem hmem))
  have hedges := View.effects_createEdges (v := { g.view with edges := rest }) _ hends
  have hall : rest + (g.incidentLinks id).map Link.view = g.view.edges := by
    rw [hrest, Multiset.coe_add, ← List.map_append, view]
    exact Multiset.coe_eq_coe.mpr ((List.perm_append_comm.trans hperm).map _)
  refine ⟨hshows.wellFormed, ?_⟩
  rw [hview]
  refine .cons (.restoreNode hnew) ?_
  rw [hnode]
  rw [hall] at hedges
  exact hedges

end Graph

/-! ## Applications under way -/

namespace Progress

open View (Effects)

variable {p p' : Progress} {c : Change} {cs : List Change} {v : View} {e : GraphError}

/-- The notes lead from the graph so far back to a view. -/
structure CanUndo (v : View) (p : Progress) : Prop where
  wellFormed : p.graph.WellFormed
  effects : Effects p.inverse p.graph.view v

theorem canUndo_start {g : Graph} (hg : g.WellFormed) (pool : Option KeyPool) :
    CanUndo g.view { graph := g, pool } :=
  ⟨hg, .nil⟩

/-- A change that fails keeps the notes good, and so does one that can be undone. -/
theorem CanUndo.commit (h : CanUndo v p) {r : Except GraphError (Graph × List Change)}
    (hr : ∀ g us, r = .ok (g, us) → g.WellFormed ∧ Effects us g.view p.graph.view) :
    CanUndo v (p.commit r).1 := by
  cases r with
  | error e => exact h
  | ok made =>
    obtain ⟨g, us⟩ := made
    obtain ⟨hg, hus⟩ := hr g us rfl
    exact ⟨hg, hus.append h.effects⟩

/-- An id is drawn from the pool, or from the allocator where there is none. -/
theorem draw_cases {id : NodeId} (h : p.draw = .ok (id, p')) :
    (p.pool = none ∧ (∃ rest, p.graph.supply = id :: rest) ∧
        p' = { p with graph := { p.graph with nextId := id.value + 1 } }) ∨
      ∃ pool pool', p.pool = some pool ∧ pool.next = .ok (id, pool') ∧
        p' = { p with pool := some pool' } := by
  unfold draw at h
  cases hpool : p.pool with
  | none =>
    rw [hpool] at h
    cases hallocate : p.graph.allocate with
    | error e =>
      simp only [hallocate] at h
      cases h
    | ok drawn =>
      simp only [hallocate] at h
      cases h
      obtain ⟨hsupply, hgraph⟩ := Graph.allocate_eq_ok hallocate
      exact .inl ⟨rfl, hsupply, by rw [← hgraph]⟩
  | some pool =>
    rw [hpool] at h
    cases hnext : pool.next with
    | error e =>
      simp only [hnext] at h
      cases h
    | ok drawn =>
      simp only [hnext] at h
      cases h
      exact .inr ⟨pool, _, rfl, hnext, rfl⟩

theorem draw_eq_ok (hp : p.graph.WellFormed) {id : NodeId} (h : p.draw = .ok (id, p')) :
    p'.graph.WellFormed ∧ p'.graph.view = p.graph.view ∧ p'.created = p.created ∧
      p'.undo = p.undo := by
  obtain ⟨_, _, rfl⟩ | ⟨_, _, _, _, rfl⟩ := draw_cases h
  · have hshows := hp.shows_withNextId (id.value + 1)
    exact ⟨hshows.wellFormed, hshows.view_eq, rfl, rfl⟩
  · exact ⟨hp, rfl, rfl, rfl⟩

theorem CanUndo.draw (h : CanUndo v p) {id : NodeId} (hdraw : p.draw = .ok (id, p')) :
    CanUndo v p' := by
  obtain ⟨hp', hview, _, hundo⟩ := draw_eq_ok h.wellFormed hdraw
  refine ⟨hp', ?_⟩
  rw [inverse, hundo, hview]
  exact h.effects

theorem bind_eq_ok {α β : Type} {x : Except GraphError α} {f : α → Except GraphError β} {b : β}
    (h : x >>= f = .ok b) : ∃ a, x = .ok a ∧ f a = .ok b := by
  cases x with
  | error e => cases h
  | ok a => exact ⟨a, rfl, h⟩

theorem CanUndo.apply (h : CanUndo v p) (c : Change) : CanUndo v (p.apply c).1 := by
  cases c with
  | createNode key kind properties =>
    rw [Progress.apply, createNode]
    cases hdraw : p.draw with
    | error e => exact h
    | ok drawn =>
      obtain ⟨id, p'⟩ := drawn
      have h' := h.draw hdraw
      dsimp only
      cases hinsert : p'.graph.insertNode ⟨id, kind, properties⟩ with
      | error e => exact h'
      | ok g =>
        obtain ⟨hg, hundo⟩ := Graph.undo_insertNode h'.wellFormed hinsert
        exact ⟨hg, hundo.append h'.effects⟩
  | createEdge src dst edge =>
    refine h.commit fun g us hok => ?_
    obtain ⟨src, _, hok⟩ := bind_eq_ok hok
    obtain ⟨dst, _, hok⟩ := bind_eq_ok hok
    obtain ⟨g, hadd, hok⟩ := bind_eq_ok hok
    cases hok
    exact Graph.undo_addEdge h.wellFormed hadd
  | setProperty node key value =>
    refine h.commit fun g us hok => ?_
    obtain ⟨node, _, hok⟩ := bind_eq_ok hok
    obtain ⟨⟨previous, g⟩, hset, hok⟩ := bind_eq_ok hok
    cases hok
    exact Graph.undo_setProperty h.wellFormed hset
  | addProperty node key value =>
    refine h.commit fun g us hok => ?_
    obtain ⟨node, _, hok⟩ := bind_eq_ok hok
    obtain ⟨⟨previous, g⟩, hadd, hok⟩ := bind_eq_ok hok
    cases hok
    exact Graph.undo_appendProperty h.wellFormed hadd
  | removeNode node =>
    refine h.commit fun g us hok => ?_
    obtain ⟨⟨removed, g⟩, hremove, hok⟩ := bind_eq_ok hok
    cases hok
    exact Graph.undo_removeNode h.wellFormed hremove
  | removeEdge src dst edge =>
    refine h.commit fun g us hok => ?_
    obtain ⟨⟨removed, g⟩, hremove, hok⟩ := bind_eq_ok hok
    cases hok
    exact Graph.undo_removeEdge h.wellFormed hremove
  | restoreProperty node key value =>
    refine h.commit fun g us hok => ?_
    cases value with
    | some value =>
      obtain ⟨⟨previous, g⟩, hset, hok⟩ := bind_eq_ok hok
      cases hok
      exact Graph.undo_setProperty h.wellFormed hset
    | none =>
      obtain ⟨⟨previous, g⟩, hremove, hok⟩ := bind_eq_ok hok
      cases hok
      exact Graph.undo_removeProperty h.wellFormed hremove
  | restoreNode node =>
    refine h.commit fun g us hok => ?_
    obtain ⟨g, hinsert, hok⟩ := bind_eq_ok hok
    cases hok
    exact Graph.undo_insertNode h.wellFormed hinsert

/-- What every change keeps, whether it succeeds or fails, a row of changes keeps. -/
theorem applyAll_induction (Keeps : Progress → Prop) (Good : Change → Prop)
    (hstep : ∀ p c, Keeps p → Good c → Keeps (p.apply c).1) (hp : Keeps p)
    (hcs : ∀ c ∈ cs, Good c) : Keeps (p.applyAll cs).1 := by
  induction cs generalizing p with
  | nil => exact hp
  | cons c cs ih =>
    obtain ⟨hc, hcs⟩ := List.forall_mem_cons.mp hcs
    have hnext := hstep p c hp hc
    rw [applyAll]
    cases happly : p.apply c with
    | mk p' error =>
      rw [happly] at hnext
      cases error with
      | none => exact ih hnext hcs
      | some e => exact hnext

theorem CanUndo.applyAll (h : CanUndo v p) (cs : List Change) : CanUndo v (p.applyAll cs).1 :=
  applyAll_induction (CanUndo v) (fun _ => True) (fun _ c hp _ => hp.apply c) h
    (fun _ _ => trivial)

/-- Replaying the notes succeeds and leads back to the view. -/
theorem CanUndo.applyAll_inverse (h : CanUndo v p) {q : Progress} (hq : q.graph = p.graph) :
    ∃ q', q.applyAll p.inverse = (q', none) ∧ q'.graph.WellFormed ∧ q'.graph.view = v := by
  refine applyAll_of_effects (hq ▸ h.wellFormed) ?_
  rw [hq]
  exact h.effects

theorem foldl_apply_eq (h : p.applyAll cs = (p', none)) :
    cs.foldl (fun p c => (p.apply c).1) p = p' := by
  induction cs generalizing p with
  | nil => exact (Prod.mk.inj h).1
  | cons c cs ih =>
    rw [applyAll] at h
    rw [List.foldl_cons]
    cases happly : p.apply c with
    | mk q error =>
      rw [happly] at h
      cases error with
      | none => exact ih h
      | some e => cases h

/-- Where replaying the notes succeeds, the clean-up is just that. -/
theorem rollback_eq (h : p.applyAll p.inverse = (p', none)) : p.rollback = p' := foldl_apply_eq h

end Progress

namespace Graph

variable {g : Graph} {d : Diff} {pool : Option KeyPool} {p : Progress} {e : GraphError}

theorem apply_of_applyAll_none (h : Progress.applyAll { graph := g, pool } d.changes = (p, none))
    (withInverse : Bool) : g.apply d pool withInverse = ⟨p.graph, p.pool,
      .ok ⟨d, if withInverse then some ⟨p.inverse⟩ else none, p.created⟩⟩ := by
  rw [Graph.apply, h]

theorem apply_of_applyAll_some (h : Progress.applyAll { graph := g, pool } d.changes = (p, some e))
    (he : e ≠ .overflow) (withInverse : Bool) :
    g.apply d pool withInverse = ⟨p.rollback.graph, p.rollback.pool, .error e⟩ := by
  rw [Graph.apply, h]
  dsimp only
  rw [if_neg he]

/-- A crash leaves the graph as far as the script has come. -/
theorem apply_of_crash
    (h : Progress.applyAll { graph := g, pool } d.changes = (p, some .overflow))
    (withInverse : Bool) : g.apply d pool withInverse = ⟨p.graph, p.pool, .error .overflow⟩ := by
  rw [Graph.apply, h]
  rfl

theorem result_apply_of_applyAll_some
    (h : Progress.applyAll { graph := g, pool } d.changes = (p, some e)) (withInverse : Bool) :
    (g.apply d pool withInverse).result = .error e := by
  rw [Graph.apply, h]

/-- What an application that succeeded did. -/
theorem apply_eq_ok {withInverse : Bool} {a : Applied}
    (h : (g.apply d pool withInverse).result = .ok a) : ∃ p,
    Progress.applyAll { graph := g, pool } d.changes = (p, none) ∧
      (g.apply d pool withInverse).graph = p.graph ∧
      a = ⟨d, if withInverse then some ⟨p.inverse⟩ else none, p.created⟩ := by
  cases hall : Progress.applyAll { graph := g, pool } d.changes with
  | mk p error =>
    cases error with
    | some e =>
      rw [result_apply_of_applyAll_some hall] at h
      cases h
    | none =>
      rw [apply_of_applyAll_none hall] at h ⊢
      cases h
      exact ⟨p, rfl, rfl, rfl⟩

/-- What an application that failed did. -/
theorem apply_eq_error {withInverse : Bool} (h : (g.apply d pool withInverse).result = .error e)
    (he : e ≠ .overflow) : ∃ p, Progress.applyAll { graph := g, pool } d.changes = (p, some e) ∧
      (g.apply d pool withInverse).graph = p.rollback.graph := by
  cases hall : Progress.applyAll { graph := g, pool } d.changes with
  | mk p error =>
    cases error with
    | none =>
      rw [apply_of_applyAll_none hall] at h
      cases h
    | some e' =>
      rw [result_apply_of_applyAll_some hall] at h
      cases h
      rw [apply_of_applyAll_some hall he]
      exact ⟨p, rfl, rfl⟩

/-- Applying the inverse of a script succeeds and restores the content. -/
theorem content_apply_inverse (hg : g.WellFormed) (d : Diff) (pool : Option KeyPool) (a : Applied)
    (h : (g.apply d pool true).result = .ok a) :
    ∃ inverse, a.inverse = some inverse ∧ ∀ withInverse, ∃ b,
      ((g.apply d pool true).graph.apply inverse none withInverse).result = .ok b ∧
      ((g.apply d pool true).graph.apply inverse none withInverse).graph.content = g.content := by
  have hundo := (Progress.canUndo_start hg pool).applyAll d.changes
  cases hall : Progress.applyAll { graph := g, pool } d.changes with
  | mk p error =>
    rw [hall] at hundo
    cases error with
    | some e =>
      rw [result_apply_of_applyAll_some hall] at h
      cases h
    | none =>
      rw [apply_of_applyAll_none hall] at h ⊢
      cases h
      refine ⟨⟨p.inverse⟩, rfl, fun withInverse => ?_⟩
      obtain ⟨q, hinverse, hq, hview⟩ :=
        hundo.applyAll_inverse (q := { graph := p.graph, pool := none }) rfl
      have hback : p.graph.apply ⟨p.inverse⟩ none withInverse = _ :=
        apply_of_applyAll_none hinverse withInverse
      dsimp only
      rw [hback]
      exact ⟨_, rfl, content_eq_of_view_eq hq hg hview⟩

/-- A method with an edge to itself and two equal edges to its block. -/
def tangled : Graph :=
  (((((empty.place ⟨⟨1⟩, .method "f" "f", {}⟩).place ⟨⟨2⟩, .block, {}⟩).join 0 1 ⟨.ast, {}⟩).join
    0 1 ⟨.ast, {}⟩).join 0 0 ⟨.cfg, {}⟩)

theorem wellFormed_tangled : tangled.WellFormed := by
  have hmethod : (empty.place ⟨⟨1⟩, .method "f" "f", {}⟩).WellFormed := wellFormed_empty.place rfl
  have hblock := hmethod.place (show node? _ (Node.mk ⟨2⟩ .block {}).id = none by cbv)
  refine ((hblock.join ?_ ?_ _).join ?_ ?_ _).join ?_ ?_ _ <;> cbv

/-- The method goes with its edges, and the node that is created gets its id. -/
def replaceMethod : List Change :=
  [.setProperty (.existing ⟨1⟩) "line" (.int 3), .removeNode ⟨1⟩, .createNode ⟨0⟩ .block {},
    .addProperty (.new ⟨0⟩) "tags" (.str "new"),
    .createEdge (.new ⟨0⟩) (.existing ⟨2⟩) ⟨.cfg, {}⟩, .removeEdge ⟨1⟩ ⟨2⟩ ⟨.cfg, {}⟩]

theorem replaceMethod_undone : ∃ a inverse b,
    (tangled.apply ⟨replaceMethod⟩ none true).result = .ok a ∧ a.inverse = some inverse ∧
    ((tangled.apply ⟨replaceMethod⟩ none true).graph.apply inverse none false).result = .ok b ∧
    ((tangled.apply ⟨replaceMethod⟩ none true).graph.apply inverse none false).graph.content =
      tangled.content := by
  have hok : (tangled.apply ⟨replaceMethod⟩ none true).result.isOk = true := by cbv
  cases h : (tangled.apply ⟨replaceMethod⟩ none true).result with
  | error e =>
    rw [h] at hok
    cases hok
  | ok a =>
    obtain ⟨inverse, hinverse, hundo⟩ := content_apply_inverse wellFormed_tangled _ none a h
    obtain ⟨b, hb, hcontent⟩ := hundo false
    exact ⟨a, inverse, b, rfl, hinverse, hb, hcontent⟩

/-- A script that fails leaves the content as it was, and every change that is
replayed to this end succeeds.  Only after a crash is there no clean-up. -/
theorem content_apply_of_error (hg : g.WellFormed) (d : Diff) (pool : Option KeyPool)
    (withInverse : Bool) (e : GraphError) (he : e ≠ .overflow)
    (h : (g.apply d pool withInverse).result = .error e) :
    ∃ p, Progress.applyAll { graph := g, pool } d.changes = (p, some e) ∧
      p.applyAll p.inverse = (p.rollback, none) ∧
      (g.apply d pool withInverse).graph = p.rollback.graph ∧
      (g.apply d pool withInverse).graph.content = g.content := by
  have hundo := (Progress.canUndo_start hg pool).applyAll d.changes
  cases hall : Progress.applyAll { graph := g, pool } d.changes with
  | mk p error =>
    rw [hall] at hundo
    cases error with
    | none =>
      rw [apply_of_applyAll_none hall] at h
      cases h
    | some e' =>
      rw [result_apply_of_applyAll_some hall] at h
      cases h
      rw [apply_of_applyAll_some hall he]
      obtain ⟨q, hinverse, hq, hview⟩ := hundo.applyAll_inverse rfl
      have hrollback := Progress.rollback_eq hinverse
      refine ⟨p, rfl, hrollback ▸ hinverse, rfl, ?_⟩
      rw [hrollback]
      exact content_eq_of_view_eq hq hg hview

theorem replaceMethod_cleaned_up : GraphError.nodeNotFound ⟨9⟩ ≠ .overflow ∧ ∃ p,
    Progress.applyAll { graph := tangled, pool := none } (replaceMethod ++ [.removeNode ⟨9⟩]) =
      (p, some (.nodeNotFound ⟨9⟩)) ∧
    p.applyAll p.inverse = (p.rollback, none) ∧
    (tangled.apply ⟨replaceMethod ++ [.removeNode ⟨9⟩]⟩ none false).graph = p.rollback.graph ∧
    (tangled.apply ⟨replaceMethod ++ [.removeNode ⟨9⟩]⟩ none false).graph.content =
      tangled.content :=
  ⟨by decide, content_apply_of_error wellFormed_tangled _ none false (.nodeNotFound ⟨9⟩)
    (by decide) (by cbv)⟩

end Graph

end CodeGraph
