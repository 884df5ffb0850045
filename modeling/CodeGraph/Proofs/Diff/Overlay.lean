import CodeGraph.Overlay
import CodeGraph.Proofs.Codec.Overlay
import CodeGraph.Proofs.Diff.Undo

/-!
# The overlays of an application

A change that succeeds has the effect of an overlay entry on the view, and this is
the entry that the change is resolved to in the end (`Progress.made_of_apply`).  For
that no key may be created twice in a script, since references are resolved when all
ids are known.  So the forward overlay of a script does on every graph of the same
view what the script did.  Changes that undo something name nodes by their ids
already, and are their own entries.

The values in an overlay come from the script and from the graph.  Appending to a
list is the only change that can make a value of greater depth than those, and only
by one.
-/

namespace CodeGraph

open View (Effect Effects)

/-! ## Overlays that have an effect -/

namespace Overlay

variable {c : Change} {cs : List Change} {a : Applied} {v w : View}

theorem resolve_cons {e : OverlayEntry} {o : Overlay} (he : OverlayEntry.ofChange a c = .ok e)
    (ho : resolve ⟨cs⟩ a = .ok o) : resolve ⟨c :: cs⟩ a = .ok ⟨e :: o.entries⟩ := by
  rw [resolve] at ho ⊢
  rw [List.mapM_cons, he]
  cases hes : cs.mapM (OverlayEntry.ofChange a) with
  | error e =>
    rw [hes] at ho
    cases ho
  | ok es =>
    rw [hes] at ho
    cases ho
    rfl

/-- There is one entry for every change. -/
theorem isEmpty_of_resolve {d : Diff} {o : Overlay} (h : resolve d a = .ok o) :
    o.isEmpty = d.isEmpty := by
  obtain ⟨cs⟩ := d
  cases cs with
  | nil =>
    cases h
    rfl
  | cons c cs =>
    rw [resolve, List.mapM_cons] at h
    cases he : OverlayEntry.ofChange a c with
    | error e =>
      rw [he] at h
      cases h
    | ok e =>
      cases hes : cs.mapM (OverlayEntry.ofChange a) with
      | error e' =>
        rw [he, hes] at h
        cases h
      | ok es =>
        rw [he, hes] at h
        cases h
        rfl

/-- A change that names nodes by their ids is its own entry. -/
theorem ofChange_of_effect (h : Effect c v w) (a : Applied) :
    ∃ e, OverlayEntry.ofChange a c = .ok e ∧ e.toChange = c := by
  cases h <;> exact ⟨_, rfl, rfl⟩

theorem resolve_of_effects (h : Effects cs v w) (a : Applied) :
    ∃ o, resolve ⟨cs⟩ a = .ok o ∧ o.toDiff = ⟨cs⟩ := by
  induction h with
  | nil => exact ⟨{}, rfl, rfl⟩
  | cons h _ ih =>
    obtain ⟨e, he, hchange⟩ := ofChange_of_effect h a
    obtain ⟨o, ho, hdiff⟩ := ih
    refine ⟨_, resolve_cons he ho, ?_⟩
    rw [toDiff, List.map_cons, hchange, (Diff.mk.inj hdiff)]

/-- An overlay that has an effect on the view is replayed. -/
theorem applyTo_of_effects {o : Overlay} {g : Graph} (hg : g.WellFormed)
    (h : Effects o.toDiff.changes g.view w) :
    ∃ g', o.applyTo g = (g', none) ∧ g'.WellFormed ∧ g'.view = w := by
  obtain ⟨p, hall, hp, hview⟩ :=
    Progress.applyAll_of_effects (p := { graph := g, pool := none }) hg h
  refine ⟨p.graph, ?_, hp, hview⟩
  rw [applyTo, Graph.apply_of_applyAll_none hall]

/-- An overlay without entries has no effect. -/
theorem view_eq_of_isEmpty {o : Overlay} (hempty : o.isEmpty = true)
    (h : Effects o.toDiff.changes v w) : v = w := by
  have hentries : o.entries = [] := List.isEmpty_iff.mp hempty
  rw [toDiff, hentries, List.map_nil] at h
  cases h
  rfl

end Overlay

/-! ## Values in a view -/

theorem PropertyValue.depthList_append (vs ws : List PropertyValue) :
    depthList (vs ++ ws) = max (depthList vs) (depthList ws) := by
  induction vs with
  | nil => simp [depthList]
  | cons v vs ih => rw [List.cons_append, depthList, depthList, ih, Nat.max_assoc]

namespace View

variable {c : Change} {v w : View} {id : NodeId} {n : NodeView} {key : String} {x : PropertyValue}

/-- A property of a node or of an edge has the value. -/
def Holds (v : View) (x : PropertyValue) : Prop :=
  (∃ id n key, v.node id = some n ∧ n.properties key = some x) ∨
    ∃ e ∈ v.edges, ∃ key, e.properties key = some x

theorem Holds.of_put {m : Option NodeView} {es : Multiset EdgeView} (hes : es ⊆ v.edges)
    (h : Holds { v.put id m with edges := es } x) :
    v.Holds x ∨ ∃ n key, m = some n ∧ n.properties key = some x := by
  rcases h with ⟨id', n, key, hn, hx⟩ | ⟨e, he, hx⟩
  · have hn : Function.update v.node id m id' = some n := hn
    rcases eq_or_ne id' id with rfl | hne
    · rw [Function.update_self] at hn
      exact .inr ⟨n, key, hn, hx⟩
    · rw [Function.update_of_ne hne] at hn
      exact .inl (.inl ⟨id', n, key, hn, hx⟩)
  · exact .inl (.inr ⟨e, hes he, hx⟩)

theorem Holds.of_update {value : Option PropertyValue} (hnode : v.node id = some n)
    (h : Holds (v.put id (some { n with properties := Function.update n.properties key value }))
      x) : v.Holds x ∨ value = some x := by
  rcases h.of_put (Multiset.Subset.refl _) with h | ⟨m, key', hm, hx⟩
  · exact .inl h
  · cases hm
    have hx : Function.update n.properties key value key' = some x := hx
    rcases eq_or_ne key' key with rfl | hne
    · rw [Function.update_self] at hx
      exact .inr hx
    · rw [Function.update_of_ne hne] at hx
      exact .inl (.inl ⟨id, n, key', hnode, hx⟩)

/-- A change makes values no deeper than by one level. -/
theorem Effect.depth_le {k : Nat} (h : Effect c v w) (hv : ∀ x, v.Holds x → x.depth ≤ k + 1)
    (hc : ∀ x ∈ c.values, x.depth ≤ k) : ∀ x, w.Holds x → x.depth ≤ k + 1 := by
  intro x hx
  cases h with
  | restoreNode hnew =>
    rcases hx.of_put (Multiset.Subset.refl _) with hx | ⟨n, key, hn, hx⟩
    · exact hv x hx
    · cases hn
      exact Nat.le_succ_of_le (hc x (Properties.mem_values_iff.mpr ⟨key, hx⟩))
  | removeNode hnode =>
    rcases hx.of_put (Multiset.filter_subset _ _) with hx | ⟨n, key, hn, hx⟩
    · exact hv x hx
    · cases hn
  | restoreProperty hnode key value =>
    rcases hx.of_update hnode with hx | rfl
    · exact hv x hx
    · exact Nat.le_succ_of_le (hc x (by simp [Change.values]))
  | setProperty hnode key value =>
    rcases hx.of_update hnode with hx | hx
    · exact hv x hx
    · cases hx
      exact Nat.le_succ_of_le (hc x (by simp [Change.values]))
  | @addProperty _ id n hnode key items hlist value =>
    rcases hx.of_update hnode with hx | hx
    · exact hv x hx
    · cases hx
      have hvalue : value.depth ≤ k := hc value (by simp [Change.values])
      have hitems : PropertyValue.depthList items ≤ k := by
        cases hold : n.properties key with
        | none =>
          rw [hold] at hlist
          cases hlist
          exact Nat.zero_le k
        | some old =>
          rw [hold] at hlist
          have hdepth := hv old (.inl ⟨id, n, key, hnode, hold⟩)
          cases old with
          | list items' =>
            cases hlist
            rw [PropertyValue.depth] at hdepth
            exact Nat.le_of_succ_le_succ hdepth
          | _ => cases hlist
      rw [PropertyValue.depth, PropertyValue.depthList_append, PropertyValue.depthList,
        PropertyValue.depthList]
      omega
  | createEdge hsrc hdst edge =>
    rcases hx with hx | ⟨e, he, key, hx⟩
    · exact hv x (.inl hx)
    · rcases Multiset.mem_cons.mp he with rfl | he
      · exact Nat.le_succ_of_le (hc x (Properties.mem_values_iff.mpr ⟨key, hx⟩))
      · exact hv x (.inr ⟨e, he, key, hx⟩)
  | removeEdge hedges =>
    rcases hx with hx | ⟨e, he, hx⟩
    · exact hv x (.inl hx)
    · exact hv x (.inr ⟨e, hedges ▸ Multiset.mem_cons_of_mem he, hx⟩)

end View

/-! ## Changes that were made -/

/-- The key of the node that a change creates. -/
def Change.newKey? : Change → Option NewKey
  | .createNode key _ _ => some key
  | _ => none

/-- The keys of the nodes that a script creates, in their order. -/
def Diff.newKeys (d : Diff) : List NewKey := d.changes.filterMap Change.newKey?

theorem Diff.newKeys_cons (c : Change) (cs : List Change) :
    newKeys ⟨c :: cs⟩ = c.newKey?.toList ++ newKeys ⟨cs⟩ := by
  cases hc : c.newKey? <;> simp [newKeys, hc]

namespace Progress

variable {p p' : Progress} {c : Change} {cs : List Change} {a : Applied}

/-- What keys stand for so far, they stand for in the end. -/
def Agrees (p : Progress) (a : Applied) : Prop :=
  ∀ (key : NewKey) id, p.created[key.value]? = some id → a.nodeId? key = some id

theorem Agrees.id_eq (h : p.Agrees a) {ref : NodeRef} {id : NodeId}
    (href : p.resolve ref = .ok id) : OverlayEntry.ofChange.id a ref = .ok id := by
  cases ref with
  | existing id' =>
    cases href
    rfl
  | new key =>
    cases hid : p.created[key.value]? with
    | none =>
      simp only [resolve, hid] at href
      cases href
    | some id' =>
      simp only [resolve, hid] at href
      cases href
      simp only [OverlayEntry.ofChange.id, Applied.resolve?, h key id hid]

/-- A change that succeeds gave a graph and notes. -/
theorem commit_eq_none {r : Except GraphError (Graph × List Change)}
    (h : p.commit r = (p', none)) :
    ∃ g us, r = .ok (g, us) ∧ p' = { p with graph := g, undo := us :: p.undo } := by
  cases r with
  | error e => cases h
  | ok made =>
    cases h
    exact ⟨made.1, made.2, rfl, rfl⟩

/-- A node that is created has drawn an id that was free. -/
theorem createNode_eq_none {key : NewKey} {kind : NodeKind} {properties : Properties}
    (h : p.createNode key kind properties = (p', none)) : ∃ id p₁ g,
    p.draw = .ok (id, p₁) ∧ p₁.graph.insertNode ⟨id, kind, properties⟩ = .ok g ∧
      p' = { p₁ with
        graph := g, created := p₁.created.insert key.value id,
        undo := [.removeNode id] :: p₁.undo } := by
  rw [createNode] at h
  cases hdraw : p.draw with
  | error e =>
    simp only [hdraw] at h
    cases h
  | ok drawn =>
    obtain ⟨id, p₁⟩ := drawn
    simp only [hdraw] at h
    cases hinsert : p₁.graph.insertNode ⟨id, kind, properties⟩ with
    | error e =>
      simp only [hinsert] at h
      cases h
    | ok g =>
      simp only [hinsert] at h
      cases h
      exact ⟨id, p₁, g, rfl, hinsert, rfl⟩

/-- What is known of a change that was made: the entry that has its effect, and what
was noted to undo it. -/
structure Made (c : Change) (p p' : Progress) (e : OverlayEntry) (us : List Change) : Prop where
  wellFormed : p'.graph.WellFormed
  effect : Effect e.toChange p.graph.view p'.graph.view
  values_eq : e.toChange.values = c.values
  ofChange_eq : ∀ a, p'.Agrees a → OverlayEntry.ofChange a c = .ok e
  created_eq : ∀ key, c.newKey? ≠ some key → p'.created[key.value]? = p.created[key.value]?
  undo_eq : p'.undo = us :: p.undo
  values_undo : ∀ u ∈ us, ∀ x ∈ u.values, x ∈ c.values ∨ p.graph.view.Holds x

/-- A change that only gives a graph and notes. -/
theorem made_of_commit {r : Except GraphError (Graph × List Change)}
    (h : p.commit r = (p', none))
    (hr : ∀ g us, r = .ok (g, us) → ∃ e : OverlayEntry,
      (g.WellFormed ∧ Effect e.toChange p.graph.view g.view) ∧ e.toChange.values = c.values ∧
        (∀ a, p.Agrees a → OverlayEntry.ofChange a c = .ok e) ∧
        ∀ u ∈ us, ∀ x ∈ u.values, x ∈ c.values ∨ p.graph.view.Holds x) :
    ∃ e us, Made c p p' e us := by
  obtain ⟨g, us, hok, rfl⟩ := commit_eq_none h
  obtain ⟨e, ⟨hg, heffect⟩, hvalues, hchange, hus⟩ := hr g us hok
  exact ⟨e, us, hg, heffect, hvalues, hchange, fun _ _ => rfl, rfl, hus⟩

theorem holds_of_node? {g : Graph} {id : NodeId} {n : Node} {x : PropertyValue}
    (hn : g.node? id = some n) (hx : x ∈ n.properties.values) : g.view.Holds x := by
  obtain ⟨key, hkey⟩ := Properties.mem_values_iff.mp hx
  exact .inl ⟨id, n.view, key, Graph.view_node_of_node? hn, hkey⟩

theorem holds_of_mem_links {g : Graph} {l : Link} {x : PropertyValue}
    (hl : l ∈ g.links) (hx : x ∈ l.edge.properties.values) : g.view.Holds x := by
  obtain ⟨key, hkey⟩ := Properties.mem_values_iff.mp hx
  exact .inr ⟨l.view, Multiset.mem_coe.mpr (List.mem_map_of_mem hl), key, hkey⟩

/-- The value that a property had before was held. -/
theorem holds_of_updateProperties (hp : p.graph.WellFormed) {id : NodeId} {key : String}
    {f : Properties → Except GraphError Properties} {previous : Option PropertyValue} {g : Graph}
    (h : p.graph.updateProperties id key f = .ok (previous, g)) :
    ∀ u ∈ [Change.restoreProperty id key previous], ∀ x ∈ u.values,
      x ∈ c.values ∨ p.graph.view.Holds x := by
  obtain ⟨n, _, hn, _, rfl, _⟩ := hp.shows_of_updateProperties h
  rw [List.forall_mem_singleton]
  intro x hx
  have hx : n.properties.get? key = some x := Option.mem_toList.mp hx
  exact .inr (holds_of_node? hn (Properties.mem_values_iff.mpr ⟨key, hx⟩))

theorem made_of_createNode (hp : p.graph.WellFormed) {key : NewKey} {kind : NodeKind}
    {properties : Properties} (h : p.createNode key kind properties = (p', none)) :
    ∃ e us, Made (.createNode key kind properties) p p' e us := by
  obtain ⟨id, p₁, g, hdraw, hinsert, rfl⟩ := createNode_eq_none h
  obtain ⟨hp₁, hview, hcreated, hundo⟩ := draw_eq_ok hp hdraw
  obtain ⟨hg, heffect⟩ := Graph.effect_insertNode hp₁ hinsert
  rw [hview] at heffect
  refine ⟨.addNode id kind properties, [.removeNode id], hg, heffect, rfl, ?_, ?_,
    congrArg _ hundo, ?_⟩
  · intro a ha
    have hid : a.nodeId? key = some id := ha key id Std.TreeMap.getElem?_insert_self
    rw [OverlayEntry.ofChange, OverlayEntry.ofChange.id, Applied.resolve?, hid]
    rfl
  · intro key' hne
    have hvalue : ¬ compare key.value key'.value = .eq := by
      intro heq
      refine hne (congrArg some ?_)
      cases key
      cases key'
      exact congrArg NewKey.mk (Std.LawfulEqOrd.eq_of_compare heq)
    dsimp only
    rw [Std.TreeMap.getElem?_insert, if_neg hvalue, hcreated]
  · exact List.forall_mem_singleton.mpr fun x hx => absurd hx List.not_mem_nil

/-- What a change that succeeds does. -/
theorem made_of_apply (hp : p.graph.WellFormed) (h : p.apply c = (p', none)) :
    ∃ e us, Made c p p' e us := by
  cases c with
  | createNode key kind properties => exact made_of_createNode hp h
  | createEdge src dst edge =>
    refine made_of_commit h fun g us hok => ?_
    obtain ⟨s, hs, hok⟩ := bind_eq_ok hok
    obtain ⟨d, hd, hok⟩ := bind_eq_ok hok
    obtain ⟨g, hadd, hok⟩ := bind_eq_ok hok
    cases hok
    refine ⟨.addEdge s d edge, Graph.effect_addEdge hp hadd, rfl, ?_, ?_⟩
    · intro a ha
      rw [OverlayEntry.ofChange, ha.id_eq hs, ha.id_eq hd]
      rfl
    · exact List.forall_mem_singleton.mpr fun x hx => .inl hx
  | setProperty node key value =>
    refine made_of_commit h fun g us hok => ?_
    obtain ⟨id, hid, hok⟩ := bind_eq_ok hok
    obtain ⟨⟨previous, g⟩, hset, hok⟩ := bind_eq_ok hok
    cases hok
    obtain ⟨hg, heffect, _⟩ := Graph.effect_setProperty hp hset
    refine ⟨.setProperty id key value, ⟨hg, heffect⟩, rfl, ?_, holds_of_updateProperties hp hset⟩
    intro a ha
    rw [OverlayEntry.ofChange, ha.id_eq hid]
    rfl
  | addProperty node key value =>
    refine made_of_commit h fun g us hok => ?_
    obtain ⟨id, hid, hok⟩ := bind_eq_ok hok
    obtain ⟨⟨previous, g⟩, hadd, hok⟩ := bind_eq_ok hok
    cases hok
    refine ⟨.appendProperty id key value, Graph.effect_appendProperty hp hadd, rfl, ?_,
      holds_of_updateProperties hp hadd⟩
    intro a ha
    rw [OverlayEntry.ofChange, ha.id_eq hid]
    rfl
  | removeNode node =>
    refine made_of_commit h fun g us hok => ?_
    obtain ⟨⟨removed, g⟩, hremove, hok⟩ := bind_eq_ok hok
    cases hok
    refine ⟨.removeNode node, Graph.effect_removeNode hp hremove, rfl, fun _ _ => rfl, ?_⟩
    obtain ⟨hn, _⟩ := hp.shows_of_removeNode hremove
    rw [restoring, List.forall_mem_cons, List.forall_mem_map]
    refine ⟨fun x hx => .inr (holds_of_node? hn hx), fun l hl x hx => .inr ?_⟩
    have hmem : l ∈ p.graph.links :=
      (hp.perm_incidentLinks node).mem_iff.mp (List.mem_append_left _ hl)
    exact holds_of_mem_links hmem hx
  | removeEdge src dst edge =>
    refine made_of_commit h fun g us hok => ?_
    obtain ⟨⟨removed, g⟩, hremove, hok⟩ := bind_eq_ok hok
    cases hok
    refine ⟨.removeEdge src dst edge, Graph.effect_removeEdge hp hremove, rfl, fun _ _ => rfl, ?_⟩
    obtain ⟨l, hfind, rfl, _⟩ := hp.shows_of_removeEdge hremove
    exact List.forall_mem_singleton.mpr fun x hx =>
      .inr (holds_of_mem_links (List.mem_of_find?_eq_some hfind) hx)
  | restoreProperty node key value =>
    refine made_of_commit h fun g us hok => ?_
    refine ⟨.restoreProperty node key value, ?_⟩
    cases value with
    | some value =>
      obtain ⟨⟨previous, g⟩, hset, hok⟩ := bind_eq_ok hok
      cases hok
      obtain ⟨hg, _, heffect⟩ := Graph.effect_setProperty hp hset
      exact ⟨⟨hg, heffect⟩, rfl, fun _ _ => rfl, holds_of_updateProperties hp hset⟩
    | none =>
      obtain ⟨⟨previous, g⟩, hremove, hok⟩ := bind_eq_ok hok
      cases hok
      exact ⟨Graph.effect_removeProperty hp hremove, rfl, fun _ _ => rfl,
        holds_of_updateProperties hp hremove⟩
  | restoreNode node =>
    refine made_of_commit h fun g us hok => ?_
    obtain ⟨g, hinsert, hok⟩ := bind_eq_ok hok
    cases hok
    refine ⟨.addNode node.id node.kind node.properties, Graph.effect_insertNode hp hinsert, rfl,
      fun _ _ => rfl, ?_⟩
    exact List.forall_mem_singleton.mpr fun x hx => absurd hx List.not_mem_nil

/-! ## Scripts that were applied -/

theorem applyAll_cons_eq_none (h : p.applyAll (c :: cs) = (p', none)) :
    ∃ p₁, p.apply c = (p₁, none) ∧ p₁.applyAll cs = (p', none) := by
  rw [applyAll] at h
  cases happly : p.apply c with
  | mk p₁ error =>
    rw [happly] at h
    cases error with
    | some e => cases h
    | none => exact ⟨p₁, rfl, h⟩

/-- A change that gives a graph and notes is noted. -/
theorem undo_of_commit {r : Except GraphError (Graph × List Change)} (h : p.commit r = (p', none))
    (hr : ∀ g us, r = .ok (g, us) → us ≠ []) : ∃ us, us ≠ [] ∧ p'.undo = us :: p.undo := by
  obtain ⟨g, us, hok, rfl⟩ := commit_eq_none h
  exact ⟨us, hr g us hok, rfl⟩

/-- Something is noted for every change that is made, on any graph. -/
theorem undo_of_apply (h : p.apply c = (p', none)) : ∃ us, us ≠ [] ∧ p'.undo = us :: p.undo := by
  cases c with
  | createNode key kind properties =>
    obtain ⟨id, p₁, g, hdraw, _, rfl⟩ := createNode_eq_none h
    have hundo : p₁.undo = p.undo := by
      obtain ⟨_, _, rfl⟩ | ⟨_, _, _, _, rfl⟩ := draw_cases hdraw <;> rfl
    exact ⟨[.removeNode id], List.cons_ne_nil _ _, congrArg _ hundo⟩
  | createEdge src dst edge =>
    refine undo_of_commit h fun g us hok => ?_
    obtain ⟨src, _, hok⟩ := bind_eq_ok hok
    obtain ⟨dst, _, hok⟩ := bind_eq_ok hok
    obtain ⟨g, _, hok⟩ := bind_eq_ok hok
    cases hok
    exact List.cons_ne_nil _ _
  | setProperty node key value | addProperty node key value =>
    refine undo_of_commit h fun g us hok => ?_
    obtain ⟨node, _, hok⟩ := bind_eq_ok hok
    obtain ⟨made, _, hok⟩ := bind_eq_ok hok
    cases hok
    exact List.cons_ne_nil _ _
  | removeNode node | removeEdge src dst edge | restoreNode node =>
    refine undo_of_commit h fun g us hok => ?_
    obtain ⟨made, _, hok⟩ := bind_eq_ok hok
    cases hok
    exact List.cons_ne_nil _ _
  | restoreProperty node key value =>
    refine undo_of_commit h fun g us hok => ?_
    cases value with
    | some value | none =>
      obtain ⟨made, _, hok⟩ := bind_eq_ok hok
      cases hok
      exact List.cons_ne_nil _ _

/-- Changes that were made leave notes, and so does what was noted before them. -/
theorem inverse_eq_nil_of_applyAll (h : p.applyAll cs = (p', none)) (hnil : p'.inverse = []) :
    cs = [] ∧ p.inverse = [] := by
  induction cs generalizing p with
  | nil =>
    cases h
    exact ⟨rfl, hnil⟩
  | cons c cs ih =>
    obtain ⟨p₁, happly, hall⟩ := applyAll_cons_eq_none h
    obtain ⟨us, hus, hundo⟩ := undo_of_apply happly
    obtain ⟨_, hfirst⟩ := ih hall
    rw [inverse, hundo, List.flatten_cons, List.append_eq_nil_iff] at hfirst
    exact absurd hfirst.1 hus

theorem created_applyAll (hp : p.graph.WellFormed) (h : p.applyAll cs = (p', none)) {key : NewKey}
    (hkey : key ∉ (Diff.mk cs).newKeys) : p'.created[key.value]? = p.created[key.value]? := by
  induction cs generalizing p with
  | nil =>
    cases h
    rfl
  | cons c cs ih =>
    obtain ⟨p₁, happly, hall⟩ := applyAll_cons_eq_none h
    obtain ⟨e, us, hmade⟩ := made_of_apply hp happly
    rw [Diff.newKeys_cons, List.mem_append, not_or, Option.mem_toList] at hkey
    exact (ih hmade.wellFormed hall hkey.2).trans (hmade.created_eq key hkey.1)

/-- The keys that changes create are distinct and new. -/
structure Fresh (p : Progress) (cs : List Change) : Prop where
  nodup : (Diff.mk cs).newKeys.Nodup
  created : ∀ key ∈ (Diff.mk cs).newKeys, p.created[key.value]? = none

theorem Made.fresh {e : OverlayEntry} {us : List Change} (h : Made c p p' e us)
    (hfresh : p.Fresh (c :: cs)) : p'.Fresh cs := by
  obtain ⟨hnodup, hcreated⟩ := hfresh
  rw [Diff.newKeys_cons, List.nodup_append] at hnodup
  refine ⟨hnodup.2.1, fun key hkey => ?_⟩
  have hc : c.newKey? ≠ some key := fun hc =>
    hnodup.2.2 key (Option.mem_toList.mpr hc) key hkey rfl
  rw [h.created_eq key hc]
  exact hcreated key (by rw [Diff.newKeys_cons]; exact List.mem_append_right _ hkey)

/-- A key that is known is not created again, so it stands for the same node in the end. -/
theorem agrees_of_applyAll (hp : p.graph.WellFormed) (h : p.applyAll cs = (p', none))
    (hfresh : p.Fresh cs) (ha : a.created = p'.created) : p.Agrees a := by
  intro key id hid
  have hkey : key ∉ (Diff.mk cs).newKeys := by
    intro hmem
    rw [hfresh.created key hmem] at hid
    cases hid
  rw [Applied.nodeId?, ha, created_applyAll hp h hkey, hid]

/-- A script that was applied is resolved to an overlay that has its effect. -/
theorem resolve_of_applyAll (hp : p.graph.WellFormed) (h : p.applyAll cs = (p', none))
    (hfresh : p.Fresh cs) (ha : a.created = p'.created) :
    ∃ o, Overlay.resolve ⟨cs⟩ a = .ok o ∧ o.toDiff.values = (Diff.mk cs).values ∧
      Effects o.toDiff.changes p.graph.view p'.graph.view := by
  induction cs generalizing p with
  | nil =>
    cases h
    exact ⟨{}, rfl, rfl, .nil⟩
  | cons c cs ih =>
    obtain ⟨p₁, happly, hall⟩ := applyAll_cons_eq_none h
    obtain ⟨e, us, hmade⟩ := made_of_apply hp happly
    have hfresh₁ := hmade.fresh hfresh
    obtain ⟨o, ho, hvalues, heffects⟩ := ih hmade.wellFormed hall hfresh₁
    have he := hmade.ofChange_eq a (agrees_of_applyAll hmade.wellFormed hall hfresh₁ ha)
    refine ⟨_, Overlay.resolve_cons he ho, ?_, .cons hmade.effect heffects⟩
    exact congrArg₂ (· ++ ·) hmade.values_eq hvalues

/-! ## Depth -/

/-- Values nest at most `k` lists, in the graph and in what was noted. -/
structure Shallow (k : Nat) (p : Progress) : Prop where
  graph : ∀ x, p.graph.view.Holds x → x.depth ≤ k
  notes : ∀ x ∈ (Diff.mk p.inverse).values, x.depth ≤ k

theorem Made.shallow {k : Nat} {e : OverlayEntry} {us : List Change} (h : Made c p p' e us)
    (hp : p.Shallow (k + 1)) (hc : ∀ x ∈ c.values, x.depth ≤ k) : p'.Shallow (k + 1) where
  graph := h.effect.depth_le hp.graph (h.values_eq ▸ hc)
  notes := by
    intro x hx
    obtain ⟨u, hu, hx⟩ := List.mem_flatMap.mp hx
    rw [inverse, h.undo_eq, List.flatten_cons, List.mem_append] at hu
    rcases hu with hu | hu
    · rcases h.values_undo u hu x hx with hx | hx
      · exact Nat.le_succ_of_le (hc x hx)
      · exact hp.graph x hx
    · exact hp.notes x (List.mem_flatMap.mpr ⟨u, hu, hx⟩)

theorem Shallow.applyAll {k : Nat} (hshallow : p.Shallow (k + 1)) (hp : p.graph.WellFormed)
    (hcs : ∀ x ∈ (Diff.mk cs).values, x.depth ≤ k) (h : p.applyAll cs = (p', none)) :
    p'.Shallow (k + 1) := by
  induction cs generalizing p with
  | nil =>
    cases h
    exact hshallow
  | cons c cs ih =>
    obtain ⟨p₁, happly, hall⟩ := applyAll_cons_eq_none h
    obtain ⟨e, us, hmade⟩ := made_of_apply hp happly
    simp only [Diff.values, List.flatMap_cons, List.forall_mem_append] at hcs
    exact ih (hmade.shallow hshallow hcs.1) hmade.wellFormed hcs.2 hall

end Progress

namespace Graph

variable {g : Graph} {d : Diff} {pool : Option KeyPool} {withInverse : Bool} {a : Applied}
  {x : PropertyValue}

theorem WellFormed.mem_values_of_holds (hg : g.WellFormed) (h : g.view.Holds x) :
    x ∈ g.values := by
  rcases h with ⟨id, n, key, hn, hx⟩ | ⟨e, he, key, hx⟩
  · obtain ⟨node, hnode, rfl⟩ := node?_eq_some_of_view hn
    have hmem : node ∈ g.allNodes := hg.mem_allNodes.mpr (hg.id_of_node? hnode ▸ hnode)
    exact mem_values_of_mem_allNodes hmem (Properties.mem_values_iff.mpr ⟨key, hx⟩)
  · obtain ⟨l, hl, rfl⟩ := List.mem_map.mp (Multiset.mem_coe.mp he)
    have hmem : l ∈ g.allLinks := hg.perm_allLinks.mem_iff.mpr hl
    exact mem_values_of_mem_allLinks hmem (Properties.mem_values_iff.mpr ⟨key, hx⟩)

/-! ## Applications -/

/-- Neither overlay of an application is empty, unless the script is. -/
theorem isEmpty_of_apply (h : (g.apply d pool withInverse).result = .ok a) {o : Overlay}
    (ho : Overlay.forward a = .ok o ∨ Overlay.inverse? a = some (.ok o)) :
    o.isEmpty = d.isEmpty := by
  obtain ⟨p, hall, _, rfl⟩ := apply_eq_ok h
  rcases ho with ho | ho
  · exact Overlay.isEmpty_of_resolve ho
  · obtain ⟨inverse, hinverse, ho⟩ := Option.map_eq_some_iff.mp ho
    rw [Overlay.isEmpty_of_resolve ho]
    have heq : inverse = ⟨p.inverse⟩ := by
      dsimp only at hinverse
      split at hinverse
      · exact (Option.some.inj hinverse).symm
      · cases hinverse
    obtain ⟨cs⟩ := d
    rw [heq, Bool.eq_iff_iff, Diff.isEmpty, Diff.isEmpty, List.isEmpty_iff, List.isEmpty_iff]
    constructor
    · exact fun hnil => (Progress.inverse_eq_nil_of_applyAll hall hnil).1
    · rintro rfl
      cases hall
      rfl

theorem WellFormed.apply (hg : g.WellFormed) (h : (g.apply d pool withInverse).result = .ok a) :
    (g.apply d pool withInverse).graph.WellFormed := by
  obtain ⟨p, hall, hgraph, _⟩ := apply_eq_ok h
  have hundo := (Progress.canUndo_start hg pool).applyAll d.changes
  rw [hall] at hundo
  rw [hgraph]
  exact hundo.wellFormed

/-- The forward overlay of a script has its effect. -/
theorem forward_of_apply (hg : g.WellFormed) (hkeys : d.newKeys.Nodup)
    (h : (g.apply d pool withInverse).result = .ok a) : ∃ o,
    Overlay.forward a = .ok o ∧ o.toDiff.values = d.values ∧
      Effects o.toDiff.changes g.view (g.apply d pool withInverse).graph.view := by
  obtain ⟨p, hall, hgraph, rfl⟩ := apply_eq_ok h
  rw [hgraph]
  have hfresh : Progress.Fresh { graph := g, pool } d.changes :=
    ⟨hkeys, fun _ _ => Std.TreeMap.getElem?_emptyc⟩
  exact Progress.resolve_of_applyAll hg hall hfresh rfl

/-- The overlay of the inverse of a script undoes its effect. -/
theorem inverse_of_apply (hg : g.WellFormed) (h : (g.apply d pool true).result = .ok a) : ∃ o,
    Overlay.inverse? a = some (.ok o) ∧
      Effects o.toDiff.changes (g.apply d pool true).graph.view g.view ∧
      ∀ k, (∀ x, g.view.Holds x → x.depth ≤ k + 1) → (∀ x ∈ d.values, x.depth ≤ k) →
        (∀ x ∈ o.toDiff.values, x.depth ≤ k + 1) ∧
        ∀ x, (g.apply d pool true).graph.view.Holds x → x.depth ≤ k + 1 := by
  obtain ⟨p, hall, hgraph, rfl⟩ := apply_eq_ok h
  have hundo := (Progress.canUndo_start hg pool).applyAll d.changes
  rw [hall] at hundo
  obtain ⟨o, ho, hdiff⟩ :=
    Overlay.resolve_of_effects hundo.effects ⟨d, some ⟨p.inverse⟩, p.created⟩
  rw [hgraph]
  refine ⟨o, congrArg some ho, hdiff ▸ hundo.effects, fun k hk hd => ?_⟩
  have hstart : Progress.Shallow (k + 1) { graph := g, pool } :=
    ⟨hk, fun x hx => absurd hx List.not_mem_nil⟩
  have hshallow := hstart.applyAll hg hd hall
  exact ⟨hdiff ▸ hshallow.notes, hshallow.graph⟩

end Graph

end CodeGraph
