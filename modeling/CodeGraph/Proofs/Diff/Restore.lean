import CodeGraph.Proofs.Diff.Undo

/-!
# Recorded changes taken back slot by slot

The changes that analyses record create nodes and edges and put properties in.
None of them removes anything, so what undoes them vacates the slot that was
filled last, or puts a property back in its place.  Afterwards every slot holds
what it held before.  Only the allocator and the cells that were added are left
(`Alike`).

This takes no more than a consistent graph.  In a graph with several nodes of one
id, a node that was removed may not come back, as another one has its id; but a
node that was put in last is the one that the index knows.
-/

namespace CodeGraph

namespace Graph

/-! ## Graphs alike -/

/-- Two graphs hold the same in their slots, find it under the same ids, and have
added their edges in the same order. -/
structure Alike (g h : Graph) : Prop extends SameSlots g h where
  recent : g.recent = h.recent
  slot? : ∀ id, g.slot? id = h.slot? id

theorem Alike.refl (g : Graph) : Alike g g := ⟨.refl g, rfl, fun _ => rfl⟩

variable {g g' h : Graph} {id src dst : NodeId} {n : Node} {key : String} {edge : Edge}

/-! ## One operation taken back -/

/-- Removing a node that was just put in vacates its slot.  No edge is at it. -/
theorem Consistent.alike_removeNode (hg : g.Consistent) (hnew : g.slot? n.id = none)
    (hh : Alike h (g.place n)) : ∃ h', h.removeNode n.id = .ok (n, h') ∧ Alike h' g := by
  obtain ⟨i, hi⟩ : ∃ i, i = (g.nodes.insert n).1 := ⟨_, rfl⟩
  have hslot : h.slot? n.id = some i := by rw [hh.slot?, slot?_place, if_pos rfl, hi]
  have hnode : h.nodes.get? i = some n := by rw [hh.nodes, hg.get?_place, if_pos hi]
  have hvacant : g.nodes.get? i = none := hi ▸ hg.nodes.get?_insert_fst n
  have htouches : ∀ k, h.touches i k = false := by
    intro k
    unfold touches
    -- putting the node in has not changed the arcs
    rw [hh.arcs]
    exact hg.touches_of_vacant hvacant k
  have hnone : h.leaving i ++ h.entering i = [] := by
    unfold leaving entering
    rw [hh.recent, funext hh.arcs, List.eq_nil_iff_forall_not_mem]
    intro k hk
    have hk : g.touches i k := hg.mem_leaving_append_entering.mp hk
    rw [hg.touches_of_vacant hvacant] at hk
    cases hk
  refine ⟨h.vacate n.id i, by simp only [removeNode, hslot, hnode], ⟨?_, ?_⟩, ?_, ?_⟩
  · intro j
    rw [get?_vacate_nodes, hh.nodes, hg.get?_place, ← hi]
    by_cases hj : j = i
    · rw [if_pos hj, hj, hvacant]
    · rw [if_neg hj, if_neg hj]
  · intro k
    unfold Graph.vacate
    rw [hnone, Slots.get?_eraseAll, if_neg (by simp)]
    exact hh.arcs k
  · change h.recent.filter _ = g.recent
    rw [List.filter_eq_self.mpr (by simp [htouches])]
    exact hh.recent
  · intro id
    rw [slot?_vacate, hh.slot?, slot?_place]
    by_cases hid : id = n.id
    · rw [if_pos hid, hid, hnew]
    · rw [if_neg hid, if_neg hid]

/-- Of equal edges the one that was just put in is removed. -/
theorem Consistent.alike_removeEdge (hg : g.Consistent) (hadd : g.addEdge src dst edge = .ok g')
    (hh : Alike h g') : ∃ h', h.removeEdge src dst edge = .ok (edge, h') ∧ Alike h' g := by
  obtain ⟨i, j, hi, hj, rfl⟩ := addEdge_eq_ok hadd
  have hsrc : h.slot? src = some i := (hh.slot? src).trans hi
  have hdst : h.slot? dst = some j := (hh.slot? dst).trans hj
  have hrecent : h.recent = (g.arcs.insert ⟨i, j, edge⟩).1 :: g.recent := hh.recent
  have harcs : ∀ k, h.arcs.get? k =
      if k = (g.arcs.insert ⟨i, j, edge⟩).1 then some ⟨i, j, edge⟩ else g.arcs.get? k :=
    fun k => (hh.arcs k).trans (hg.arcs.get?_insert _ k)
  have hsame : edge.same edge = true := by simp [Edge.same, Properties.same_iff]
  have hfound : h.findArc? i j edge = some ((g.arcs.insert ⟨i, j, edge⟩).1, edge) := by
    unfold findArc?
    rw [hrecent, List.findSome?_cons, harcs, if_pos rfl]
    simp [hsame]
  refine ⟨h.cut (g.arcs.insert ⟨i, j, edge⟩).1, by simp only [removeEdge, hsrc, hdst, hfound],
    ⟨hh.nodes, ?_⟩, ?_, hh.slot?⟩
  · intro k
    change (h.arcs.erase _).get? k = _
    rw [Slots.get?_erase, harcs]
    by_cases hk : k = (g.arcs.insert ⟨i, j, edge⟩).1
    · rw [if_pos hk, hk, hg.arcs.get?_insert_fst]
    · rw [if_neg hk, if_neg hk]
  · change h.recent.erase _ = g.recent
    rw [hrecent, List.erase_cons_head]

/-- A node is put back in its slot by whatever gives back its properties. -/
theorem alike_updateProperties (back : Properties → Except GraphError Properties)
    {f : Properties → Except GraphError Properties} {previous : Option PropertyValue}
    (hok : g.updateProperties id key f = .ok (previous, g'))
    (hback : ∀ p q, f p = .ok q → p.get? key = previous → back q = .ok p) (hh : Alike h g') :
    ∃ x h', h.updateProperties id key back = .ok (x, h') ∧ Alike h' g := by
  obtain ⟨i, n, q, hi, hn, hq, hprevious, rfl⟩ := updateProperties_eq_ok hok
  have hslot : h.slot? id = some i := (hh.slot? id).trans hi
  have hnode : h.nodes.get? i = some { n with properties := q } := by
    rw [hh.nodes, get?_withNode hn, if_pos rfl]
  have hrestored : back q = .ok n.properties := hback _ _ hq hprevious.symm
  refine ⟨q.get? key, h.withNode i n, ?_, ⟨?_, hh.arcs⟩, hh.recent, hh.slot?⟩
  · simp only [updateProperties, hslot, hnode, hrestored]
    rfl
  · intro j
    rw [get?_withNode hnode, hh.nodes, get?_withNode hn]
    by_cases hj : j = i
    · rw [if_pos hj, hj, hn]
    · rw [if_neg hj, if_neg hj]

end Graph

/-! ## Scripts of recorded changes -/

/-- Whether a change is of a kind that analyses record. -/
def Change.isRecorded : Change → Bool
  | .createNode _ _ _ | .createEdge _ _ _ | .setProperty _ _ _ | .addProperty _ _ _ => true
  | _ => false

/-- A script as analyses record it. -/
def Diff.Recorded (d : Diff) : Prop := ∀ c ∈ d.changes, c.isRecorded

instance (d : Diff) : Decidable d.Recorded :=
  List.decidableBAll (fun c : Change => c.isRecorded = true) d.changes

namespace Progress

open CodeGraph.Graph (Alike)

variable {p p' q q' : Progress} {g h : Graph} {us vs : List Change}

theorem applyAll_append (h : q.applyAll us = (q', none)) :
    q.applyAll (us ++ vs) = q'.applyAll vs := by
  induction us generalizing q with
  | nil =>
    cases h
    rfl
  | cons u us ih =>
    rw [applyAll] at h
    rw [List.cons_append, applyAll]
    cases hu : q.apply u with
    | mk r error =>
      rw [hu] at h
      cases error with
      | none => exact ih h
      | some e => cases h

/-- Changes that lead from every graph alike to `h` to a graph alike to `g`. -/
def Restores (us : List Change) (h g : Graph) : Prop :=
  ∀ q : Progress, Alike q.graph h → ∃ q', q.applyAll us = (q', none) ∧ Alike q'.graph g

theorem Restores.append {g₁ : Graph} (hus : Restores us h g₁) (hvs : Restores vs g₁ g) :
    Restores (us ++ vs) h g := by
  intro q hq
  obtain ⟨q₁, hall, hq₁⟩ := hus q hq
  rw [applyAll_append hall]
  exact hvs q₁ hq₁

theorem restores_singleton {c : Change} (hc : ∀ q : Progress, Alike q.graph h →
    ∃ h' us, q.apply c = q.commit (.ok (h', us)) ∧ Alike h' g) : Restores [c] h g := by
  intro q hq
  obtain ⟨h', us, happly, hh'⟩ := hc q hq
  refine ⟨{ q with graph := h', undo := us :: q.undo }, ?_, hh'⟩
  rw [applyAll, happly]
  rfl

theorem restores_removeNode {n : Node} (hg : g.Consistent) (hinsert : g.insertNode n = .ok h) :
    Restores [.removeNode n.id] h g := by
  refine restores_singleton fun q hq => ?_
  obtain ⟨hnew, rfl⟩ := Graph.insertNode_eq_ok hinsert
  obtain ⟨h', hok, hh'⟩ := hg.alike_removeNode hnew hq
  exact ⟨h', _, by rw [apply, hok]; rfl, hh'⟩

theorem restores_removeEdge {src dst : NodeId} {edge : Edge} (hg : g.Consistent)
    (hadd : g.addEdge src dst edge = .ok h) : Restores [.removeEdge src dst edge] h g := by
  refine restores_singleton fun q hq => ?_
  obtain ⟨h', hok, hh'⟩ := hg.alike_removeEdge hadd hq
  exact ⟨h', _, by rw [apply, hok]; rfl, hh'⟩

/-- A property that was put in is put back to its value before, or taken out. -/
theorem restores_restoreProperty {id : NodeId} {key : String}
    {f : Properties → Except GraphError Properties} {previous : Option PropertyValue}
    (hf : ∀ p q, f p = .ok q → ∃ value, q = p.insert key value)
    (hok : g.updateProperties id key f = .ok (previous, h)) :
    Restores [.restoreProperty id key previous] h g := by
  refine restores_singleton fun q hq => ?_
  cases previous with
  | some old =>
    obtain ⟨x, h', hback, hh'⟩ := Graph.alike_updateProperties
      (fun p => .ok (p.insert key old)) hok (by
        intro p q hpq hold
        obtain ⟨value, rfl⟩ := hf p q hpq
        exact congrArg Except.ok (Properties.insert_insert_of_get? hold)) hq
    have hset : q.graph.setProperty id key old = .ok (x, h') := hback
    exact ⟨h', _, by simp only [apply, hset]; rfl, hh'⟩
  | none =>
    obtain ⟨x, h', hback, hh'⟩ := Graph.alike_updateProperties
      (fun p => .ok (p.erase key)) hok (by
        intro p q hpq hnone
        obtain ⟨value, rfl⟩ := hf p q hpq
        exact congrArg Except.ok (Properties.erase_insert_of_get? hnone)) hq
    have hremove : q.graph.removeProperty id key = .ok (x, h') := hback
    exact ⟨h', _, by simp only [apply, hremove]; rfl, hh'⟩

/-- The notes lead from the graph so far back to a graph alike. -/
structure CanRestore (g : Graph) (p : Progress) : Prop where
  consistent : p.graph.Consistent
  restores : Restores p.inverse p.graph g

theorem canRestore_start (hg : g.Consistent) (pool : Option KeyPool) :
    CanRestore g { graph := g, pool } :=
  ⟨hg, fun q hq => ⟨q, rfl, hq⟩⟩

theorem CanRestore.commit (hp : CanRestore g p) {r : Except GraphError (Graph × List Change)}
    (hr : ∀ h us, r = .ok (h, us) → h.Consistent ∧ Restores us h p.graph) :
    CanRestore g (p.commit r).1 := by
  cases r with
  | error e => exact hp
  | ok made =>
    obtain ⟨h, us⟩ := made
    obtain ⟨hh, hus⟩ := hr h us rfl
    exact ⟨hh, hus.append hp.restores⟩

theorem CanRestore.draw (hp : CanRestore g p) {id : NodeId} (hdraw : p.draw = .ok (id, p')) :
    CanRestore g p' := by
  obtain ⟨_, _, rfl⟩ | ⟨_, _, _, _, rfl⟩ := draw_cases hdraw
  · refine ⟨hp.consistent.withNextId _, fun q hq => ?_⟩
    exact hp.restores q ⟨⟨hq.nodes, hq.arcs⟩, hq.recent, hq.slot?⟩
  · exact ⟨hp.consistent, hp.restores⟩

theorem CanRestore.apply (hp : CanRestore g p) {c : Change} (hc : c.isRecorded) :
    CanRestore g (p.apply c).1 := by
  cases c with
  | createNode key kind properties =>
    rw [Progress.apply, createNode]
    cases hdraw : p.draw with
    | error e => exact hp
    | ok drawn =>
      obtain ⟨id, p'⟩ := drawn
      have hp' := hp.draw hdraw
      dsimp only
      cases hinsert : p'.graph.insertNode ⟨id, kind, properties⟩ with
      -- the id is used up, which a graph alike does not show
      | error e => exact hp'
      | ok h =>
        have hrestores := restores_removeNode hp'.consistent hinsert
        obtain ⟨_, rfl⟩ := Graph.insertNode_eq_ok hinsert
        exact ⟨hp'.consistent.place _, hrestores.append hp'.restores⟩
  | createEdge src dst edge =>
    refine hp.commit fun h us hok => ?_
    obtain ⟨src, _, hok⟩ := bind_eq_ok hok
    obtain ⟨dst, _, hok⟩ := bind_eq_ok hok
    obtain ⟨h, hadd, hok⟩ := bind_eq_ok hok
    cases hok
    have hrestores := restores_removeEdge hp.consistent hadd
    obtain ⟨i, j, hi, hj, rfl⟩ := Graph.addEdge_eq_ok hadd
    have hs := hp.consistent.isSome_of_slot? hi
    have hd := hp.consistent.isSome_of_slot? hj
    exact ⟨hp.consistent.join hs hd edge, hrestores⟩
  | setProperty node key value =>
    refine hp.commit fun h us hok => ?_
    obtain ⟨node, _, hok⟩ := bind_eq_ok hok
    obtain ⟨⟨previous, h⟩, hset, hok⟩ := bind_eq_ok hok
    cases hok
    refine ⟨hp.consistent.updateProperties hset, restores_restoreProperty ?_ hset⟩
    intro p q hq
    cases hq
    exact ⟨value, rfl⟩
  | addProperty node key value =>
    refine hp.commit fun h us hok => ?_
    obtain ⟨node, _, hok⟩ := bind_eq_ok hok
    obtain ⟨⟨previous, h⟩, hadd, hok⟩ := bind_eq_ok hok
    cases hok
    refine ⟨hp.consistent.updateProperties hadd, restores_restoreProperty ?_ hadd⟩
    intro p q hq
    unfold Graph.appended at hq
    split at hq
    · cases hq
      exact ⟨_, rfl⟩
    · cases hq
      exact ⟨_, rfl⟩
    · cases hq
  | removeNode node => cases hc
  | removeEdge src dst edge => cases hc
  | restoreProperty node key value => cases hc
  | restoreNode node => cases hc

theorem CanRestore.applyAll (hp : CanRestore g p) {cs : List Change}
    (hcs : ∀ c ∈ cs, c.isRecorded) : CanRestore g (p.applyAll cs).1 :=
  applyAll_induction (CanRestore g) (fun c => c.isRecorded) (fun _ _ hp hc => hp.apply hc) hp hcs

end Progress

namespace Graph

variable {g : Graph} {d : Diff} {pool : Option KeyPool} {withInverse : Bool} {e : GraphError}
  {a : Applied}

/-- A script that fails leaves the content as it was, where ids are not repeated. -/
theorem WellFormed.content_of_error (hg : g.WellFormed) (he : e ≠ .overflow)
    (h : (g.apply d pool withInverse).result = .error e) :
    (g.apply d pool withInverse).graph.content = g.content := by
  obtain ⟨p, hall, hgraph⟩ := apply_eq_error h he
  have hundo := (Progress.canUndo_start hg pool).applyAll d.changes
  rw [hall] at hundo
  obtain ⟨q, hinverse, hq, hview⟩ := hundo.applyAll_inverse (q := p) rfl
  rw [hgraph, Progress.rollback_eq hinverse]
  exact content_eq_of_view_eq hq hg hview

/-- A script of recorded changes that fails leaves every slot as it was. -/
theorem Consistent.alike_of_error (hg : g.Consistent) (hd : d.Recorded) (he : e ≠ .overflow)
    (h : (g.apply d pool withInverse).result = .error e) :
    Alike (g.apply d pool withInverse).graph g := by
  obtain ⟨p, hall, hgraph⟩ := apply_eq_error h he
  have hrestore := (Progress.canRestore_start hg pool).applyAll hd
  rw [hall] at hrestore
  obtain ⟨q, hinverse, hq⟩ := hrestore.restores p (.refl _)
  rw [hgraph, Progress.rollback_eq hinverse]
  exact hq

theorem Consistent.apply (hg : g.Consistent) (hd : d.Recorded)
    (h : (g.apply d pool withInverse).result = .ok a) :
    (g.apply d pool withInverse).graph.Consistent := by
  obtain ⟨p, hall, hgraph, _⟩ := apply_eq_ok h
  have hrestore := (Progress.canRestore_start hg pool).applyAll hd
  rw [hall] at hrestore
  rw [hgraph]
  exact hrestore.consistent

end Graph

end CodeGraph
