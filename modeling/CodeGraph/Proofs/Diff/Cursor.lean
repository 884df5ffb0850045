import CodeGraph.Proofs.Diff.Restore
import CodeGraph.Proofs.Graph.Reload

/-!
# Where a script draws its ids from

Only a change that creates a node draws an id, from the pool or from the allocator.
All others leave both alone, and so does the clean-up after a failure, since notes name
nodes by their ids (`Progress.CanUndo.rollback_cursors`).

Ids that were drawn are not given back, so the allocator of a graph is not where it was
after a script was undone.  For each node that a script creates it passes over the ids
that are taken by then and over the new one, so it is not far from there either
(`Graph.Advanced`).
-/

namespace CodeGraph

namespace Progress

variable {p : Progress} {c : Change} {cs : List Change}

/-! ## Changes that draw no id -/

theorem commit_cursors {r : Except GraphError (Graph × List Change)}
    (hr : ∀ g us, r = .ok (g, us) → g.nextId = p.graph.nextId) :
    (p.commit r).1.graph.nextId = p.graph.nextId ∧ (p.commit r).1.pool = p.pool := by
  cases r with
  | error e => exact ⟨rfl, rfl⟩
  | ok made => exact ⟨hr made.1 made.2 rfl, rfl⟩

/-- A change that creates no node leaves the allocator and the pool alone. -/
theorem apply_cursors (hc : c.isCreateNode = false) :
    (p.apply c).1.graph.nextId = p.graph.nextId ∧ (p.apply c).1.pool = p.pool := by
  cases c with
  | createNode key kind properties => cases hc
  | createEdge src dst edge =>
    refine commit_cursors fun g us hok => ?_
    obtain ⟨src, _, hok⟩ := bind_eq_ok hok
    obtain ⟨dst, _, hok⟩ := bind_eq_ok hok
    obtain ⟨g, hadd, hok⟩ := bind_eq_ok hok
    cases hok
    exact Graph.nextId_addEdge hadd
  | setProperty node key value =>
    refine commit_cursors fun g us hok => ?_
    obtain ⟨node, _, hok⟩ := bind_eq_ok hok
    obtain ⟨⟨previous, g⟩, hset, hok⟩ := bind_eq_ok hok
    cases hok
    exact Graph.nextId_updateProperties hset
  | addProperty node key value =>
    refine commit_cursors fun g us hok => ?_
    obtain ⟨node, _, hok⟩ := bind_eq_ok hok
    obtain ⟨⟨previous, g⟩, hadd, hok⟩ := bind_eq_ok hok
    cases hok
    exact Graph.nextId_updateProperties hadd
  | removeNode node =>
    refine commit_cursors fun g us hok => ?_
    obtain ⟨⟨removed, g⟩, hremove, hok⟩ := bind_eq_ok hok
    cases hok
    exact Graph.nextId_removeNode hremove
  | removeEdge src dst edge =>
    refine commit_cursors fun g us hok => ?_
    obtain ⟨⟨removed, g⟩, hremove, hok⟩ := bind_eq_ok hok
    cases hok
    exact Graph.nextId_removeEdge hremove
  | restoreProperty node key value =>
    refine commit_cursors fun g us hok => ?_
    cases value with
    | some value =>
      obtain ⟨⟨previous, g⟩, hset, hok⟩ := bind_eq_ok hok
      cases hok
      exact Graph.nextId_updateProperties hset
    | none =>
      obtain ⟨⟨previous, g⟩, hremove, hok⟩ := bind_eq_ok hok
      cases hok
      exact Graph.nextId_updateProperties hremove
  | restoreNode node =>
    refine commit_cursors fun g us hok => ?_
    obtain ⟨g, hinsert, hok⟩ := bind_eq_ok hok
    cases hok
    exact Graph.nextId_insertNode hinsert

theorem foldl_apply_cursors (hcs : ∀ c ∈ cs, c.isCreateNode = false) :
    (cs.foldl (fun p c => (p.apply c).1) p).graph.nextId = p.graph.nextId ∧
      (cs.foldl (fun p c => (p.apply c).1) p).pool = p.pool := by
  induction cs generalizing p with
  | nil => exact ⟨rfl, rfl⟩
  | cons c cs ih =>
    obtain ⟨hc, hcs⟩ := List.forall_mem_cons.mp hcs
    obtain ⟨hnext, hpool⟩ := apply_cursors (p := p) hc
    obtain ⟨hnexts, hpools⟩ := ih (p := (p.apply c).1) hcs
    rw [List.foldl_cons]
    exact ⟨hnexts.trans hnext, hpools.trans hpool⟩

/-- A change with an effect on a view names nodes by their ids. -/
theorem isCreateNode_of_effects {v w : View} (h : View.Effects cs v w) :
    ∀ c ∈ cs, c.isCreateNode = false := by
  induction h with
  | nil => exact List.forall_mem_nil _
  | cons hc _ ih =>
    refine List.forall_mem_cons.mpr ⟨?_, ih⟩
    cases hc <;> rfl

theorem CanUndo.rollback_cursors {v : View} (h : CanUndo v p) :
    p.rollback.graph.nextId = p.graph.nextId ∧ p.rollback.pool = p.pool :=
  foldl_apply_cursors (isCreateNode_of_effects h.effects)

end Progress

/-! ## How far the allocator moves -/

namespace Graph

/-- The allocator has advanced from where it is in another graph, for at most so many new
nodes. -/
def Advanced (h g : Graph) (n : Nat) : Prop :=
  ∃ k ≤ n * (g.nodeCount + n), h.nextId = g.nextId + UInt64.ofNat k

/-- No more ids are taken than in another graph and by so many new nodes, and for no more has
the allocator advanced. -/
structure Grown (h g : Graph) (n : Nat) : Prop where
  size_le : h.index.size ≤ g.nodeCount + n
  advanced : Advanced h g n

variable {g h : Graph} {m n : Nat}

theorem Advanced.mono (ha : Advanced h g n) (hle : n ≤ m) : Advanced h g m := by
  obtain ⟨k, hk, hnext⟩ := ha
  refine ⟨k, Nat.le_trans hk ?_, hnext⟩
  exact Nat.mul_le_mul hle (Nat.add_le_add_left hle _)

theorem WellFormed.grown (hg : g.WellFormed) : Grown g g 0 :=
  ⟨hg.size_index_le, 0, Nat.zero_le _, (UInt64.add_zero _).symm⟩

theorem Grown.mono (hm : Grown h g n) (hle : n ≤ m) : Grown h g m :=
  ⟨Nat.le_trans hm.size_le (Nat.add_le_add_left hle _), hm.advanced.mono hle⟩

/-- No more ids are passed over than the index has entries. -/
theorem Grown.advanced_allocate (hm : Grown h g n) {id : NodeId} {rest : List NodeId}
    (hsupply : h.supply = id :: rest) :
    Advanced { h with nextId := id.value + 1 } g (n + 1) := by
  obtain ⟨k, hk, hnext⟩ := hm.advanced
  obtain ⟨j, hj, rfl, htaken, _⟩ := freeBetween_eq_cons hsupply
  have hpassed := le_size_index (by omega) htaken
  have hsize := hm.size_le
  refine ⟨k + j + 1, ?_, ?_⟩
  · calc k + j + 1 ≤ n * (g.nodeCount + n) + (g.nodeCount + n) + 1 := by omega
      _ ≤ (n + 1) * (g.nodeCount + (n + 1)) := by nlinarith
  · change UInt64.ofNat (h.nextId.toNat + j) + 1 = _
    rw [UInt64.ofNat_add, UInt64.ofNat_toNat, hnext, UInt64.ofNat_add, UInt64.ofNat_add,
      UInt64.add_assoc, UInt64.add_assoc, UInt64.add_assoc]
    rfl

end Graph

namespace Progress

open CodeGraph.Graph (Advanced Grown)

variable {p p' : Progress} {c : Change} {cs : List Change} {g : Graph} {n : Nat}

theorem advanced_draw {id : NodeId} (hp : Grown p.graph g n) (h : p.draw = .ok (id, p')) :
    p'.graph.index = p.graph.index ∧ Advanced p'.graph g (n + 1) := by
  obtain ⟨_, ⟨_, hsupply⟩, rfl⟩ | ⟨_, _, _, _, rfl⟩ := draw_cases h
  · exact ⟨rfl, hp.advanced_allocate hsupply⟩
  · exact ⟨rfl, hp.advanced.mono (Nat.le_succ n)⟩

theorem grown_createNode (hp : Grown p.graph g n) (key : NewKey) (kind : NodeKind)
    (properties : Properties) : Grown (p.createNode key kind properties).1.graph g (n + 1) := by
  rw [createNode]
  cases hdraw : p.draw with
  | error e => exact hp.mono (Nat.le_succ n)
  | ok drawn =>
    obtain ⟨id, p'⟩ := drawn
    obtain ⟨hindex, hadvanced⟩ := advanced_draw hp hdraw
    have hsize : p'.graph.index.size ≤ g.nodeCount + n := hindex ▸ hp.size_le
    dsimp only
    cases hinsert : p'.graph.insertNode ⟨id, kind, properties⟩ with
    | error e => exact ⟨Nat.le_succ_of_le hsize, hadvanced⟩
    | ok h =>
      obtain ⟨_, rfl⟩ := Graph.insertNode_eq_ok hinsert
      exact ⟨Nat.le_trans Std.TreeMap.size_insert_le (Nat.succ_le_succ hsize), hadvanced⟩

theorem grown_commit (hp : Grown p.graph g n) {r : Except GraphError (Graph × List Change)}
    (hr : ∀ h us, r = .ok (h, us) → Grown h g n) : Grown (p.commit r).1.graph g n := by
  cases r with
  | error e => exact hp
  | ok made => exact hr made.1 made.2 rfl

/-- Of the recorded changes only the one that creates a node takes an id. -/
theorem grown_apply (hp : Grown p.graph g n) (hc : c.isRecorded) :
    Grown (p.apply c).1.graph g (n + if c.isCreateNode then 1 else 0) := by
  cases c with
  | createNode key kind properties => exact grown_createNode hp key kind properties
  | createEdge src dst edge =>
    refine grown_commit hp fun h us hok => ?_
    obtain ⟨src, _, hok⟩ := bind_eq_ok hok
    obtain ⟨dst, _, hok⟩ := bind_eq_ok hok
    obtain ⟨h, hadd, hok⟩ := bind_eq_ok hok
    cases hok
    obtain ⟨_, _, _, _, rfl⟩ := Graph.addEdge_eq_ok hadd
    exact ⟨hp.size_le, hp.advanced⟩
  | setProperty node key value =>
    refine grown_commit hp fun h us hok => ?_
    obtain ⟨node, _, hok⟩ := bind_eq_ok hok
    obtain ⟨⟨previous, h⟩, hset, hok⟩ := bind_eq_ok hok
    cases hok
    obtain ⟨_, _, _, _, _, _, _, rfl⟩ := Graph.updateProperties_eq_ok hset
    exact ⟨hp.size_le, hp.advanced⟩
  | addProperty node key value =>
    refine grown_commit hp fun h us hok => ?_
    obtain ⟨node, _, hok⟩ := bind_eq_ok hok
    obtain ⟨⟨previous, h⟩, hadd, hok⟩ := bind_eq_ok hok
    cases hok
    obtain ⟨_, _, _, _, _, _, _, rfl⟩ := Graph.updateProperties_eq_ok hadd
    exact ⟨hp.size_le, hp.advanced⟩
  | removeNode node => cases hc
  | removeEdge src dst edge => cases hc
  | restoreProperty node key value => cases hc
  | restoreNode node => cases hc

theorem grown_applyAll (hp : Grown p.graph g n) (hcs : ∀ c ∈ cs, c.isRecorded) :
    Grown (p.applyAll cs).1.graph g (n + cs.countP Change.isCreateNode) := by
  induction cs generalizing p n with
  | nil => exact hp
  | cons c cs ih =>
    obtain ⟨hc, hcs⟩ := List.forall_mem_cons.mp hcs
    have hstep := grown_apply hp hc
    rw [applyAll, List.countP_cons]
    cases happly : p.apply c with
    | mk p' error =>
      rw [happly] at hstep
      cases error with
      | none => exact (ih hstep hcs).mono (by omega)
      | some e => exact hstep.mono (by omega)

end Progress

namespace Graph

variable {g : Graph} {d inverse : Diff} {pool pool' : Option KeyPool} {withInverse : Bool}
  {a b : Applied} {e : GraphError}

theorem WellFormed.advanced_of_error (hg : g.WellFormed) (hd : d.Recorded) (he : e ≠ .overflow)
    (h : (g.apply d pool withInverse).result = .error e) :
    Advanced (g.apply d pool withInverse).graph g d.newNodeCount := by
  obtain ⟨p, hall, hgraph⟩ := apply_eq_error h he
  have hundo := (Progress.canUndo_start hg pool).applyAll d.changes
  have hgrown := Progress.grown_applyAll (p := { graph := g, pool }) hg.grown hd
  rw [hall] at hundo hgrown
  rw [hgraph, Advanced, hundo.rollback_cursors.1, ← Nat.zero_add d.newNodeCount]
  exact hgrown.advanced

theorem WellFormed.advanced_apply_inverse (hg : g.WellFormed) (hd : d.Recorded)
    (h : (g.apply d pool true).result = .ok a) (hinverse : a.inverse = some inverse)
    (hb : ((g.apply d pool true).graph.apply inverse pool' withInverse).result = .ok b) :
    Advanced ((g.apply d pool true).graph.apply inverse pool' withInverse).graph g
      d.newNodeCount := by
  obtain ⟨p, hall, hgraph, rfl⟩ := apply_eq_ok h
  cases hinverse
  have hundo := (Progress.canUndo_start hg pool).applyAll d.changes
  have hgrown := Progress.grown_applyAll (p := { graph := g, pool }) hg.grown hd
  rw [hall] at hundo hgrown
  rw [hgraph] at hb ⊢
  obtain ⟨q, hback, hq, _⟩ := apply_eq_ok hb
  have hnext := (Progress.foldl_apply_cursors (p := { graph := p.graph, pool := pool' })
    (Progress.isCreateNode_of_effects hundo.effects)).1
  rw [Progress.foldl_apply_eq hback] at hnext
  rw [hq, Advanced, hnext, ← Nat.zero_add d.newNodeCount]
  exact hgrown.advanced

end Graph

end CodeGraph
