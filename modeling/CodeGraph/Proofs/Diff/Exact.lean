import CodeGraph.Proofs.Diff.Cursor
import Mathlib

/-!
# Recorded changes leave no trace

What undoes a recorded change gives back a graph alike (`Alike`): the same in every
slot, under the same ids and with the edges in the order in which they were added.
Nothing that is read off a graph tells such graphs apart, except where the allocator
looks next: ids that were handed out are not handed out again.

So a graph is exactly as before (`Restored`) after a script of recorded changes that
failed, and after one that succeeded and whose inverse was applied.
-/

namespace CodeGraph

namespace Graph

variable {g h : Graph}

/-! ## What is read off graphs alike -/

theorem Alike.nextSlots_eq (ha : Alike h g) : h.nextSlots = g.nextSlots := by
  funext i
  rw [nextSlots, nextSlots, ha.recent, funext ha.arcs]

theorem Alike.linksOf_eq (ha : Alike h g) : h.linksOf = g.linksOf := by
  funext slots
  rw [linksOf, linksOf, funext ha.arcs, ha.link?_eq]

theorem Alike.outLinks_eq (ha : Alike h g) (id : NodeId) : h.outLinks id = g.outLinks id := by
  rw [outLinks, outLinks, ha.slot?, ha.linksOf_eq]
  unfold leaving
  rw [ha.recent, funext ha.arcs]

theorem Alike.inLinks_eq (ha : Alike h g) (id : NodeId) : h.inLinks id = g.inLinks id := by
  rw [inLinks, inLinks, ha.slot?, ha.linksOf_eq, ha.recent, funext ha.arcs]

theorem Alike.sameView (ha : Alike h g) : SameView h g :=
  ha.toSameSlots.sameView_of_slot? (funext ha.slot?) ha.nextSlots_eq ha.outLinks_eq ha.inLinks_eq

/-- A graph is as another one: it lists the same nodes and edges in the same order, with
their properties in order, finds the same under every id, looks the same to an analysis and
has the same text.  Only where its allocator looks next may differ, which has advanced for
at most so many new nodes. -/
structure Restored (h g : Graph) (created : Nat) : Prop extends SameView h g where
  allNodes : h.allNodes = g.allNodes
  allLinks : h.allLinks = g.allLinks
  node? : h.node? = g.node?
  toText : h.toText = { g with nextId := h.nextId }.toText
  advanced : Advanced h g created

theorem Alike.restored {created : Nat} (ha : Alike h g) (hnext : Advanced h g created) :
    Restored h g created where
  toSameView := ha.sameView
  allNodes := ha.allNodes_eq
  allLinks := ha.allLinks_eq
  node? := ha.node?_eq (funext ha.slot?)
  toText :=
    have hsame : SameSlots h { g with nextId := h.nextId } := ⟨ha.nodes, ha.arcs⟩
    hsame.toText_eq rfl
  advanced := hnext

/-! ## Undoing a script -/

variable {d : Diff} {pool : Option KeyPool} {a : Applied}

/-- The inverse of a script of recorded changes gives back a graph alike. -/
theorem Consistent.alike_apply_inverse (hg : g.Consistent) (hd : d.Recorded)
    (h : (g.apply d pool true).result = .ok a) :
    ∃ inverse, a.inverse = some inverse ∧ ∀ pool' withInverse, ∃ b,
      ((g.apply d pool true).graph.apply inverse pool' withInverse).result = .ok b ∧
      Alike ((g.apply d pool true).graph.apply inverse pool' withInverse).graph g := by
  obtain ⟨p, hall, hgraph, rfl⟩ := apply_eq_ok h
  have hrestore := (Progress.canRestore_start hg pool).applyAll hd
  rw [hall] at hrestore
  refine ⟨⟨p.inverse⟩, rfl, fun pool' withInverse => ?_⟩
  obtain ⟨q, hinverse, hq⟩ := hrestore.restores { graph := p.graph, pool := pool' } (.refl _)
  have hback : p.graph.apply ⟨p.inverse⟩ pool' withInverse = _ :=
    apply_of_applyAll_none hinverse withInverse
  rw [hgraph, hback]
  exact ⟨_, rfl, hq⟩

/-- A script of recorded changes leaves no trace if it fails, and none once its inverse is
applied, which succeeds.  Only after a crash is there no clean-up. -/
theorem restored_of_recorded (hg : g.WellFormed) (hd : d.Recorded) (pool : Option KeyPool) :
    (∀ withInverse e, e ≠ .overflow → (g.apply d pool withInverse).result = .error e →
      Restored (g.apply d pool withInverse).graph g d.newNodeCount) ∧
    ∀ a, (g.apply d pool true).result = .ok a →
      ∃ inverse, a.inverse = some inverse ∧ ∀ pool' withInverse, ∃ b,
        ((g.apply d pool true).graph.apply inverse pool' withInverse).result = .ok b ∧
        Restored ((g.apply d pool true).graph.apply inverse pool' withInverse).graph g
          d.newNodeCount := by
  constructor
  · intro withInverse e he herror
    exact (hg.consistent.alike_of_error hd he herror).restored (hg.advanced_of_error hd he herror)
  · intro a hok
    obtain ⟨inverse, hinverse, hundo⟩ := hg.consistent.alike_apply_inverse hd hok
    refine ⟨inverse, hinverse, fun pool' withInverse => ?_⟩
    obtain ⟨b, hb, halike⟩ := hundo pool' withInverse
    exact ⟨b, hb, halike.restored (hg.advanced_apply_inverse hd hok hinverse hb)⟩

/-- A method with vacant slots between its nodes and edges.  The edges that leave it were not
added in the order of their slots. -/
def worn : List Operation :=
  exchangeBranch ++
    [.addEdge ⟨5⟩ ⟨2⟩ ⟨.cfg, {}⟩, .addEdge ⟨4⟩ ⟨5⟩ ⟨.cfg, {}⟩, .removeEdge ⟨5⟩ ⟨2⟩ ⟨.cfg, {}⟩,
      .removeNode ⟨3⟩, .setProperty ⟨1⟩ "z" (.int 1), .setProperty ⟨1⟩ "tags" (.list [.str "a"])]

/-- Vacant slots are filled, one of two equal edges is new, and properties are put in and put
over others. -/
def touchUp : List Change :=
  [.setProperty (.existing ⟨1⟩) "z" (.int 2), .createNode ⟨7⟩ .block (.ofList [("k", .bool true)]),
    .createEdge (.new ⟨7⟩) (.existing ⟨4⟩) ⟨.cfg, {}⟩,
    .createEdge (.existing ⟨1⟩) (.existing ⟨4⟩) ⟨.cfg, {}⟩,
    .addProperty (.existing ⟨1⟩) "tags" (.str "b"), .addProperty (.new ⟨7⟩) "tags" (.str "c"),
    .setProperty (.existing ⟨1⟩) "line" (.int 3)]

/-- The last change fails, as the property is a number by then. -/
def touchUpFailing : List Change := touchUp ++ [.addProperty (.existing ⟨1⟩) "line" (.int 4)]

theorem touchUp_leaves_no_trace : ∃ a inverse b,
    (built worn).nodes.used.map Option.isSome = [true, true, false, true, true] ∧
    (built worn).arcs.used.map Option.isSome = [true, true, true, true, false, true] ∧
    (built worn).outNeighbors ⟨1⟩ .cfg = [⟨4⟩, ⟨5⟩] ∧
    ((built worn).apply ⟨touchUp⟩ none true).result = .ok a ∧ a.inverse = some inverse ∧
    (((built worn).apply ⟨touchUp⟩ none true).graph.apply inverse none false).result = .ok b ∧
    Restored (((built worn).apply ⟨touchUp⟩ none true).graph.apply inverse none false).graph
      (built worn) 1 ∧
    ((built worn).apply ⟨touchUpFailing⟩ none false).result =
      .error (.propertyNotList ⟨1⟩ "line") ∧
    Restored ((built worn).apply ⟨touchUpFailing⟩ none false).graph (built worn) 1 := by
  have hworn : (built worn).WellFormed := wellFormed_built _
  have hok : ((built worn).apply ⟨touchUp⟩ none true).result.isOk = true := by decide +kernel
  have herror : ((built worn).apply ⟨touchUpFailing⟩ none false).result =
      .error (.propertyNotList ⟨1⟩ "line") := by cbv
  have hfailing := (restored_of_recorded hworn (d := ⟨touchUpFailing⟩) (by decide) none).1
  cases h : ((built worn).apply ⟨touchUp⟩ none true).result with
  | error e =>
    rw [h] at hok
    cases hok
  | ok a =>
    obtain ⟨inverse, hinverse, hundo⟩ :=
      (restored_of_recorded hworn (d := ⟨touchUp⟩) (by decide) none).2 a h
    obtain ⟨b, hb, hrestored⟩ := hundo none false
    exact ⟨a, inverse, b, by decide +kernel, by decide +kernel, by decide +kernel, rfl, hinverse,
      hb, hrestored, herror, hfailing false _ (by decide) herror⟩

end Graph

end CodeGraph
