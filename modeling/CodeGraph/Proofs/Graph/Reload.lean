import CodeGraph.Proofs.Codec.Graph
import CodeGraph.Proofs.DataFlow.FlowGraph
import CodeGraph.Proofs.Graph.Model
import Mathlib

/-!
# Graphs saved and loaded

A graph is saved as the text of its cells.  Loaded again, it has the same nodes and
edges in the same slots and the same place to look for new ids, so it is saved as
the same text.  This holds of every graph that operations lead to from the graph
without nodes, as long as its slots can be numbered by 32 bits.

The order in which edges were added is not saved.  A graph that was loaded counts
its edges as added in the order of their slots.  So an analysis sees the same
graph just when the edges at every node were added in that order (`InSlotOrder`).
They were if none was removed.  An edge that took the slot of a removed one is
moved ahead by saving and loading.
-/

namespace CodeGraph

/-- Whether an operation vacates slots. -/
def Operation.removes : Operation → Bool
  | .removeNode _ | .removeEdge _ _ _ => true
  | _ => false

namespace Graph

variable {g g' h : Graph} {id : NodeId} {n : Node} {i : Nat} {op : Operation} {a : Answer}
  {removes : Bool}

/-! ## Runs of operations -/

/-- What an operation can do to a graph.  The flag says whether it vacates slots. -/
inductive Altered (g : Graph) : Bool → Graph → Prop where
  | allocate (next : UInt64) : Altered g false { g with nextId := next }
  | place (next : UInt64) (node : Node) : Altered g false (place { g with nextId := next } node)
  | withNode {i : Nat} {n node : Node} (hn : g.nodes.get? i = some n) (hid : node.id = n.id) :
      Altered g false (g.withNode i node)
  | join {src dst : NodeId} {i j : Nat} (hi : g.slot? src = some i) (hj : g.slot? dst = some j)
      (edge : Edge) : Altered g false (g.join i j edge)
  | vacate {id : NodeId} {i : Nat} (hi : g.slot? id = some i) : Altered g true (g.vacate id i)
  | cut (k : Nat) : Altered g true (g.cut k)

theorem map_eq_ok {α β : Type} {x : Except GraphError α} {f : α → β} {b : β}
    (h : x.map f = .ok b) : ∃ a, x = .ok a ∧ f a = b := by
  cases x with
  | error e => cases h
  | ok a => exact ⟨a, rfl, Except.ok.inj h⟩

theorem altered_of_updateProperties {key : String} {f : Properties → Except GraphError Properties}
    (hop : (g.updateProperties id key f).map (fun r => (Answer.previous r.1, r.2)) = .ok (a, g')) :
    Altered g false g' := by
  obtain ⟨⟨previous, g₁⟩, hok, heq⟩ := map_eq_ok hop
  cases heq
  obtain ⟨i, n, p, _, hn, _, _, rfl⟩ := updateProperties_eq_ok hok
  exact .withNode hn rfl

theorem altered_of_perform (hop : g.perform op = .ok (a, g')) : Altered g op.removes g' := by
  cases op with
  | allocate =>
    obtain ⟨⟨id, g₁⟩, hok, heq⟩ := map_eq_ok hop
    cases heq
    obtain ⟨_, rfl⟩ := allocate_eq_ok hok
    exact .allocate _
  | addNode kind properties =>
    obtain ⟨⟨id, g₁⟩, hok, heq⟩ := map_eq_ok hop
    cases heq
    obtain ⟨g₂, hallocate, rfl⟩ := addNode_eq_ok hok
    obtain ⟨_, rfl⟩ := allocate_eq_ok hallocate
    exact .place _ _
  | insertNode node =>
    obtain ⟨g₁, hok, heq⟩ := map_eq_ok hop
    cases heq
    obtain ⟨_, rfl⟩ := insertNode_eq_ok hok
    exact .place g.nextId node
  | removeNode id =>
    obtain ⟨⟨n, g₁⟩, hok, heq⟩ := map_eq_ok hop
    cases heq
    obtain ⟨i, hi, _, rfl⟩ := removeNode_eq_ok hok
    exact .vacate hi
  | setProperty id key value => exact altered_of_updateProperties hop
  | appendProperty id key value => exact altered_of_updateProperties hop
  | removeProperty id key => exact altered_of_updateProperties hop
  | addEdge src dst edge =>
    obtain ⟨g₁, hok, heq⟩ := map_eq_ok hop
    cases heq
    obtain ⟨i, j, hi, hj, rfl⟩ := addEdge_eq_ok hok
    exact .join hi hj edge
  | removeEdge src dst edge =>
    obtain ⟨⟨removed, g₁⟩, hok, heq⟩ := map_eq_ok hop
    cases heq
    obtain ⟨k, _, _, _, _, rfl⟩ := removeEdge_eq_ok hok
    exact .cut k

/-- What every operation keeps, a run of operations keeps. -/
theorem run_induction (Keeps : Graph → Prop) (Good : Operation → Prop)
    (hstep : ∀ g op a g', Keeps g → Good op → g.perform op = .ok (a, g') → Keeps g')
    (hg : Keeps g) {ops : List Operation} (hops : ∀ op ∈ ops, Good op) :
    Keeps (Operation.run perform g ops).2 := by
  induction ops generalizing g with
  | nil => exact hg
  | cons op ops ih =>
    obtain ⟨hop, hops⟩ := List.forall_mem_cons.mp hops
    rw [Operation.run]
    cases hok : g.perform op with
    | error e => exact ih hg hops
    | ok result => exact ih (hstep g op result.1 result.2 hg hop hok) hops

theorem Altered.consistent (hg : g.Consistent) (hstep : Altered g removes g') :
    g'.Consistent := by
  cases hstep with
  | allocate next => exact hg.withNextId next
  | place next node => exact (hg.withNextId next).place node
  | withNode hn hid => exact hg.withNode hn hid
  | join hi hj edge => exact hg.join (hg.isSome_of_slot? hi) (hg.isSome_of_slot? hj) edge
  | vacate hi => exact hg.vacate hi
  | cut k => exact hg.cut k

/-- Every graph at hand is consistent, whether it was built or loaded. -/
theorem Consistent.run (hg : g.Consistent) (ops : List Operation) :
    (Operation.run perform g ops).2.Consistent :=
  run_induction Consistent (fun _ => True)
    (fun _ _ _ _ hg _ hop => (altered_of_perform hop).consistent hg) hg fun _ _ => trivial

/-- Each entry of the index leads to a node of its own. -/
theorem WellFormed.size_index_le (hg : g.WellFormed) : g.index.size ≤ g.nodeCount := by
  have hsub : g.index.keys ⊆ g.allNodes.map Node.id := by
    intro id hid
    rw [Std.TreeMap.mem_keys, Std.TreeMap.mem_iff_isSome_getElem?] at hid
    have hnode : (g.node? id).isSome := hg.contains_eq ▸ hid
    obtain ⟨n, hn⟩ := Option.isSome_iff_exists.mp hnode
    have hnid := hg.id_of_node? hn
    exact List.mem_map.mpr ⟨n, hg.mem_allNodes.mpr (hnid ▸ hn), hnid⟩
  have hlength := (List.subperm_of_subset Std.TreeMap.nodup_keys hsub).length_le
  rwa [Std.TreeMap.length_keys, List.length_map] at hlength

theorem WellFormed.perform (hg : g.WellFormed) (hop : g.perform op = .ok (a, g')) :
    g'.WellFormed := by
  have hstands := hg.standsFor_perform op
  rw [hop] at hstands
  generalize g.model.perform op = outcome at hstands
  cases hstands with
  | ok a hg' => exact hg'

theorem WellFormed.run (hg : g.WellFormed) (ops : List Operation) :
    (Operation.run Graph.perform g ops).2.WellFormed :=
  run_induction WellFormed (fun _ => True) (fun _ _ _ _ hg _ hop => hg.perform hop) hg
    fun _ _ => trivial

/-! ## The text -/

/-- The text says what the slots hold and where the allocator looks next, and nothing more. -/
theorem SameSlots.toText_eq (hs : SameSlots g h) (hnext : g.nextId = h.nextId) :
    g.toText = h.toText := by
  have hnodes := Slots.used_eq_of_get?_eq hs.nodes
  have harcs := Slots.used_eq_of_get?_eq hs.arcs
  simp only [toText, toJson, slotsToJson, hs.allNodes_eq, hnodes, harcs, hnext]

/-- The graph that operations lead to from the graph without nodes. -/
def built (ops : List Operation) : Graph := (Operation.run perform empty ops).2

section Built

variable {ops : List Operation}

theorem wellFormed_built (ops : List Operation) : (built ops).WellFormed := wellFormed_empty.run ops

theorem read_toText_built (hsize : (built ops).nodes.cells.size ≤ UInt32.size)
    (hdepth : ∀ x ∈ (built ops).values, x.depth ≤ 100) :
    read (built ops).toText = .ok (built ops).reloaded :=
  (wellFormed_built ops).read_render hsize
    (fun x hx => Nat.le_trans (hdepth x hx) (by decide)) .pretty

end Built

/-- A graph that operations lead to is read back from its text with the same elements in the same
slots, and has the same text again.  Slots are numbered by 32 bits. -/
theorem toText_read_toText (ops : List Operation)
    (hsize : (built ops).nodes.cells.size ≤ UInt32.size)
    (hdepth : ∀ x ∈ (built ops).values, x.depth ≤ 100) :
    ∃ g, read (built ops).toText = .ok g ∧ g.content = (built ops).content ∧
      g.allNodes = (built ops).allNodes ∧ g.allLinks = (built ops).allLinks ∧
      (∀ i, g.nodes.get? i = (built ops).nodes.get? i) ∧
      (∀ k, g.arcs.get? k = (built ops).arcs.get? k) ∧
      g.nextId = (built ops).nextId ∧ g.toText = (built ops).toText := by
  have hsame := (built ops).sameSlots_reloaded
  exact ⟨(built ops).reloaded, read_toText_built hsize hdepth, hsame.content_eq, hsame.allNodes_eq,
    hsame.allLinks_eq, hsame.nodes, hsame.arcs, rfl, hsame.toText_eq rfl⟩

/-- Vacant slots are left between the nodes, between the edges and at the end. -/
def perforate : List Operation :=
  [.addNode (.method "f" "a.f")
      (.ofList [("tags", .list [.str "\"\n", .list []]), ("k", .int (-1))]),
    .addNode .block {}, .addNode (.literal "0" 4294967295) {}, .addNode .methodReturn {},
    .addEdge ⟨1⟩ ⟨2⟩ ⟨.ast, {}⟩, .addEdge ⟨1⟩ ⟨3⟩ ⟨.ast, .ofList [("w", .bool true)]⟩,
    .addEdge ⟨3⟩ ⟨4⟩ ⟨.cfg, {}⟩, .addEdge ⟨4⟩ ⟨4⟩ ⟨.cfg, {}⟩, .removeNode ⟨2⟩,
    .removeEdge ⟨4⟩ ⟨4⟩ ⟨.cfg, {}⟩, .appendProperty ⟨1⟩ "tags" (.int 9223372036854775807),
    .removeProperty ⟨1⟩ "k", .insertNode ⟨⟨18446744073709551615⟩, .block, {}⟩,
    .removeNode ⟨18446744073709551615⟩, .allocate]

theorem perforate_saved_and_loaded : ∃ g,
    (built perforate).nodes.cells.size ≤ UInt32.size ∧
    (∀ x ∈ (built perforate).values, x.depth ≤ 100) ∧
    (built perforate).nodes.used.map Option.isSome = [true, false, true, true] ∧
    (built perforate).arcs.used.map Option.isSome = [false, true, true] ∧
    read (built perforate).toText = .ok g ∧ g.content = (built perforate).content ∧
    g.allNodes = (built perforate).allNodes ∧ g.allLinks = (built perforate).allLinks ∧
    g.nextId = (built perforate).nextId ∧ g.toText = (built perforate).toText := by
  have hsize : (built perforate).nodes.cells.size ≤ UInt32.size := by decide +kernel
  have hdepth : ∀ x ∈ (built perforate).values, x.depth ≤ 100 := by decide +kernel
  obtain ⟨g, hread, hcontent, hnodes, hlinks, _, _, hnext, htext⟩ :=
    toText_read_toText perforate hsize hdepth
  exact ⟨g, hsize, hdepth, by decide +kernel, by decide +kernel, hread, hcontent, hnodes, hlinks,
    hnext, htext⟩

/-! ## The order of edges -/

/-- The edges at every node were added in the order of their slots. -/
structure InSlotOrder (g : Graph) : Prop where
  outLinks : ∀ id, g.outLinks id = g.allLinks.filter fun l => l.src = id
  inLinks : ∀ id, g.inLinks id = g.allLinks.filter fun l => l.dst = id

theorem WellFormed.inSlotOrder (hg : g.WellFormed) (hlinks : g.links = g.allLinks.reverse) :
    g.InSlotOrder where
  outLinks id := by rw [hg.outLinks_eq, hlinks, List.filter_reverse, List.reverse_reverse]
  inLinks id := by rw [hg.inLinks_eq, hlinks, List.filter_reverse, List.reverse_reverse]

theorem links_reloaded (g : Graph) : g.reloaded.links = g.reloaded.allLinks.reverse := by
  rw [allLinks, ← Slots.filterMap_get?_toList, List.filterMap_filterMap, ← List.filterMap_reverse]
  rfl

/-- No edge slot was vacated, so each edge has the slot after the one added before it. -/
structure Stacked (g : Graph) : Prop where
  free_eq : g.arcs.free = []
  recent_eq : g.recent = (List.range g.arcs.cells.size).reverse

theorem Stacked.links_eq (hg : g.Stacked) : g.links = g.allLinks.reverse := by
  rw [links, linksOf, hg.recent_eq, List.filterMap_reverse, allLinks, Slots.elements_eq,
    List.filterMap_filterMap]

theorem Altered.stacked (hstep : Altered g false g') (hg : g.Stacked) : g'.Stacked := by
  cases hstep with
  | allocate | place | withNode => exact ⟨hg.free_eq, hg.recent_eq⟩
  | join hi hj edge =>
    have hinsert : ∀ a : Arc, g.arcs.insert a =
        (g.arcs.cells.size, ⟨g.arcs.cells.push (some a), []⟩) := by
      intro a
      rw [Slots.insert, hg.free_eq]
    constructor
    · rw [arcs_join, hinsert]
    · rw [recent_join, arcs_join, hinsert, hg.recent_eq]
      simp [List.range_succ]

theorem stacked_built {ops : List Operation} (hops : ∀ op ∈ ops, op.removes = false) :
    (built ops).Stacked := by
  refine run_induction Stacked (fun op => op.removes = false) ?_ ⟨rfl, rfl⟩ hops
  intro g op a g' hg hop hok
  have hstep := altered_of_perform hok
  rw [hop] at hstep
  exact hstep.stacked hg

/-- Two graphs look the same to an analysis. -/
structure SameView (g h : Graph) : Prop where
  outLinks : ∀ id, g.outLinks id = h.outLinks id
  inLinks : ∀ id, g.inLinks id = h.inLinks id
  outNeighbors : ∀ id kind, g.outNeighbors id kind = h.outNeighbors id kind
  inNeighbors : ∀ id kind, g.inNeighbors id kind = h.inNeighbors id kind
  firstNode? : ∀ method, g.firstNode? method = h.firstNode? method
  reversePostOrder : ∀ method, g.reversePostOrder method = h.reversePostOrder method
  flowGraph : ∀ method,
    DataFlow.FlowGraph.ofMethod g method = DataFlow.FlowGraph.ofMethod h method

/-! ## What an analysis reads off the edges -/

theorem SameSlots.slot?_eq (hs : SameSlots g h) (hg : g.WellFormed) (hh : h.WellFormed) :
    g.slot? = h.slot? := by
  funext id
  apply Option.ext
  intro i
  rw [hg.slot?_iff, hh.slot?_iff, hs.nodes]

theorem SameSlots.node?_eq (hs : SameSlots g h) (hslot : g.slot? = h.slot?) :
    g.node? = h.node? := by
  funext id
  rw [node?, node?, hslot, funext hs.nodes]

namespace WellFormed

/-- The walk goes from slot to slot as the control-flow edges go from node to node. -/
theorem nextSlots_eq (hg : g.WellFormed) (hn : g.nodes.get? i = some n) :
    g.nextSlots i = (g.outNeighbors n.id .cfg).filterMap g.slot? := by
  have hslot := hg.slot?_of_get? hn
  rw [outNeighbors, outLinks, hslot]
  simp only
  rw [nextSlots, List.filter_reverse, List.map_reverse, List.filterMap_reverse, List.filterMap_map,
    linksOf, leaving, List.filter_filterMap, List.filterMap_filterMap, List.filterMap_filter]
  congr 1
  refine List.filterMap_congr fun k hk => ?_
  obtain ⟨a, ha⟩ := Option.isSome_iff_exists.mp ((hg.mem_recent k).mp hk)
  obtain ⟨s, d, _, hd, hlink⟩ := hg.link?_eq ha
  have hdst := hg.slot?_of_get? hd
  -- the walk keeps the slot of the target, the neighbours keep its id and look it up again
  by_cases hsrc : a.src = i <;> by_cases hkind : a.edge.kind = .cfg <;>
    simp [ha, hlink, hsrc, hkind, hdst, Option.filter_some]

theorem nextSlots_of_vacant (hg : g.WellFormed) (hi : g.nodes.get? i = none) :
    g.nextSlots i = [] := by
  rw [nextSlots, List.reverse_eq_nil_iff, List.filterMap_eq_nil_iff]
  intro k hk
  obtain ⟨a, ha⟩ := Option.isSome_iff_exists.mp ((hg.mem_recent k).mp hk)
  have hsrc : a.src ≠ i := by
    rintro rfl
    obtain ⟨hs, _⟩ := hg.ends k a ha
    rw [hi] at hs
    cases hs
  simp [ha, hsrc]

end WellFormed

/-- Graphs that hold the same in their slots, find it under the same ids, and list the same edges at
every node and every slot look the same. -/
theorem SameSlots.sameView_of_slot? (hs : SameSlots g h) (hslot : g.slot? = h.slot?)
    (hnext : g.nextSlots = h.nextSlots) (hout : ∀ id, g.outLinks id = h.outLinks id)
    (hin : ∀ id, g.inLinks id = h.inLinks id) : SameView g h := by
  have houtNeighbors : ∀ id kind, g.outNeighbors id kind = h.outNeighbors id kind :=
    fun id kind => by rw [outNeighbors, outNeighbors, hout]
  have hinNeighbors : ∀ id kind, g.inNeighbors id kind = h.inNeighbors id kind :=
    fun id kind => by rw [inNeighbors, inNeighbors, hin]
  have hkind : g.kind? = h.kind? := by
    funext id
    rw [kind?, kind?, hs.node?_eq hslot]
  have hfirst : ∀ method, g.firstNode? method = h.firstNode? method := by
    intro method
    have hreturn : g.methodReturn? method = h.methodReturn? method := by
      rw [methodReturn?, methodReturn?, hkind, houtNeighbors]
    rw [firstNode?, firstNode?, successors, successors, houtNeighbors, hreturn]
  have horder : ∀ method, g.reversePostOrder method = h.reversePostOrder method := by
    intro method
    have hcount : g.nodeCount = h.nodeCount := congrArg List.length hs.allNodes_eq
    rw [reversePostOrder, reversePostOrder, hslot, hnext, hcount, funext hs.nodes]
  exact ⟨hout, hin, houtNeighbors, hinNeighbors, hfirst, horder,
    DataFlow.FlowGraph.ofMethod_congr hkind (houtNeighbors · .ast) (funext (houtNeighbors · .cfg))
      (funext (hinNeighbors · .cfg)) horder⟩

/-- Well-formed graphs that hold the same in their slots and list the same edges at every node look
the same. -/
theorem SameSlots.sameView (hs : SameSlots g h) (hg : g.WellFormed) (hh : h.WellFormed)
    (hout : ∀ id, g.outLinks id = h.outLinks id) (hin : ∀ id, g.inLinks id = h.inLinks id) :
    SameView g h := by
  have hslot := hs.slot?_eq hg hh
  -- a walk asks for the slots after any slot, so vacant ones count too
  have hnext : g.nextSlots = h.nextSlots := by
    funext i
    cases hn : h.nodes.get? i with
    | none => rw [hg.nextSlots_of_vacant ((hs.nodes i).trans hn), hh.nextSlots_of_vacant hn]
    | some n =>
      rw [hg.nextSlots_eq ((hs.nodes i).trans hn), hh.nextSlots_eq hn, outNeighbors, outNeighbors,
        hout, hslot]
  exact hs.sameView_of_slot? hslot hnext hout hin

theorem WellFormed.sameView_reloaded (hg : g.WellFormed) (horder : g.InSlotOrder) :
    SameView g.reloaded g := by
  have hsame := g.sameSlots_reloaded
  have hreloaded := hg.reloaded.inSlotOrder g.links_reloaded
  refine hsame.sameView hg.reloaded hg ?_ ?_
  · intro id
    rw [hreloaded.outLinks, horder.outLinks, hsame.allLinks_eq]
  · intro id
    rw [hreloaded.inLinks, horder.inLinks, hsame.allLinks_eq]

/-- Loaded again, a graph lists the edges at every node in the order of their slots.  It looks the
same as before just when they were added in this order.  They were if nothing was removed. -/
theorem sameView_read_toText_iff (ops : List Operation)
    (hsize : (built ops).nodes.cells.size ≤ UInt32.size)
    (hdepth : ∀ x ∈ (built ops).values, x.depth ≤ 100) :
    ∃ g, read (built ops).toText = .ok g ∧
      (∀ id, g.outLinks id = (built ops).allLinks.filter fun l => l.src = id) ∧
      (∀ id, g.inLinks id = (built ops).allLinks.filter fun l => l.dst = id) ∧
      (SameView g (built ops) ↔ (built ops).InSlotOrder) ∧
      ((∀ op ∈ ops, op.removes = false) → SameView g (built ops)) := by
  have hwf := wellFormed_built ops
  have hreloaded := hwf.reloaded.inSlotOrder (built ops).links_reloaded
  have hlinks := (built ops).sameSlots_reloaded.allLinks_eq
  refine ⟨(built ops).reloaded, read_toText_built hsize hdepth, hlinks ▸ hreloaded.outLinks,
    hlinks ▸ hreloaded.inLinks, ⟨?_, hwf.sameView_reloaded⟩, ?_⟩
  · intro hview
    constructor
    · intro id
      rw [← hview.outLinks, hreloaded.outLinks, hlinks]
    · intro id
      rw [← hview.inLinks, hreloaded.inLinks, hlinks]
  · intro hops
    exact hwf.sameView_reloaded (hwf.inSlotOrder (stacked_built hops).links_eq)

/-- The body of a method, with nodes that branch off it. -/
def branch : List Operation :=
  [.addNode (.method "f" "f") {}, .addNode .methodReturn {}, .addNode (.call "a" "a()") {},
    .addNode (.call "b" "b()") {}, .addNode (.call "c" "c()") {}, .addEdge ⟨1⟩ ⟨2⟩ ⟨.ast, {}⟩,
    .addEdge ⟨1⟩ ⟨3⟩ ⟨.cfg, {}⟩, .addEdge ⟨1⟩ ⟨4⟩ ⟨.cfg, {}⟩, .addEdge ⟨4⟩ ⟨2⟩ ⟨.cfg, {}⟩]

theorem branch_looks_the_same : ∃ g,
    (built branch).nodes.cells.size ≤ UInt32.size ∧
    (∀ x ∈ (built branch).values, x.depth ≤ 100) ∧
    read (built branch).toText = .ok g ∧ SameView g (built branch) ∧ (built branch).InSlotOrder ∧
    g.reversePostOrder ⟨1⟩ = [⟨1⟩, ⟨4⟩, ⟨2⟩, ⟨3⟩] := by
  have hsize : (built branch).nodes.cells.size ≤ UInt32.size := by decide +kernel
  have hdepth : ∀ x ∈ (built branch).values, x.depth ≤ 100 := by decide +kernel
  obtain ⟨g, hread, _, _, hiff, hkept⟩ := sameView_read_toText_iff branch hsize hdepth
  have hview := hkept (by decide)
  refine ⟨g, hsize, hdepth, hread, hview, hiff.mp hview, ?_⟩
  rw [hview.reversePostOrder]
  decide +kernel

/-- One of the branches is exchanged.  The new edge takes the slot of the old one. -/
def exchangeBranch : List Operation :=
  branch ++ [.removeEdge ⟨1⟩ ⟨3⟩ ⟨.cfg, {}⟩, .addEdge ⟨1⟩ ⟨5⟩ ⟨.cfg, {}⟩]

theorem exchangeBranch_looks_different : ∃ g,
    read (built exchangeBranch).toText = .ok g ∧
    (built exchangeBranch).outNeighbors ⟨1⟩ .cfg = [⟨4⟩, ⟨5⟩] ∧
    g.outNeighbors ⟨1⟩ .cfg = [⟨5⟩, ⟨4⟩] ∧
    (built exchangeBranch).firstNode? ⟨1⟩ = some ⟨4⟩ ∧ g.firstNode? ⟨1⟩ = some ⟨5⟩ ∧
    (built exchangeBranch).reversePostOrder ⟨1⟩ = [⟨1⟩, ⟨5⟩, ⟨4⟩, ⟨2⟩] ∧
    g.reversePostOrder ⟨1⟩ = [⟨1⟩, ⟨4⟩, ⟨2⟩, ⟨5⟩] ∧
    DataFlow.FlowGraph.ofMethod g ⟨1⟩ ≠
      DataFlow.FlowGraph.ofMethod (built exchangeBranch) ⟨1⟩ := by
  have hsize : (built exchangeBranch).nodes.cells.size ≤ UInt32.size := by decide +kernel
  have hdepth : ∀ x ∈ (built exchangeBranch).values, x.depth ≤ 100 := by decide +kernel
  refine ⟨(built exchangeBranch).reloaded, read_toText_built hsize hdepth, ?_⟩
  decide +kernel

end Graph

end CodeGraph
