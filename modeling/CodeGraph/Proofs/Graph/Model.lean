import CodeGraph.Proofs.Graph.Allocator
import CodeGraph.Proofs.Graph.View
import Mathlib

/-!
# Graphs and a plain model of them

The plain model of a graph has no slots, no index and no adjacency.  It is a map
from ids to nodes, a list of edges in the order in which they were added, and the
number where the allocator looks next.  On this model every operation is a line
or two (`GraphModel.perform`).

A graph stands for one such model (`Graph.model`).  On a well-formed graph every
operation gives the answer or the error that it gives on the model, and the graph
afterwards stands for the model afterwards (`model_perform`).  So it is for a run
of any length from the graph without nodes.  All that can be asked of the graph is
then read off the model (`Reflects`).

An allocator that has no id left crashes, on the graph and on the model alike.  A
run of the program ends there.  A run of operations goes on with the graph at hand,
so what is said about it covers more.
-/

namespace CodeGraph

/-! ## Operations -/

/-- A primitive operation on a graph. -/
inductive Operation where
  | allocate
  | addNode (kind : NodeKind) (properties : Properties)
  | insertNode (node : Node)
  | removeNode (id : NodeId)
  | setProperty (id : NodeId) (key : String) (value : PropertyValue)
  | appendProperty (id : NodeId) (key : String) (value : PropertyValue)
  | removeProperty (id : NodeId) (key : String)
  | addEdge (src dst : NodeId) (edge : Edge)
  | removeEdge (src dst : NodeId) (edge : Edge)

/-- What an operation returns. -/
inductive Answer where
  | none
  | id (id : NodeId)
  | node (node : Node)
  | previous (value : Option PropertyValue)
  | edge (edge : Edge)
  deriving DecidableEq

namespace Operation

/-- Operations made one after the other: what they return, and the state
afterwards.  One that fails leaves the state as it is. -/
def run {σ : Type} (perform : σ → Operation → Except GraphError (Answer × σ)) (s : σ) :
    List Operation → List (Except GraphError Answer) × σ
  | [] => ([], s)
  | op :: ops =>
    match perform s op with
    | .ok (answer, s) => ((.ok answer :: (run perform s ops).1), (run perform s ops).2)
    | .error e => ((.error e :: (run perform s ops).1), (run perform s ops).2)

end Operation

/-- An operation on a graph. -/
def Graph.perform (g : Graph) : Operation → Except GraphError (Answer × Graph)
  | .allocate => g.allocate.map fun r => (.id r.1, r.2)
  | .addNode kind properties => (g.addNode kind properties).map fun r => (.id r.1, r.2)
  | .insertNode node => (g.insertNode node).map (.none, ·)
  | .removeNode id => (g.removeNode id).map fun r => (.node r.1, r.2)
  | .setProperty id key value => (g.setProperty id key value).map fun r => (.previous r.1, r.2)
  | .appendProperty id key value =>
    (g.appendProperty id key value).map fun r => (.previous r.1, r.2)
  | .removeProperty id key => (g.removeProperty id key).map fun r => (.previous r.1, r.2)
  | .addEdge src dst edge => (g.addEdge src dst edge).map (.none, ·)
  | .removeEdge src dst edge => (g.removeEdge src dst edge).map fun r => (.edge r.1, r.2)

/-! ## The model -/

/-- A graph without slots. -/
structure GraphModel where
  /-- The node of each id. -/
  node : NodeId → Option Node := fun _ => none
  /-- The edges, oldest first. -/
  links : List Link := []
  /-- Where the allocator looks next. -/
  nextId : UInt64 := 1

namespace GraphModel

/-- The model with another node under an id, or without a node there. -/
def put (m : GraphModel) (id : NodeId) (n : Option Node) : GraphModel :=
  { m with node := Function.update m.node id n }

/-- The allocator can hand out a number: it is not before the cursor, no node has it, and there is a
number after it. -/
def Offers (m : GraphModel) (n : Nat) : Prop :=
  m.nextId.toNat ≤ n ∧ n + 1 < UInt64.size ∧ m.node ⟨UInt64.ofNat n⟩ = none

open Classical in
/-- The first number that the allocator can hand out, if there is any. -/
noncomputable def fresh? (m : GraphModel) : Option UInt64 :=
  if h : ∃ n, m.Offers n then some (UInt64.ofNat (Nat.find h)) else none

/-- The properties of a node replaced by what `f` makes of them. -/
def updateProperties (m : GraphModel) (id : NodeId) (key : String)
    (f : Properties → Except GraphError Properties) : Except GraphError (Answer × GraphModel) :=
  match m.node id with
  | none => .error (.nodeNotFound id)
  | some n =>
    match f n.properties with
    | .error e => .error e
    | .ok p => .ok (.previous (n.properties.get? key), m.put id (some { n with properties := p }))

/-- An operation on a model. -/
noncomputable def perform (m : GraphModel) : Operation → Except GraphError (Answer × GraphModel)
  | .allocate =>
    match m.fresh? with
    | none => .error .overflow
    | some n => .ok (.id ⟨n⟩, { m with nextId := n + 1 })
  | .addNode kind properties =>
    match m.fresh? with
    | none => .error .overflow
    | some n => .ok (.id ⟨n⟩, { m.put ⟨n⟩ (some ⟨⟨n⟩, kind, properties⟩) with nextId := n + 1 })
  | .insertNode n =>
    match m.node n.id with
    | some _ => .error (.duplicateNodeId n.id)
    | none => .ok (.none, m.put n.id (some n))
  | .removeNode id =>
    match m.node id with
    | none => .error (.nodeNotFound id)
    | some n =>
      .ok (.node n,
        { m.put id none with links := m.links.filter fun l => !(l.src = id || l.dst = id) })
  | .setProperty id key value => m.updateProperties id key fun p => .ok (p.insert key value)
  | .appendProperty id key value =>
    m.updateProperties id key fun p =>
      match p.get? key with
      | none => .ok (p.insert key (.list [value]))
      | some (.list items) => .ok (p.insert key (.list (items ++ [value])))
      | some _ => .error (.propertyNotList id key)
  | .removeProperty id key => m.updateProperties id key fun p => .ok (p.erase key)
  | .addEdge src dst edge =>
    match m.node src, m.node dst with
    | none, _ => .error (.nodeNotFound src)
    | some _, none => .error (.nodeNotFound dst)
    | some _, some _ => .ok (.none, { m with links := m.links ++ [⟨src, dst, edge⟩] })
  | .removeEdge src dst edge =>
    match m.node src, m.node dst with
    | none, _ => .error (.nodeNotFound src)
    | some _, none => .error (.nodeNotFound dst)
    | some _, some _ =>
      -- the newest of the edges that are the same
      match m.links.reverse.find? (·.same ⟨src, dst, edge⟩) with
      | none => .error (.edgeNotFound src dst edge.kind)
      | some l =>
        .ok (.edge l.edge,
          { m with links := (m.links.reverse.eraseP (·.same ⟨src, dst, edge⟩)).reverse })

end GraphModel

/-- The model that a graph stands for. -/
def Graph.model (g : Graph) : GraphModel := ⟨g.node?, g.links.reverse, g.nextId⟩

/-- All that can be asked of a graph is read off a model. -/
structure Graph.Reflects (g : Graph) (m : GraphModel) : Prop where
  /-- The index names the slots of the nodes of the model. -/
  index : ∀ id i, g.index[id]? = some i ↔ ∃ n, m.node id = some n ∧ g.nodes.get? i = some n
  node? : ∀ id, g.node? id = m.node id
  contains : ∀ id, g.contains id = (m.node id).isSome
  mem_allNodes : ∀ n, n ∈ g.allNodes ↔ m.node n.id = some n
  nodup_ids : (g.allNodes.map Node.id).Nodup
  ends : ∀ l ∈ m.links, (m.node l.src).isSome ∧ (m.node l.dst).isSome
  perm_allLinks : g.allLinks.Perm m.links
  outLinks : ∀ id, g.outLinks id = m.links.filter fun l => l.src = id
  inLinks : ∀ id, g.inLinks id = m.links.filter fun l => l.dst = id
  outNeighbors : ∀ id kind, g.outNeighbors id kind =
    (m.links.filter fun l => l.src = id ∧ l.edge.kind = kind).map Link.dst
  inNeighbors : ∀ id kind, g.inNeighbors id kind =
    (m.links.filter fun l => l.dst = id ∧ l.edge.kind = kind).map Link.src
  perm_incidentLinks : ∀ id,
    (g.incidentLinks id).Perm (m.links.filter fun l => l.src = id ∨ l.dst = id)
  nextId : g.nextId = m.nextId

namespace Graph

variable {g g' : Graph} {id : NodeId}

/-! ## Questions -/

theorem WellFormed.links_filter_eq_nil (h : WellFormed g) (hi : g.slot? id = none) {p : Link → Bool}
    (hp : ∀ l, p l → l.src = id ∨ l.dst = id) : g.links.filter p = [] := by
  rw [List.filter_eq_nil_iff]
  intro l hl hpl
  have hnode : g.node? id = none := h.node?_eq_none_iff.mpr hi
  obtain ⟨hs, hd⟩ := h.ends_of_mem_links hl
  rcases hp l hpl with rfl | rfl
  · rw [hnode] at hs; cases hs
  · rw [hnode] at hd; cases hd

theorem WellFormed.outLinks_eq (h : WellFormed g) (id : NodeId) :
    g.outLinks id = (g.links.filter fun l => l.src = id).reverse := by
  cases hi : g.slot? id with
  | none =>
    rw [h.links_filter_eq_nil hi (by simp +contextual), outLinks, hi]
    rfl
  | some i =>
    have hleave := h.linksOf_filter (p := fun a => a.src = i) (q := fun l => l.src = id)
      fun a l hl => decide_eq_decide.mpr (h.link?_ends hi hl).1
    rw [outLinks, hi, ← hleave]
    rfl

theorem WellFormed.inLinks_eq (h : WellFormed g) (id : NodeId) :
    g.inLinks id = (g.links.filter fun l => l.dst = id).reverse := by
  cases hi : g.slot? id with
  | none =>
    rw [h.links_filter_eq_nil hi (by simp +contextual), inLinks, hi]
    rfl
  | some i =>
    have henter := h.linksOf_filter (p := fun a => a.dst = i) (q := fun l => l.dst = id)
      fun a l hl => decide_eq_decide.mpr (h.link?_ends hi hl).2
    rw [inLinks, hi, ← henter]

theorem WellFormed.perm_incidentLinks_filter (h : WellFormed g) (id : NodeId) :
    (g.incidentLinks id).Perm (g.links.filter fun l => l.src = id ∨ l.dst = id) := by
  have hall := h.perm_incidentLinks id
  have hsplit := List.filter_append_perm (fun l : Link => decide (l.src = id ∨ l.dst = id)) g.links
  have hothers : (g.links.filter fun l => !(l.src = id || l.dst = id)) =
      g.links.filter fun l => !decide (l.src = id ∨ l.dst = id) := by
    simp only [Bool.decide_or]
  rw [hothers] at hall
  exact (List.perm_append_right_iff _).mp (hall.trans hsplit.symm)

theorem WellFormed.nodup_ids (h : WellFormed g) : (g.allNodes.map Node.id).Nodup := by
  rw [allNodes, Slots.elements_eq, List.Nodup, List.pairwise_map, List.pairwise_filterMap]
  refine List.nodup_range.imp ?_
  intro i j hij n hn m hm hid
  exact hij (h.slot_inj hn hm hid)

theorem WellFormed.reflects (h : WellFormed g) : g.Reflects g.model where
  index id i := by
    refine (h.slot?_iff id i).trans ⟨?_, ?_⟩
    · rintro ⟨n, hn, rfl⟩
      exact ⟨n, h.mem_allNodes.mp (Slots.mem_elements.mpr ⟨i, hn⟩), hn⟩
    · rintro ⟨n, hnode, hn⟩
      exact ⟨n, hn, h.id_of_node? hnode⟩
  node? _ := rfl
  contains _ := h.contains_eq
  mem_allNodes _ := h.mem_allNodes
  nodup_ids := h.nodup_ids
  ends l hl := h.ends_of_mem_links (List.mem_reverse.mp hl)
  perm_allLinks := h.perm_allLinks.trans (List.reverse_perm _).symm
  outLinks id := by rw [h.outLinks_eq, model, List.filter_reverse]
  inLinks id := by rw [h.inLinks_eq, model, List.filter_reverse]
  outNeighbors id kind := by
    rw [outNeighbors, h.outLinks_eq, model, ← List.filter_reverse, List.filter_filter]
    simp [Bool.and_comm]
  inNeighbors id kind := by
    rw [inNeighbors, h.inLinks_eq, model, ← List.filter_reverse, List.filter_filter]
    simp [Bool.and_comm]
  perm_incidentLinks id := by
    rw [model, List.filter_reverse]
    exact (h.perm_incidentLinks_filter id).trans (List.reverse_perm _).symm
  nextId := rfl

/-! ## The allocator -/

theorem WellFormed.offers_iff (h : WellFormed g) {n : UInt64} :
    g.model.Offers n.toNat ↔ ⟨n⟩ ∈ g.supply := by
  have hcontains : g.node? ⟨n⟩ = none ↔ g.contains ⟨n⟩ = false := by
    rw [h.contains_eq, Option.isSome_eq_false_iff, Option.isNone_iff_eq_none]
  rw [mem_supply, ← hcontains, GraphModel.Offers, UInt64.ofNat_toNat]
  rfl

theorem WellFormed.node?_of_mem_supply (h : WellFormed g) (hid : id ∈ g.supply) :
    g.node? id = none := by
  have hnew := (mem_supply.mp hid).2.2
  rwa [h.contains_eq, Option.isSome_eq_false_iff, Option.isNone_iff_eq_none] at hnew

/-- The first id that the allocator has left is the one that the model says. -/
theorem WellFormed.fresh?_eq (h : WellFormed g) :
    g.model.fresh? = g.supply.head?.map NodeId.value := by
  classical
  have htoNat : ∀ n, g.model.Offers n → (UInt64.ofNat n).toNat = n := fun n hn =>
    UInt64.toNat_ofNat_of_lt' (Nat.lt_of_succ_lt hn.2.1)
  rw [GraphModel.fresh?]
  cases hsupply : g.supply with
  | nil =>
    rw [dif_neg]
    · rfl
    · rintro ⟨n, hn⟩
      rw [← htoNat n hn, h.offers_iff, hsupply] at hn
      cases hn
  | cons id rest =>
    have hid : g.model.Offers id.value.toNat :=
      h.offers_iff.mpr (hsupply ▸ List.mem_cons_self)
    rw [dif_pos ⟨_, hid⟩, (Nat.find_eq_iff _).mpr ⟨hid, fun n hlt hn => ?_⟩, UInt64.ofNat_toNat]
    · rfl
    · have hfirst := first_le_of_mem_supply hsupply (h.offers_iff.mp ((htoNat n hn).symm ▸ hn))
      rw [htoNat n hn] at hfirst
      omega

/-! ## Operations -/

theorem nextId_insertNode {node : Node} (h : g.insertNode node = .ok g') :
    g'.nextId = g.nextId := by
  obtain ⟨_, rfl⟩ := insertNode_eq_ok h
  rfl

theorem nextId_removeNode {node : Node} (h : g.removeNode id = .ok (node, g')) :
    g'.nextId = g.nextId := by
  obtain ⟨_, _, _, rfl⟩ := removeNode_eq_ok h
  rfl

theorem nextId_updateProperties {key : String} {f : Properties → Except GraphError Properties}
    {previous : Option PropertyValue} (h : g.updateProperties id key f = .ok (previous, g')) :
    g'.nextId = g.nextId := by
  obtain ⟨_, _, _, _, _, _, _, rfl⟩ := updateProperties_eq_ok h
  rfl

theorem nextId_addEdge {src dst : NodeId} {edge : Edge} (h : g.addEdge src dst edge = .ok g') :
    g'.nextId = g.nextId := by
  obtain ⟨_, _, _, _, rfl⟩ := addEdge_eq_ok h
  rfl

theorem nextId_removeEdge {src dst : NodeId} {edge removed : Edge}
    (h : g.removeEdge src dst edge = .ok (removed, g')) : g'.nextId = g.nextId := by
  obtain ⟨_, _, _, _, _, rfl⟩ := removeEdge_eq_ok h
  rfl

/-- What an operation came to on a graph stands for what it came to on a model. -/
inductive StandsFor :
    Except GraphError (Answer × Graph) → Except GraphError (Answer × GraphModel) → Prop where
  | error (e : GraphError) : StandsFor (.error e) (.error e)
  | ok (a : Answer) {g : Graph} (hg : g.WellFormed) : StandsFor (.ok (a, g)) (.ok (a, g.model))

theorem Shows.model_eq {node : NodeId → Option Node} {links : List Link} (h : Shows g node links) :
    g.model = ⟨node, links.reverse, g.nextId⟩ := by
  rw [model, h.node?_eq, h.links_eq]

theorem Shows.standsFor {node : NodeId → Option Node} {links : List Link} (h : Shows g' node links)
    (hnext : g'.nextId = g.nextId) (a : Answer) :
    StandsFor (.ok (a, g')) (.ok (a, ⟨node, links.reverse, g.nextId⟩)) := by
  rw [← hnext, ← h.model_eq]
  exact .ok a h.wellFormed

theorem WellFormed.standsFor_updateProperties (h : WellFormed g) (id : NodeId) (key : String)
    (f : Properties → Except GraphError Properties) :
    StandsFor ((g.updateProperties id key f).map fun r => (.previous r.1, r.2))
      (g.model.updateProperties id key f) := by
  have hnode : g.model.node id = g.node? id := rfl
  rw [GraphModel.updateProperties, hnode]
  cases hn : g.node? id with
  | none => rw [h.updateProperties_error hn]; exact .error _
  | some n =>
    dsimp only
    cases hf : f n.properties with
    | error e => rw [h.updateProperties_refused hn key hf]; exact .error e
    | ok p =>
      obtain ⟨g', hok, hshows⟩ := h.shows_updateProperties hn key hf
      rw [hok]
      exact hshows.standsFor (nextId_updateProperties hok) _

/-- One operation: a graph does what its model does. -/
theorem WellFormed.standsFor_perform (h : WellFormed g) (op : Operation) :
    StandsFor (g.perform op) (g.model.perform op) := by
  have hnode : ∀ id, g.model.node id = g.node? id := fun _ => rfl
  cases op with
  | allocate =>
    rw [perform, GraphModel.perform, h.fresh?_eq]
    cases hsupply : g.supply with
    | nil => rw [allocate_of_supply_nil hsupply]; exact .error _
    | cons id rest =>
      rw [allocate_of_supply hsupply]
      exact .ok _ (h.shows_withNextId _).wellFormed
  | addNode kind properties =>
    rw [perform, GraphModel.perform, h.fresh?_eq, addNode]
    cases hsupply : g.supply with
    | nil => rw [allocate_of_supply_nil hsupply]; exact .error _
    | cons id rest =>
      rw [allocate_of_supply hsupply]
      have hpassed := (h.shows_withNextId (id.value + 1)).wellFormed
      have hnew : g.node? (Node.mk id kind properties).id = none :=
        h.node?_of_mem_supply (hsupply ▸ List.mem_cons_self)
      have hplace := hpassed.shows_place hnew
      exact hplace.standsFor (g := { g with nextId := id.value + 1 }) rfl (.id id)
  | insertNode node =>
    rw [perform, GraphModel.perform, hnode]
    cases hn : g.node? node.id with
    | some m => rw [h.insertNode_error hn]; exact .error _
    | none =>
      obtain ⟨g', hok, hshows⟩ := h.shows_insertNode hn
      rw [hok]
      exact hshows.standsFor (nextId_insertNode hok) _
  | removeNode id =>
    rw [perform, GraphModel.perform, hnode]
    cases hn : g.node? id with
    | none => rw [h.removeNode_error hn]; exact .error _
    | some n =>
      obtain ⟨g', hok, hshows⟩ := h.shows_removeNode hn
      rw [hok]
      have hstands := hshows.standsFor (nextId_removeNode hok) (.node n)
      rw [← List.filter_reverse] at hstands
      exact hstands
  | setProperty id key value => exact h.standsFor_updateProperties id key _
  | appendProperty id key value => exact h.standsFor_updateProperties id key _
  | removeProperty id key => exact h.standsFor_updateProperties id key _
  | addEdge src dst edge =>
    rw [perform, GraphModel.perform, hnode, hnode]
    cases hs : g.node? src with
    | none => rw [h.addEdge_error_src hs]; exact .error _
    | some s =>
      cases hd : g.node? dst with
      | none => rw [h.addEdge_error_dst hs hd]; exact .error _
      | some d =>
        obtain ⟨g', hok, hshows⟩ := h.shows_addEdge hs hd edge
        rw [hok]
        have hstands := hshows.standsFor (nextId_addEdge hok) .none
        rw [List.reverse_cons] at hstands
        exact hstands
  | removeEdge src dst edge =>
    rw [perform, GraphModel.perform, hnode, hnode]
    cases hs : g.node? src with
    | none => rw [h.removeEdge_error_src hs]; exact .error _
    | some s =>
      cases hd : g.node? dst with
      | none => rw [h.removeEdge_error_dst hs hd]; exact .error _
      | some d =>
        have hremove := h.shows_removeEdge hs hd edge
        have hlinks : g.model.links.reverse = g.links := List.reverse_reverse _
        dsimp only
        rw [hlinks]
        cases hfind : g.links.find? (·.same ⟨src, dst, edge⟩) with
        | none =>
          rw [hfind] at hremove
          rw [hremove]
          exact .error _
        | some l =>
          rw [hfind] at hremove
          obtain ⟨g', hok, hshows⟩ := hremove
          rw [hok]
          exact hshows.standsFor (nextId_removeEdge hok) _

/-- A run: a graph does what its model does. -/
theorem WellFormed.model_run (h : WellFormed g) (ops : List Operation) :
    (Operation.run perform g ops).2.WellFormed ∧
      Operation.run GraphModel.perform g.model ops =
        ((Operation.run perform g ops).1, (Operation.run perform g ops).2.model) := by
  induction ops generalizing g with
  | nil => exact ⟨h, rfl⟩
  | cons op ops ih =>
    have hstep := h.standsFor_perform op
    simp only [Operation.run]
    cases hop : g.perform op with
    | error e =>
      rw [hop] at hstep
      generalize g.model.perform op = outcome at hstep ⊢
      cases hstep
      obtain ⟨hwf, hrun⟩ := ih h
      exact ⟨hwf, by simp only [hrun]⟩
    | ok result =>
      obtain ⟨a, g'⟩ := result
      rw [hop] at hstep
      generalize g.model.perform op = outcome at hstep ⊢
      cases hstep with
      | ok a hg' =>
        obtain ⟨hwf, hrun⟩ := ih hg'
        exact ⟨hwf, by simp only [hrun]⟩

/-- Every run of operations from the graph without nodes gives the answers and
errors of the model, and leaves a graph of which all that can be asked is read off
the model. -/
theorem run_reflects_model (ops : List Operation) :
    (Operation.run perform empty ops).1 = (Operation.run GraphModel.perform {} ops).1 ∧
      (Operation.run perform empty ops).2.Reflects (Operation.run GraphModel.perform {} ops).2 := by
  have hempty : (empty : Graph).model = {} := by
    have hnode : (empty : Graph).node? = fun _ => none := by
      funext id
      simp [empty, node?, slot?]
    rw [model, hnode]
    rfl
  obtain ⟨hwf, hrun⟩ := wellFormed_empty.model_run ops
  rw [hempty] at hrun
  rw [hrun]
  exact ⟨rfl, hwf.reflects⟩

/-- Slots are used again, the newest of two equal edges goes, and two operations fail. -/
def rebuild : List Operation :=
  [.addNode (.method "f" "f") {}, .addNode .block {}, .addEdge ⟨1⟩ ⟨2⟩ ⟨.ast, {}⟩,
    .addEdge ⟨1⟩ ⟨1⟩ ⟨.cfg, {}⟩, .addEdge ⟨1⟩ ⟨2⟩ ⟨.ast, {}⟩, .removeEdge ⟨1⟩ ⟨2⟩ ⟨.ast, {}⟩,
    .removeNode ⟨2⟩, .insertNode ⟨⟨3⟩, .block, {}⟩, .insertNode ⟨⟨3⟩, .block, {}⟩, .allocate,
    .addEdge ⟨1⟩ ⟨2⟩ ⟨.ast, {}⟩]

example : (Operation.run perform empty rebuild).1 =
    [.ok (.id ⟨1⟩), .ok (.id ⟨2⟩), .ok .none, .ok .none, .ok .none, .ok (.edge ⟨.ast, {}⟩),
      .ok (.node ⟨⟨2⟩, .block, {}⟩), .ok .none, .error (.duplicateNodeId ⟨3⟩), .ok (.id ⟨4⟩),
      .error (.nodeNotFound ⟨2⟩)] := by cbv

end Graph

end CodeGraph
