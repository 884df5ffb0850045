import CodeGraph.Proofs.Graph.Consistent
import Mathlib.Logic.Function.Basic

/-!
# Well-formed graphs

A graph is *well formed* when it is consistent and every id is carried by one
node, so that the index says in which slot a node is.  The graph without nodes is
well formed, and every operation on a graph keeps it so.

A well-formed graph is known by its nodes, which `node?` finds by id, and by its
edges.  `links` lists the edges from newest to oldest.  Each operation is
described by its effect on these two, and slots are not mentioned again after
this module.
-/

namespace CodeGraph

/-- Whether two edges run between the same nodes and are the same. -/
def Link.same (l k : Link) : Bool := l.src = k.src && l.dst = k.dst && l.edge.same k.edge

namespace Graph

/-- Slots, index and adjacency agree. -/
structure WellFormed (g : Graph) : Prop where
  nodes : g.nodes.Sound
  arcs : g.arcs.Sound
  nodup_recent : g.recent.Nodup
  mem_recent : ∀ k, k ∈ g.recent ↔ (g.arcs.get? k).isSome
  ends : ∀ k a, g.arcs.get? k = some a →
    (g.nodes.get? a.src).isSome ∧ (g.nodes.get? a.dst).isSome
  slot?_iff : ∀ id i, g.slot? id = some i ↔ ∃ n, g.nodes.get? i = some n ∧ n.id = id

/-- The edges, newest first. -/
def links (g : Graph) : List Link := g.linksOf g.recent

variable {g : Graph} {id src dst : NodeId} {n node : Node} {i j k : Nat} {edge : Edge}

theorem WellFormed.consistent (h : WellFormed g) : Consistent g where
  nodes := h.nodes
  arcs := h.arcs
  nodup_recent := h.nodup_recent
  mem_recent := h.mem_recent
  ends := h.ends
  get?_of_slot? := fun id i => (h.slot?_iff id i).mp

/-- A consistent graph is well formed when the index knows all its nodes. -/
theorem Consistent.wellFormed (h : Consistent g)
    (hslot : ∀ i n, g.nodes.get? i = some n → g.slot? n.id = some i) : WellFormed g where
  nodes := h.nodes
  arcs := h.arcs
  nodup_recent := h.nodup_recent
  mem_recent := h.mem_recent
  ends := h.ends
  slot?_iff := by
    refine fun id i => ⟨h.get?_of_slot? id i, ?_⟩
    rintro ⟨n, hn, rfl⟩
    exact hslot i n hn

theorem wellFormed_empty : WellFormed empty :=
  consistent_empty.wellFormed (by simp [empty, Slots.get?])

/-! ## Looking up -/

namespace WellFormed

theorem slot?_of_get? (h : WellFormed g) (hn : g.nodes.get? i = some n) :
    g.slot? n.id = some i :=
  (h.slot?_iff _ _).mpr ⟨n, hn, rfl⟩

theorem node?_eq_some_iff (h : WellFormed g) :
    g.node? id = some n ↔ n.id = id ∧ ∃ i, g.slot? id = some i ∧ g.nodes.get? i = some n := by
  unfold node?
  rw [Option.bind_eq_some_iff]
  constructor
  · rintro ⟨i, hi, hn⟩
    obtain ⟨m, hm, hid⟩ := (h.slot?_iff id i).mp hi
    rw [hn, Option.some.injEq] at hm
    exact ⟨hm ▸ hid, i, hi, hn⟩
  · rintro ⟨_, i, hi, hn⟩
    exact ⟨i, hi, hn⟩

theorem id_of_node? (h : WellFormed g) (hn : g.node? id = some n) : n.id = id :=
  (h.node?_eq_some_iff.mp hn).1

theorem node?_of_slot? (h : WellFormed g) (hi : g.slot? id = some i) :
    ∃ n, g.node? id = some n ∧ g.nodes.get? i = some n ∧ n.id = id := by
  obtain ⟨n, hn, hid⟩ := (h.slot?_iff id i).mp hi
  exact ⟨n, by rw [node?, hi]; exact hn, hn, hid⟩

theorem node?_eq_none_iff (h : WellFormed g) : g.node? id = none ↔ g.slot? id = none := by
  constructor
  · intro hnone
    cases hi : g.slot? id with
    | none => rfl
    | some i =>
      obtain ⟨n, hn, _⟩ := h.node?_of_slot? hi
      rw [hnone] at hn
      cases hn
  · intro hnone
    rw [node?, hnone]
    rfl

theorem contains_eq (h : WellFormed g) : g.contains id = (g.node? id).isSome := by
  unfold contains
  cases hi : g.slot? id with
  | none => rw [h.node?_eq_none_iff.mpr hi]; rfl
  | some i =>
    obtain ⟨n, hn, _⟩ := h.node?_of_slot? hi
    rw [hn]
    rfl

/-- No two slots hold nodes of one id. -/
theorem slot_inj (h : WellFormed g) (hn : g.nodes.get? i = some n) (hm : g.nodes.get? j = some node)
    (hid : n.id = node.id) : i = j := by
  have hi : g.slot? n.id = some i := h.slot?_of_get? hn
  have hj : g.slot? n.id = some j := hid ▸ h.slot?_of_get? hm
  rw [hi, Option.some.injEq] at hj
  exact hj

/-- An arc has the ids of the nodes at its ends. -/
theorem link?_eq (h : WellFormed g) {a : Arc} (ha : g.arcs.get? k = some a) :
    ∃ s d, g.nodes.get? a.src = some s ∧ g.nodes.get? a.dst = some d ∧
      g.link? a = some ⟨s.id, d.id, a.edge⟩ := by
  obtain ⟨hs, hd⟩ := h.ends k a ha
  obtain ⟨s, hs⟩ := Option.isSome_iff_exists.mp hs
  obtain ⟨d, hd⟩ := Option.isSome_iff_exists.mp hd
  exact ⟨s, d, hs, hd, by rw [link?, hs, hd]⟩

/-- The list of all edges holds the same edges. -/
theorem perm_allLinks (h : WellFormed g) : g.allLinks.Perm g.links := by
  have hperm := (Slots.perm_elements h.nodup_recent h.mem_recent).filterMap g.link?
  rw [List.filterMap_filterMap] at hperm
  exact hperm

/-- Both ends of every edge are there. -/
theorem ends_of_mem_links (h : WellFormed g) {l : Link} (hl : l ∈ g.links) :
    (g.node? l.src).isSome ∧ (g.node? l.dst).isSome := by
  obtain ⟨k, _, hk⟩ := List.mem_filterMap.mp hl
  obtain ⟨a, ha, hlink⟩ := Option.bind_eq_some_iff.mp hk
  obtain ⟨s, d, hs, hd, heq⟩ := h.link?_eq ha
  rw [heq, Option.some.injEq] at hlink
  subst hlink
  have hsrc : g.slot? s.id = some a.src := h.slot?_of_get? hs
  have hdst : g.slot? d.id = some a.dst := h.slot?_of_get? hd
  rw [node?, node?, hsrc, hdst]
  simp [hs, hd]

end WellFormed

/-! ## A new node -/

namespace WellFormed

theorem place (h : WellFormed g) (hnew : g.node? node.id = none) : WellFormed (g.place node) := by
  refine (h.consistent.place node).wellFormed ?_
  intro i n hn
  rw [h.consistent.get?_place] at hn
  rw [slot?_place]
  split at hn
  · rename_i hi
    cases hn
    rw [if_pos rfl, hi]
  · have hne : n.id ≠ node.id := by
      intro hid
      have hslot := h.slot?_of_get? hn
      rw [hid, h.node?_eq_none_iff.mp hnew] at hslot
      cases hslot
    rw [if_neg hne]
    exact h.slot?_of_get? hn

theorem node?_place (h : WellFormed g) (node : Node) (id : NodeId) :
    (g.place node).node? id = if id = node.id then some node else g.node? id := by
  unfold node?
  rw [slot?_place]
  by_cases hid : id = node.id
  · rw [if_pos hid, if_pos hid, Option.bind_some, h.consistent.get?_place, if_pos rfl]
  · rw [if_neg hid, if_neg hid]
    cases hi : g.slot? id with
    | none => rfl
    | some i =>
      obtain ⟨n, _, hn, _⟩ := h.node?_of_slot? hi
      rw [Option.bind_some, Option.bind_some, h.consistent.get?_place_of_isSome node (by simp [hn])]

theorem links_place (h : WellFormed g) (node : Node) : (g.place node).links = g.links := by
  apply List.filterMap_congr
  intro k _
  change (g.arcs.get? k).bind _ = _
  cases ha : g.arcs.get? k with
  | none => rfl
  | some a =>
    obtain ⟨hs, hd⟩ := h.ends k a ha
    simp only [Option.bind_some, link?]
    rw [h.consistent.get?_place_of_isSome node hs, h.consistent.get?_place_of_isSome node hd]

end WellFormed

/-! ## A node changed in its slot -/

namespace WellFormed

theorem withNode (h : WellFormed g) (hn : g.nodes.get? i = some n) (hid : node.id = n.id) :
    WellFormed (g.withNode i node) := by
  refine (h.consistent.withNode hn hid).wellFormed ?_
  intro j m hm
  rw [get?_withNode hn] at hm
  split at hm
  · rename_i hj
    cases hm
    rw [hid, hj]
    exact h.slot?_of_get? hn
  · exact h.slot?_of_get? hm

theorem node?_withNode (h : WellFormed g) (hn : g.nodes.get? i = some n) (node : Node)
    (id : NodeId) : (g.withNode i node).node? id = if id = n.id then some node else g.node? id := by
  change (g.slot? id).bind _ = _
  by_cases hidn : id = n.id
  · have hslot : g.slot? id = some i := (h.slot?_iff id i).mpr ⟨n, hn, hidn.symm⟩
    rw [hslot, Option.bind_some, get?_withNode hn, if_pos rfl, if_pos hidn]
  · rw [if_neg hidn, node?]
    cases hj : g.slot? id with
    | none => rfl
    | some j =>
      have hji : j ≠ i := by
        rintro rfl
        obtain ⟨m, hm, hmid⟩ := (h.slot?_iff id j).mp hj
        rw [hn, Option.some.injEq] at hm
        exact hidn (hm ▸ hmid.symm)
      rw [Option.bind_some, Option.bind_some, get?_withNode hn, if_neg hji]

theorem links_withNode (hn : g.nodes.get? i = some n) (hid : node.id = n.id) :
    (g.withNode i node).links = g.links := by
  -- an arc shows the ids of its ends only
  have hids : ∀ j, ((g.withNode i node).nodes.get? j).map Node.id =
      (g.nodes.get? j).map Node.id := by
    intro j
    rw [get?_withNode hn]
    by_cases hj : j = i
    · simp [hj, hn, hid]
    · rw [if_neg hj]
  apply List.filterMap_congr
  intro k _
  change (g.arcs.get? k).bind _ = _
  congr 1
  funext a
  have hlink : ∀ g : Graph, g.link? a = ((g.nodes.get? a.src).map Node.id).bind fun s =>
      ((g.nodes.get? a.dst).map Node.id).map fun d => ⟨s, d, a.edge⟩ := by
    intro g
    unfold link?
    cases g.nodes.get? a.src with
    | none => rfl
    | some s => cases g.nodes.get? a.dst <;> rfl
  rw [hlink, hlink, hids, hids]

end WellFormed

/-! ## A new edge -/

namespace WellFormed

theorem join (h : WellFormed g) (hi : (g.nodes.get? i).isSome) (hj : (g.nodes.get? j).isSome)
    (edge : Edge) : WellFormed (g.join i j edge) :=
  (h.consistent.join hi hj edge).wellFormed fun _ _ => h.slot?_of_get?

theorem links_join (h : WellFormed g) {s d : Node} (hs : g.nodes.get? i = some s)
    (hd : g.nodes.get? j = some d) (edge : Edge) :
    (g.join i j edge).links = ⟨s.id, d.id, edge⟩ :: g.links := by
  have hlink : (g.join i j edge).link? ⟨i, j, edge⟩ = some ⟨s.id, d.id, edge⟩ := by
    have hnodes : (g.join i j edge).nodes = g.nodes := rfl
    rw [link?, hnodes, hs, hd]
  have hold : (g.join i j edge).linksOf g.recent = g.links := by
    apply List.filterMap_congr
    intro k hk
    have hne : k ≠ (g.arcs.insert ⟨i, j, edge⟩).1 := by
      rintro rfl
      exact h.consistent.not_mem_recent_insert _ hk
    rw [arcs_join, h.arcs.get?_insert, if_neg hne]
    rfl
  rw [← hold, links, recent_join, linksOf, List.filterMap_cons, arcs_join, h.arcs.get?_insert,
    if_pos rfl, Option.bind_some, hlink]
  rfl

end WellFormed

/-! ## A node removed with its edges -/

namespace WellFormed

/-- An arc is at a slot just when its edge is at the node there. -/
theorem link?_ends (h : WellFormed g) {a : Arc} {l : Link} (hi : g.slot? id = some i)
    (hl : g.link? a = some l) : (a.src = i ↔ l.src = id) ∧ (a.dst = i ↔ l.dst = id) := by
  obtain ⟨n, _, hn, hid⟩ := h.node?_of_slot? hi
  have hend : ∀ {j m}, g.nodes.get? j = some m → (j = i ↔ m.id = id) := by
    intro j m hm
    constructor
    · rintro rfl
      rw [hn, Option.some.injEq] at hm
      exact hm ▸ hid
    · intro hmid
      exact h.slot_inj hm hn (hmid.trans hid.symm)
  unfold link? at hl
  split at hl
  · rename_i s d hs hd
    cases hl
    exact ⟨hend hs, hend hd⟩
  · cases hl

/-- A selection of arcs shows as a selection of edges. -/
theorem linksOf_filter (h : WellFormed g) {p : Arc → Bool} {q : Link → Bool}
    (hpq : ∀ a l, g.link? a = some l → p a = q l) :
    g.linksOf (g.recent.filter fun k => (g.arcs.get? k).any p) = g.links.filter q := by
  unfold links linksOf
  rw [List.filterMap_filter, List.filter_filterMap]
  apply List.filterMap_congr
  intro k hk
  obtain ⟨a, ha⟩ := Option.isSome_iff_exists.mp ((h.mem_recent k).mp hk)
  obtain ⟨s, d, _, _, hl⟩ := h.link?_eq ha
  rw [ha, Option.any_some, Option.bind_some, hl, hpq a _ hl]
  rfl

/-- The edges at a node are those with its id at one end. -/
theorem incidentLinks_eq (h : WellFormed g) (id : NodeId) :
    g.incidentLinks id = (g.links.filter fun l => l.src = id) ++
      g.links.filter fun l => l.dst = id && l.src ≠ id := by
  unfold incidentLinks
  cases hi : g.slot? id with
  | none =>
    have hnone : ∀ l ∈ g.links, l.src ≠ id ∧ l.dst ≠ id := by
      intro l hl
      have hnode : g.node? id = none := h.node?_eq_none_iff.mpr hi
      obtain ⟨hs, hd⟩ := h.ends_of_mem_links hl
      constructor
      · rintro rfl
        rw [hnode] at hs
        cases hs
      · rintro rfl
        rw [hnode] at hd
        cases hd
    symm
    rw [List.append_eq_nil_iff, List.filter_eq_nil_iff, List.filter_eq_nil_iff]
    exact ⟨fun l hl => by simp [(hnone l hl).1], fun l hl => by simp [(hnone l hl).2]⟩
  | some i =>
    have hleave := h.linksOf_filter (p := fun a => a.src = i) (q := fun l => l.src = id)
      fun a l hl => decide_eq_decide.mpr (h.link?_ends hi hl).1
    have henter := h.linksOf_filter (p := fun a => a.dst = i && a.src ≠ i)
      (q := fun l => l.dst = id && l.src ≠ id) fun a l hl => by simp [h.link?_ends hi hl]
    change g.linksOf (g.leaving i ++ g.entering i) = _
    rw [← hleave, ← henter]
    exact List.filterMap_append

/-- The edges at a node and the others make up all edges. -/
theorem perm_incidentLinks (h : WellFormed g) (id : NodeId) :
    (g.incidentLinks id ++ g.links.filter fun l => !(l.src = id || l.dst = id)).Perm g.links := by
  have henter := List.filter_append_perm (fun l : Link => decide (l.dst = id))
    (g.links.filter fun l => !decide (l.src = id))
  rw [List.filter_filter, List.filter_filter] at henter
  have hothers : (g.links.filter fun l => !(l.src = id || l.dst = id)) =
      g.links.filter fun l => !decide (l.dst = id) && !decide (l.src = id) := by
    apply List.filter_congr
    intro l _
    rw [Bool.not_or, Bool.and_comm]
  rw [h.incidentLinks_eq, List.append_assoc, hothers]
  simp only [ne_eq, decide_not]
  exact (henter.append_left _).trans (List.filter_append_perm _ g.links)

theorem vacate (h : WellFormed g) (hi : g.slot? id = some i) : WellFormed (g.vacate id i) := by
  refine (h.consistent.vacate hi).wellFormed ?_
  intro j m hm
  rw [get?_vacate_nodes] at hm
  split at hm
  · cases hm
  · rename_i hji
    have hslot := h.slot?_of_get? hm
    have hne : m.id ≠ id := by
      rintro rfl
      rw [hi, Option.some.injEq] at hslot
      exact hji hslot.symm
    rw [slot?_vacate, if_neg hne]
    exact hslot

theorem node?_vacate (h : WellFormed g) (hi : g.slot? id = some i) (id' : NodeId) :
    (g.vacate id i).node? id' = if id' = id then none else g.node? id' := by
  unfold node?
  rw [slot?_vacate]
  by_cases hid : id' = id
  · rw [if_pos hid, if_pos hid]
    rfl
  · rw [if_neg hid, if_neg hid]
    cases hj : g.slot? id' with
    | none => rfl
    | some j =>
      have hji : j ≠ i := by
        rintro rfl
        obtain ⟨n, _, hn, hnid⟩ := h.node?_of_slot? hi
        obtain ⟨m, _, hm, hmid⟩ := h.node?_of_slot? hj
        rw [hn, Option.some.injEq] at hm
        exact hid (hmid.symm.trans (hm ▸ hnid))
      rw [Option.bind_some, Option.bind_some, get?_vacate_nodes, if_neg hji]

theorem links_vacate (h : WellFormed g) (hi : g.slot? id = some i) :
    (g.vacate id i).links = g.links.filter fun l => !(l.src = id || l.dst = id) := by
  rw [← h.linksOf_filter (p := fun a => !(a.src = i || a.dst = i))
    fun a l hl => by simp [h.link?_ends hi hl]]
  have hrecent : (g.vacate id i).recent = g.recent.filter fun k =>
      (g.arcs.get? k).any fun a => !(a.src = i || a.dst = i) := by
    apply List.filter_congr
    intro k hk
    obtain ⟨a, ha⟩ := Option.isSome_iff_exists.mp ((h.mem_recent k).mp hk)
    simp [touches, ha]
  rw [links, hrecent]
  apply List.filterMap_congr
  intro k hk
  obtain ⟨_, hk⟩ := List.mem_filter.mp hk
  cases ha : g.arcs.get? k with
  | none => simp [ha] at hk
  | some a =>
    have hk' : ¬ g.touches i k := by simpa [touches, ha] using hk
    obtain ⟨hs, hd⟩ := ends_of_not_touches ha hk'
    rw [h.consistent.get?_vacate_arcs, if_neg hk', ha, Option.bind_some, Option.bind_some, link?,
      link?, get?_vacate_nodes, get?_vacate_nodes, if_neg hs, if_neg hd]

end WellFormed

/-! ## An edge removed -/

namespace WellFormed

theorem cut (h : WellFormed g) (k : Nat) : WellFormed (g.cut k) :=
  (h.consistent.cut k).wellFormed fun _ _ => h.slot?_of_get?

theorem linksOf_cut (slots : List Nat) (hk : k ∉ slots) :
    (g.cut k).linksOf slots = g.linksOf slots := by
  apply List.filterMap_congr
  intro j hj
  have hne : j ≠ k := by
    rintro rfl
    exact hk hj
  change ((g.arcs.erase k).get? j).bind g.link? = _
  rw [Slots.get?_erase, if_neg hne]

/-- What the search for an arc tests. -/
theorem matches_iff (h : WellFormed g) (hi : g.slot? src = some i) (hj : g.slot? dst = some j)
    {a : Arc} {l : Link} (hl : g.link? a = some l) :
    (a.src = i && a.dst = j && a.edge.same edge) = l.same ⟨src, dst, edge⟩ := by
  have hsrc := (h.link?_ends hi hl).1
  have hdst := (h.link?_ends hj hl).2
  have hedge : l.edge = a.edge := by
    unfold link? at hl
    split at hl
    · cases hl
      rfl
    · cases hl
  simp [Link.same, hsrc, hdst, hedge]

/-- Arcs that the search passes over are not the same as the edge looked for. -/
theorem not_same_of_passed (h : WellFormed g) (hi : g.slot? src = some i)
    (hj : g.slot? dst = some j) {slots : List Nat}
    (hpassed : ∀ k ∈ slots, (match g.arcs.get? k with
      | some a => if a.src = i && a.dst = j && a.edge.same edge then some (k, a.edge) else none
      | none => none) = none) : ∀ l ∈ g.linksOf slots, ¬ l.same ⟨src, dst, edge⟩ := by
  intro l hl hsame
  obtain ⟨k, hk, hlink⟩ := List.mem_filterMap.mp hl
  obtain ⟨a, ha, hlink⟩ := Option.bind_eq_some_iff.mp hlink
  have hnone := hpassed k hk
  rw [← h.matches_iff hi hj hlink] at hsame
  simp only [ha, hsame] at hnone
  cases hnone

theorem findArc?_eq_none (h : WellFormed g) (hi : g.slot? src = some i) (hj : g.slot? dst = some j)
    (hnone : g.findArc? i j edge = none) : g.links.find? (·.same ⟨src, dst, edge⟩) = none := by
  rw [List.find?_eq_none]
  exact h.not_same_of_passed hi hj (List.findSome?_eq_none_iff.mp hnone)

/-- The arc that is found is the newest one of the kind looked for. -/
theorem findArc?_eq_some (h : WellFormed g) (hi : g.slot? src = some i) (hj : g.slot? dst = some j)
    {found : Edge} (hsome : g.findArc? i j edge = some (k, found)) :
    g.links.find? (·.same ⟨src, dst, edge⟩) = some ⟨src, dst, found⟩ ∧
      (g.cut k).links = g.links.eraseP (·.same ⟨src, dst, edge⟩) := by
  obtain ⟨newer, k', older, hrecent, hk', hnewer⟩ := List.findSome?_eq_some_iff.mp hsome
  split at hk'
  · rename_i a ha
    split at hk'
    · rename_i hmatch
      cases hk'
      obtain ⟨s, d, hs, hd, hl⟩ := h.link?_eq ha
      have hsame : Link.same ⟨s.id, d.id, a.edge⟩ ⟨src, dst, edge⟩ = true :=
        (h.matches_iff hi hj hl).symm.trans hmatch
      have hids : s.id = src ∧ d.id = dst := by
        simp only [Link.same, Bool.and_eq_true, decide_eq_true_eq] at hsame
        exact hsame.1
      rw [hids.1, hids.2] at hl hsame
      have hnodup := h.nodup_recent
      rw [hrecent, List.nodup_middle, List.nodup_cons, List.mem_append, not_or] at hnodup
      obtain ⟨⟨hk1, hk2⟩, _⟩ := hnodup
      have hlinks : g.links = g.linksOf newer ++ ⟨src, dst, a.edge⟩ :: g.linksOf older := by
        rw [links, hrecent, linksOf, List.filterMap_append, List.filterMap_cons, ha,
          Option.bind_some, hl]
        rfl
      have hcut : (g.cut k).links = g.linksOf newer ++ g.linksOf older := by
        change (g.cut k).linksOf (g.recent.erase k) = _
        rw [hrecent, List.erase_append_right _ hk1, List.erase_cons_head,
          linksOf_cut _ (by simp [hk1, hk2])]
        exact List.filterMap_append
      have hfirst := h.not_same_of_passed hi hj hnewer
      rw [hlinks, hcut]
      constructor
      · rw [List.find?_append, List.find?_eq_none.mpr hfirst]
        simp [hsame]
      · rw [List.eraseP_append_right _ hfirst]
        simp [hsame]
    · cases hk'
  · cases hk'

end WellFormed

/-! ## The operations

Of a well-formed graph, each operation answers by what `node?` and `links` say,
and `Shows` says what it makes of them. -/

/-- A well-formed graph of the given nodes and the given edges, newest first. -/
structure Shows (g : Graph) (node : NodeId → Option Node) (links : List Link) : Prop where
  wellFormed : WellFormed g
  node?_eq : g.node? = node
  links_eq : g.links = links

namespace WellFormed

theorem shows_withNextId (h : WellFormed g) (next : UInt64) :
    Shows { g with nextId := next } g.node? g.links where
  wellFormed := ⟨h.nodes, h.arcs, h.nodup_recent, h.mem_recent, h.ends, h.slot?_iff⟩
  node?_eq := rfl
  links_eq := rfl

theorem insertNode_error (h : WellFormed g) (hn : g.node? node.id = some n) :
    g.insertNode node = .error (.duplicateNodeId node.id) := by
  rw [insertNode, h.contains_eq, hn]
  rfl

theorem shows_place (h : WellFormed g) (hnew : g.node? node.id = none) :
    Shows (g.place node) (Function.update g.node? node.id (some node)) g.links where
  wellFormed := h.place hnew
  node?_eq := by
    funext id
    rw [h.node?_place, Function.update_apply]
  links_eq := h.links_place node

theorem shows_insertNode (h : WellFormed g) (hnew : g.node? node.id = none) :
    ∃ g', g.insertNode node = .ok g' ∧
      Shows g' (Function.update g.node? node.id (some node)) g.links := by
  refine ⟨g.place node, ?_, h.shows_place hnew⟩
  rw [insertNode, h.contains_eq, hnew]
  rfl

theorem removeNode_error (h : WellFormed g) (hn : g.node? id = none) :
    g.removeNode id = .error (.nodeNotFound id) := by
  rw [removeNode, h.node?_eq_none_iff.mp hn]

theorem shows_removeNode (h : WellFormed g) (hn : g.node? id = some n) :
    ∃ g', g.removeNode id = .ok (n, g') ∧ Shows g' (Function.update g.node? id none)
      (g.links.filter fun l => !(l.src = id || l.dst = id)) := by
  obtain ⟨_, i, hi, hni⟩ := h.node?_eq_some_iff.mp hn
  refine ⟨g.vacate id i, ?_, h.vacate hi, ?_, h.links_vacate hi⟩
  · rw [removeNode, hi]
    simp only [hni]
  · funext id'
    rw [h.node?_vacate hi, Function.update_apply]

theorem updateProperties_error (h : WellFormed g) (hn : g.node? id = none) (key : String)
    (f : Properties → Except GraphError Properties) :
    g.updateProperties id key f = .error (.nodeNotFound id) := by
  rw [updateProperties, h.node?_eq_none_iff.mp hn]

theorem updateProperties_refused (h : WellFormed g) (hn : g.node? id = some n) (key : String)
    {f : Properties → Except GraphError Properties} {e : GraphError}
    (hf : f n.properties = .error e) : g.updateProperties id key f = .error e := by
  obtain ⟨_, i, hi, hni⟩ := h.node?_eq_some_iff.mp hn
  rw [updateProperties, hi]
  simp only [hni, hf]

theorem shows_updateProperties (h : WellFormed g) (hn : g.node? id = some n) (key : String)
    {f : Properties → Except GraphError Properties} {p : Properties}
    (hf : f n.properties = .ok p) :
    ∃ g', g.updateProperties id key f = .ok (n.properties.get? key, g') ∧
      Shows g' (Function.update g.node? id (some { n with properties := p })) g.links := by
  obtain ⟨hid, i, hi, hni⟩ := h.node?_eq_some_iff.mp hn
  refine ⟨g.withNode i { n with properties := p }, ?_, h.withNode hni rfl, ?_,
    links_withNode hni rfl⟩
  · rw [updateProperties, hi]
    simp only [hni, hf]
    rfl
  · funext id'
    rw [h.node?_withNode hni, Function.update_apply, hid]

theorem addEdge_error_src (h : WellFormed g) (hs : g.node? src = none) :
    g.addEdge src dst edge = .error (.nodeNotFound src) := by
  rw [addEdge, h.node?_eq_none_iff.mp hs]

theorem addEdge_error_dst (h : WellFormed g) (hs : g.node? src = some n)
    (hd : g.node? dst = none) : g.addEdge src dst edge = .error (.nodeNotFound dst) := by
  obtain ⟨_, i, hi, _⟩ := h.node?_eq_some_iff.mp hs
  rw [addEdge, hi, h.node?_eq_none_iff.mp hd]

theorem shows_addEdge (h : WellFormed g) (hs : g.node? src = some n)
    (hd : g.node? dst = some node) (edge : Edge) :
    ∃ g', g.addEdge src dst edge = .ok g' ∧ Shows g' g.node? (⟨src, dst, edge⟩ :: g.links) := by
  obtain ⟨hsid, i, hi, hni⟩ := h.node?_eq_some_iff.mp hs
  obtain ⟨hdid, j, hj, hnj⟩ := h.node?_eq_some_iff.mp hd
  refine ⟨g.join i j edge, ?_, h.join (by simp [hni]) (by simp [hnj]) edge, rfl, ?_⟩
  · rw [addEdge, hi, hj]
  · rw [h.links_join hni hnj, hsid, hdid]

theorem removeEdge_error_src (h : WellFormed g) (hs : g.node? src = none) :
    g.removeEdge src dst edge = .error (.nodeNotFound src) := by
  rw [removeEdge, h.node?_eq_none_iff.mp hs]

theorem removeEdge_error_dst (h : WellFormed g) (hs : g.node? src = some n)
    (hd : g.node? dst = none) : g.removeEdge src dst edge = .error (.nodeNotFound dst) := by
  obtain ⟨_, i, hi, _⟩ := h.node?_eq_some_iff.mp hs
  rw [removeEdge, hi, h.node?_eq_none_iff.mp hd]

/-- Of the edges that are the same as the given one, the newest is removed. -/
theorem shows_removeEdge (h : WellFormed g) (hs : g.node? src = some n)
    (hd : g.node? dst = some node) (edge : Edge) :
    match g.links.find? (·.same ⟨src, dst, edge⟩) with
    | none => g.removeEdge src dst edge = .error (.edgeNotFound src dst edge.kind)
    | some l => ∃ g', g.removeEdge src dst edge = .ok (l.edge, g') ∧
        Shows g' g.node? (g.links.eraseP (·.same ⟨src, dst, edge⟩)) := by
  obtain ⟨_, i, hi, _⟩ := h.node?_eq_some_iff.mp hs
  obtain ⟨_, j, hj, _⟩ := h.node?_eq_some_iff.mp hd
  rw [removeEdge, hi, hj]
  cases hfind : g.findArc? i j edge with
  | none =>
    rw [h.findArc?_eq_none hi hj hfind]
    simp only [hfind]
  | some result =>
    obtain ⟨k, found⟩ := result
    obtain ⟨hlink, hcut⟩ := h.findArc?_eq_some hi hj hfind
    rw [hlink]
    simp only [hfind]
    exact ⟨g.cut k, rfl, h.cut k, rfl, hcut⟩

/-! Read the other way round: what has happened when an operation succeeded. -/

variable {g' : Graph}

theorem shows_of_insertNode (h : WellFormed g) (hok : g.insertNode node = .ok g') :
    g.node? node.id = none ∧
      Shows g' (Function.update g.node? node.id (some node)) g.links := by
  cases hn : g.node? node.id with
  | some m =>
    rw [h.insertNode_error hn] at hok
    cases hok
  | none =>
    obtain ⟨g₁, hok₁, hshows⟩ := h.shows_insertNode hn
    cases hok₁.symm.trans hok
    exact ⟨rfl, hshows⟩

theorem shows_of_removeNode (h : WellFormed g) (hok : g.removeNode id = .ok (n, g')) :
    g.node? id = some n ∧ Shows g' (Function.update g.node? id none)
      (g.links.filter fun l => !(l.src = id || l.dst = id)) := by
  cases hn : g.node? id with
  | none =>
    rw [h.removeNode_error hn] at hok
    cases hok
  | some m =>
    obtain ⟨g₁, hok₁, hshows⟩ := h.shows_removeNode hn
    cases hok₁.symm.trans hok
    exact ⟨rfl, hshows⟩

theorem shows_of_updateProperties (h : WellFormed g) {key : String}
    {f : Properties → Except GraphError Properties} {previous : Option PropertyValue}
    (hok : g.updateProperties id key f = .ok (previous, g')) :
    ∃ n p, g.node? id = some n ∧ f n.properties = .ok p ∧ previous = n.properties.get? key ∧
      Shows g' (Function.update g.node? id (some { n with properties := p })) g.links := by
  cases hn : g.node? id with
  | none =>
    rw [h.updateProperties_error hn] at hok
    cases hok
  | some n =>
    cases hf : f n.properties with
    | error e =>
      rw [h.updateProperties_refused hn key hf] at hok
      cases hok
    | ok p =>
      obtain ⟨g₁, hok₁, hshows⟩ := h.shows_updateProperties hn key hf
      cases hok₁.symm.trans hok
      exact ⟨n, p, rfl, hf, rfl, hshows⟩

theorem shows_of_addEdge (h : WellFormed g) (hok : g.addEdge src dst edge = .ok g') :
    (g.node? src).isSome ∧ (g.node? dst).isSome ∧
      Shows g' g.node? (⟨src, dst, edge⟩ :: g.links) := by
  cases hs : g.node? src with
  | none =>
    rw [h.addEdge_error_src hs] at hok
    cases hok
  | some s =>
    cases hd : g.node? dst with
    | none =>
      rw [h.addEdge_error_dst hs hd] at hok
      cases hok
    | some d =>
      obtain ⟨g₁, hok₁, hshows⟩ := h.shows_addEdge hs hd edge
      cases hok₁.symm.trans hok
      exact ⟨rfl, rfl, hshows⟩

theorem shows_of_removeEdge (h : WellFormed g) {removed : Edge}
    (hok : g.removeEdge src dst edge = .ok (removed, g')) :
    ∃ l, g.links.find? (·.same ⟨src, dst, edge⟩) = some l ∧ removed = l.edge ∧
      Shows g' g.node? (g.links.eraseP (·.same ⟨src, dst, edge⟩)) := by
  cases hs : g.node? src with
  | none =>
    rw [h.removeEdge_error_src hs] at hok
    cases hok
  | some s =>
    cases hd : g.node? dst with
    | none =>
      rw [h.removeEdge_error_dst hs hd] at hok
      cases hok
    | some d =>
      have hshows := h.shows_removeEdge hs hd edge
      cases hfind : g.links.find? (·.same ⟨src, dst, edge⟩) with
      | none =>
        rw [hfind] at hshows
        rw [hshows] at hok
        cases hok
      | some l =>
        rw [hfind] at hshows
        obtain ⟨g₁, hok₁, hshows⟩ := hshows
        cases hok₁.symm.trans hok
        exact ⟨l, rfl, rfl, hshows⟩

end WellFormed

end Graph

end CodeGraph
