import CodeGraph.Graph.Content
import CodeGraph.Proofs.Slots

/-!
# Consistent graphs

A graph is *consistent* when `recent` names every arc once, when both ends of
every arc are there, and when the index leads to a node of the id it is asked
for.  It may hold several nodes of one id, of which the index knows one.  Files
can bring such graphs in, and no operation mends them, so this is what every
graph at hand satisfies.

Each operation is described by its effect on the slots, and keeps a graph
consistent.
-/

namespace CodeGraph.Graph

/-- Slots and adjacency agree, and the index does not lie. -/
structure Consistent (g : Graph) : Prop where
  nodes : g.nodes.Sound
  arcs : g.arcs.Sound
  nodup_recent : g.recent.Nodup
  mem_recent : ∀ k, k ∈ g.recent ↔ (g.arcs.get? k).isSome
  ends : ∀ k a, g.arcs.get? k = some a →
    (g.nodes.get? a.src).isSome ∧ (g.nodes.get? a.dst).isSome
  get?_of_slot? : ∀ id i, g.slot? id = some i → ∃ n, g.nodes.get? i = some n ∧ n.id = id

theorem consistent_empty : Consistent empty where
  nodes := Slots.sound_empty
  arcs := Slots.sound_empty
  nodup_recent := List.nodup_nil
  mem_recent := by simp [empty, Slots.get?]
  ends := by simp [empty, Slots.get?]
  get?_of_slot? := by simp [empty, slot?]

variable {g g' : Graph} {id src dst : NodeId} {n node : Node} {i j k : Nat} {edge : Edge}

theorem Consistent.withNextId (h : Consistent g) (next : UInt64) :
    Consistent { g with nextId := next } :=
  ⟨h.nodes, h.arcs, h.nodup_recent, h.mem_recent, h.ends, h.get?_of_slot?⟩

theorem Consistent.isSome_of_slot? (h : Consistent g) (hi : g.slot? id = some i) :
    (g.nodes.get? i).isSome := by
  obtain ⟨n, hn, _⟩ := h.get?_of_slot? id i hi
  rw [hn]
  rfl

/-! ## A new node -/

theorem slot?_place : (g.place node).slot? id =
    if id = node.id then some (g.nodes.insert node).1 else g.slot? id := by
  unfold slot? place
  dsimp only
  rw [Std.TreeMap.getElem?_insert]
  by_cases hid : id = node.id
  · simp [hid]
  · have hne : compare node.id id ≠ .eq := fun h => hid (Std.LawfulEqOrd.eq_of_compare h).symm
    simp [hid, hne]

namespace Consistent

theorem get?_place (h : Consistent g) (node : Node) (i : Nat) :
    (g.place node).nodes.get? i =
      if i = (g.nodes.insert node).1 then some node else g.nodes.get? i :=
  h.nodes.get?_insert node i

/-- A slot that is in use keeps its node. -/
theorem get?_place_of_isSome (h : Consistent g) (node : Node) (hi : (g.nodes.get? i).isSome) :
    (g.place node).nodes.get? i = g.nodes.get? i := by
  rw [h.get?_place, if_neg]
  rintro rfl
  rw [h.nodes.get?_insert_fst] at hi
  cases hi

theorem place (h : Consistent g) (node : Node) : Consistent (g.place node) where
  nodes := h.nodes.insert node
  arcs := h.arcs
  nodup_recent := h.nodup_recent
  mem_recent := h.mem_recent
  ends := by
    intro k a ha
    obtain ⟨hs, hd⟩ := h.ends k a ha
    rw [h.get?_place_of_isSome node hs, h.get?_place_of_isSome node hd]
    exact ⟨hs, hd⟩
  get?_of_slot? := by
    intro id i hi
    rw [slot?_place] at hi
    by_cases hid : id = node.id
    · rw [if_pos hid, Option.some.injEq] at hi
      rw [h.get?_place, if_pos hi.symm]
      exact ⟨node, rfl, hid.symm⟩
    · rw [if_neg hid] at hi
      obtain ⟨n, hn, hnid⟩ := h.get?_of_slot? id i hi
      rw [h.get?_place_of_isSome node (by simp [hn])]
      exact ⟨n, hn, hnid⟩

end Consistent

/-! ## A node changed in its slot -/

/-- The graph with the node of a slot replaced. -/
def withNode (g : Graph) (i : Nat) (node : Node) : Graph :=
  { g with nodes := g.nodes.replace i node }

theorem get?_withNode (hn : g.nodes.get? i = some n) (j : Nat) :
    (g.withNode i node).nodes.get? j = if j = i then some node else g.nodes.get? j :=
  Slots.get?_replace (by simp [hn]) node j

theorem isSome_get?_withNode (hn : g.nodes.get? i = some n) (j : Nat) :
    ((g.withNode i node).nodes.get? j).isSome = (g.nodes.get? j).isSome := by
  rw [get?_withNode hn]
  by_cases hj : j = i
  · simp [hj, hn]
  · rw [if_neg hj]

theorem Consistent.withNode (h : Consistent g) (hn : g.nodes.get? i = some n)
    (hid : node.id = n.id) : Consistent (g.withNode i node) where
  nodes := h.nodes.replace i node
  arcs := h.arcs
  nodup_recent := h.nodup_recent
  mem_recent := h.mem_recent
  ends := by
    intro k a ha
    rw [isSome_get?_withNode hn, isSome_get?_withNode hn]
    exact h.ends k a ha
  get?_of_slot? := by
    intro id j hj
    obtain ⟨m, hm, hmid⟩ := h.get?_of_slot? id j hj
    rw [get?_withNode hn]
    by_cases hji : j = i
    · rw [hji, hn, Option.some.injEq] at hm
      rw [if_pos hji]
      exact ⟨node, rfl, by rw [hid, hm, hmid]⟩
    · rw [if_neg hji]
      exact ⟨m, hm, hmid⟩

/-! ## A new edge -/

theorem arcs_join : (g.join i j edge).arcs = (g.arcs.insert ⟨i, j, edge⟩).2 := rfl

theorem recent_join :
    (g.join i j edge).recent = (g.arcs.insert ⟨i, j, edge⟩).1 :: g.recent := rfl

namespace Consistent

theorem not_mem_recent_insert (h : Consistent g) (a : Arc) : (g.arcs.insert a).1 ∉ g.recent := by
  rw [h.mem_recent, h.arcs.get?_insert_fst]
  simp

theorem join (h : Consistent g) (hi : (g.nodes.get? i).isSome) (hj : (g.nodes.get? j).isSome)
    (edge : Edge) : Consistent (g.join i j edge) where
  nodes := h.nodes
  arcs := h.arcs.insert _
  nodup_recent := by
    rw [recent_join]
    exact List.nodup_cons.mpr ⟨h.not_mem_recent_insert _, h.nodup_recent⟩
  mem_recent := by
    intro k
    rw [recent_join, arcs_join, List.mem_cons, h.mem_recent, h.arcs.get?_insert]
    by_cases hk : k = (g.arcs.insert ⟨i, j, edge⟩).1
    · simp [hk]
    · simp [hk]
  ends := by
    intro k a ha
    rw [arcs_join, h.arcs.get?_insert] at ha
    split at ha
    · cases ha
      exact ⟨hi, hj⟩
    · exact h.ends k a ha
  get?_of_slot? := h.get?_of_slot?

end Consistent

/-! ## A node removed with its edges -/

theorem get?_vacate_nodes : (g.vacate id i).nodes.get? j =
    if j = i then none else g.nodes.get? j :=
  Slots.get?_erase _ _ _

theorem slot?_vacate (j : NodeId) : (g.vacate id i).slot? j =
    if j = id then none else g.slot? j := by
  unfold slot? vacate
  dsimp only
  rw [Std.TreeMap.getElem?_erase]
  by_cases hid : j = id
  · simp [hid]
  · have hne : compare id j ≠ .eq := fun h => hid (Std.LawfulEqOrd.eq_of_compare h).symm
    simp [hid, hne]

/-- An arc that stays has both its ends elsewhere. -/
theorem ends_of_not_touches {a : Arc} (ha : g.arcs.get? k = some a) (hk : ¬ g.touches i k) :
    a.src ≠ i ∧ a.dst ≠ i := by
  simpa [touches, ha] using hk

namespace Consistent

/-- No edge is at a vacant slot. -/
theorem touches_of_vacant (h : Consistent g) (hi : g.nodes.get? i = none) (k : Nat) :
    g.touches i k = false := by
  unfold touches
  cases ha : g.arcs.get? k with
  | none => rfl
  | some a =>
    obtain ⟨hs, hd⟩ := h.ends k a ha
    have hsrc : a.src ≠ i := by
      rintro rfl
      simp [hi] at hs
    have hdst : a.dst ≠ i := by
      rintro rfl
      simp [hi] at hd
    simp [hsrc, hdst]

theorem mem_leaving_append_entering (h : Consistent g) :
    k ∈ g.leaving i ++ g.entering i ↔ g.touches i k := by
  unfold leaving entering touches
  rw [List.mem_append, List.mem_filter, List.mem_filter, h.mem_recent]
  cases g.arcs.get? k with
  | none => simp
  | some a => by_cases hs : a.src = i <;> simp [hs]

theorem get?_vacate_arcs (h : Consistent g) :
    (g.vacate id i).arcs.get? k = if g.touches i k then none else g.arcs.get? k := by
  unfold Graph.vacate
  rw [Slots.get?_eraseAll]
  by_cases hk : g.touches i k
  · rw [if_pos (h.mem_leaving_append_entering.mpr hk), if_pos hk]
  · rw [if_neg (fun hmem => hk (h.mem_leaving_append_entering.mp hmem)), if_neg hk]

theorem vacate (h : Consistent g) (hi : g.slot? id = some i) : Consistent (g.vacate id i) where
  nodes := h.nodes.erase i
  arcs := h.arcs.eraseAll _
  nodup_recent := h.nodup_recent.filter _
  mem_recent := by
    intro k
    rw [h.get?_vacate_arcs]
    change k ∈ g.recent.filter _ ↔ _
    rw [List.mem_filter, h.mem_recent]
    by_cases hk : g.touches i k <;> simp [hk]
  ends := by
    intro k a ha
    rw [h.get?_vacate_arcs] at ha
    split at ha
    · cases ha
    · rename_i hk
      obtain ⟨hs, hd⟩ := ends_of_not_touches ha hk
      rw [get?_vacate_nodes, get?_vacate_nodes, if_neg hs, if_neg hd]
      exact h.ends k a ha
  get?_of_slot? := by
    intro id' j hj
    rw [slot?_vacate] at hj
    split at hj
    · cases hj
    · rename_i hid'
      obtain ⟨m, hm, hmid⟩ := h.get?_of_slot? id' j hj
      -- the index led to another node from there
      have hji : j ≠ i := by
        rintro rfl
        obtain ⟨n, hn, hid⟩ := h.get?_of_slot? id j hi
        rw [hm, Option.some.injEq] at hn
        exact hid' (hmid.symm.trans (hn ▸ hid))
      rw [get?_vacate_nodes, if_neg hji]
      exact ⟨m, hm, hmid⟩

/-! ## An edge removed -/

theorem cut (h : Consistent g) (k : Nat) : Consistent (g.cut k) where
  nodes := h.nodes
  arcs := h.arcs.erase k
  nodup_recent := h.nodup_recent.erase k
  mem_recent := by
    intro j
    change j ∈ g.recent.erase k ↔ ((g.arcs.erase k).get? j).isSome
    rw [h.nodup_recent.mem_erase_iff, h.mem_recent, Slots.get?_erase]
    by_cases hj : j = k <;> simp [hj]
  ends := by
    intro j a ha
    change (g.arcs.erase k).get? j = some a at ha
    rw [Slots.get?_erase] at ha
    split at ha
    · cases ha
    · exact h.ends j a ha
  get?_of_slot? := h.get?_of_slot?

end Consistent

/-! ## What an operation did when it succeeded -/

theorem insertNode_eq_ok (h : g.insertNode node = .ok g') :
    g.slot? node.id = none ∧ g' = g.place node := by
  unfold insertNode contains at h
  cases hslot : g.slot? node.id with
  | none =>
    rw [hslot] at h
    cases h
    exact ⟨rfl, rfl⟩
  | some i =>
    rw [hslot] at h
    cases h

theorem removeNode_eq_ok (h : g.removeNode id = .ok (n, g')) :
    ∃ i, g.slot? id = some i ∧ g.nodes.get? i = some n ∧ g' = g.vacate id i := by
  unfold removeNode at h
  cases hslot : g.slot? id with
  | none =>
    rw [hslot] at h
    cases h
  | some i =>
    simp only [hslot] at h
    cases hn : g.nodes.get? i with
    | none =>
      rw [hn] at h
      cases h
    | some m =>
      rw [hn] at h
      cases h
      exact ⟨i, rfl, hn, rfl⟩

theorem updateProperties_eq_ok {key : String} {f : Properties → Except GraphError Properties}
    {previous : Option PropertyValue} (h : g.updateProperties id key f = .ok (previous, g')) :
    ∃ i n p, g.slot? id = some i ∧ g.nodes.get? i = some n ∧ f n.properties = .ok p ∧
      previous = n.properties.get? key ∧ g' = g.withNode i { n with properties := p } := by
  unfold updateProperties at h
  cases hslot : g.slot? id with
  | none =>
    rw [hslot] at h
    cases h
  | some i =>
    simp only [hslot] at h
    cases hn : g.nodes.get? i with
    | none =>
      rw [hn] at h
      cases h
    | some n =>
      simp only [hn] at h
      cases hp : f n.properties with
      | error e =>
        rw [hp] at h
        cases h
      | ok p =>
        rw [hp] at h
        cases h
        exact ⟨i, n, p, rfl, hn, hp, rfl, rfl⟩

theorem Consistent.updateProperties (hg : Consistent g) {key : String}
    {f : Properties → Except GraphError Properties} {previous : Option PropertyValue}
    (h : g.updateProperties id key f = .ok (previous, g')) : Consistent g' := by
  obtain ⟨i, n, p, _, hn, _, _, rfl⟩ := updateProperties_eq_ok h
  exact hg.withNode hn rfl

theorem addEdge_eq_ok (h : g.addEdge src dst edge = .ok g') :
    ∃ i j, g.slot? src = some i ∧ g.slot? dst = some j ∧ g' = g.join i j edge := by
  unfold addEdge at h
  cases hs : g.slot? src with
  | none =>
    rw [hs] at h
    cases h
  | some i =>
    cases hd : g.slot? dst with
    | none =>
      rw [hs, hd] at h
      cases h
    | some j =>
      rw [hs, hd] at h
      cases h
      exact ⟨i, j, rfl, rfl, rfl⟩

theorem exists_of_findArc? {found : Edge} (h : g.findArc? i j edge = some (k, found)) :
    ∃ a, g.arcs.get? k = some a ∧ a.edge = found ∧ a.edge.same edge = true := by
  obtain ⟨m, _, hm⟩ := List.exists_of_findSome?_eq_some h
  split at hm
  · next a ha =>
    split at hm
    · next hsame =>
      cases hm
      simp only [Bool.and_eq_true] at hsame
      exact ⟨a, ha, rfl, hsame.2⟩
    · cases hm
  · cases hm

theorem removeEdge_eq_ok {removed : Edge} (h : g.removeEdge src dst edge = .ok (removed, g')) :
    ∃ k a, g.arcs.get? k = some a ∧ a.edge = removed ∧ a.edge.same edge = true ∧ g' = g.cut k := by
  unfold removeEdge at h
  split at h
  · cases h
  · cases h
  · split at h
    · next k found hfound =>
      cases h
      obtain ⟨a, ha, hremoved, hsame⟩ := exists_of_findArc? hfound
      exact ⟨k, a, ha, hremoved, hsame, rfl⟩
    · cases h

/-! ## The same elements in the same slots -/

/-- Two graphs hold the same in every slot. -/
structure SameSlots (g h : Graph) : Prop where
  nodes : ∀ i, g.nodes.get? i = h.nodes.get? i
  arcs : ∀ k, g.arcs.get? k = h.arcs.get? k

namespace SameSlots

variable {h : Graph}

theorem refl (g : Graph) : SameSlots g g := ⟨fun _ => rfl, fun _ => rfl⟩

theorem allNodes_eq (hs : SameSlots g h) : g.allNodes = h.allNodes :=
  Slots.elements_eq_of_get?_eq hs.nodes

theorem link?_eq (hs : SameSlots g h) : g.link? = h.link? := by
  funext a
  rw [link?, link?, hs.nodes, hs.nodes]

theorem allLinks_eq (hs : SameSlots g h) : g.allLinks = h.allLinks := by
  rw [allLinks, allLinks, hs.link?_eq, Slots.elements_eq_of_get?_eq hs.arcs]

theorem content_eq (hs : SameSlots g h) : g.content = h.content := by
  rw [content, content, nodesById, nodesById, hs.allNodes_eq, hs.allLinks_eq]

end SameSlots

end CodeGraph.Graph
