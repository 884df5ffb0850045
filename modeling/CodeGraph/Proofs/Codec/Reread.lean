import CodeGraph.Proofs.Codec.Graph
import CodeGraph.Proofs.Codec.Recode
import Mathlib

/-!
# Graph files read and written again

A graph that was read from a file can be written to one that is read again, and so can every graph
that differs from it in no more than values that are not nested deeper.  For this it is enough that
ids are distinct (`wellFormed_of_read`).  How deep a value may be is what the reader allows
where the value stands, which is one level more for a node than for an edge (`View.Shallow`).
-/

namespace CodeGraph

open Json (Origin)

/-! ## Depth of what was read -/

theorem Json.eq_of_enter_text {n : Nat} {inner : Origin} (h : (Origin.text n).enter = some inner) :
    ∃ m, n = m + 1 ∧ inner = .text m := by
  cases n with
  | zero => cases h
  | succ m =>
    cases h
    exact ⟨m, rfl, rfl⟩

namespace PropertyValue

mutual

theorem depth_le_of_fits {n : Nat} : (v : PropertyValue) → v.toJson.fits n = true → v.depth ≤ n
  | .bool _, _ | .int _, _ | .str _, _ => Nat.zero_le n
  | .list items, h => by
    cases n with
    | zero => cases h
    | succ n => exact Nat.succ_le_succ (depthList_le_of_allFit items h)

theorem depthList_le_of_allFit {n : Nat} :
    (vs : List PropertyValue) → Json.allFit n (toJsonList vs) = true → depthList vs ≤ n
  | [], _ => Nat.zero_le n
  | v :: vs, h => by
    rw [toJsonList, Json.allFit, Bool.and_eq_true] at h
    exact Nat.max_le.mpr ⟨depth_le_of_fits v h.1, depthList_le_of_allFit vs h.2⟩

end

theorem depth_le_of_ofJson? {n : Nat} {j : Json} {v : PropertyValue}
    (h : ofJson? (.text n) j = some v) : v.depth ≤ n := by
  have hfits : j.fits n = true := by
    unfold ofJson? at h
    split at h
    · assumption
    · cases h
  exact depth_le_of_fits v (fits_of_ofJson? hfits h)

end PropertyValue

theorem Properties.depth_lt_of_ofJson? {n : Nat} {j : Json} {p : Properties}
    (h : ofJson? (.text n) j = some p) : ∀ v ∈ p.values, v.depth < n := by
  intro v hv
  unfold ofJson? at h
  split at h
  · split at h
    · rename_i henter
      obtain ⟨m, rfl, rfl⟩ := Json.eq_of_enter_text henter
      obtain ⟨es, hes, rfl⟩ := Option.map_eq_some_iff.mp h
      obtain ⟨e, he, rfl⟩ := exists_of_mem_ofList hv
      obtain ⟨member, _, hread⟩ := Json.exists_of_mem_mapM hes he
      obtain ⟨x, hx, rfl⟩ := Option.map_eq_some_iff.mp hread
      exact Nat.lt_succ_of_le (PropertyValue.depth_le_of_ofJson? hx)
    · cases h
  · cases h

theorem Properties.depth_lt_of_ofMember? {n : Nat} {j : Option Json} {p : Properties}
    (h : ofMember? (.text n) j = some p) : ∀ v ∈ p.values, v.depth < n := by
  cases j with
  | none =>
    cases h
    exact fun v hv => absurd hv List.not_mem_nil
  | some j => exact depth_lt_of_ofJson? h

theorem Node.depth_of_ofJson? {n : Nat} {j : Json} {node : Node}
    (h : ofJson? (.text n) j = some node) : ∀ v ∈ node.properties.values, v.depth + 2 ≤ n := by
  unfold ofJson? at h
  split at h
  · rename_i hrecord
    obtain ⟨m, rfl, rfl⟩ := Json.eq_of_enter_text (Json.enter_of_record? hrecord)
    split at h
    · rename_i hproperties
      cases h
      exact fun v hv => Nat.succ_le_succ (Properties.depth_lt_of_ofMember? hproperties v hv)
    · cases h
  · cases h

theorem Edge.depth_of_ofJson? {n : Nat} {j : Json} {edge : Edge}
    (h : ofJson? (.text n) j = some edge) : ∀ v ∈ edge.properties.values, v.depth + 2 ≤ n := by
  unfold ofJson? at h
  split at h
  · rename_i hrecord
    obtain ⟨m, rfl, rfl⟩ := Json.eq_of_enter_text (Json.enter_of_record? hrecord)
    split at h
    · rename_i hproperties
      cases h
      exact fun v hv => Nat.succ_le_succ (Properties.depth_lt_of_ofMember? hproperties v hv)
    · cases h
  · cases h

/-- Elements that are told apart by a part of them are in one cell each. -/
theorem Slots.eq_of_nodup_map {α β : Type} {s : Slots α} {f : α → β} (h : (s.elements.map f).Nodup)
    {i j : Nat} {a b : α} (hi : s.get? i = some a) (hj : s.get? j = some b) (hab : f a = f b) :
    i = j := by
  rw [elements_eq, List.Nodup, List.pairwise_map, List.pairwise_filterMap] at h
  by_contra hne
  have hsymm : Std.Symm fun i j =>
      ∀ a, s.get? i = some a → ∀ b, s.get? j = some b → f a ≠ f b :=
    ⟨fun _ _ h b hb a ha => (h a ha b hb).symm⟩
  have hmem := fun {k c} (hk : s.get? k = some c) => List.mem_range.mpr (lt_size_of_get? hk)
  exact h.forall (hmem hi) (hmem hj) hne a hi b hj hab

/-- Only vacant cells come in between. -/
theorem Slots.mem_of_spread {α : Type} {i : Nat} {holes : List Nat} {as : List α}
    {cells : List (Option α)} {a : α} (h : spread i holes as = some cells) (ha : some a ∈ cells) :
    a ∈ as := by
  fun_induction spread i holes as generalizing cells with
  | case1 i as =>
    cases h
    simpa using ha
  | case2 holes i ih =>
    obtain ⟨rest, hrest, rfl⟩ := Option.map_eq_some_iff.mp h
    exact ih hrest (by simpa using ha)
  | case3 => cases h
  | case4 holes b as i ih =>
    obtain ⟨rest, hrest, rfl⟩ := Option.map_eq_some_iff.mp h
    exact ih hrest (by simpa using ha)
  | case5 i hole holes b as hi ih =>
    obtain ⟨rest, hrest, rfl⟩ := Option.map_eq_some_iff.mp h
    rcases List.mem_cons.mp ha with heq | ha
    · cases heq
      exact List.mem_cons_self
    · exact List.mem_cons_of_mem _ (ih hrest ha)

namespace Graph

variable {g : Graph}

theorem depth_of_cellOfJson? {n : Nat} {j : Json} {a : Arc}
    (h : cellOfJson? (.text n) j = some (some a)) :
    ∀ v ∈ a.edge.properties.values, v.depth + 3 ≤ n := by
  unfold cellOfJson? at h
  split at h
  · cases h
  · split at h
    · rename_i henter
      obtain ⟨m, rfl, rfl⟩ := Json.eq_of_enter_text henter
      split at h
      · rename_i hedge
        cases h
        exact fun v hv => Nat.succ_le_succ (Edge.depth_of_ofJson? hedge v hv)
      · cases h
    · cases h
  · cases h

theorem depth_of_storedOfJson? {n : Nat} {j : Json} {s : StoredSlots}
    (h : storedOfJson? (.text n) j = some s) :
    (∀ node ∈ s.nodes, ∀ v ∈ node.properties.values, v.depth + 4 ≤ n) ∧
      ∀ a, some a ∈ s.arcs → ∀ v ∈ a.edge.properties.values, v.depth + 5 ≤ n := by
  unfold storedOfJson? at h
  split at h
  · rename_i hrecord
    obtain ⟨m, rfl, rfl⟩ := Json.eq_of_enter_text (Json.enter_of_record? hrecord)
    split at h
    · rename_i hnodes _ _ harcs
      cases h
      refine ⟨?_, ?_⟩
      · intro node hnode v hv
        obtain ⟨inner, k, henter, hk⟩ := Json.exists_of_mem_list? hnodes hnode
        obtain ⟨l, rfl, rfl⟩ := Json.eq_of_enter_text henter
        exact Nat.add_le_add_right (Node.depth_of_ofJson? hk v hv) 2
      · intro a ha v hv
        obtain ⟨inner, k, henter, hk⟩ := Json.exists_of_mem_list? harcs ha
        obtain ⟨l, rfl, rfl⟩ := Json.eq_of_enter_text henter
        exact Nat.add_le_add_right (depth_of_cellOfJson? hk v hv) 2
    · cases h
  · cases h

/-- What a text that is read says of the cells of the graph. -/
theorem cells_of_read {s : String} (h : read s = .ok g) : ∃ nodes arcs nextId,
    ofCells? nodes arcs nextId = some g ∧
      (∀ n, some n ∈ nodes → ∀ x ∈ n.properties.values, x.depth ≤ 122) ∧
      ∀ a, some a ∈ arcs → ∀ x ∈ a.edge.properties.values, x.depth ≤ 121 := by
  unfold read at h
  split at h
  · rename_i g' htext
    cases h
    obtain ⟨j, _, hj⟩ := Option.bind_eq_some_iff.mp htext
    unfold ofJson? at hj
    split at hj
    · rename_i hrecord
      obtain ⟨m, hm, rfl⟩ := Json.eq_of_enter_text (Json.enter_of_record? hrecord)
      cases hm
      split at hj
      · rename_i hslots _
        unfold slotsOfJson? at hslots
        split at hslots
        · rename_i stored hstored
          obtain ⟨cells, hspread, heq⟩ := Option.map_eq_some_iff.mp hslots
          cases heq
          obtain ⟨hnodes, harcs⟩ := depth_of_storedOfJson? hstored
          refine ⟨_, _, _, hj, ?_, ?_⟩
          · exact fun n hn x hx => Nat.le_of_add_le_add_right
              (hnodes n (Slots.mem_of_spread hspread hn) x hx)
          · exact fun a ha x hx => Nat.le_of_add_le_add_right (harcs a ha x hx)
        · cases hslots
      · cases hj
    · cases hj
  · cases h

theorem eq_ofRows_of_ofCells? {nodes : List (Option Node)} {arcs : List (Option Arc)}
    {nextId : UInt64} (h : ofCells? nodes arcs nextId = some g) :
    g = ofRows (Slots.ofCells nodes) (Slots.ofCells arcs) nextId := by
  simp only [ofCells?] at h
  split at h
  · cases h
    rfl
  · cases h

/-- A graph that was read is well formed, unless an id is repeated. -/
theorem wellFormed_of_read {s : String} (h : read s = .ok g)
    (hids : (g.allNodes.map Node.id).Nodup) : g.WellFormed := by
  obtain ⟨nodes, arcs, nextId, hcells, _⟩ := cells_of_read h
  have hg := consistent_of_ofCells? hcells
  obtain rfl := eq_ofRows_of_ofCells? hcells
  exact wellFormed_ofRows hg.nodes hg.arcs hg.ends
    (fun _ _ _ _ => Slots.eq_of_nodup_map hids) nextId

end Graph

/-! ## What can be written -/

/-- No value is nested deeper than a text can have it. -/
structure View.Shallow (v : View) : Prop where
  node : ∀ id n key x, v.node id = some n → n.properties key = some x → x.depth ≤ 122
  edge : ∀ e ∈ v.edges, ∀ key x, e.properties key = some x → x.depth ≤ 121

namespace Graph

variable {g : Graph}

theorem shallow_of_read {s : String} (h : read s = .ok g) : g.view.Shallow := by
  obtain ⟨nodes, arcs, nextId, hcells, hnodes, harcs⟩ := cells_of_read h
  obtain rfl := eq_ofRows_of_ofCells? hcells
  refine ⟨?_, ?_⟩
  · intro id n key x hn hx
    obtain ⟨node, hnode, rfl⟩ := node?_eq_some_of_view hn
    obtain ⟨i, _, hi⟩ := Option.bind_eq_some_iff.mp hnode
    have hcell : nodes[i]?.join = some node := (Slots.get?_ofCells nodes i).symm.trans hi
    obtain ⟨hlt, hmem⟩ := List.getElem?_eq_some_iff.mp (Option.join_eq_some_iff.mp hcell)
    exact hnodes node (hmem ▸ List.getElem_mem hlt) x (Properties.mem_values_iff.mpr ⟨key, hx⟩)
  · intro e he key x hx
    obtain ⟨l, hl, rfl⟩ := List.mem_map.mp (Multiset.mem_coe.mp he)
    obtain ⟨k, _, hk⟩ := List.mem_filterMap.mp hl
    obtain ⟨a, ha, hlink⟩ := Option.bind_eq_some_iff.mp hk
    have hedge : l.edge = a.edge := by
      unfold link? at hlink
      split at hlink <;> cases hlink
      rfl
    have hcell : arcs[k]?.join = some a := (Slots.get?_ofCells arcs k).symm.trans ha
    obtain ⟨hlt, hmem⟩ := List.getElem?_eq_some_iff.mp (Option.join_eq_some_iff.mp hcell)
    refine harcs a (hmem ▸ List.getElem_mem hlt) x (Properties.mem_values_iff.mpr ⟨key, ?_⟩)
    rw [← hedge]
    exact hx

theorem WellFormed.exists_link_of_mem_used (hg : g.WellFormed) {a : Arc}
    (ha : some a ∈ g.arcs.used) : ∃ l ∈ g.links, l.edge = a.edge := by
  have hmem := Slots.mem_elements_of_mem_used ha
  obtain ⟨k, hk⟩ := Slots.mem_elements.mp hmem
  obtain ⟨s, d, _, _, hlink⟩ := hg.link?_eq hk
  have hall : ⟨s.id, d.id, a.edge⟩ ∈ g.allLinks := List.mem_filterMap.mpr ⟨a, hmem, hlink⟩
  exact ⟨⟨s.id, d.id, a.edge⟩, hg.perm_allLinks.mem_iff.mp hall, rfl⟩

/-- A graph that is not too deep is read back from its file. -/
theorem WellFormed.read_toText (hg : g.WellFormed) (hsize : g.nodes.cells.size ≤ UInt32.size)
    (h : g.view.Shallow) : read g.toText = .ok g.reloaded := by
  refine hg.consistent.read_render_of_fits hsize (fits_toJson_of_depth ?_ ?_) .pretty
  · intro n hn x hx
    obtain ⟨key, hkey⟩ := Properties.mem_values_iff.mp hx
    exact h.node n.id n.view key x (view_node_of_node? (hg.mem_allNodes.mp hn)) hkey
  · intro a ha x hx
    obtain ⟨key, hkey⟩ := Properties.mem_values_iff.mp hx
    obtain ⟨l, hl, hedge⟩ := hg.exists_link_of_mem_used ha
    refine h.edge l.view (Multiset.mem_coe.mpr (List.mem_map_of_mem hl)) key x ?_
    rw [← hedge] at hkey
    exact hkey

theorem size_reloaded_le (g : Graph) : g.reloaded.nodes.cells.size ≤ g.nodes.cells.size := by
  change g.nodes.used.toArray.size ≤ g.nodes.cells.size
  rw [List.size_toArray]
  exact g.nodes.length_used_le

end Graph

end CodeGraph
