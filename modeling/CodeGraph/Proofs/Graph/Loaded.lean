import CodeGraph.Proofs.Codec.Reread
import CodeGraph.Proofs.Graph.Model
import Mathlib

/-!
# Ids of a loaded graph

A file lists its nodes one after the other, and nothing in the reader looks at whether an id comes
up twice.  The last node listed with an id has it, and the others stay in the graph, where nothing
that asks by id finds them.  When the last one is removed, the others are still listed, but the id
counts as free.

So the laws of ids hold of a loaded graph in one case only, and there all of them do: no id is
repeated in the file (`loaded_laws_iff_nodup`).
-/

namespace CodeGraph

namespace Slots

variable {α : Type}

theorem map_snd_toList (s : Slots α) : s.toList.map Prod.snd = s.elements := by
  rw [← filterMap_get?_toList, List.filterMap_map, ← List.filterMap_eq_map]
  refine List.filterMap_congr fun e he => ?_
  exact (mem_toList.mp he).symm

theorem toList_eq (s : Slots α) :
    s.toList = (List.range s.cells.size).filterMap fun i => (s.get? i).map (i, ·) := by
  have hcells : s.cells.toList.zipIdx = (List.range s.cells.size).map fun i => (s.get? i, i) := by
    apply List.ext_getElem
    · simp
    · intro i h1 h2
      simp at h2
      simp [get?, h2]
  rw [toList, hcells, List.filterMap_map]
  rfl

theorem toList_erase (s : Slots α) (i : Nat) :
    (s.erase i).toList = s.toList.filter fun e => e.1 ≠ i := by
  rw [toList_eq, toList_eq, size_cells_erase, List.filter_filterMap]
  refine List.filterMap_congr fun j _ => ?_
  rw [get?_erase]
  by_cases hj : j = i
  · cases s.get? j <;> simp [hj, Option.filter]
  · cases s.get? j <;> simp [hj, Option.filter]

/-- Of the elements one is gone, and the others are as they were. -/
theorem elements_erase {s : Slots α} {i : Nat} {a : α} {before after : List (Nat × α)}
    (h : s.toList = before ++ (i, a) :: after) :
    (s.erase i).elements = before.map Prod.snd ++ after.map Prod.snd := by
  have hnodup := s.nodup_map_fst_toList
  rw [h, List.map_append, List.map_cons, List.nodup_middle, List.nodup_cons,
    List.mem_append, not_or] at hnodup
  obtain ⟨⟨hbefore, hafter⟩, _⟩ := hnodup
  have hkeep : ∀ es : List (Nat × α), i ∉ es.map Prod.fst → (es.filter fun e => e.1 ≠ i) = es := by
    intro es hes
    refine List.filter_eq_self.mpr fun e he => ?_
    exact decide_eq_true fun heq => hes (heq ▸ List.mem_map_of_mem he)
  rw [← map_snd_toList, toList_erase, h, List.filter_append, List.filter_cons, hkeep _ hbefore,
    hkeep _ hafter]
  simp

end Slots

namespace Graph

variable {g : Graph} {text : String} {id : NodeId} {n : Node}

/-! ## Who has an id -/

/-- The last node listed with an id has it. -/
theorem slot?_of_read (h : read text = .ok g) (id : NodeId) :
    g.slot? id = (g.nodes.toList.reverse.find? fun e => e.2.id = id).map Prod.fst := by
  obtain ⟨nodes, arcs, nextId, hcells, _⟩ := cells_of_read h
  obtain rfl := eq_ofRows_of_ofCells? hcells
  exact slot?_ofRows

theorem contains_of_read (h : read text = .ok g) :
    g.contains id = true ↔ id ∈ g.allNodes.map Node.id := by
  rw [contains, slot?_of_read h, Option.isSome_map, List.find?_isSome, allNodes,
    ← Slots.map_snd_toList, List.map_map, List.mem_map]
  simp

/-- Where the node of an id is: no node is listed with the id after it. -/
theorem exists_slot_of_read (h : read text = .ok g) (hid : g.contains id = true) :
    ∃ i n before after, g.slot? id = some i ∧ g.nodes.toList = before ++ (i, n) :: after ∧
      n.id = id ∧ ∀ e ∈ after, e.2.id ≠ id := by
  obtain ⟨i, hslot⟩ := Option.isSome_iff_exists.mp hid
  have hfind := hslot
  rw [slot?_of_read h, Option.map_eq_some_iff] at hfind
  obtain ⟨⟨k, n⟩, hfind, rfl⟩ := hfind
  -- the search is from the end, so what it passes over comes after
  obtain ⟨hn, later, earlier, hrev, hlater⟩ := List.find?_eq_some_iff_append.mp hfind
  refine ⟨k, n, earlier.reverse, later.reverse, hslot, ?_, by simpa using hn, ?_⟩
  · rw [← List.reverse_reverse g.nodes.toList, hrev]
    simp
  · intro e he
    simpa using hlater e (List.mem_reverse.mp he)

/-- The node of an id is the one that is removed, and the rest of the list stays, with what else
has the id. -/
theorem removeNode_of_read (h : read text = .ok g) (hid : g.contains id = true) :
    ∃ before n after g', g.node? id = some n ∧ n.id = id ∧
      g.allNodes = before ++ n :: after ∧ (∀ m ∈ after, m.id ≠ id) ∧
      g.removeNode id = .ok (n, g') ∧ g'.allNodes = before ++ after ∧ g'.contains id = false := by
  obtain ⟨i, n, before, after, hslot, hlist, hn, hafter⟩ := exists_slot_of_read h hid
  have hget : g.nodes.get? i = some n := Slots.mem_toList.mp (by simp [hlist])
  refine ⟨before.map Prod.snd, n, after.map Prod.snd, g.vacate id i, ?_, hn, ?_, ?_, ?_, ?_, ?_⟩
  · rw [node?, hslot, Option.bind_some, hget]
  · rw [allNodes, ← Slots.map_snd_toList, hlist, List.map_append, List.map_cons]
  · exact List.forall_mem_map.mpr hafter
  · simp only [removeNode, hslot, hget]
  · exact Slots.elements_erase hlist
  · rw [contains, slot?_vacate, if_pos rfl]
    rfl

/-! ## Repeated ids -/

/-- As many ids are taken as are listed, not counting repetitions. -/
theorem ncard_contains_of_read (h : read text = .ok g) :
    {id | g.contains id = true}.ncard = (g.allNodes.map Node.id).dedup.length := by
  have hset : {id | g.contains id = true} = ↑(g.allNodes.map Node.id).toFinset := by
    ext id
    rw [Set.mem_ofPred_eq, contains_of_read h, List.coe_toFinset, Set.mem_ofPred_eq]
  rw [hset, Set.ncard_coe_finset, List.card_toFinset]

theorem nodup_of_filter_eq {nodes : List Node}
    (h : ∀ n ∈ nodes, ∃ m, (nodes.filter fun m => m.id = n.id) = [m]) :
    (nodes.map Node.id).Nodup := by
  refine List.nodup_iff_count_eq_one.mpr fun id hid => ?_
  obtain ⟨n, hn, rfl⟩ := List.mem_map.mp hid
  obtain ⟨m, hm⟩ := h n hn
  rw [List.count, List.countP_map, List.countP_eq_length_filter]
  exact congrArg List.length hm

theorem filter_eq_singleton {before after : List Node} (hid : n.id = id)
    (hbefore : ∀ m ∈ before, m.id ≠ id) (hafter : ∀ m ∈ after, m.id ≠ id) :
    ((before ++ n :: after).filter fun m => m.id = id) = [n] := by
  have hnone : ∀ ms : List Node, (∀ m ∈ ms, m.id ≠ id) → (ms.filter fun m => m.id = id) = [] := by
    intro ms hms
    exact List.filter_eq_nil_iff.mpr fun m hm => by simpa using hms m hm
  rw [List.filter_append, List.filter_cons, hnone _ hbefore, hnone _ hafter]
  simp [hid]

/-- Without repeated ids a removal leaves no node of the id. -/
theorem ne_of_mem_removeNode (h : read text = .ok g) (hids : (g.allNodes.map Node.id).Nodup)
    {g' : Graph} (hremove : g.removeNode id = .ok (n, g')) : ∀ m ∈ g'.allNodes, m.id ≠ id := by
  obtain ⟨i, hslot, _, _⟩ := removeNode_eq_ok hremove
  have hid : g.contains id = true := by rw [contains, hslot]; rfl
  obtain ⟨before, n', after, g'', _, rfl, hall, _, hremove', hleft, _⟩ := removeNode_of_read h hid
  cases hremove.symm.trans hremove'
  rw [hall, List.map_append, List.map_cons, List.nodup_middle, List.nodup_cons, ← List.map_append,
    ← hleft] at hids
  exact fun m hm heq => hids.1 (heq ▸ List.mem_map_of_mem hm)

/-- Where removals leave no node of the id, the node of an id is the only one listed with it. -/
theorem filter_eq_of_removeNode (h : read text = .ok g)
    (hremove : ∀ id n g', g.removeNode id = .ok (n, g') → ∀ m ∈ g'.allNodes, m.id ≠ id)
    (hn : g.node? id = some n) : (g.allNodes.filter fun m => m.id = id) = [n] := by
  obtain ⟨i, hslot, _⟩ := Option.bind_eq_some_iff.mp hn
  have hid : g.contains id = true := by rw [contains, hslot]; rfl
  obtain ⟨before, n', after, g', hn', hid, hall, hafter, hok, hleft, _⟩ := removeNode_of_read h hid
  cases hn.symm.trans hn'
  rw [hall]
  refine filter_eq_singleton hid (fun m hm => ?_) hafter
  exact hremove id n g' hok m (hleft ▸ List.mem_append_left _ hm)

theorem nodup_of_filter_node? (h : read text = .ok g)
    (hfilter : ∀ id n, g.node? id = some n → (g.allNodes.filter fun m => m.id = id) = [n]) :
    (g.allNodes.map Node.id).Nodup := by
  refine nodup_of_filter_eq fun n hn => ?_
  obtain ⟨_, m, _, _, hm, _⟩ :=
    removeNode_of_read h ((contains_of_read h).mpr (List.mem_map_of_mem hn))
  exact ⟨m, hfilter n.id m hm⟩

theorem nodeCount_eq_iff_of_read (h : read text = .ok g) :
    g.nodeCount = {id | g.contains id = true}.ncard ↔ (g.allNodes.map Node.id).Nodup := by
  have hcount : g.nodeCount = (g.allNodes.map Node.id).length := by
    rw [List.length_map]
    rfl
  rw [hcount, ncard_contains_of_read h]
  constructor
  · intro hlength
    exact List.dedup_eq_self.mp ((List.dedup_sublist _).eq_of_length hlength.symm)
  · intro hids
    rw [hids.dedup]

/-- In a graph that was read, every id that is listed is taken, by the last node listed with it.
That node is the one removed under the id, the id is free then, and what else is listed stays.

So these are the same: no id is repeated; the index and the slots agree; every node is alone with
its id; the node of an id is the only one listed with it; there are as many nodes as ids that are
taken; a removal leaves no node of its id. -/
theorem loaded_laws_iff_nodup (h : read text = .ok g) :
    (∀ id, g.contains id = true ↔ id ∈ g.allNodes.map Node.id) ∧
    (∀ id, g.contains id = true → ∃ before n after g',
      g.node? id = some n ∧ n.id = id ∧
      g.allNodes = before ++ n :: after ∧ (∀ m ∈ after, m.id ≠ id) ∧
      g.removeNode id = .ok (n, g') ∧ g'.allNodes = before ++ after ∧ g'.contains id = false) ∧
    [(g.allNodes.map Node.id).Nodup,
      g.WellFormed,
      ∀ n ∈ g.allNodes, (g.allNodes.filter fun m => m.id = n.id) = [n],
      ∀ id n, g.node? id = some n → (g.allNodes.filter fun m => m.id = id) = [n],
      g.nodeCount = {id | g.contains id = true}.ncard,
      ∀ id n g', g.removeNode id = .ok (n, g') → ∀ m ∈ g'.allNodes, m.id ≠ id].TFAE := by
  refine ⟨fun _ => contains_of_read h, fun _ => removeNode_of_read h, ?_⟩
  tfae_have 1 ↔ 2 := ⟨wellFormed_of_read h, WellFormed.nodup_ids⟩
  tfae_have 1 → 6 := fun hids _ _ _ => ne_of_mem_removeNode h hids
  tfae_have 6 → 4 := fun hremove _ _ => filter_eq_of_removeNode h hremove
  tfae_have 4 → 1 := nodup_of_filter_node? h
  tfae_have 1 → 3 := by
    intro hids n hn
    have hnode := (wellFormed_of_read h hids).mem_allNodes.mp hn
    exact filter_eq_of_removeNode h (fun _ _ _ => ne_of_mem_removeNode h hids) hnode
  tfae_have 3 → 1 := fun halone => nodup_of_filter_eq fun n hn => ⟨n, halone n hn⟩
  tfae_have 5 ↔ 1 := nodeCount_eq_iff_of_read h
  tfae_finish

/-- A file with a vacant slot, its ids in no order and its allocator on an id that is taken. -/
def unordered : String :=
  "\x7b\"graph\":\x7b\"nodes\":[\x7b\"id\":7,\"kind\":\x7b\"label\":\"Block\"\x7d\x7d," ++
    "\x7b\"id\":2,\"kind\":\x7b\"label\":\"MethodReturn\"\x7d\x7d],\"node_holes\":[1]," ++
    "\"edge_property\":\"directed\",\"edges\":[]\x7d,\"next_id\":2\x7d"

theorem unordered_loaded_laws : ∃ g, read unordered = .ok g ∧
    g.allNodes.map Node.id = [⟨7⟩, ⟨2⟩] ∧
    g.nodeCount = {id | g.contains id = true}.ncard ∧
    (∀ id n, g.node? id = some n → (g.allNodes.filter fun m => m.id = id) = [n]) ∧
    ∀ id n g', g.removeNode id = .ok (n, g') → ∀ m ∈ g'.allNodes, m.id ≠ id := by
  have htext : (ofText? unordered).map (fun g => g.allNodes.map Node.id) = some [⟨7⟩, ⟨2⟩] := by
    decide +kernel
  obtain ⟨g, hg, hids⟩ := Option.map_eq_some_iff.mp htext
  have hread : read unordered = .ok g := by rw [read, hg]
  have hnodup : (g.allNodes.map Node.id).Nodup := by
    rw [hids]
    decide
  have hlaws := (loaded_laws_iff_nodup hread).2.2
  exact ⟨g, hread, hids, (hlaws.out 0 4).mp hnodup, (hlaws.out 0 3).mp hnodup,
    (hlaws.out 0 5).mp hnodup⟩

/-- A file that lists two nodes with one id. -/
def repeated : String :=
  "\x7b\"graph\":\x7b\"nodes\":[\x7b\"id\":1,\"kind\":\x7b\"label\":\"Block\"\x7d\x7d," ++
    "\x7b\"id\":1,\"kind\":\x7b\"label\":\"MethodReturn\"\x7d\x7d],\"node_holes\":[]," ++
    "\"edge_property\":\"directed\",\"edges\":[]\x7d,\"next_id\":2\x7d"

/-- Two nodes are there for one id, and when it is removed the first of them is still listed. -/
theorem repeated_keeps_both : ∃ g, read repeated = .ok g ∧
    g.nodeCount = 2 ∧ {id | g.contains id = true} = {⟨1⟩} ∧
    g.node? ⟨1⟩ = some ⟨⟨1⟩, .methodReturn, {}⟩ ∧
    ∃ g', g.removeNode ⟨1⟩ = .ok (⟨⟨1⟩, .methodReturn, {}⟩, g') ∧
      g'.allNodes = [⟨⟨1⟩, .block, {}⟩] ∧ g'.contains ⟨1⟩ = false := by
  have htext : (ofText? repeated).map (fun g =>
      (g.allNodes, g.node? ⟨1⟩, (g.removeNode ⟨1⟩).toOption.map fun r => r.2.allNodes)) =
      some ([⟨⟨1⟩, .block, {}⟩, ⟨⟨1⟩, .methodReturn, {}⟩], some ⟨⟨1⟩, .methodReturn, {}⟩,
        some [⟨⟨1⟩, .block, {}⟩]) := by
    decide +kernel
  obtain ⟨g, hg, hfacts⟩ := Option.map_eq_some_iff.mp htext
  simp only [Prod.mk.injEq] at hfacts
  obtain ⟨hall, hnode, hleft⟩ := hfacts
  have hread : read repeated = .ok g := by rw [read, hg]
  have hid : g.contains ⟨1⟩ = true := by
    rw [contains_of_read hread, hall]
    simp
  obtain ⟨_, n, _, g', hn, _, _, _, hremove, _, hfree⟩ := removeNode_of_read hread hid
  cases hn.symm.trans hnode
  rw [hremove] at hleft
  refine ⟨g, hread, ?_, ?_, hnode, g', hremove, Option.some.inj hleft, hfree⟩
  · change g.allNodes.length = 2
    rw [hall]
    rfl
  · ext id
    rw [Set.mem_ofPred_eq, contains_of_read hread, hall]
    simp

end Graph

end CodeGraph
