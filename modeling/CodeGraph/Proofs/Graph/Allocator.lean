import CodeGraph.Graph.Basic
import Mathlib

/-!
# The allocator

The allocator of a graph looks for a free number from its cursor on and puts the cursor behind it.
There is no number behind the last one of 64 bits.  So the last one is never handed out, and with
all the others taken the allocator crashes.

`Graph.supply` lists the ids that are left.  An id that is asked for is the first of them
(`allocate_of_supply`), and the others are left then (`supply_of_passed`).  When none is left there
is a crash (`allocate_of_supply_nil`).  All that is known about ids of the allocator comes from
these.
-/

namespace CodeGraph

/-! ## Counting on -/

variable {n m : UInt64}

theorem successor_of_lt (hn : n.toNat + 1 < UInt64.size) : successor n = .ok (n + 1) := by
  have hne : n + 1 ≠ 0 := by
    intro h
    have hzero := congrArg UInt64.toNat h
    rw [UInt64.toNat_add] at hzero
    have hmod : (n.toNat + 1) % UInt64.size = n.toNat + 1 := Nat.mod_eq_of_lt hn
    exact Nat.succ_ne_zero _ (hmod.symm.trans hzero)
  rw [successor, if_neg hne]

theorem successor_of_last (hn : n.toNat + 1 = UInt64.size) : successor n = .error .overflow := by
  have hzero : n + 1 = 0 := by
    rw [← UInt64.toNat_inj, UInt64.toNat_add]
    change (n.toNat + 1) % UInt64.size = 0
    rw [hn, Nat.mod_self]
  rw [successor, if_pos hzero]

theorem toNat_succ (hn : n.toNat + 1 < UInt64.size) : (n + 1).toNat = n.toNat + 1 := by
  rw [UInt64.toNat_add]
  exact Nat.mod_eq_of_lt hn

namespace Graph

/-! ## Free ids -/

/-- The ids from `lo` on and below `hi` that are not taken, in ascending order. -/
def freeBetween (taken : NodeId → Bool) (lo hi : Nat) : List NodeId :=
  ((List.range' lo (hi - lo)).map fun i => ⟨UInt64.ofNat i⟩).filter fun id => !taken id

/-- The ids from the cursor of the allocator on that are not in the graph, in ascending order. -/
def freeIds (g : Graph) : List NodeId := freeBetween g.contains g.nextId.toNat UInt64.size

/-- The ids that the allocator has left.  The last number is not one of them. -/
def supply (g : Graph) : List NodeId := freeBetween g.contains g.nextId.toNat (UInt64.size - 1)

variable {g h : Graph} {taken : NodeId → Bool} {lo hi : Nat} {id first : NodeId}
  {rest : List NodeId}

theorem freeBetween_eq_nil (hle : hi ≤ lo) : freeBetween taken lo hi = [] := by
  rw [freeBetween, Nat.sub_eq_zero_of_le hle]
  rfl

theorem freeBetween_eq (hlt : lo < hi) : freeBetween taken lo hi =
    if taken ⟨UInt64.ofNat lo⟩ then freeBetween taken (lo + 1) hi
    else ⟨UInt64.ofNat lo⟩ :: freeBetween taken (lo + 1) hi := by
  have hsize : hi - lo = hi - (lo + 1) + 1 := by omega
  rw [freeBetween, hsize, List.range'_succ, List.map_cons, List.filter_cons]
  cases taken ⟨UInt64.ofNat lo⟩ <;> rfl

theorem mem_freeBetween (hhi : hi ≤ UInt64.size) : id ∈ freeBetween taken lo hi ↔
    lo ≤ id.value.toNat ∧ id.value.toNat < hi ∧ taken id = false := by
  simp only [freeBetween, List.mem_filter, List.mem_map, List.mem_range'_1, Bool.not_eq_true',
    ← and_assoc]
  refine and_congr_left fun _ => ⟨?_, fun hid => ⟨id.value.toNat, by omega, ?_⟩⟩
  · rintro ⟨i, hi, rfl⟩
    change lo ≤ (UInt64.ofNat i).toNat ∧ (UInt64.ofNat i).toNat < _
    rw [UInt64.toNat_ofNat_of_lt' (by omega)]
    omega
  · rw [UInt64.ofNat_toNat]

/-- The first free id comes after ids that are taken, and the other free ids come after it. -/
theorem freeBetween_eq_cons (hfree : freeBetween taken lo hi = id :: rest) : ∃ k,
    lo + k < hi ∧ id = ⟨UInt64.ofNat (lo + k)⟩ ∧
      (∀ j < k, taken ⟨UInt64.ofNat (lo + j)⟩ = true) ∧ taken id = false ∧
      rest = freeBetween taken (lo + k + 1) hi := by
  obtain ⟨m, hm⟩ : ∃ m, m = hi - lo := ⟨_, rfl⟩
  induction m generalizing lo with
  | zero =>
    rw [freeBetween_eq_nil (by omega)] at hfree
    cases hfree
  | succ m ih =>
    rw [freeBetween_eq (by omega)] at hfree
    cases hlo : taken ⟨UInt64.ofNat lo⟩ with
    | false =>
      rw [hlo] at hfree
      cases hfree
      exact ⟨0, by omega, rfl, fun j hj => absurd hj (Nat.not_lt_zero j), hlo, rfl⟩
    | true =>
      rw [hlo] at hfree
      obtain ⟨k, hk, rfl, htaken, hid, hrest⟩ := ih hfree (by omega)
      have hshift : ∀ j, lo + (j + 1) = lo + 1 + j := fun j => by omega
      refine ⟨k + 1, by omega, by rw [hshift k], fun j hj => ?_, hid, by rw [hrest, hshift k]⟩
      cases j with
      | zero => exact hlo
      | succ j =>
        rw [hshift]
        exact htaken j (Nat.lt_of_succ_lt_succ hj)

theorem mem_supply : id ∈ g.supply ↔ g.nextId.toNat ≤ id.value.toNat ∧
    id.value.toNat + 1 < UInt64.size ∧ g.contains id = false := by
  rw [supply, mem_freeBetween (by omega), Nat.lt_sub_iff_add_lt]

/-- The ids that are left are in ascending order. -/
theorem first_le_of_mem_supply (hsupply : g.supply = first :: rest) (hid : id ∈ g.supply) :
    first.value.toNat ≤ id.value.toNat := by
  obtain ⟨k, hk, rfl, _, _, hrest⟩ := freeBetween_eq_cons hsupply
  have hvalue : (UInt64.ofNat (g.nextId.toNat + k)).toNat = g.nextId.toNat + k :=
    UInt64.toNat_ofNat_of_lt' (by omega)
  rw [hsupply, List.mem_cons] at hid
  obtain rfl | hlater := hid
  · exact Nat.le_refl _
  · rw [hrest, mem_freeBetween (by omega)] at hlater
    exact hvalue.le.trans (Nat.le_of_succ_le hlater.1)

/-- What is left to hand out comes first of all that is free. -/
theorem supply_prefix_freeIds (g : Graph) : g.supply <+: g.freeIds := by
  have hlt := g.nextId.toNat_lt_size
  have hsize : UInt64.size - g.nextId.toNat = UInt64.size - 1 - g.nextId.toNat + 1 := by omega
  rw [supply, freeIds, freeBetween, freeBetween, hsize, List.range'_concat, List.map_append,
    List.filter_append]
  exact List.prefix_append _ _

/-- No more ids are taken than the index has entries. -/
theorem length_le_size_index {ids : List NodeId} (hids : ids.Nodup)
    (htaken : ∀ id ∈ ids, g.contains id = true) : ids.length ≤ g.index.size := by
  have hsub : ids ⊆ g.index.keys := by
    intro id hid
    rw [Std.TreeMap.mem_keys, Std.TreeMap.mem_iff_isSome_getElem?]
    exact htaken id hid
  have hlength := (List.subperm_of_subset hids hsub).length_le
  rwa [Std.TreeMap.length_keys] at hlength

theorem nodup_range'_ids {k : Nat} (hk : lo + k ≤ UInt64.size) :
    ((List.range' lo k).map fun i => NodeId.mk (UInt64.ofNat i)).Nodup := by
  refine List.Nodup.map_on ?_ List.nodup_range'
  intro i hi j hj hij
  rw [List.mem_range'_1] at hi hj
  have hnat := congrArg UInt64.toNat (NodeId.mk.inj hij)
  rwa [UInt64.toNat_ofNat_of_lt' (by omega), UInt64.toNat_ofNat_of_lt' (by omega)] at hnat

theorem le_size_index {k : Nat} (hk : lo + k ≤ UInt64.size)
    (htaken : ∀ j < k, g.contains ⟨UInt64.ofNat (lo + j)⟩ = true) : k ≤ g.index.size := by
  have hlength := length_le_size_index (g := g) (nodup_range'_ids hk) fun id hid => by
    obtain ⟨i, hi, rfl⟩ := List.mem_map.mp hid
    rw [List.mem_range'_1] at hi
    rw [← Nat.add_sub_cancel' hi.1]
    exact htaken (i - lo) (by omega)
  rwa [List.length_map, List.length_range'] at hlength

/-! ## The search -/

/-- The search passes over the numbers that are taken. -/
theorem firstFree_add {k : Nat} (fuel : Nat) (hk : n.toNat + k < UInt64.size)
    (htaken : ∀ j < k, taken ⟨UInt64.ofNat (n.toNat + j)⟩ = true) :
    firstFree taken (k + fuel) n = firstFree taken fuel (UInt64.ofNat (n.toNat + k)) := by
  induction k generalizing n with
  | zero => rw [Nat.zero_add, Nat.add_zero, UInt64.ofNat_toNat]
  | succ k ih =>
    have hn : taken ⟨n⟩ = true := by simpa using htaken 0 (Nat.succ_pos k)
    have hsucc : (n + 1).toNat = n.toNat + 1 := toNat_succ (by omega)
    have hshift : ∀ j, n.toNat + (j + 1) = (n + 1).toNat + j := fun j => by omega
    have hrest := ih (n := n + 1) (by omega) fun j hj => by
      rw [← hshift]
      exact htaken (j + 1) (Nat.succ_lt_succ hj)
    rw [Nat.add_right_comm, firstFree, if_pos hn, successor_of_lt (by omega), hshift]
    exact hrest

theorem firstFree_of_free {fuel : Nat} (hfree : taken ⟨n⟩ = false) :
    firstFree taken fuel n = .ok n := by
  cases fuel with
  | zero => rfl
  | succ fuel => rw [firstFree, hfree]; rfl

/-- An id that is asked for is the first of those that are left. -/
theorem allocate_of_supply (hsupply : g.supply = id :: rest) :
    g.allocate = .ok (id, { g with nextId := id.value + 1 }) := by
  obtain ⟨k, hk, rfl, htaken, hfree, _⟩ := freeBetween_eq_cons hsupply
  obtain ⟨fuel, hfuel⟩ := Nat.exists_eq_add_of_le (le_size_index (by omega) htaken)
  have hvalue : (UInt64.ofNat (g.nextId.toNat + k)).toNat = g.nextId.toNat + k :=
    UInt64.toNat_ofNat_of_lt' (by omega)
  have hfirst := firstFree_add fuel (by omega) htaken
  rw [firstFree_of_free hfree, ← hfuel] at hfirst
  have hnext := successor_of_lt (n := UInt64.ofNat (g.nextId.toNat + k)) (by omega)
  rw [allocate, hfirst]
  dsimp only [Bind.bind, Except.bind]
  rw [hnext]
  rfl

theorem firstFree_last (taken : NodeId → Bool) (fuel : Nat) (hn : n.toNat + 1 = UInt64.size) :
    firstFree taken fuel n = .ok n ∨ firstFree taken fuel n = .error .overflow := by
  cases fuel with
  | zero => exact .inl rfl
  | succ fuel =>
    rw [firstFree, successor_of_last hn]
    split
    · exact .inr rfl
    · exact .inl rfl

/-- When no id is left, the search comes to the last number, and the cursor cannot be put behind
it. -/
theorem allocate_of_supply_nil (hsupply : g.supply = []) : g.allocate = .error .overflow := by
  have hlt := g.nextId.toNat_lt_size
  obtain ⟨k, hk⟩ : ∃ k, g.nextId.toNat + k + 1 = UInt64.size :=
    ⟨UInt64.size - 1 - g.nextId.toNat, by omega⟩
  have htaken : ∀ j < k, g.contains ⟨UInt64.ofNat (g.nextId.toNat + j)⟩ = true := by
    intro j hj
    by_contra hfree
    have hvalue : (UInt64.ofNat (g.nextId.toNat + j)).toNat = g.nextId.toNat + j :=
      UInt64.toNat_ofNat_of_lt' (by omega)
    refine List.not_mem_nil (hsupply ▸ mem_supply.mpr ⟨?_, ?_, Bool.eq_false_iff.mpr hfree⟩)
    · exact Nat.le_trans (Nat.le_add_right _ j) hvalue.ge
    · change (UInt64.ofNat (g.nextId.toNat + j)).toNat + 1 < UInt64.size
      omega
  obtain ⟨fuel, hfuel⟩ := Nat.exists_eq_add_of_le (le_size_index (by omega) htaken)
  have hfirst := firstFree_add fuel (by omega) htaken
  have hlast : (UInt64.ofNat (g.nextId.toNat + k)).toNat + 1 = UInt64.size := by
    rw [UInt64.toNat_ofNat_of_lt' (by omega), hk]
  rw [← hfuel] at hfirst
  have hsearch := firstFree_last g.contains fuel hlast
  rw [← hfirst] at hsearch
  rw [allocate]
  obtain hok | herror := hsearch
  · rw [hok]
    dsimp only [Bind.bind, Except.bind]
    rw [successor_of_last hlast]
  · rw [herror]
    rfl

theorem allocate_eq_ok (hok : g.allocate = .ok (id, h)) :
    (∃ rest, g.supply = id :: rest) ∧ h = { g with nextId := id.value + 1 } := by
  cases hsupply : g.supply with
  | nil =>
    rw [allocate_of_supply_nil hsupply] at hok
    cases hok
  | cons first rest =>
    rw [allocate_of_supply hsupply] at hok
    cases hok
    exact ⟨⟨rest, rfl⟩, rfl⟩

theorem addNode_eq_ok {kind : NodeKind} {properties : Properties}
    (hok : g.addNode kind properties = .ok (id, h)) : ∃ g', g.allocate = .ok (id, g') ∧
      h = g'.place ⟨id, kind, properties⟩ := by
  rw [addNode] at hok
  cases hallocate : g.allocate with
  | error e =>
    rw [hallocate] at hok
    cases hok
  | ok drawn =>
    rw [hallocate] at hok
    cases hok
    exact ⟨drawn.2, rfl, rfl⟩

/-! ## What is left -/

/-- Once the allocator has passed an id, the others are left, whatever becomes of those before
them. -/
theorem supply_of_passed (hsupply : g.supply = id :: rest) (hnext : h.nextId = id.value + 1)
    (hcontains : ∀ later, id.value < later.value → h.contains later = g.contains later) :
    h.supply = rest := by
  obtain ⟨k, hk, hid, _, _, rfl⟩ := freeBetween_eq_cons hsupply
  have hvalue : id.value.toNat = g.nextId.toNat + k := by
    rw [hid]
    exact UInt64.toNat_ofNat_of_lt' (by omega)
  rw [supply, hnext, toNat_succ (by omega), hvalue, freeBetween, freeBetween]
  refine List.filter_congr fun later hlater => ?_
  obtain ⟨i, hi, rfl⟩ := List.mem_map.mp hlater
  rw [List.mem_range'_1] at hi
  rw [hcontains _ (UInt64.lt_iff_toNat_lt.mpr ?_)]
  rw [UInt64.toNat_ofNat_of_lt' (by omega), hvalue]
  omega

/-- Of the numbers below the last one, those before the cursor are gone, and those in the index may
be. -/
theorem le_length_supply (g : Graph) :
    UInt64.size - 1 ≤ g.nextId.toNat + g.index.size + g.supply.length := by
  obtain ⟨ids, hids⟩ : ∃ ids, ids =
      (List.range' g.nextId.toNat (UInt64.size - 1 - g.nextId.toNat)).map fun i =>
        NodeId.mk (UInt64.ofNat i) := ⟨_, rfl⟩
  have hlt := g.nextId.toNat_lt_size
  have hnodup : ids.Nodup := hids ▸ nodup_range'_ids (by omega)
  have htaken := length_le_size_index (g := g) (hnodup.filter g.contains) fun id hid =>
    (List.mem_filter.mp hid).2
  have hlength : ids.length = UInt64.size - 1 - g.nextId.toNat := by
    rw [hids, List.length_map, List.length_range']
  have hsplit := List.length_eq_length_filter_add (l := ids) g.contains
  rw [supply, freeBetween, ← hids]
  omega

theorem le_length_supply_empty : UInt64.size - 2 ≤ (∅ : Graph).supply.length := by
  have hleft := le_length_supply ∅
  have hnext : (∅ : Graph).nextId.toNat = 1 := rfl
  have hsize : (∅ : Graph).index.size = 0 := rfl
  omega

end Graph

end CodeGraph
