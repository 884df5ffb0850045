import CodeGraph.Proofs.Graph.Loaded
import CodeGraph.Proofs.Graph.Reload
import Mathlib

/-!
# Depth-first walks

The walk that lists the nodes of a method is a recursion that is cut off by a bound.  `Visits`
describes it without the bound: a slot that was seen is skipped, any other slot is entered, and left
after the slots that it leads to.  The bound is never met, since the slots that are entered and not
yet left are different ones (`visits_foldl`).

Two things are kept by every visit.  The slots that were entered and not left are the same before
and after (`Visits.open_iff`).  And all that a slot leads to was seen when it is left (`Sound`).  So
when a slot is left, no slot that was left before it was entered leads to it.  The slots that were
left since were found below it, and it reaches them.

`FlowsTo` and `Reaches` say the same of nodes, by the list of all edges.
-/

namespace CodeGraph.Graph

/-! ## Walks over slots -/

namespace Walk

/-- The slots that can be reached from a slot. -/
def Leads (next : Nat → List Nat) : Nat → Nat → Prop :=
  Relation.ReflTransGen fun i j => j ∈ next i

/-- What comes of a walk when some slots are visited one after the other. -/
inductive Visits (next : Nat → List Nat) : Walk → List Nat → Walk → Prop
  | done (w : Walk) : Visits next w [] w
  /-- A slot that was seen is passed over. -/
  | skip {w w' : Walk} {i : Nat} {is : List Nat} :
      i ∈ w.seen → Visits next w is w' → Visits next w (i :: is) w'
  /-- Any other slot is entered, and left when all that it leads to was visited. -/
  | enter {w v w' : Walk} {i : Nat} {is : List Nat} :
      i ∉ w.seen → Visits next { w with seen := i :: w.seen } (next i) v →
      Visits next { v with order := i :: v.order } is w' → Visits next w (i :: is) w'

/-- What holds of a walk between two visits. -/
structure Sound (next : Nat → List Nat) (w : Walk) : Prop where
  seen : ∀ i ∈ w.order, i ∈ w.seen
  /-- What a slot leads to was seen when it is left. -/
  closed : ∀ i ∈ w.order, ∀ j ∈ next i, j ∈ w.seen
  nodup : w.order.Nodup
  /-- A slot goes back to one that was left after it only if that one reaches it. -/
  backward : w.order.Pairwise fun j i => j ∈ next i → Leads next j i

variable {next : Nat → List Nat} {w v w' : Walk} {i j : Nat} {is slots : List Nat}

namespace Visits

theorem seen_subset (h : Visits next w is w') : w.seen ⊆ w'.seen := by
  induction h with
  | done => exact List.Subset.refl _
  | skip _ _ ih => exact ih
  | enter _ _ _ ihBelow ihRest =>
    exact List.Subset.trans (List.subset_of_cons_subset ihBelow) ihRest

/-- Every slot that is visited was seen afterwards. -/
theorem subset_seen (h : Visits next w is w') : is ⊆ w'.seen := by
  induction h with
  | done => exact List.nil_subset _
  | skip hi hrest ih => exact List.cons_subset.mpr ⟨hrest.seen_subset hi, ih⟩
  | enter _ hbelow hrest _ ih =>
    exact List.cons_subset.mpr ⟨hrest.seen_subset (hbelow.seen_subset List.mem_cons_self), ih⟩

/-- A slot is open if it was entered and not left.  A visit leaves every slot that it enters. -/
theorem open_iff (h : Visits next w is w') :
    (j ∈ w'.seen ∧ j ∉ w'.order) ↔ (j ∈ w.seen ∧ j ∉ w.order) := by
  induction h with
  | done => exact Iff.rfl
  | skip _ _ ih => exact ih
  | @enter w v _ i _ hi _ _ ihBelow ihRest =>
    rw [ihRest]
    by_cases hj : j = i
    · -- not seen before, and left after
      subst hj
      simp [hi]
    · simpa [hj] using ihBelow

/-- What a visit sees is reached from the slots that are visited. -/
theorem leads (h : Visits next w is w') (hj : j ∈ w'.seen) :
    j ∈ w.seen ∨ ∃ i ∈ is, Leads next i j := by
  induction h with
  | done => exact Or.inl hj
  | skip _ _ ih =>
    rcases ih hj with hseen | ⟨k, hk, hlead⟩
    · exact Or.inl hseen
    · exact Or.inr ⟨k, List.mem_cons_of_mem _ hk, hlead⟩
  | @enter w v _ i is _ _ _ ihBelow ihRest =>
    rcases ihRest hj with hseen | ⟨k, hk, hlead⟩
    · rcases ihBelow hseen with hbefore | ⟨k, hk, hlead⟩
      · rcases List.mem_cons.mp hbefore with rfl | hbefore
        · exact Or.inr ⟨j, List.mem_cons_self, .refl⟩
        · exact Or.inl hbefore
      · exact Or.inr ⟨i, List.mem_cons_self, .head hk hlead⟩
    · exact Or.inr ⟨k, List.mem_cons_of_mem _ hk, hlead⟩

/-- A slot that was left while another one was open is reached from it, or was left before. -/
theorem leads_of_mem_order (h : Visits next { w with seen := i :: w.seen } (next i) v)
    (hv : ∀ k ∈ v.order, k ∈ v.seen) (hj : j ∈ v.order) : j ∈ w.order ∨ Leads next i j := by
  rcases h.leads (hv j hj) with hbefore | ⟨k, hk, hlead⟩
  · rcases List.mem_cons.mp hbefore with rfl | hbefore
    · exact Or.inr .refl
    · refine Or.inl (by_contra fun hopen => ?_)
      exact (h.open_iff.mpr ⟨List.mem_cons_of_mem _ hbefore, hopen⟩).2 hj
  · exact Or.inr (.head hk hlead)

end Visits

/-- A slot is left. -/
theorem Sound.leave (hw : Sound next w) (hi : i ∉ w.seen)
    (h : Visits next { w with seen := i :: w.seen } (next i) v) (hv : Sound next v) :
    Sound next { v with order := i :: v.order } := by
  have hopen : i ∈ v.seen ∧ i ∉ v.order :=
    h.open_iff.mpr ⟨List.mem_cons_self, fun hmem => hi (hw.seen i hmem)⟩
  refine ⟨?_, ?_, List.nodup_cons.mpr ⟨hopen.2, hv.nodup⟩, List.pairwise_cons.mpr ⟨?_, hv.backward⟩⟩
  · intro j hj
    rcases List.mem_cons.mp hj with rfl | hj
    · exact hopen.1
    · exact hv.seen j hj
  · intro j hj k hk
    rcases List.mem_cons.mp hj with rfl | hj
    · exact h.subset_seen hk
    · exact hv.closed j hj k hk
  · intro j hj hback
    rcases h.leads_of_mem_order hv.seen hj with hbefore | hlead
    · -- all that `j` leads to was seen before `i` was entered
      exact absurd (hw.closed j hbefore i hback) hi
    · exact hlead

theorem Visits.sound (h : Visits next w is w') (hw : Sound next w) : Sound next w' := by
  induction h with
  | done => exact hw
  | skip _ _ ih => exact ih hw
  | enter hi hbelow _ ihBelow ihRest =>
    refine ihRest (hw.leave hi hbelow (ihBelow ⟨?_, ?_, hw.nodup, hw.backward⟩))
    · intro j hj
      exact List.mem_cons_of_mem _ (hw.seen j hj)
    · intro j hj k hk
      exact List.mem_cons_of_mem _ (hw.closed j hj k hk)

/-! ## The bound on the recursion -/

/-- A slot that is entered for the first time is one less to be seen. -/
theorem length_unseen_lt {seen : List Nat} (hi : i ∈ slots) (hseen : i ∉ seen) :
    (slots.filter (· ∉ i :: seen)).length < (slots.filter (· ∉ seen)).length := by
  have hsplit : slots.filter (· ∉ i :: seen) = (slots.filter (· ∉ seen)).filter (· ≠ i) := by
    rw [List.filter_filter]
    refine List.filter_congr fun k _ => ?_
    by_cases hk : k = i <;> simp [hk]
  rw [hsplit, List.length_filter_lt_length_iff_exists]
  exact ⟨i, List.mem_filter.mpr ⟨hi, decide_eq_true hseen⟩, by simp⟩

theorem length_unseen_le (slots : List Nat) {seen seen' : List Nat} (h : seen ⊆ seen') :
    (slots.filter (· ∉ seen')).length ≤ (slots.filter (· ∉ seen)).length := by
  refine (List.monotone_filter_right slots fun k hk => ?_).length_le
  simp only [decide_eq_true_eq] at hk ⊢
  exact fun hmem => hk (h hmem)

/-- With a bound on the slots that can be seen, the recursion is not cut off. -/
theorem visits_foldl (hnext : ∀ i ∈ slots, ∀ j ∈ next i, j ∈ slots) (fuel : Nat) :
    ∀ (is : List Nat) (w : Walk), (∀ i ∈ is, i ∈ slots) →
      (slots.filter (· ∉ w.seen)).length ≤ fuel →
        Visits next w is (is.foldl (visit next fuel) w) := by
  -- the bound goes down to the slots below, the list on to the slots beside
  induction fuel with
  | zero =>
    intro is
    induction is with
    | nil => exact fun w _ _ => .done w
    | cons i is ih =>
      intro w hslots hfuel
      have hnone := List.eq_nil_of_length_eq_zero (Nat.le_zero.mp hfuel)
      have hi : i ∈ w.seen := by
        have hkept := List.filter_eq_nil_iff.mp hnone i (hslots i List.mem_cons_self)
        simpa using hkept
      exact .skip hi (ih w (fun j hj => hslots j (List.mem_cons_of_mem _ hj)) hfuel)
  | succ fuel ihFuel =>
    intro is
    induction is with
    | nil => exact fun w _ _ => .done w
    | cons i is ih =>
      intro w hslots hfuel
      have hrest := fun j hj => hslots j (List.mem_cons_of_mem i hj)
      rw [List.foldl_cons, visit]
      by_cases hi : i ∈ w.seen
      · rw [if_pos hi]
        exact .skip hi (ih w hrest hfuel)
      · rw [if_neg hi]
        have hmem := hslots i List.mem_cons_self
        have hlt := length_unseen_lt hmem hi
        have hbelow := ihFuel (next i) { w with seen := i :: w.seen } (hnext i hmem)
          (Nat.lt_succ_iff.mp (hlt.trans_le hfuel))
        have hle := length_unseen_le slots hbelow.seen_subset
        exact .enter hi hbelow (ih _ hrest (hle.trans (hlt.le.trans hfuel)))

/-! ## Walks from a slot -/

section FromStart

variable (h : Visits next {} [i] w)

include h

theorem Visits.sound_of_start : Sound next w :=
  h.sound ⟨by simp, by simp, by simp, by simp⟩

theorem Visits.mem_seen_iff_mem_order : j ∈ w.seen ↔ j ∈ w.order := by
  refine ⟨fun hj => by_contra fun hopen => ?_, h.sound_of_start.seen j⟩
  exact absurd (h.open_iff.mp ⟨hj, hopen⟩).1 List.not_mem_nil

/-- The slot where a walk starts is the last one that it leaves. -/
theorem Visits.exists_order_eq : ∃ rest, w.order = i :: rest := by
  cases h with
  | skip hi _ => exact absurd hi List.not_mem_nil
  | @enter _ v _ _ _ _ _ hrest =>
    cases hrest
    exact ⟨v.order, rfl⟩

theorem Visits.mem_order_iff : j ∈ w.order ↔ Leads next i j := by
  constructor
  · intro hj
    rcases h.leads (h.sound_of_start.seen j hj) with hbefore | ⟨k, hk, hlead⟩
    · exact absurd hbefore List.not_mem_nil
    · exact List.mem_singleton.mp hk ▸ hlead
  · intro hlead
    induction hlead with
    | refl => exact h.mem_seen_iff_mem_order.mp (h.subset_seen List.mem_cons_self)
    | tail _ hstep ih => exact h.mem_seen_iff_mem_order.mp (h.sound_of_start.closed _ ih _ hstep)

end FromStart

end Walk

/-! ## Control flow between nodes -/

/-- There is a control-flow edge from one node to another. -/
def FlowsTo (g : Graph) (u v : NodeId) : Prop :=
  ∃ l ∈ g.allLinks, l.src = u ∧ l.dst = v ∧ l.edge.kind = .cfg

instance (g : Graph) (u v : NodeId) : Decidable (g.FlowsTo u v) :=
  inferInstanceAs (Decidable (∃ l ∈ g.allLinks, l.src = u ∧ l.dst = v ∧ l.edge.kind = .cfg))

/-- Control flow leads from one node to another in any number of steps. -/
def Reaches (g : Graph) : NodeId → NodeId → Prop := Relation.ReflTransGen g.FlowsTo

variable {g : Graph} {m u v : NodeId} {i j : Nat}

namespace WellFormed

theorem mem_successors (hg : g.WellFormed) : v ∈ g.successors u ↔ g.FlowsTo u v := by
  have hlinks := hg.reflects.perm_allLinks
  rw [successors, hg.reflects.outNeighbors u .cfg]
  simp only [List.mem_map, List.mem_filter, decide_eq_true_eq, FlowsTo, hlinks.mem_iff]
  constructor
  · rintro ⟨l, ⟨hl, hsrc, hkind⟩, hdst⟩
    exact ⟨l, hl, hsrc, hdst, hkind⟩
  · rintro ⟨l, hl, hsrc, hdst, hkind⟩
    exact ⟨l, ⟨hl, hsrc, hkind⟩, hdst⟩

theorem mem_predecessors (hg : g.WellFormed) : u ∈ g.predecessors v ↔ g.FlowsTo u v := by
  have hlinks := hg.reflects.perm_allLinks
  rw [predecessors, hg.reflects.inNeighbors v .cfg]
  simp only [List.mem_map, List.mem_filter, decide_eq_true_eq, FlowsTo, hlinks.mem_iff]
  constructor
  · rintro ⟨l, ⟨hl, hdst, hkind⟩, hsrc⟩
    exact ⟨l, hl, hsrc, hdst, hkind⟩
  · rintro ⟨l, hl, hsrc, hdst, hkind⟩
    exact ⟨l, ⟨hl, hdst, hkind⟩, hsrc⟩

theorem slot?_isSome_of_flowsTo (hg : g.WellFormed) (h : g.FlowsTo u v) :
    (g.slot? u).isSome ∧ (g.slot? v).isSome := by
  obtain ⟨l, hl, rfl, rfl, _⟩ := h
  have hends := hg.reflects.ends l (hg.reflects.perm_allLinks.mem_iff.mp hl)
  rw [← hg.reflects.contains, ← hg.reflects.contains] at hends
  exact hends

/-! ### Slots and nodes -/

/-- No two ids have one slot. -/
theorem eq_of_slot? (hg : g.WellFormed) (hu : g.slot? u = some i) (hv : g.slot? v = some i) :
    u = v := by
  obtain ⟨n, hn, rfl⟩ := (hg.slot?_iff u i).mp hu
  obtain ⟨n', hn', rfl⟩ := (hg.slot?_iff v i).mp hv
  rw [hn, Option.some.injEq] at hn'
  rw [hn']

/-- The walk goes from slot to slot as control flows from node to node. -/
theorem mem_nextSlots_iff (hg : g.WellFormed) (hu : g.slot? u = some i) (hv : g.slot? v = some j) :
    j ∈ g.nextSlots i ↔ g.FlowsTo u v := by
  obtain ⟨n, hn, rfl⟩ := (hg.slot?_iff u i).mp hu
  rw [hg.nextSlots_eq hn, List.mem_filterMap, ← hg.mem_successors]
  constructor
  · rintro ⟨x, hx, hslot⟩
    exact hg.eq_of_slot? hslot hv ▸ hx
  · intro hflow
    exact ⟨v, hflow, hv⟩

/-- The walk stays on slots that hold nodes. -/
theorem exists_slot_of_mem_nextSlots (hg : g.WellFormed) (h : j ∈ g.nextSlots i) :
    (∃ u, g.slot? u = some i) ∧ ∃ v, g.slot? v = some j := by
  cases hn : g.nodes.get? i with
  | none =>
    rw [hg.nextSlots_of_vacant hn] at h
    cases h
  | some n =>
    rw [hg.nextSlots_eq hn] at h
    obtain ⟨v, _, hv⟩ := List.mem_filterMap.mp h
    exact ⟨⟨n.id, hg.slot?_of_get? hn⟩, v, hv⟩

theorem leads_iff (hg : g.WellFormed) (hu : g.slot? u = some i) (hv : g.slot? v = some j) :
    Walk.Leads g.nextSlots i j ↔ g.Reaches u v := by
  constructor
  · intro h
    induction h generalizing v with
    | refl =>
      rw [hg.eq_of_slot? hu hv]
      exact .refl
    | tail _ hstep ih =>
      obtain ⟨⟨x, hx⟩, _⟩ := hg.exists_slot_of_mem_nextSlots hstep
      exact (ih hx).tail ((hg.mem_nextSlots_iff hx hv).mp hstep)
  · intro h
    induction h generalizing j with
    | refl =>
      rw [hu, Option.some.injEq] at hv
      rw [hv]
      exact .refl
    | tail _ hstep ih =>
      obtain ⟨k, hk⟩ := Option.isSome_iff_exists.mp (hg.slot?_isSome_of_flowsTo hstep).1
      exact (ih hk).tail ((hg.mem_nextSlots_iff hk hv).mpr hstep)

/-! ## Reverse post-order -/

/-- There are as many slots with nodes as there are nodes, which is how far the recursion may go. -/
theorem visits (hg : g.WellFormed) (hm : g.slot? m = some i) :
    Walk.Visits g.nextSlots {} [i] (Walk.visit g.nextSlots g.nodeCount {} i) := by
  have hmem : ∀ k, k ∈ g.nodes.toList.map Prod.fst ↔ ∃ n, g.nodes.get? k = some n := by
    intro k
    simp [List.mem_map, Slots.mem_toList]
  have hnext : ∀ k ∈ g.nodes.toList.map Prod.fst, ∀ j ∈ g.nextSlots k,
      j ∈ g.nodes.toList.map Prod.fst := by
    intro k _ j hj
    obtain ⟨_, v, hv⟩ := hg.exists_slot_of_mem_nextSlots hj
    obtain ⟨n, hn, _⟩ := (hg.slot?_iff v j).mp hv
    exact (hmem j).mpr ⟨n, hn⟩
  refine Walk.visits_foldl hnext g.nodeCount [i] {} ?_ ?_
  · intro k hk
    obtain ⟨n, hn, _⟩ := (hg.slot?_iff m i).mp hm
    exact (hmem k).mpr ⟨n, List.mem_singleton.mp hk ▸ hn⟩
  · have hcount : (g.nodes.toList.map Prod.fst).length = g.nodeCount := by
      rw [List.length_map, nodeCount, Slots.size, ← Slots.map_snd_toList, List.length_map]
    exact hcount ▸ List.length_filter_le _ _

/-- The list of nodes names the slots that the walk left. -/
theorem map_slot?_reversePostOrder (hg : g.WellFormed) (hm : g.slot? m = some i) :
    (g.reversePostOrder m).map g.slot? =
      (Walk.visit g.nextSlots g.nodeCount {} i).order.map some := by
  rw [reversePostOrder, hm]
  simp only
  rw [List.map_map, List.map_filterMap, ← List.filterMap_eq_map]
  refine List.filterMap_congr fun k hk => ?_
  have hlead := (hg.visits hm).mem_order_iff.mp hk
  have hnode : ∃ n, g.nodes.get? k = some n := by
    rcases Relation.ReflTransGen.cases_tail hlead with rfl | ⟨_, _, hstep⟩
    · obtain ⟨n, hn, _⟩ := (hg.slot?_iff m k).mp hm
      exact ⟨n, hn⟩
    · obtain ⟨_, v, hv⟩ := hg.exists_slot_of_mem_nextSlots hstep
      obtain ⟨n, hn, _⟩ := (hg.slot?_iff v k).mp hv
      exact ⟨n, hn⟩
  obtain ⟨n, hn⟩ := hnode
  simp [hn, hg.slot?_of_get? hn]

theorem head?_reversePostOrder (hg : g.WellFormed) (hm : g.slot? m = some i) :
    (g.reversePostOrder m).head? = some m := by
  obtain ⟨rest, hrest⟩ := (hg.visits hm).exists_order_eq
  have hslots := hg.map_slot?_reversePostOrder hm
  rw [hrest, List.map_cons] at hslots
  obtain ⟨x, xs, hxs, hx, _⟩ := List.map_eq_cons_iff.mp hslots
  rw [hxs, List.head?_cons, hg.eq_of_slot? hx hm]

theorem nodup_reversePostOrder (hg : g.WellFormed) (m : NodeId) :
    (g.reversePostOrder m).Nodup := by
  cases hm : g.slot? m with
  | none =>
    rw [reversePostOrder, hm]
    exact List.nodup_nil
  | some i =>
    have hnodup := (hg.visits hm).sound_of_start.nodup.map (Option.some_injective Nat)
    rw [← hg.map_slot?_reversePostOrder hm] at hnodup
    exact hnodup.of_map _

theorem mem_reversePostOrder_iff (hg : g.WellFormed) (hm : g.slot? m = some i) :
    v ∈ g.reversePostOrder m ↔ g.Reaches m v := by
  have hslots := hg.map_slot?_reversePostOrder hm
  constructor
  · intro hv
    have hmem := List.mem_map_of_mem (f := g.slot?) hv
    rw [hslots] at hmem
    obtain ⟨j, hj, hslot⟩ := List.mem_map.mp hmem
    exact (hg.leads_iff hm hslot.symm).mp ((hg.visits hm).mem_order_iff.mp hj)
  · intro hreach
    obtain ⟨j, hj⟩ : ∃ j, g.slot? v = some j := by
      rcases Relation.ReflTransGen.cases_tail hreach with rfl | ⟨_, _, hstep⟩
      · exact ⟨i, hm⟩
      · exact Option.isSome_iff_exists.mp (hg.slot?_isSome_of_flowsTo hstep).2
    have hmem : some j ∈ (g.reversePostOrder m).map g.slot? := by
      rw [hslots]
      exact List.mem_map_of_mem ((hg.visits hm).mem_order_iff.mpr ((hg.leads_iff hm hj).mpr hreach))
    obtain ⟨x, hx, hslot⟩ := List.mem_map.mp hmem
    exact hg.eq_of_slot? hslot hj ▸ hx

/-- Where control flows to an earlier node, this one reaches the later. -/
theorem pairwise_reversePostOrder (hg : g.WellFormed) (m : NodeId) :
    (g.reversePostOrder m).Pairwise fun v u => g.FlowsTo u v → g.Reaches v u := by
  cases hm : g.slot? m with
  | none =>
    rw [reversePostOrder, hm]
    exact List.Pairwise.nil
  | some i =>
    have hback : ((g.reversePostOrder m).map g.slot?).Pairwise fun a b =>
        ∀ j k, a = some j → b = some k → j ∈ g.nextSlots k → Walk.Leads g.nextSlots j k := by
      rw [hg.map_slot?_reversePostOrder hm, List.pairwise_map]
      refine (hg.visits hm).sound_of_start.backward.imp ?_
      rintro a b hab j k ⟨⟩ ⟨⟩
      exact hab
    rw [List.pairwise_map] at hback
    refine hback.imp fun {v u} hvu hflow => ?_
    obtain ⟨hu, hv⟩ := hg.slot?_isSome_of_flowsTo hflow
    obtain ⟨k, hk⟩ := Option.isSome_iff_exists.mp hu
    obtain ⟨j, hj⟩ := Option.isSome_iff_exists.mp hv
    exact (hg.leads_iff hj hk).mp (hvu j k hj hk ((hg.mem_nextSlots_iff hk hj).mpr hflow))

/-- The same by positions, where a node may also flow to itself. -/
theorem reaches_of_le (hg : g.WellFormed) (hu : (g.reversePostOrder m)[i]? = some u)
    (hv : (g.reversePostOrder m)[j]? = some v) (hflow : g.FlowsTo u v) (hji : j ≤ i) :
    g.Reaches v u := by
  obtain ⟨hi, rfl⟩ := List.getElem?_eq_some_iff.mp hu
  obtain ⟨hj, rfl⟩ := List.getElem?_eq_some_iff.mp hv
  rcases Nat.lt_or_eq_of_le hji with hlt | rfl
  · exact List.pairwise_iff_getElem.mp (hg.pairwise_reversePostOrder m) j i hj hi hlt hflow
  · exact .refl

end WellFormed

/-- The reverse post-order of a node starts with it and lists every node that control flow leads to
from it, each once.  An edge that does not go forward in it closes a cycle: its target reaches its
source.  So where there are no cycles, all edges go forward. -/
theorem reversePostOrder_depthFirst (hg : g.WellFormed) (hm : g.contains m = true) :
    (g.reversePostOrder m).head? = some m ∧
    (g.reversePostOrder m).Nodup ∧
    (∀ v, v ∈ g.reversePostOrder m ↔ g.Reaches m v) ∧
    (∀ (i j : Nat) u v, (g.reversePostOrder m)[i]? = some u →
      (g.reversePostOrder m)[j]? = some v → g.FlowsTo u v → ¬ i < j → g.Reaches v u) ∧
    ((∀ v, g.Reaches m v → ¬ Relation.TransGen g.FlowsTo v v) →
      ∀ (i j : Nat) u v, (g.reversePostOrder m)[i]? = some u → (g.reversePostOrder m)[j]? = some v →
        g.FlowsTo u v → i < j) := by
  obtain ⟨i, hi⟩ := Option.isSome_iff_exists.mp hm
  refine ⟨hg.head?_reversePostOrder hi, hg.nodup_reversePostOrder m,
    fun v => hg.mem_reversePostOrder_iff hi, ?_, ?_⟩
  · intro k j u v hu hv hflow hkj
    exact hg.reaches_of_le hu hv hflow (Nat.not_lt.mp hkj)
  · intro hacyclic k j u v hu hv hflow
    by_contra hkj
    have hback := hg.reaches_of_le hu hv hflow (Nat.not_lt.mp hkj)
    exact hacyclic u ((hg.mem_reversePostOrder_iff hi).mp (List.mem_of_getElem? hu))
      (Relation.TransGen.head' hflow hback)

/-- A loop with two edges into its body, a self loop inside it, edges of another kind between the
same nodes, and a node that is not reached. -/
def tangle : List Operation :=
  [.addNode (.method "f" "f") {}, .addNode .methodReturn {},
    .addNode (.controlStructure "while (x)") {}, .addNode (.call "a" "a()") {},
    .addNode (.call "b" "b()") {}, .addNode (.call "c" "c()") {},
    .addEdge ⟨1⟩ ⟨2⟩ ⟨.ast, {}⟩, .addEdge ⟨1⟩ ⟨3⟩ ⟨.cfg, {}⟩, .addEdge ⟨3⟩ ⟨4⟩ ⟨.cfg, {}⟩,
    .addEdge ⟨3⟩ ⟨4⟩ ⟨.cfg, {}⟩, .addEdge ⟨3⟩ ⟨6⟩ ⟨.ast, {}⟩, .addEdge ⟨4⟩ ⟨4⟩ ⟨.cfg, {}⟩,
    .addEdge ⟨4⟩ ⟨5⟩ ⟨.cfg, {}⟩, .addEdge ⟨5⟩ ⟨3⟩ ⟨.cfg, {}⟩, .addEdge ⟨3⟩ ⟨2⟩ ⟨.cfg, {}⟩,
    .addEdge ⟨6⟩ ⟨3⟩ ⟨.cfg, {}⟩]

/-- The back edge of the loop is the one that does not go forward. -/
theorem tangle_depthFirst :
    (built tangle).WellFormed ∧ (built tangle).contains ⟨1⟩ = true ∧
    (built tangle).reversePostOrder ⟨1⟩ = [⟨1⟩, ⟨3⟩, ⟨2⟩, ⟨4⟩, ⟨5⟩] ∧
    (built tangle).FlowsTo ⟨5⟩ ⟨3⟩ ∧ (built tangle).Reaches ⟨3⟩ ⟨5⟩ ∧
    (built tangle).Reaches ⟨1⟩ ⟨5⟩ ∧ ¬ (built tangle).Reaches ⟨1⟩ ⟨6⟩ := by
  have hwf : (built tangle).WellFormed := wellFormed_built _
  have hm : (built tangle).contains ⟨1⟩ = true := by decide +kernel
  have horder : (built tangle).reversePostOrder ⟨1⟩ = [⟨1⟩, ⟨3⟩, ⟨2⟩, ⟨4⟩, ⟨5⟩] := by
    decide +kernel
  have hflow : (built tangle).FlowsTo ⟨5⟩ ⟨3⟩ := by decide +kernel
  obtain ⟨_, _, hmem, hback, _⟩ := reversePostOrder_depthFirst hwf hm
  rw [horder] at hmem hback
  exact ⟨hwf, hm, horder, hflow, hback 4 1 _ _ rfl rfl hflow (by decide),
    (hmem ⟨5⟩).mp (by decide), fun hreach => absurd ((hmem ⟨6⟩).mpr hreach) (by decide)⟩

end CodeGraph.Graph
