import CodeGraph.Codec.Graph
import CodeGraph.Proofs.Codec.Element
import CodeGraph.Proofs.Graph.View

/-!
# Graph files read back

The text of a graph is read back as a graph with the same cells, so with the same
view.  Slots are numbered by 32 bits in a text, and a graph with more of them cannot be
read back.
-/

namespace CodeGraph.Graph

open Json (Origin)

variable {g : Graph} {o : Origin}

/-! ## Slots in JSON -/

theorem slotOfJson?_int {i : Nat} (h : i < UInt32.size) : slotOfJson? (.int i) = some i := by
  rw [slotOfJson?, Json.uint32?, Json.natBelow?_int h, Option.map_some, Option.map_some,
    UInt32.toNat_ofNat_of_lt' h]

/-- The slots of both ends of an arc can be numbered. -/
def Numbered (a : Arc) : Prop := a.src < UInt32.size ∧ a.dst < UInt32.size

theorem cellOfJson?_arr {inner : Origin} {j k l : Json} {src dst : Nat} {edge : Edge}
    (henter : o.enter = some inner) (hsrc : slotOfJson? j = some src)
    (hdst : slotOfJson? k = some dst) (hedge : Edge.ofJson? inner l = some edge) :
    cellOfJson? o (.arr [j, k, l]) = some (some ⟨src, dst, edge⟩) := by
  simp only [cellOfJson?, henter, hsrc, hdst, hedge]

theorem cellOfJson?_cellToJson {c : Option Arc} (hc : ∀ a ∈ c, Numbered a)
    (h : o.holds (cellToJson c) = true) : cellOfJson? o (cellToJson c) = some c := by
  cases c with
  | none => rfl
  | some a =>
    obtain ⟨hsrc, hdst⟩ := hc a rfl
    obtain ⟨inner, henter, hitems⟩ := Origin.holds_arr h
    have hedge : Edge.ofJson? inner a.edge.toJson = some a.edge :=
      Edge.ofJson?_toJson (hitems _ (by simp))
    exact cellOfJson?_arr henter (slotOfJson?_int hsrc) (slotOfJson?_int hdst) hedge

theorem Consistent.numbered (hg : g.Consistent) (hsize : g.nodes.cells.size ≤ UInt32.size) {a : Arc}
    (ha : some a ∈ g.arcs.used) : Numbered a := by
  obtain ⟨k, hk⟩ := Slots.mem_elements.mp (Slots.mem_elements_of_mem_used ha)
  obtain ⟨hs, hd⟩ := hg.ends k a hk
  obtain ⟨s, hs⟩ := Option.isSome_iff_exists.mp hs
  obtain ⟨d, hd⟩ := Option.isSome_iff_exists.mp hd
  exact ⟨Nat.lt_of_lt_of_le (Slots.lt_size_of_get? hs) hsize,
    Nat.lt_of_lt_of_le (Slots.lt_size_of_get? hd) hsize⟩

theorem lt_size_of_mem_vacant (hsize : g.nodes.cells.size ≤ UInt32.size) {i : Nat}
    (hi : i ∈ Slots.vacant g.nodes.used) : i < UInt32.size := by
  have hlt := (List.getElem?_eq_some_iff.mp (Slots.mem_vacant.mp hi)).1
  exact Nat.lt_of_lt_of_le hlt (Nat.le_trans g.nodes.length_used_le hsize)

theorem storedOfJson?_slotsToJson (hg : g.Consistent) (hsize : g.nodes.cells.size ≤ UInt32.size)
    (h : o.holds g.slotsToJson = true) : storedOfJson? o g.slotsToJson =
      some ⟨g.allNodes, Slots.vacant g.nodes.used, g.arcs.used⟩ := by
  obtain ⟨inner, henter, hmembers⟩ := Origin.holds_obj h
  simp only [List.forall_mem_cons] at hmembers
  obtain ⟨hnodes, hholes, _, hedges, _⟩ := hmembers
  have hnodes := Json.list?_map hnodes fun _ n _ => Node.ofJson?_toJson (n := n)
  have hholes : Json.list? inner (fun _ => slotOfJson?) _ = some _ :=
    Json.list?_map hholes fun _ i hi _ => slotOfJson?_int (lt_size_of_mem_vacant hsize hi)
  have hedges := Json.list?_map hedges fun _ c hc =>
    cellOfJson?_cellToJson fun a ha => hg.numbered hsize (ha ▸ hc)
  have hrecord : Json.record? o slotFields g.slotsToJson = some (inner, _) :=
    Json.record?_obj henter rfl (by simp)
  simp only [storedOfJson?, hrecord, List.map_cons, List.map_nil, hnodes, hholes, hedges,
    Json.plain?]
  rfl

/-- The cells of the nodes and of the edges are read back. -/
theorem slotsOfJson?_slotsToJson (hg : g.Consistent) (hsize : g.nodes.cells.size ≤ UInt32.size)
    (h : o.holds g.slotsToJson = true) :
    slotsOfJson? o g.slotsToJson = some (g.nodes.used, g.arcs.used) := by
  have hspread : Slots.spread 0 (Slots.vacant g.nodes.used) g.allNodes = some g.nodes.used := by
    rw [allNodes, ← Slots.reduceOption_used]
    exact Slots.spread_vacant g.nodes.used
  rw [slotsOfJson?, storedOfJson?_slotsToJson hg hsize h]
  simp only [hspread, Option.map_some]

theorem ofJson?_obj {inner : Origin} {j k : Json} {nodes : List (Option Node)}
    {arcs : List (Option Arc)} {nextId : UInt64} (henter : o.enter = some inner)
    (hslots : slotsOfJson? inner j = some (nodes, arcs)) (hnext : Json.uint64? k = some nextId) :
    ofJson? o (.obj [("graph", j), ("next_id", k)]) = ofCells? nodes arcs nextId := by
  have hrecord : Json.record? o [⟨"graph", .required⟩, ⟨"next_id", .required⟩]
      (.obj [("graph", j), ("next_id", k)]) = some (inner, [some j, some k]) :=
    Json.record?_obj henter rfl (by simp)
  simp only [ofJson?, hrecord, hslots, hnext]

theorem ofJson?_toJson (hg : g.Consistent) (hsize : g.nodes.cells.size ≤ UInt32.size)
    (h : o.holds g.toJson = true) :
    ofJson? o g.toJson = ofCells? g.nodes.used g.arcs.used g.nextId := by
  obtain ⟨inner, henter, hmembers⟩ := Origin.holds_obj h
  simp only [List.forall_mem_cons] at hmembers
  exact ofJson?_obj henter (slotsOfJson?_slotsToJson hg hsize hmembers.1)
    (Json.uint64?_ofUInt64 g.nextId)

/-! ## Texts -/

theorem WellFormed.mem_values_of_mem_used (hg : g.WellFormed) {a : Arc} {x : PropertyValue}
    (ha : some a ∈ g.arcs.used) (hx : x ∈ a.edge.properties.values) : x ∈ g.values := by
  have hmem := Slots.mem_elements_of_mem_used ha
  obtain ⟨k, hk⟩ := Slots.mem_elements.mp hmem
  obtain ⟨s, d, _, _, hlink⟩ := hg.link?_eq hk
  have hl : Link.mk s.id d.id a.edge ∈ g.allLinks := List.mem_filterMap.mpr ⟨a, hmem, hlink⟩
  exact mem_values_of_mem_allLinks hl hx

/-- How deep the text of a graph goes.  The values of an edge stand a level below those of a
node. -/
theorem fits_toJson_of_depth {k : Nat}
    (hnodes : ∀ n ∈ g.allNodes, ∀ x ∈ n.properties.values, x.depth ≤ k + 1)
    (harcs : ∀ a, some a ∈ g.arcs.used → ∀ x ∈ a.edge.properties.values, x.depth ≤ k) :
    g.toJson.fits (k + 6) = true := by
  have hcells : ∀ c ∈ g.arcs.used, (cellToJson c).fits (k + 3) = true := by
    intro c hc
    cases c with
    | none => rfl
    | some a =>
      rw [cellToJson, Json.fits_arr]
      simp only [List.forall_mem_cons]
      exact ⟨rfl, rfl, Edge.fits_toJson (harcs a hc), by simp⟩
  have hslots : g.slotsToJson.fits (k + 5) = true := by
    simp only [slotsToJson, Json.fits_obj, List.forall_mem_cons, Json.fits_arr, List.forall_mem_map]
    exact ⟨fun n hn => Node.fits_toJson (hnodes n hn), fun _ _ => rfl, rfl, hcells, by simp⟩
  simp only [toJson, Json.fits_obj, List.forall_mem_cons]
  exact ⟨hslots, rfl, by simp⟩

theorem WellFormed.fits_toJson (hg : g.WellFormed) {k : Nat} (h : ∀ x ∈ g.values, x.depth ≤ k) :
    g.toJson.fits (k + 6) = true :=
  fits_toJson_of_depth
    (fun _ hn x hx => Nat.le_succ_of_le (h x (mem_values_of_mem_allNodes hn hx)))
    fun _ ha x hx => h x (hg.mem_values_of_mem_used ha hx)

theorem Consistent.bounded_toJson (hg : g.Consistent) (hsize : g.nodes.cells.size ≤ UInt32.size) :
    g.toJson.Bounded := by
  have hslot : ∀ i : Nat, i < UInt32.size → Json.Bounded (.int i) := fun i hi =>
    Json.bounded_nat (Nat.lt_trans hi (by decide))
  have hcells : ∀ c ∈ g.arcs.used, (cellToJson c).Bounded := by
    intro c hc
    cases c with
    | none => exact trivial
    | some a =>
      obtain ⟨hsrc, hdst⟩ := hg.numbered hsize hc
      simp [cellToJson, Json.bounded_arr, hslot _ hsrc, hslot _ hdst, a.edge.bounded_toJson]
  have hslots : g.slotsToJson.Bounded := by
    simp only [slotsToJson, Json.bounded_obj, List.forall_mem_cons, Json.bounded_arr,
      List.forall_mem_map]
    exact ⟨fun n _ => n.bounded_toJson, fun i hi => hslot i (lt_size_of_mem_vacant hsize hi),
      trivial, hcells, by simp⟩
  simp only [toJson, Json.bounded_obj, List.forall_mem_cons]
  exact ⟨hslots, Json.bounded_ofUInt64 _, by simp⟩

/-- A text of a graph in either layout is read as the graph of its cells. -/
theorem Consistent.ofText?_render (hg : g.Consistent) (hsize : g.nodes.cells.size ≤ UInt32.size)
    (h : g.toJson.fits 127 = true) (l : Json.Layout) :
    ofText? (Json.render l g.toJson) = ofCells? g.nodes.used g.arcs.used g.nextId := by
  rw [ofText?, Json.ofString?_render l (hg.bounded_toJson hsize), Option.bind_some]
  exact ofJson?_toJson hg hsize h

/-! ## Loaded graphs -/

/-- The graph of two rows. -/
def ofRows (nodes : Slots Node) (arcs : Slots Arc) (nextId : UInt64) : Graph where
  nodes := nodes
  arcs := arcs
  recent := (arcs.toList.map Prod.fst).reverse
  index := nodes.toList.foldl (fun m e => m.insert e.2.id e.1) {}
  nextId := nextId

theorem ofCells?_eq_some {nodes : List (Option Node)} {arcs : List (Option Arc)}
    (h : ∀ a ∈ (Slots.ofCells arcs).elements, ((Slots.ofCells nodes).get? a.src).isSome ∧
      ((Slots.ofCells nodes).get? a.dst).isSome) (nextId : UInt64) :
    ofCells? nodes arcs nextId =
      some (ofRows (Slots.ofCells nodes) (Slots.ofCells arcs) nextId) := by
  have hall : ((Slots.ofCells arcs).elements.all fun a =>
      ((Slots.ofCells nodes).get? a.src).isSome && ((Slots.ofCells nodes).get? a.dst).isSome) =
        true := by
    simpa using h
  simp only [ofCells?, hall, if_true]
  rfl

section Rows

variable {nodes : Slots Node} {arcs : Slots Arc} {nextId : UInt64} {id : NodeId} {i : Nat}

theorem slot?_ofRows : (ofRows nodes arcs nextId).slot? id =
    (nodes.toList.reverse.find? fun e => e.2.id = id).map Prod.fst := by
  refine (getElem?_foldl_insert (fun e : Nat × Node => e.2.id) Prod.fst nodes.toList {} id).trans ?_
  rw [Std.TreeMap.getElem?_emptyc, Option.or_none]

theorem get?_of_slot?_ofRows (h : (ofRows nodes arcs nextId).slot? id = some i) :
    ∃ n, nodes.get? i = some n ∧ n.id = id := by
  rw [slot?_ofRows, Option.map_eq_some_iff] at h
  obtain ⟨⟨k, n⟩, hfind, rfl⟩ := h
  have hmem := List.mem_reverse.mp (List.mem_of_find?_eq_some hfind)
  exact ⟨n, Slots.mem_toList.mp hmem, by simpa using List.find?_some hfind⟩

theorem consistent_ofRows (hnodes : nodes.Sound) (harcs : arcs.Sound)
    (hends : ∀ k a, arcs.get? k = some a →
      (nodes.get? a.src).isSome ∧ (nodes.get? a.dst).isSome)
    (nextId : UInt64) : Consistent (ofRows nodes arcs nextId) where
  nodes := hnodes
  arcs := harcs
  nodup_recent := List.nodup_reverse.mpr arcs.nodup_map_fst_toList
  mem_recent := by
    intro k
    change k ∈ (arcs.toList.map Prod.fst).reverse ↔ (arcs.get? k).isSome
    rw [List.mem_reverse, List.mem_map, Option.isSome_iff_exists]
    constructor
    · rintro ⟨⟨k, a⟩, hmem, rfl⟩
      exact ⟨a, Slots.mem_toList.mp hmem⟩
    · rintro ⟨a, ha⟩
      exact ⟨(k, a), Slots.mem_toList.mpr ha, rfl⟩
  ends := hends
  get?_of_slot? := fun _ _ => get?_of_slot?_ofRows

theorem wellFormed_ofRows (hnodes : nodes.Sound) (harcs : arcs.Sound)
    (hends : ∀ k a, arcs.get? k = some a →
      (nodes.get? a.src).isSome ∧ (nodes.get? a.dst).isSome)
    (hids : ∀ i j n m, nodes.get? i = some n → nodes.get? j = some m → n.id = m.id → i = j)
    (nextId : UInt64) : WellFormed (ofRows nodes arcs nextId) := by
  refine (consistent_ofRows hnodes harcs hends nextId).wellFormed ?_
  intro i n hn
  -- the search finds a node of this id, and there is no other
  cases hslot : (ofRows nodes arcs nextId).slot? n.id with
  | none =>
    rw [slot?_ofRows, Option.map_eq_none_iff] at hslot
    have hmem := List.mem_reverse.mpr (Slots.mem_toList.mpr hn)
    simpa using List.find?_eq_none.mp hslot (i, n) hmem
  | some k =>
    obtain ⟨m, hm, hid⟩ := get?_of_slot?_ofRows hslot
    rw [hids k i m n hm hn hid]

end Rows

/-- Every graph of stored cells is consistent, also when an id is repeated. -/
theorem consistent_of_ofCells? {nodes : List (Option Node)} {arcs : List (Option Arc)}
    {nextId : UInt64} (h : ofCells? nodes arcs nextId = some g) : g.Consistent := by
  simp only [ofCells?] at h
  split at h
  · rename_i hall
    cases h
    refine consistent_ofRows (Slots.sound_ofCells _) (Slots.sound_ofCells _) ?_ nextId
    intro k a ha
    simpa using List.all_eq_true.mp hall a (Slots.mem_elements.mpr ⟨k, ha⟩)
  · cases h

/-- Graphs with the same elements in their slots have the same view. -/
theorem view_eq_of_get?_eq {g' : Graph} (hg : g.WellFormed) (hg' : g'.WellFormed)
    (hnodes : ∀ i, g'.nodes.get? i = g.nodes.get? i) (harcs : ∀ k, g'.arcs.get? k = g.arcs.get? k) :
    g'.view = g.view := by
  have hslot : g'.slot? = g.slot? := by
    funext id
    apply Option.ext
    intro i
    rw [hg'.slot?_iff, hg.slot?_iff, hnodes]
  have hnode : g'.node? = g.node? := by
    funext id
    rw [node?, node?, hslot, funext hnodes]
  have hlinks : g'.links.Perm g.links := by
    have hlink : (fun k => (g'.arcs.get? k).bind g'.link?) =
        fun k => (g.arcs.get? k).bind g.link? := by
      funext k
      rw [harcs]
      congr 1
      funext a
      rw [link?, link?, hnodes, hnodes]
    have hrecent : g'.recent.Perm g.recent := by
      refine (List.perm_ext_iff_of_nodup hg'.nodup_recent hg.nodup_recent).mpr fun k => ?_
      rw [hg'.mem_recent, hg.mem_recent, harcs]
    rw [links, links, linksOf, linksOf, hlink]
    exact hrecent.filterMap _
  rw [view, view, hnode, Multiset.coe_eq_coe.mpr (hlinks.map Link.view)]

/-- The graph of the stored cells of a graph. -/
def reloaded (g : Graph) : Graph :=
  ofRows (Slots.ofCells g.nodes.used) (Slots.ofCells g.arcs.used) g.nextId

theorem sameSlots_reloaded (g : Graph) : SameSlots g.reloaded g where
  nodes := fun i => (Slots.get?_ofCells _ i).trans (Slots.join_getElem?_used _ i)
  arcs := fun k => (Slots.get?_ofCells _ k).trans (Slots.join_getElem?_used _ k)

theorem Consistent.ends_reloaded (hg : g.Consistent) (k : Nat) (a : Arc)
    (ha : g.reloaded.arcs.get? k = some a) :
    (g.reloaded.nodes.get? a.src).isSome ∧ (g.reloaded.nodes.get? a.dst).isSome := by
  have hsame := g.sameSlots_reloaded
  rw [hsame.nodes, hsame.nodes]
  exact hg.ends k a (hsame.arcs k ▸ ha)

theorem Consistent.ofCells?_used (hg : g.Consistent) :
    ofCells? g.nodes.used g.arcs.used g.nextId = some g.reloaded := by
  refine ofCells?_eq_some ?_ g.nextId
  intro a ha
  obtain ⟨k, hk⟩ := Slots.mem_elements.mp ha
  exact hg.ends_reloaded k a hk

/-- A text of a graph in either layout is read. -/
theorem Consistent.read_render_of_fits (hg : g.Consistent)
    (hsize : g.nodes.cells.size ≤ UInt32.size) (h : g.toJson.fits 127 = true) (l : Json.Layout) :
    read (Json.render l g.toJson) = .ok g.reloaded := by
  rw [read, hg.ofText?_render hsize h l, hg.ofCells?_used]

namespace WellFormed

theorem reloaded (hg : g.WellFormed) : g.reloaded.WellFormed := by
  refine wellFormed_ofRows (Slots.sound_ofCells _) (Slots.sound_ofCells _)
    hg.consistent.ends_reloaded ?_ _
  intro i j n m hn hm
  have hsame := g.sameSlots_reloaded.nodes
  exact hg.slot_inj (hsame i ▸ hn) (hsame j ▸ hm)

theorem read_render (hg : g.WellFormed) (hsize : g.nodes.cells.size ≤ UInt32.size)
    (h : ∀ x ∈ g.values, x.depth ≤ 121) (l : Json.Layout) :
    read (Json.render l g.toJson) = .ok g.reloaded :=
  hg.consistent.read_render_of_fits hsize (hg.fits_toJson h) l

theorem view_reloaded (hg : g.WellFormed) : g.reloaded.view = g.view :=
  view_eq_of_get?_eq hg hg.reloaded g.sameSlots_reloaded.nodes g.sameSlots_reloaded.arcs

/-- A graph is read back from its text, up to what its view does not say. -/
theorem read_toCompactText (hg : g.WellFormed)
    (hsize : g.nodes.cells.size ≤ UInt32.size) (h : ∀ x ∈ g.values, x.depth ≤ 121) : ∃ g',
    read g.toCompactText = .ok g' ∧ g'.WellFormed ∧ g'.view = g.view :=
  ⟨g.reloaded, hg.read_render hsize h .compact, hg.reloaded, hg.view_reloaded⟩

end WellFormed

end CodeGraph.Graph
