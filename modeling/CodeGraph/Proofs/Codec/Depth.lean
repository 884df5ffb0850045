import CodeGraph.Proofs.Codec.Reread
import Mathlib

/-!
# Graphs that are too deep for a text

A text has at most 127 arrays and objects inside each other, and nothing bounds the depth of a
property value.  So there are graphs whose own text is not read.  Which ones these are is told from
their values (`Graph.isShallow`): a graph is read back from its text if it is shallow, and else the
text is malformed (`Graph.Consistent.read_render`).

The lemmas `depth_of_toJson` follow the levels of a text from a property value up to the slots of a
graph: if something is read from the JSON of a thing, the values of that thing are not too deep.
-/

namespace CodeGraph

/-! ## What the reader comes to -/

namespace Json

theorem exists_of_mapM_eq_some {α β : Type} {read : α → Option β} {as : List α} {bs : List β}
    {a : α} (h : as.mapM read = some bs) (ha : a ∈ as) : ∃ b, read a = some b := by
  induction as generalizing bs with
  | nil => cases ha
  | cons c as ih =>
    rw [List.mapM_cons] at h
    obtain ⟨b, hb, h⟩ := Option.bind_eq_some_iff.mp h
    obtain ⟨bs, hbs, _⟩ := Option.bind_eq_some_iff.mp h
    rcases List.mem_cons.mp ha with rfl | ha
    · exact ⟨b, hb⟩
    · exact ih hbs ha

theorem exists_of_list?_map {α β : Type} {n : Nat} {read : Origin → Json → Option β}
    {write : α → Json} {as : List α} {bs : List β}
    (h : list? (.text n) read (.arr (as.map write)) = some bs) :
    ∃ m, n = m + 1 ∧ ∀ a ∈ as, ∃ b, read (.text m) (write a) = some b := by
  rw [list?] at h
  split at h
  · rename_i henter
    obtain ⟨m, rfl, rfl⟩ := eq_of_enter_text henter
    exact ⟨m, rfl, fun a ha => exists_of_mapM_eq_some h (List.mem_map_of_mem ha)⟩
  · cases h

/-- A text that can be cut into tokens starts with these. -/
theorem Token.scanStartLoop_eq {input : List Text.Symbol} {ts : List Token} (h : Scans input ts)
    {fuel : Nat} (hfuel : input.length ≤ fuel) (acc : List Token) :
    scanStartLoop fuel acc input = acc.reverse ++ ts := by
  induction h generalizing fuel acc with
  | nil => cases fuel <;> simp [scanStartLoop]
  | blank hc _ ih =>
    rw [List.length_cons] at hfuel
    obtain ⟨fuel, rfl⟩ : ∃ f, fuel = f + 1 := ⟨fuel - 1, by omega⟩
    rw [scanStartLoop, if_pos hc]
    exact ih (by omega) acc
  | token hc hnext hlength _ ih =>
    rw [List.length_cons] at hfuel
    obtain ⟨fuel, rfl⟩ : ∃ f, fuel = f + 1 := ⟨fuel - 1, by omega⟩
    rw [scanStartLoop, if_neg (by simp [hc]), hnext]
    simp [ih (Nat.le_trans hlength (Nat.le_of_succ_le_succ hfuel))]

theorem Token.scanStart_render (l : Layout) {j : Json} (hj : j.Bounded) :
    scanStart (Text.symbolsOfString (render l j)) = j.tokens := by
  have hscans := scansBack l j hj 0 [] [] trivial .nil
  rw [List.append_nil] at hscans
  rw [Text.symbolsOfString, render, String.toList_ofList, scanStart,
    scanStartLoop_eq hscans (Nat.le_refl _)]
  rfl

end Json

/-! ## Levels -/

theorem PropertyValue.depth_of_toJson {n : Nat} {v w : PropertyValue}
    (h : ofJson? (.text n) v.toJson = some w) : v.depth ≤ n := by
  unfold ofJson? at h
  split at h
  · next hfits => exact depth_le_of_fits v hfits
  · cases h

theorem Properties.depth_of_toJson {n : Nat} {p q : Properties}
    (h : ofJson? (.text n) p.toJson = some q) : ∀ v ∈ p.values, v.depth + 1 ≤ n := by
  intro v hv
  obtain ⟨e, he, rfl⟩ := List.mem_map.mp hv
  rw [toJson, ofJson?] at h
  split at h
  · rename_i henter
    obtain ⟨m, rfl, rfl⟩ := Json.eq_of_enter_text henter
    obtain ⟨es, hes, _⟩ := Option.map_eq_some_iff.mp h
    obtain ⟨b, hb⟩ := Json.exists_of_mapM_eq_some hes (List.mem_map_of_mem he)
    obtain ⟨w, hw, _⟩ := Option.map_eq_some_iff.mp hb
    exact Nat.succ_le_succ (PropertyValue.depth_of_toJson hw)
  · cases h

/-- A record whose last member holds its properties. -/
theorem Properties.depth_of_record? {n : Nat} {p : Properties} {inner : Json.Origin}
    {fields : List Json.Field} {ms : List (String × Json)} {last : Option Json} {q : Properties}
    (vs : List (Option Json))
    (hnames : fields.map Json.Field.name = ms.map Prod.fst ++ ["properties"])
    (hnodup : (ms.map Prod.fst ++ ["properties"]).Nodup)
    (hrecord : Json.record? (.text n) fields (.obj (ms ++ p.toMember)) =
      some (inner, vs ++ [last]))
    (hlast : ofMember? inner last = some q) : ∀ v ∈ p.values, v.depth + 2 ≤ n := by
  rcases p.toMember_cases with ⟨_, rfl⟩ | hm
  · exact fun v hv => absurd hv List.not_mem_nil
  · obtain ⟨m, rfl, rfl⟩ := Json.eq_of_enter_text (Json.enter_of_record? hrecord)
    rw [hm, Json.record?_obj rfl (by simpa using hnames) (by simpa using hnodup), List.map_append]
      at hrecord
    obtain ⟨-, hvalues⟩ := Prod.mk.inj (Option.some.inj hrecord)
    obtain ⟨-, hsame⟩ := List.append_inj' hvalues rfl
    cases hsame
    exact fun v hv => Nat.succ_le_succ (depth_of_toJson hlast v hv)

theorem Node.depth_of_toJson {n : Nat} {node other : Node}
    (h : ofJson? (.text n) node.toJson = some other) :
    ∀ v ∈ node.properties.values, v.depth + 2 ≤ n := by
  unfold ofJson? at h
  split at h
  · rename_i inner id kind properties hrecord
    split at h
    · rename_i hproperties
      exact Properties.depth_of_record? [some id, some kind] rfl (by simp) hrecord hproperties
    · cases h
  · cases h

theorem Edge.depth_of_toJson {n : Nat} {e other : Edge}
    (h : ofJson? (.text n) e.toJson = some other) :
    ∀ v ∈ e.properties.values, v.depth + 2 ≤ n := by
  unfold ofJson? at h
  split at h
  · rename_i inner kind properties hrecord
    split at h
    · rename_i hproperties
      exact Properties.depth_of_record? [some kind] rfl (by simp) hrecord hproperties
    · cases h
  · cases h

namespace Graph

variable {g : Graph} {n : Nat}

theorem depth_of_cellOfJson?_arr {src dst : Json} {edge : Edge} {c : Option Arc}
    (h : cellOfJson? (.text n) (.arr [src, dst, edge.toJson]) = some c) :
    ∀ v ∈ edge.properties.values, v.depth + 3 ≤ n := by
  simp only [cellOfJson?] at h
  split at h
  · rename_i henter
    obtain ⟨m, rfl, rfl⟩ := Json.eq_of_enter_text henter
    split at h
    · rename_i hedge
      exact fun v hv => Nat.succ_le_succ (Edge.depth_of_toJson hedge v hv)
    · cases h
  · cases h

/-- The slots of a graph are read only if no value is too deep. -/
theorem depth_of_slotsToJson {s : StoredSlots}
    (h : storedOfJson? (.text n) g.slotsToJson = some s) :
    (∀ node ∈ g.allNodes, ∀ v ∈ node.properties.values, v.depth + 4 ≤ n) ∧
      ∀ a, some a ∈ g.arcs.used → ∀ v ∈ a.edge.properties.values, v.depth + 5 ≤ n := by
  unfold storedOfJson? at h
  split at h
  · rename_i hrecord
    obtain ⟨m, rfl, rfl⟩ := Json.eq_of_enter_text (Json.enter_of_record? hrecord)
    rw [slotsToJson, Json.record?_obj rfl rfl (by simp)] at hrecord
    cases hrecord
    split at h
    · rename_i hnodes _ _ harcs
      obtain ⟨k, rfl, hread⟩ := Json.exists_of_list?_map hnodes
      obtain ⟨_, hk, hcells⟩ := Json.exists_of_list?_map harcs
      cases hk
      refine ⟨fun node hnode v hv => ?_, fun a ha v hv => ?_⟩
      · obtain ⟨other, hother⟩ := hread node hnode
        exact Nat.add_le_add_right (Node.depth_of_toJson hother v hv) 2
      · obtain ⟨c, hc⟩ := hcells (some a) ha
        exact Nat.add_le_add_right (depth_of_cellOfJson?_arr hc v hv) 2
    · cases h
  · cases h

/-! ## Graphs -/

/-- Whether no value is deeper than a text of the graph can have it. -/
def isShallow (g : Graph) : Bool :=
  (g.allNodes.all fun n => n.properties.values.all fun x => x.depth ≤ 122) &&
    g.arcs.elements.all fun a => a.edge.properties.values.all fun x => x.depth ≤ 121

theorem isShallow_iff : g.isShallow = true ↔
    (∀ n ∈ g.allNodes, ∀ x ∈ n.properties.values, x.depth ≤ 122) ∧
      ∀ a ∈ g.arcs.elements, ∀ x ∈ a.edge.properties.values, x.depth ≤ 121 := by
  simp only [isShallow, Bool.and_eq_true, List.all_eq_true, decide_eq_true_eq]

theorem fits_toJson_of_isShallow (h : g.isShallow = true) : g.toJson.fits 127 = true := by
  obtain ⟨hnodes, harcs⟩ := isShallow_iff.mp h
  exact fits_toJson_of_depth hnodes fun a ha => harcs a (Slots.mem_elements_of_mem_used ha)

theorem storedOfJson?_of_deep (h : g.isShallow = false) :
    storedOfJson? (.text 126) g.slotsToJson = none := by
  rw [Option.eq_none_iff_forall_not_mem]
  intro s hs
  obtain ⟨hnodes, harcs⟩ := depth_of_slotsToJson hs
  refine Bool.eq_false_iff.mp h (isShallow_iff.mpr ⟨fun n hn x hx => ?_, fun a ha x hx => ?_⟩)
  · exact Nat.le_of_add_le_add_right (hnodes n hn x hx)
  · rw [← Slots.reduceOption_used, List.reduceOption_mem_iff] at ha
    exact Nat.le_of_add_le_add_right (harcs a ha x hx)

theorem ofJson?_of_deep (h : g.isShallow = false) : ofJson? .top g.toJson = none := by
  have hrecord : Json.record? .top [⟨"graph", .required⟩, ⟨"next_id", .required⟩] g.toJson =
      some (.text 126, [some g.slotsToJson, some (Json.ofUInt64 g.nextId)]) :=
    Json.record?_obj rfl rfl (by simp)
  simp only [ofJson?, hrecord, slotsOfJson?, storedOfJson?_of_deep h]

/-- The slots come first in the text of a graph, so a gap could only be found there. -/
theorem gapIn_render (hg : g.toJson.Bounded) (l : Json.Layout) :
    gapIn (Json.render l g.toJson) = gapInSlots (.text 126) g.slotsToJson := by
  have hvalue : ∀ ts, valueAt? (g.slotsToJson.tokens ++ ts) = some (g.slotsToJson, ts) := by
    intro ts
    refine Json.readsBack g.slotsToJson _ ts ?_
    rw [List.length_append]
    omega
  rw [gapIn, Json.Token.scanStart_render l hg]
  simp only [Json.Origin.top, Json.Origin.enter, toJson, Json.tokens,
    List.length_cons, gapInMembers, hvalue, if_true]

/-- A graph is read back from a text of its own just when it is shallow. -/
theorem Consistent.read_render (hg : g.Consistent) (hsize : g.nodes.cells.size ≤ UInt32.size)
    (l : Json.Layout) : read (Json.render l g.toJson) =
      if g.isShallow then .ok g.reloaded else .error .malformed := by
  have hbounded := hg.bounded_toJson hsize
  cases hshallow : g.isShallow with
  | true => exact hg.read_render_of_fits hsize (fits_toJson_of_isShallow hshallow) l
  | false =>
    have htext : ofText? (Json.render l g.toJson) = none := by
      rw [ofText?, Json.ofString?_render l hbounded, Option.bind_some, ofJson?_of_deep hshallow]
    have hgap : gapIn (Json.render l g.toJson) = false := by
      rw [gapIn_render hbounded l, gapInSlots, storedOfJson?_of_deep hshallow]
    rw [read, htext, hgap]
    rfl

end Graph

end CodeGraph
