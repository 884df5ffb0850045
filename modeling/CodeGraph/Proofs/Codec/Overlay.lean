import CodeGraph.Codec.Overlay
import CodeGraph.Proofs.Codec.Element

/-!
# Overlays read back

The bytes of an overlay are read back as that overlay (`Overlay.ofBytes_toBytes`).
A text holds 127 arrays and objects inside each other.  The values of an edge are
the deepest, below the overlay, its list, the entry, the edge and its properties,
and this leaves 122 levels for lists.
-/

namespace CodeGraph

open Json (Origin)

/-- The property values that a change carries. -/
def Change.values : Change → List PropertyValue
  | .createNode _ _ properties => properties.values
  | .createEdge _ _ edge | .removeEdge _ _ edge => edge.properties.values
  | .setProperty _ _ value | .addProperty _ _ value => [value]
  | .removeNode _ => []
  | .restoreProperty _ _ value => value.toList
  | .restoreNode node => node.properties.values

/-- The property values that a script carries. -/
def Diff.values (d : Diff) : List PropertyValue := d.changes.flatMap Change.values

namespace Change

/-! ## Fields of a variant -/

variable {α β : Type} {read : Json → Option α} {j k : Json}

theorem bounded_valueToJson (value : Option PropertyValue) : (valueToJson value).Bounded := by
  cases value with
  | none => trivial
  | some v => exact v.bounded_toJson

theorem valueOfJson?_valueToJson (value : Option PropertyValue) :
    valueOfJson? (some (valueToJson value)) = some value := by
  cases value with
  | none => rfl
  | some v =>
    have hv : PropertyValue.ofJson? .held v.toJson = some v := PropertyValue.ofJson?_toJson rfl
    have hnull : Json.nullable? (PropertyValue.ofJson? .held) v.toJson =
        (PropertyValue.ofJson? .held v.toJson).map some := by
      cases v <;> rfl
    exact hnull.trans (congrArg (Option.map some) hv)

theorem edgeOf?_obj {src dst : α} {edge : Edge} (make : α → α → Edge → β)
    (hsrc : read j = some src) (hdst : read k = some dst) :
    edgeOf? read make (.obj [("src", j), ("dst", k), ("edge", edge.toJson)]) =
      some (make src dst edge) := by
  have hedge : Edge.ofJson? .held edge.toJson = some edge := Edge.ofJson?_toJson rfl
  simp [edgeOf?, Json.body?_obj, hsrc, hdst, hedge]

theorem propertyOf?_obj {node : α} {key : String} {value : PropertyValue}
    (make : α → String → PropertyValue → β) (hnode : read j = some node) :
    propertyOf? read make (.obj [("node", j), ("key", .str key), ("value", value.toJson)]) =
      some (make node key value) := by
  have hvalue : PropertyValue.ofJson? .held value.toJson = some value :=
    PropertyValue.ofJson?_toJson rfl
  simp [propertyOf?, Json.body?_obj, Json.string?, hnode, hvalue]

theorem restorePropertyOf?_obj {id : NodeId} {key : String} {value : Option PropertyValue}
    (make : NodeId → String → Option PropertyValue → β) (hid : NodeId.ofJson? j = some id) :
    restorePropertyOf? make (.obj [("node", j), ("key", .str key), ("value", valueToJson value)]) =
      some (make id key value) := by
  simp [restorePropertyOf?, Json.body?_obj, Json.string?, hid, valueOfJson?_valueToJson]

theorem nodeOf?_obj {field : String} {node : α} (make : α → β) (hnode : read j = some node) :
    nodeOf? field read make (.obj [(field, j)]) = some (make node) := by
  simp [nodeOf?, Json.body?_obj, hnode]

end Change

namespace OverlayEntry

/-! ## Entries -/

variable {id : NodeId} {j k : Json}

theorem addNodeOf?_obj {kind : NodeKind} {p : Properties} (hid : NodeId.ofJson? j = some id)
    (hkind : NodeKind.ofJson? .held k = some kind) :
    addNodeOf? (.obj ([("id", j), ("kind", k)] ++ p.toMember)) = some (.addNode id kind p) := by
  have henter : Origin.held.enter = some .held := rfl
  have hheld : ∀ m ∈ p.toMember, Origin.held.holds m.2 = true := fun _ _ => rfl
  obtain ⟨last, hrecord, hlast⟩ := Properties.record?_toMember
    [⟨"id", .required⟩, ⟨"kind", .required⟩] [("id", j), ("kind", k)] henter rfl (by simp) hheld
  have hbody : Json.body? [⟨"id", .required⟩, ⟨"kind", .required⟩, ⟨"properties", .defaulted⟩]
      (.obj ([("id", j), ("kind", k)] ++ p.toMember)) = some [some j, some k, last] :=
    congrArg (Option.map Prod.snd) hrecord
  simp only [addNodeOf?, hbody, hid, hkind, hlast]

theorem ofJson?_toJson {o : Origin} {e : OverlayEntry} (h : o.holds e.toJson = true) :
    ofJson? o e.toJson = some e := by
  have hread : ∀ {tag : String} {rest : List (String × Json)},
      e.toJson = .obj (("op", .str tag) :: rest) → tag ∈ tags → (∀ m ∈ rest, m.1 ≠ "op") →
      ofJson? o e.toJson = ofTagged? tag (.obj rest) := by
    intro tag rest he htag hrest
    rw [he] at h ⊢
    rw [ofJson?, Json.tagged?_obj h htag hrest]
  cases e with
  | addNode id kind p =>
    have htag : ∀ m ∈ [("id", id.toJson), ("kind", kind.toJson)] ++ p.toMember, m.1 ≠ "op" := by
      simp only [List.cons_append, List.nil_append, List.forall_mem_cons]
      exact ⟨by simp, by simp, fun m hm => by simp [Properties.name_of_mem_toMember hm]⟩
    rw [hread rfl (by decide) htag]
    simp only [ofTagged?]
    exact addNodeOf?_obj id.ofJson?_toJson (NodeKind.ofJson?_toJson rfl)
  | addEdge src dst edge | removeEdge src dst edge =>
    rw [hread rfl (by decide) (by simp)]
    simp only [ofTagged?]
    exact Change.edgeOf?_obj _ src.ofJson?_toJson dst.ofJson?_toJson
  | setProperty id key value | appendProperty id key value =>
    rw [hread rfl (by decide) (by simp)]
    simp only [ofTagged?]
    exact Change.propertyOf?_obj _ id.ofJson?_toJson
  | removeNode id =>
    rw [hread rfl (by decide) (by simp)]
    simp only [ofTagged?]
    exact Change.nodeOf?_obj _ id.ofJson?_toJson
  | restoreProperty id key value =>
    rw [hread rfl (by decide) (by simp)]
    simp only [ofTagged?]
    exact Change.restorePropertyOf?_obj _ id.ofJson?_toJson

theorem bounded_toJson (e : OverlayEntry) : e.toJson.Bounded := by
  cases e with
  | addNode id kind p =>
    simp only [toJson, Json.bounded_obj, List.cons_append, List.nil_append, List.forall_mem_cons]
    exact ⟨trivial, Json.bounded_ofUInt64 _, kind.bounded_toJson, p.bounded_toMember⟩
  | addEdge src dst edge | removeEdge src dst edge =>
    simp [toJson, Json.bounded_obj, Json.Bounded, NodeId.toJson, Json.bounded_ofUInt64,
      edge.bounded_toJson]
  | setProperty id key value | appendProperty id key value =>
    simp [toJson, Json.bounded_obj, Json.Bounded, NodeId.toJson, Json.bounded_ofUInt64,
      value.bounded_toJson]
  | removeNode id =>
    simp [toJson, Json.bounded_obj, Json.Bounded, NodeId.toJson, Json.bounded_ofUInt64]
  | restoreProperty id key value =>
    simp [toJson, Json.bounded_obj, Json.Bounded, NodeId.toJson, Json.bounded_ofUInt64,
      Change.bounded_valueToJson]

theorem fits_toJson {e : OverlayEntry} {n : Nat} (h : ∀ v ∈ e.toChange.values, v.depth ≤ n) :
    e.toJson.fits (n + 3) = true := by
  have hid : ∀ id : NodeId, id.toJson.fits (n + 2) = true := fun _ => rfl
  have hstr : ∀ s, (Json.str s).fits (n + 2) = true := fun _ => rfl
  cases e with
  | addNode id kind p =>
    have hp : ∀ v ∈ p.values, v.depth ≤ n + 1 := fun v hv => Nat.le_succ_of_le (h v hv)
    simp only [toJson, Json.fits_obj, List.cons_append, List.nil_append, List.forall_mem_cons]
    exact ⟨rfl, rfl, kind.fits_toJson _, Properties.fits_toMember hp⟩
  | addEdge src dst edge | removeEdge src dst edge =>
    simp [toJson, Json.fits_obj, hid, hstr, Edge.fits_toJson h]
  | setProperty id key value | appendProperty id key value =>
    have hvalue : value.depth ≤ n + 2 :=
      Nat.le_add_right_of_le (h value (by simp [toChange, Change.values]))
    simp [toJson, Json.fits_obj, hid, hstr, value.fits_toJson hvalue]
  | removeNode id => simp [toJson, Json.fits_obj, hid, hstr]
  | restoreProperty id key value =>
    have hvalue : (Change.valueToJson value).fits (n + 2) = true := by
      cases value with
      | none => rfl
      | some v =>
        have hv : v.depth ≤ n := h v (by simp [toChange, Change.values])
        exact v.fits_toJson (Nat.le_add_right_of_le hv)
    simp [toJson, Json.fits_obj, hid, hstr, hvalue]

end OverlayEntry

/-! ## Overlays -/

namespace Overlay

variable {o : Overlay}

theorem ofJson?_toJson {origin : Origin} (h : origin.holds o.toJson = true) :
    ofJson? origin o.toJson = some o := by
  obtain ⟨inner, henter, hmembers⟩ := Origin.holds_obj h
  have hentries := Json.list?_map (hmembers _ (List.mem_singleton_self _))
    fun inner e _ => OverlayEntry.ofJson?_toJson (e := e)
  simp [ofJson?, toJson, Json.record?_obj henter, hentries]

theorem bounded_toJson (o : Overlay) : o.toJson.Bounded := by
  rw [toJson, Json.bounded_obj, List.forall_mem_singleton, Json.bounded_arr, List.forall_mem_map]
  exact fun e _ => e.bounded_toJson

theorem fits_toJson {n : Nat} (h : ∀ v ∈ o.toDiff.values, v.depth ≤ n) :
    o.toJson.fits (n + 5) = true := by
  rw [toJson, Json.fits_obj, List.forall_mem_singleton, Json.fits_arr, List.forall_mem_map]
  intro e he
  refine OverlayEntry.fits_toJson fun v hv => h v ?_
  exact List.mem_flatMap.mpr ⟨e.toChange, List.mem_map_of_mem he, hv⟩

theorem ofBytes_toBytes_of_fits (h : o.toJson.fits 127 = true) : ofBytes o.toBytes = .ok o := by
  have hread : ofJson? .top o.toJson = some o := ofJson?_toJson h
  rw [ofBytes, toBytes, Json.compact, Json.ofBytes?_render .compact o.bounded_toJson,
    Option.bind_some, hread]

/-- An overlay is read back from its bytes. -/
theorem ofBytes_toBytes (h : ∀ v ∈ o.toDiff.values, v.depth ≤ 122) :
    ofBytes o.toBytes = .ok o :=
  ofBytes_toBytes_of_fits (fits_toJson h)

end Overlay

end CodeGraph
