import CodeGraph.Proofs.Codec.Overlay

/-!
# Edit scripts read back

The text of an edit script is read back as that script (`Diff.ofText?_toText`), with
the order of all properties.  The depth that a text allows is used up as in an
overlay.  An edge and a node that is put back are both one level below their change,
and their properties one level below them, so 122 levels are left for lists.
-/

namespace CodeGraph

open Json (Origin)

/-! ## References -/

theorem NewKey.ofJson?_toJson (key : NewKey) : ofJson? key.toJson = some key := by
  rw [ofJson?, toJson, Json.uint32?_ofUInt32, Option.map_some]

namespace NodeRef

variable {j : Json}

theorem ofJson?_existing {id : NodeId} (hid : NodeId.ofJson? j = some id) :
    ofJson? .held (.obj [("Existing", j)]) = some (.existing id) := by
  have hwrapped : Json.wrapped? .held (.obj [("Existing", j)]) = some ("Existing", j) := rfl
  simp only [ofJson?, hwrapped, hid, Option.map_some]

theorem ofJson?_new {key : NewKey} (hkey : NewKey.ofJson? j = some key) :
    ofJson? .held (.obj [("New", j)]) = some (.new key) := by
  have hwrapped : Json.wrapped? .held (.obj [("New", j)]) = some ("New", j) := rfl
  simp only [ofJson?, hwrapped, hkey, Option.map_some]

theorem ofJson?_toJson (ref : NodeRef) : ofJson? .held ref.toJson = some ref := by
  cases ref with
  | existing id => exact ofJson?_existing id.ofJson?_toJson
  | new key => exact ofJson?_new key.ofJson?_toJson

theorem bounded_toJson (ref : NodeRef) : ref.toJson.Bounded := by
  cases ref with
  | existing id => simp [toJson, Json.bounded_obj, NodeId.toJson, Json.bounded_ofUInt64]
  | new key => simp [toJson, Json.bounded_obj, NewKey.toJson, Json.bounded_ofUInt32]

theorem fits_toJson (n : Nat) (ref : NodeRef) : ref.toJson.fits (n + 1) = true := by
  cases ref <;> exact Json.fits_obj.mpr (List.forall_mem_singleton.mpr rfl)

end NodeRef

/-! ## Changes -/

namespace Change

variable {j k : Json}

theorem createNodeOf?_obj {key : NewKey} {kind : NodeKind} {p : Properties}
    (hkey : NewKey.ofJson? j = some key) (hkind : NodeKind.ofJson? .held k = some kind) :
    createNodeOf? (.obj [("key", j), ("kind", k), ("properties", p.toJson)]) =
      some (.createNode key kind p) := by
  have hp : Properties.ofJson? .held p.toJson = some p := Properties.ofJson?_toJson rfl
  simp [createNodeOf?, Json.body?_obj, hkey, hkind, hp]

theorem ofJson?_toJson {o : Origin} {c : Change} (h : o.holds c.toJson = true) :
    ofJson? o c.toJson = some c := by
  have hread : ∀ {tag : String} {rest : List (String × Json)},
      c.toJson = .obj (("op", .str tag) :: rest) → tag ∈ tags → (∀ m ∈ rest, m.1 ≠ "op") →
      ofJson? o c.toJson = ofTagged? tag (.obj rest) := by
    intro tag rest hc htag hrest
    rw [hc] at h ⊢
    rw [ofJson?, Json.tagged?_obj h htag hrest]
  cases c with
  | createNode key kind p =>
    rw [hread rfl (by decide) (by simp)]
    simp only [ofTagged?]
    exact createNodeOf?_obj key.ofJson?_toJson (NodeKind.ofJson?_toJson rfl)
  | createEdge src dst edge =>
    rw [hread rfl (by decide) (by simp)]
    simp only [ofTagged?]
    exact edgeOf?_obj _ src.ofJson?_toJson dst.ofJson?_toJson
  | setProperty ref key value | addProperty ref key value =>
    rw [hread rfl (by decide) (by simp)]
    simp only [ofTagged?]
    exact propertyOf?_obj _ ref.ofJson?_toJson
  | removeNode id =>
    rw [hread rfl (by decide) (by simp)]
    simp only [ofTagged?]
    exact nodeOf?_obj _ id.ofJson?_toJson
  | removeEdge src dst edge =>
    rw [hread rfl (by decide) (by simp)]
    simp only [ofTagged?]
    exact edgeOf?_obj _ src.ofJson?_toJson dst.ofJson?_toJson
  | restoreProperty id key value =>
    rw [hread rfl (by decide) (by simp)]
    simp only [ofTagged?]
    exact restorePropertyOf?_obj _ id.ofJson?_toJson
  | restoreNode node =>
    rw [hread rfl (by decide) (by simp)]
    simp only [ofTagged?]
    exact nodeOf?_obj _ (Node.ofJson?_toJson rfl)

theorem bounded_toJson (c : Change) : c.toJson.Bounded := by
  have hid : ∀ id : NodeId, id.toJson.Bounded := fun id => Json.bounded_ofUInt64 id.value
  have hstr : ∀ s, (Json.str s).Bounded := fun _ => trivial
  cases c with
  | createNode key kind p =>
    have hkey : key.toJson.Bounded := Json.bounded_ofUInt32 key.value
    have hp : p.toJson.Bounded := Properties.bounded_membersOf p.entries
    simp [toJson, Json.bounded_obj, hstr, hkey, kind.bounded_toJson, hp]
  | createEdge src dst edge =>
    simp [toJson, Json.bounded_obj, hstr, NodeRef.bounded_toJson, edge.bounded_toJson]
  | setProperty ref key value | addProperty ref key value =>
    simp [toJson, Json.bounded_obj, hstr, NodeRef.bounded_toJson, value.bounded_toJson]
  | removeNode id => simp [toJson, Json.bounded_obj, hstr, hid]
  | removeEdge src dst edge => simp [toJson, Json.bounded_obj, hstr, hid, edge.bounded_toJson]
  | restoreProperty id key value =>
    simp [toJson, Json.bounded_obj, hstr, hid, bounded_valueToJson]
  | restoreNode node => simp [toJson, Json.bounded_obj, hstr, node.bounded_toJson]

theorem fits_toJson {c : Change} {n : Nat} (h : ∀ v ∈ c.values, v.depth ≤ n) :
    c.toJson.fits (n + 3) = true := by
  have hid : ∀ id : NodeId, id.toJson.fits (n + 2) = true := fun _ => rfl
  have hkey : ∀ key : NewKey, key.toJson.fits (n + 2) = true := fun _ => rfl
  have hstr : ∀ s, (Json.str s).fits (n + 2) = true := fun _ => rfl
  have hvalue : ∀ v ∈ c.values, v.toJson.fits (n + 2) = true := fun v hv =>
    v.fits_toJson (Nat.le_add_right_of_le (h v hv))
  cases c with
  | createNode key kind p =>
    have hp : p.toJson.fits (n + 2) = true :=
      Properties.fits_toJson fun v hv => Nat.le_succ_of_le (h v hv)
    simp [toJson, Json.fits_obj, hkey, hstr, NodeKind.fits_toJson, hp]
  | createEdge src dst edge =>
    simp [toJson, Json.fits_obj, hstr, NodeRef.fits_toJson, Edge.fits_toJson h]
  | setProperty ref key value | addProperty ref key value =>
    simp [toJson, Json.fits_obj, hstr, NodeRef.fits_toJson,
      hvalue value (List.mem_singleton_self _)]
  | removeNode id => simp [toJson, Json.fits_obj, hid, hstr]
  | removeEdge src dst edge => simp [toJson, Json.fits_obj, hid, hstr, Edge.fits_toJson h]
  | restoreProperty id key value =>
    have hvalue : (valueToJson value).fits (n + 2) = true := by
      cases value with
      | none => rfl
      | some v => exact hvalue v (List.mem_singleton_self _)
    simp [toJson, Json.fits_obj, hid, hstr, hvalue]
  | restoreNode node => simp [toJson, Json.fits_obj, hstr, Node.fits_toJson h]

end Change

/-! ## Scripts -/

namespace Diff

variable {d : Diff}

theorem ofJson?_toJson {o : Origin} (h : o.holds d.toJson = true) :
    ofJson? o d.toJson = some d := by
  obtain ⟨inner, henter, hmembers⟩ := Origin.holds_obj h
  have hchanges := Json.list?_map (hmembers _ (List.mem_singleton_self _))
    fun inner c _ => Change.ofJson?_toJson (c := c)
  simp [ofJson?, toJson, Json.record?_obj henter, hchanges]

theorem bounded_toJson (d : Diff) : d.toJson.Bounded := by
  rw [toJson, Json.bounded_obj, List.forall_mem_singleton, Json.bounded_arr, List.forall_mem_map]
  exact fun c _ => c.bounded_toJson

theorem fits_toJson {n : Nat} (h : ∀ v ∈ d.values, v.depth ≤ n) :
    d.toJson.fits (n + 5) = true := by
  rw [toJson, Json.fits_obj, List.forall_mem_singleton, Json.fits_arr, List.forall_mem_map]
  intro c hc
  exact Change.fits_toJson fun v hv => h v (List.mem_flatMap.mpr ⟨c, hc, hv⟩)

/-- A script is read back from its text. -/
theorem ofText?_toText (h : ∀ v ∈ d.values, v.depth ≤ 122) : ofText? d.toText = some d := by
  rw [ofText?, toText, Json.compact, Json.ofString?_render .compact d.bounded_toJson,
    Option.bind_some]
  exact ofJson?_toJson (fits_toJson h)

end Diff

end CodeGraph
