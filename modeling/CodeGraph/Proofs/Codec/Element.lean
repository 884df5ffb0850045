import CodeGraph.Codec.Edge
import CodeGraph.Codec.Node
import CodeGraph.Proofs.Property

/-!
# Nodes and edges read back

A record or variant is read back from the value that it was written as, provided
that the value can be held back where it stands.  This condition is passed on from
an object to its members (`Origin.holds_obj`), so it has to be checked once, at the
top of a text.  There it is a bound on the depth of the property values, since all
other parts have a depth of their own.
-/

namespace CodeGraph

namespace Json

variable {o inner : Origin} {n : Nat}

/-! ## Depth -/

theorem fits_arr {js : List Json} : fits (n + 1) (.arr js) = true ↔ ∀ j ∈ js, fits n j = true := by
  rw [fits]
  induction js with
  | nil => simp [allFit]
  | cons j js ih => simp [allFit, ih]

theorem fits_obj {ms : List (String × Json)} :
    fits (n + 1) (.obj ms) = true ↔ ∀ m ∈ ms, fits n m.2 = true := by
  rw [fits]
  induction ms with
  | nil => simp [membersFit]
  | cons m ms ih => simp [membersFit, ih]

/-- The items of an array that can be held back can be held back. -/
theorem Origin.holds_arr {js : List Json} (h : o.holds (.arr js) = true) :
    ∃ inner, o.enter = some inner ∧ ∀ j ∈ js, inner.holds j = true := by
  cases o with
  | held => exact ⟨.held, rfl, fun _ _ => rfl⟩
  | text levels =>
    cases levels with
    | zero => cases h
    | succ n => exact ⟨.text n, rfl, fits_arr.mp h⟩

/-- The members of an object that can be held back can be held back. -/
theorem Origin.holds_obj {ms : List (String × Json)} (h : o.holds (.obj ms) = true) :
    ∃ inner, o.enter = some inner ∧ ∀ m ∈ ms, inner.holds m.2 = true := by
  cases o with
  | held => exact ⟨.held, rfl, fun _ _ => rfl⟩
  | text levels =>
    cases levels with
    | zero => cases h
    | succ n => exact ⟨.text n, rfl, fits_obj.mp h⟩

/-! ## Scalars and arrays -/

theorem natBelow?_int {bound k : Nat} (h : k < bound) : natBelow? bound (.int k) = some k := by
  simp [natBelow?, h]

@[simp]
theorem uint64?_ofUInt64 (n : UInt64) : uint64? (ofUInt64 n) = some n := by
  rw [uint64?, ofUInt64, natBelow?_int n.toNat_lt_size, Option.map_some, UInt64.ofNat_toNat]

@[simp]
theorem uint32?_ofUInt32 (n : UInt32) : uint32? (ofUInt32 n) = some n := by
  rw [uint32?, ofUInt32, natBelow?_int n.toNat_lt_size, Option.map_some, UInt32.ofNat_toNat]

theorem bounded_nat {k : Nat} (h : k < UInt64.size) : Bounded (.int k) := by
  have h : k < 18446744073709551616 := h
  rw [Bounded]
  omega

theorem bounded_ofUInt64 (n : UInt64) : (ofUInt64 n).Bounded := bounded_nat n.toNat_lt_size

theorem bounded_ofUInt32 (n : UInt32) : (ofUInt32 n).Bounded := by
  have h : n.toNat < 4294967296 := n.toNat_lt_size
  exact bounded_nat (Nat.lt_trans h (by decide))

/-- An array is read back if its items are. -/
theorem list?_map {α : Type} {read : Origin → Json → Option α} {write : α → Json} {as : List α}
    (h : o.holds (.arr (as.map write)) = true)
    (hread : ∀ inner, ∀ a ∈ as, inner.holds (write a) = true → read inner (write a) = some a) :
    list? o read (.arr (as.map write)) = some as := by
  obtain ⟨inner, henter, hitems⟩ := Origin.holds_arr h
  have hall : ∀ a ∈ as, read inner (write a) = some a := fun a ha =>
    hread inner a ha (hitems _ (List.mem_map_of_mem ha))
  simp only [list?, henter]
  clear h hread hitems
  induction as with
  | nil => rfl
  | cons a as ih =>
    obtain ⟨ha, has⟩ := List.forall_mem_cons.mp hall
    rw [List.map_cons, List.mapM_cons, ha, ih has]
    rfl

/-! ## Records and variants -/

theorem filter_eq_nil {ms : List (String × Json)} {name : String} (h : ∀ m ∈ ms, m.1 ≠ name) :
    ms.filter (·.1 = name) = [] := by
  refine List.filter_eq_nil_iff.mpr ?_
  intro m hm
  simpa using h m hm

theorem filter_eq_singleton {ms : List (String × Json)} {m : String × Json} (hm : m ∈ ms)
    (hnodup : (ms.map Prod.fst).Nodup) : ms.filter (·.1 = m.1) = [m] := by
  induction ms with
  | nil => cases hm
  | cons k ms ih =>
    obtain ⟨hk, hms⟩ := List.nodup_cons.mp hnodup
    rcases List.mem_cons.mp hm with rfl | hm
    · have hnone : ms.filter (·.1 = m.1) = [] :=
        filter_eq_nil fun l hl hname => hk (List.mem_map.mpr ⟨l, hl, hname⟩)
      rw [List.filter_cons_of_pos (by simp), hnone]
    · have hne : ¬ k.1 = m.1 := fun hname => hk (List.mem_map.mpr ⟨m, hm, hname.symm⟩)
      rw [List.filter_cons_of_neg (by simpa using hne), ih hm hms]

theorem mapM_ofMembers? {ms ms' : List (String × Json)} {fields : List Field}
    (hnodup : (ms.map Prod.fst).Nodup) (hsub : ms' ⊆ ms)
    (hnames : fields.map Field.name = ms'.map Prod.fst) :
    fields.mapM (Field.ofMembers? ms) = some (ms'.map fun m => some m.2) := by
  induction fields generalizing ms' with
  | nil =>
    rw [List.map_nil, eq_comm, List.map_eq_nil_iff] at hnames
    rw [hnames]
    rfl
  | cons f fields ih =>
    cases ms' with
    | nil => cases hnames
    | cons m ms' =>
      obtain ⟨hname, hnames⟩ := List.cons.inj hnames
      obtain ⟨hm, hms'⟩ := List.cons_subset.mp hsub
      have hfield : Field.ofMembers? ms f = some (some m.2) := by
        rw [Field.ofMembers?, hname, filter_eq_singleton hm hnodup]
      rw [List.mapM_cons, hfield, ih hms' hnames]
      rfl

/-- An object that has the fields of a record and nothing else. -/
theorem record?_obj {fields : List Field} {ms : List (String × Json)}
    (henter : o.enter = some inner) (hnames : fields.map Field.name = ms.map Prod.fst)
    (hnodup : (ms.map Prod.fst).Nodup) :
    record? o fields (.obj ms) = some (inner, ms.map fun m => some m.2) := by
  simp only [record?, henter, mapM_ofMembers? hnodup (List.Subset.refl ms) hnames, Option.map_some]

theorem body?_obj {fields : List Field} {ms : List (String × Json)}
    (hnames : fields.map Field.name = ms.map Prod.fst) (hnodup : (ms.map Prod.fst).Nodup) :
    body? fields (.obj ms) = some (ms.map fun m => some m.2) := by
  rw [body?, record?_obj rfl hnames hnodup, Option.map_some]

/-- An object whose first member is the tag. -/
theorem tagged?_obj {tag label : String} {labels : List String} {ms : List (String × Json)}
    (h : o.holds (.obj ((tag, .str label) :: ms)) = true) (hlabel : label ∈ labels)
    (htag : ∀ m ∈ ms, m.1 ≠ tag) :
    tagged? o tag labels (.obj ((tag, .str label) :: ms)) = some (label, .obj ms) := by
  have hrest : ms.filter (·.1 ≠ tag) = ms := by
    refine List.filter_eq_self.mpr ?_
    intro m hm
    simpa using htag m hm
  rw [tagged?, if_pos h]
  simp only [List.filter_cons_of_pos, filter_eq_nil htag, decide_true]
  rw [List.filter_cons_of_neg (by simp), hrest, label?, if_pos hlabel, Option.map_some]

end Json

open Json (Origin)

/-! ## Properties -/

namespace PropertyValue

mutual

theorem fits_toJson {n : Nat} : (v : PropertyValue) → v.depth ≤ n → v.toJson.fits n = true
  | .bool _, _ => rfl
  | .int _, _ => rfl
  | .str _, _ => rfl
  | .list items, h => by
    rw [depth] at h
    cases n with
    | zero => cases h
    | succ n =>
      rw [toJson, Json.fits]
      exact allFit_toJsonList items (Nat.le_of_succ_le_succ h)

theorem allFit_toJsonList {n : Nat} : (vs : List PropertyValue) → depthList vs ≤ n →
    Json.allFit n (toJsonList vs) = true
  | [], _ => rfl
  | v :: vs, h => by
    rw [depthList] at h
    rw [toJsonList, Json.allFit, fits_toJson v (Nat.le_trans (Nat.le_max_left _ _) h),
      allFit_toJsonList vs (Nat.le_trans (Nat.le_max_right _ _) h)]
    rfl

end

theorem ofJson?_toJson {o : Origin} {v : PropertyValue} (h : o.holds v.toJson = true) :
    ofJson? o v.toJson = some v := by
  rw [ofJson?, if_pos h, ofHeld?_toJson]

end PropertyValue

namespace Properties

variable {o : Origin}

theorem insert_of_not_mem (es : Entries) {key : String} (h : key ∉ es.keys) (v : PropertyValue) :
    es.insert key v = es ++ [(key, v)] := by
  induction es with
  | nil => rfl
  | cons e es ih =>
    obtain ⟨hne, hes⟩ := List.ne_and_not_mem_of_not_mem_cons h
    rw [Entries.insert, if_neg (Ne.symm hne), ih hes, List.cons_append]

/-- Entries with new names are put in one after the other at the end. -/
theorem entries_foldl_insert (es : Entries) (p : Properties)
    (h : (p.entries ++ es).keys.Nodup) :
    (es.foldl (fun p e => p.insert e.1 e.2) p).entries = p.entries ++ es := by
  induction es generalizing p with
  | nil => simp
  | cons e es ih =>
    have hnew : e.1 ∉ p.entries.keys := by
      rw [Entries.keys, List.map_append, List.map_cons, List.nodup_middle] at h
      exact fun hmem => (List.nodup_cons.mp h).1 (List.mem_append_left _ hmem)
    have hinsert : (p.insert e.1 e.2).entries = p.entries ++ [e] := insert_of_not_mem _ hnew e.2
    rw [List.foldl_cons, ih, hinsert, List.append_assoc, List.singleton_append]
    rw [hinsert, List.append_assoc, List.singleton_append]
    exact h

theorem ofList_entries (p : Properties) : ofList p.entries = p := by
  have hentries : (ofList p.entries).entries = p.entries := entries_foldl_insert _ empty p.nodup
  cases p
  rwa [Properties.mk.injEq]

/-- A map is read back with its order. -/
theorem ofJson?_toJson {p : Properties} (h : o.holds p.toJson = true) :
    ofJson? o p.toJson = some p := by
  obtain ⟨inner, henter, hmembers⟩ := Origin.holds_obj h
  have hread : ∀ es : Entries, (∀ e ∈ es, inner.holds e.2.toJson = true) →
      ((membersOf es).mapM fun m => (PropertyValue.ofJson? inner m.2).map (m.1, ·)) = some es := by
    intro es hes
    induction es with
    | nil => rfl
    | cons e es ih =>
      obtain ⟨he, hes⟩ := List.forall_mem_cons.mp hes
      rw [membersOf, List.map_cons, List.mapM_cons, PropertyValue.ofJson?_toJson he,
        ← membersOf, ih hes]
      rfl
  have hvalues : ∀ e ∈ p.entries, inner.holds e.2.toJson = true := fun e he =>
    hmembers _ (List.mem_map_of_mem he)
  simp only [toJson, ofJson?, henter, hread p.entries hvalues, Option.map_some, ofList_entries]

theorem fits_toJson {p : Properties} {n : Nat} (h : ∀ v ∈ p.values, v.depth ≤ n) :
    p.toJson.fits (n + 1) = true := by
  refine Json.fits_obj.mpr ?_
  intro m hm
  obtain ⟨e, he, rfl⟩ := List.mem_map.mp hm
  exact e.2.fits_toJson (h e.2 (List.mem_map_of_mem he))

/-- The last member of a record holds its properties, or is left out and stands for none. -/
theorem toMember_cases (p : Properties) :
    p.toMember = [] ∧ p = {} ∨ p.toMember = [("properties", p.toJson)] := by
  obtain ⟨es, hes⟩ := p
  cases es with
  | nil => exact .inl ⟨rfl, rfl⟩
  | cons e es => exact .inr rfl

/-- A record whose last field is its properties. -/
theorem record?_toMember {inner : Origin} (fields : List Json.Field) (ms : List (String × Json))
    {p : Properties} (henter : o.enter = some inner)
    (hnames : fields.map Json.Field.name = ms.map Prod.fst)
    (hnodup : (ms.map Prod.fst ++ ["properties"]).Nodup)
    (hp : ∀ m ∈ p.toMember, inner.holds m.2 = true) : ∃ last,
    Json.record? o (fields ++ [⟨"properties", .defaulted⟩]) (.obj (ms ++ p.toMember)) =
      some (inner, ms.map (fun m => some m.2) ++ [last]) ∧ ofMember? inner last = some p := by
  rcases p.toMember_cases with ⟨hm, rfl⟩ | hm
  · obtain ⟨hms, _, hne⟩ := List.nodup_append.mp hnodup
    have hlast : Json.Field.ofMembers? ms ⟨"properties", .defaulted⟩ = some none := by
      have hnone : ms.filter (·.1 = "properties") = [] := Json.filter_eq_nil fun m hm =>
        hne m.1 (List.mem_map_of_mem hm) "properties" (List.mem_singleton_self _)
      rw [Json.Field.ofMembers?, hnone]
      rfl
    refine ⟨none, ?_, rfl⟩
    simp [Json.record?, hm, henter, Json.mapM_ofMembers? hms (List.Subset.refl ms) hnames, hlast]
  · rw [hm, List.forall_mem_singleton] at hp
    refine ⟨some p.toJson, ?_, ofJson?_toJson hp⟩
    rw [hm, Json.record?_obj henter (by simp [hnames]) (by simpa using hnodup), List.map_append]
    rfl

theorem name_of_mem_toMember {p : Properties} {m : String × Json} (h : m ∈ p.toMember) :
    m.1 = "properties" := by
  rcases p.toMember_cases with ⟨hm, _⟩ | hm
  · simp [hm] at h
  · simp [hm] at h
    rw [h]

theorem bounded_toMember (p : Properties) : ∀ m ∈ p.toMember, m.2.Bounded := by
  rcases p.toMember_cases with ⟨hm, _⟩ | hm
  · simp [hm]
  · rw [hm, List.forall_mem_singleton]
    exact bounded_membersOf p.entries

theorem fits_toMember {p : Properties} {n : Nat} (h : ∀ v ∈ p.values, v.depth ≤ n) :
    ∀ m ∈ p.toMember, m.2.fits (n + 1) = true := by
  rcases p.toMember_cases with ⟨hm, _⟩ | hm
  · simp [hm]
  · rw [hm, List.forall_mem_singleton]
    exact fits_toJson h

end Properties

/-! ## Edges -/

namespace Edge

variable {o : Origin} {e : Edge}

theorem kindOfJson?_toJson (k : EdgeKind) : EdgeKind.ofJson? o k.toJson = some k := by
  cases k <;> rfl

theorem ofJson?_toJson (h : o.holds e.toJson = true) : ofJson? o e.toJson = some e := by
  obtain ⟨inner, henter, hmembers⟩ := Origin.holds_obj h
  obtain ⟨last, hrecord, hlast⟩ := Properties.record?_toMember [⟨"kind", .required⟩]
    [("kind", e.kind.toJson)] henter rfl (by simp) (List.forall_mem_cons.mp hmembers).2
  have hrecord : Json.record? o fields e.toJson = some (inner, [some e.kind.toJson, last]) :=
    hrecord
  simp only [ofJson?, hrecord, kindOfJson?_toJson, hlast]

theorem bounded_toJson (e : Edge) : e.toJson.Bounded := by
  rw [toJson, Json.bounded_obj, List.singleton_append, List.forall_mem_cons]
  exact ⟨trivial, e.properties.bounded_toMember⟩

theorem fits_toJson {n : Nat} (h : ∀ v ∈ e.properties.values, v.depth ≤ n) :
    e.toJson.fits (n + 2) = true := by
  rw [toJson, Json.fits_obj, List.singleton_append, List.forall_mem_cons]
  exact ⟨rfl, Properties.fits_toMember h⟩

end Edge

/-! ## Nodes -/

namespace NodeId

@[simp]
theorem ofJson?_toJson (id : NodeId) : ofJson? id.toJson = some id := by
  rw [ofJson?, toJson, Json.uint64?_ofUInt64, Option.map_some]

end NodeId

namespace NodeKind

variable {o : Origin} {k : NodeKind}

theorem ofPlace?_obj {first second a : String} {j : Json} {b : UInt32}
    (make : String → UInt32 → NodeKind) (hne : first ≠ second) (hb : Json.uint32? j = some b) :
    ofPlace? first second make (.obj [(first, .str a), (second, j)]) = some (make a b) := by
  simp [ofPlace?, Json.body?_obj, Json.string?, hne, hb]

theorem ofJson?_toJson (h : o.holds k.toJson = true) : ofJson? o k.toJson = some k := by
  have hread : ∀ {tag : String} {rest : List (String × Json)},
      k.toMembers = ("label", .str tag) :: rest → tag ∈ tags → (∀ m ∈ rest, m.1 ≠ "label") →
      ofJson? o k.toJson = ofTagged? tag (.obj rest) := by
    intro tag rest hk htag hrest
    rw [toJson, hk] at h ⊢
    rw [ofJson?, Json.tagged?_obj h htag hrest]
  cases k with
  | method | call =>
    rw [hread rfl (by decide) (by simp)]
    simp [ofTagged?, ofTexts?, Json.body?_obj, Json.string?]
  | parameter | identifier | literal =>
    rw [hread rfl (by decide) (by simp)]
    simp only [ofTagged?]
    exact ofPlace?_obj _ (by decide) (Json.uint32?_ofUInt32 _)
  | controlStructure | ret | loc | unknown =>
    rw [hread rfl (by decide) (by simp)]
    simp [ofTagged?, ofText?, Json.body?_obj, Json.string?]
  | methodReturn | block =>
    rw [hread rfl (by decide) (by simp)]
    rfl

theorem bounded_toJson (k : NodeKind) : k.toJson.Bounded := by
  rw [toJson, Json.bounded_obj]
  cases k <;> simp [toMembers, Json.Bounded, Json.bounded_ofUInt32]

theorem fits_toJson (n : Nat) (k : NodeKind) : k.toJson.fits (n + 1) = true := by
  rw [toJson, Json.fits_obj]
  cases k <;> simp [toMembers, Json.ofUInt32, Json.fits]

end NodeKind

namespace Node

variable {o : Origin} {n : Node}

theorem ofJson?_obj {inner : Origin} {id : NodeId} {kind : NodeKind} {p : Properties} {j k : Json}
    (henter : o.enter = some inner) (hid : NodeId.ofJson? j = some id)
    (hkind : NodeKind.ofJson? inner k = some kind)
    (hp : ∀ m ∈ p.toMember, inner.holds m.2 = true) :
    ofJson? o (.obj ([("id", j), ("kind", k)] ++ p.toMember)) = some ⟨id, kind, p⟩ := by
  obtain ⟨last, hrecord, hlast⟩ := Properties.record?_toMember
    [⟨"id", .required⟩, ⟨"kind", .required⟩] [("id", j), ("kind", k)] henter rfl (by simp) hp
  have hrecord : Json.record? o fields (.obj ([("id", j), ("kind", k)] ++ p.toMember)) =
      some (inner, [some j, some k, last]) := hrecord
  simp only [ofJson?, hrecord, hid, hkind, hlast]

theorem ofJson?_toJson (h : o.holds n.toJson = true) : ofJson? o n.toJson = some n := by
  obtain ⟨inner, henter, hmembers⟩ := Origin.holds_obj h
  obtain ⟨_, hkind, hp⟩ := by simpa only [List.cons_append, List.forall_mem_cons] using hmembers
  exact ofJson?_obj henter n.id.ofJson?_toJson (NodeKind.ofJson?_toJson hkind) hp

theorem bounded_toJson (n : Node) : n.toJson.Bounded := by
  rw [toJson, Json.bounded_obj]
  simp only [List.cons_append, List.nil_append, List.forall_mem_cons]
  exact ⟨Json.bounded_ofUInt64 _, n.kind.bounded_toJson, n.properties.bounded_toMember⟩

theorem fits_toJson {k : Nat} (h : ∀ v ∈ n.properties.values, v.depth ≤ k) :
    n.toJson.fits (k + 2) = true := by
  rw [toJson, Json.fits_obj]
  simp only [List.cons_append, List.nil_append, List.forall_mem_cons]
  exact ⟨rfl, n.kind.fits_toJson k, Properties.fits_toMember h⟩

end Node

end CodeGraph
