import CodeGraph.Proofs.Codec.Diff
import Mathlib

/-!
# Overlays read and written again

A text can be spelled in many ways.  Fields may be in any order, records may be
arrays, an empty map may be left out or not.  Reading a text and writing what was
read gives the one spelling of this library, so doing it twice changes nothing more
(`Overlay.recode_of_recode`).

For this the overlay that was read must be written no deeper than the text that it
was read from.  It is not: a part that is read from a level is written at that level,
and what a text may leave out is left out when it is written.  No bound on the depth of
the values is needed beyond the one that the text was read under.
-/

namespace CodeGraph

open Json (Origin Field)

/-! ## The parts of a value -/

namespace Json

variable {o inner : Origin} {j : Json} {n : Nat}

/-- What is read from a list comes from an item of it. -/
theorem exists_of_mem_mapM {α β : Type} {read : α → Option β} {as : List α} {bs : List β} {b : β}
    (h : as.mapM read = some bs) (hb : b ∈ bs) : ∃ a ∈ as, read a = some b := by
  induction as generalizing bs with
  | nil =>
    cases h
    cases hb
  | cons a as ih =>
    rw [List.mapM_cons] at h
    obtain ⟨c, hc, h⟩ := Option.bind_eq_some_iff.mp h
    obtain ⟨cs, hcs, h⟩ := Option.bind_eq_some_iff.mp h
    cases h
    rcases List.mem_cons.mp hb with rfl | hb
    · exact ⟨a, List.mem_cons_self, hc⟩
    · obtain ⟨a', ha', hread⟩ := ih hcs hb
      exact ⟨a', List.mem_cons_of_mem a ha', hread⟩

theorem mem_of_ofMembers? {ms : List (String × Json)} {f : Field}
    (h : Field.ofMembers? ms f = some (some j)) : ∃ m ∈ ms, m.2 = j := by
  unfold Field.ofMembers? at h
  split at h
  · split at h <;> cases h
  · rename_i name _ hfilter
    cases h
    have hmem : (name, j) ∈ ms.filter (·.1 = f.name) := hfilter ▸ List.mem_singleton_self _
    exact ⟨(name, j), (List.mem_filter.mp hmem).1, rfl⟩
  · cases h

theorem mem_of_ofItems? {fields : List Field} {js : List Json} {vs : List (Option Json)}
    (h : Field.ofItems? fields js = some vs) (hj : some j ∈ vs) : j ∈ js := by
  induction fields generalizing js vs with
  | nil =>
    cases js with
    | nil =>
      cases h
      cases hj
    | cons k js => cases h
  | cons f fields ih =>
    cases js with
    | nil =>
      rw [Field.ofItems?] at h
      split at h
      · obtain ⟨ws, hws, rfl⟩ := Option.map_eq_some_iff.mp h
        exact ih hws (List.mem_of_ne_of_mem (Option.some_ne_none j) hj)
      · cases h
    | cons k js =>
      rw [Field.ofItems?] at h
      obtain ⟨ws, hws, rfl⟩ := Option.map_eq_some_iff.mp h
      rcases List.mem_cons.mp hj with hk | hj
      · exact List.mem_cons.mpr (.inl (Option.some.inj hk))
      · exact List.mem_cons_of_mem k (ih hws hj)

theorem enter_of_record? {fields : List Field} {vs : List (Option Json)}
    (h : record? o fields j = some (inner, vs)) : o.enter = some inner := by
  unfold record? at h
  split at h
  · rename_i henter
    obtain ⟨_, _, heq⟩ := Option.map_eq_some_iff.mp h
    cases heq
    exact henter
  · rename_i henter
    obtain ⟨_, _, heq⟩ := Option.map_eq_some_iff.mp h
    cases heq
    exact henter
  · cases h

theorem exists_of_mem_list? {α : Type} {read : Origin → Json → Option α} {as : List α} {a : α}
    (h : list? o read j = some as) (ha : a ∈ as) :
    ∃ inner k, o.enter = some inner ∧ read inner k = some a := by
  unfold list? at h
  split at h
  · split at h
    · rename_i henter
      obtain ⟨k, _, hk⟩ := exists_of_mem_mapM h ha
      exact ⟨_, k, henter, hk⟩
    · cases h
  · cases h

/-- The fields of a record stand one level below it. -/
theorem fits_of_record? {fields : List Field} {vs : List (Option Json)} (h : j.fits n = true)
    (hrecord : record? o fields j = some (inner, vs)) :
    ∃ m, n = m + 1 ∧ ∀ v, some v ∈ vs → v.fits m = true := by
  unfold record? at hrecord
  split at hrecord
  · rename_i ms _
    obtain ⟨ws, hws, heq⟩ := Option.map_eq_some_iff.mp hrecord
    cases heq
    cases n with
    | zero => cases h
    | succ m =>
      refine ⟨m, rfl, fun v hv => ?_⟩
      obtain ⟨f, _, hf⟩ := exists_of_mem_mapM hws hv
      obtain ⟨member, hmember, rfl⟩ := mem_of_ofMembers? hf
      exact fits_obj.mp h member hmember
  · rename_i js _
    obtain ⟨ws, hws, heq⟩ := Option.map_eq_some_iff.mp hrecord
    cases heq
    cases n with
    | zero => cases h
    | succ m => exact ⟨m, rfl, fun v hv => fits_arr.mp h v (mem_of_ofItems? hws hv)⟩
  · cases hrecord

theorem fits_of_body? {fields : List Field} {vs : List (Option Json)} (h : j.fits n = true)
    (hbody : body? fields j = some vs) :
    ∃ m, n = m + 1 ∧ ∀ v, some v ∈ vs → v.fits m = true := by
  obtain ⟨⟨_, ws⟩, hrecord, rfl⟩ := Option.map_eq_some_iff.mp hbody
  exact fits_of_record? h hrecord

/-- What is left of a tagged value without its tag stands at its level. -/
theorem fits_of_tagged? {tag label : String} {labels : List String} {rest : Json}
    (h : j.fits n = true) (htagged : tagged? o tag labels j = some (label, rest)) :
    rest.fits n = true ∧ ∃ m, n = m + 1 := by
  unfold tagged? at htagged
  split at htagged
  · split at htagged
    · split at htagged
      · obtain ⟨_, _, heq⟩ := Option.map_eq_some_iff.mp htagged
        cases heq
        cases n with
        | zero => cases h
        | succ m =>
          refine ⟨fits_obj.mpr fun member hmember => ?_, m, rfl⟩
          exact fits_obj.mp h member (List.mem_filter.mp hmember).1
      · cases htagged
    · obtain ⟨_, _, heq⟩ := Option.map_eq_some_iff.mp htagged
      cases heq
      cases n with
      | zero => cases h
      | succ m =>
        refine ⟨fits_arr.mpr fun k hk => ?_, m, rfl⟩
        exact fits_arr.mp h k (List.mem_cons_of_mem _ hk)
    · cases htagged
  · cases htagged

/-- A tagged value is held back, so it fits where it stands. -/
theorem fits_of_tagged?_text {tag : String} {labels : List String} {result : String × Json}
    (htagged : tagged? (.text n) tag labels j = some result) : j.fits n = true := by
  unfold tagged? at htagged
  split at htagged
  · rename_i h
    exact h
  · cases htagged

end Json

/-! ## Values that were read are written no deeper -/

namespace PropertyValue

mutual

/-- A value has one spelling. -/
theorem toJson_of_ofHeld? : (j : Json) → {v : PropertyValue} → ofHeld? j = some v → v.toJson = j
  | .bool _, _, h => by
    cases h
    rfl
  | .int n, _, h => by
    rw [ofHeld?, Json.int64?] at h
    split at h
    · rename_i hn
      cases h
      rw [toJson, Int64.toInt_ofInt_of_le (by omega) (by omega)]
    · cases h
  | .str _, _, h => by
    cases h
    rfl
  | .arr items, _, h => by
    rw [ofHeld?] at h
    obtain ⟨vs, hvs, rfl⟩ := Option.map_eq_some_iff.mp h
    rw [toJson, toJsonList_of_ofHeldList? items hvs]
  | .null, _, h => by cases h
  | .real, _, h => by cases h
  | .obj _, _, h => by cases h
  | .flawed, _, h => by cases h

theorem toJsonList_of_ofHeldList? : (js : List Json) → {vs : List PropertyValue} →
    ofHeldList? js = some vs → toJsonList vs = js
  | [], _, h => by
    cases h
    rfl
  | j :: js, _, h => by
    rw [ofHeldList?] at h
    split at h
    · rename_i v vs hv hvs
      cases h
      rw [toJsonList, toJson_of_ofHeld? j hv, toJsonList_of_ofHeldList? js hvs]
    · cases h

end

theorem fits_of_ofJson? {o : Origin} {j : Json} {v : PropertyValue} {n : Nat} (h : j.fits n = true)
    (hread : ofJson? o j = some v) : v.toJson.fits n = true := by
  unfold ofJson? at hread
  split at hread
  · rw [toJson_of_ofHeld? j hread]
    exact h
  · cases hread

end PropertyValue

namespace Properties

variable {o : Origin} {p : Properties} {n : Nat}

/-- The values of a map come from the entries that it was made of. -/
theorem exists_of_mem_ofList {es : List (String × PropertyValue)} {v : PropertyValue}
    (h : v ∈ (ofList es).values) : ∃ e ∈ es, e.2 = v := by
  have hfold : ∀ (es : List (String × PropertyValue)) (p : Properties) (key : String),
      (es.foldl (fun p e => p.insert e.1 e.2) p).get? key = some v →
      p.get? key = some v ∨ ∃ e ∈ es, e.2 = v := by
    intro es
    induction es with
    | nil => exact fun p key hkey => .inl hkey
    | cons e es ih =>
      intro p key hkey
      rcases ih _ key hkey with hkey | ⟨e', he', hv⟩
      · rw [get?_insert, Function.update_apply] at hkey
        split at hkey
        · exact .inr ⟨e, List.mem_cons_self, Option.some.inj hkey⟩
        · exact .inl hkey
      · exact .inr ⟨e', List.mem_cons_of_mem e he', hv⟩
  obtain ⟨key, hkey⟩ := mem_values_iff.mp h
  rcases hfold es empty key hkey with hempty | he
  · cases hempty
  · exact he

theorem fits_of_ofJson? {j : Json} (h : j.fits n = true) (hread : ofJson? o j = some p) :
    p.toJson.fits n = true := by
  unfold ofJson? at hread
  split at hread
  · rename_i members
    split at hread
    · obtain ⟨es, hes, rfl⟩ := Option.map_eq_some_iff.mp hread
      cases n with
      | zero => cases h
      | succ m =>
        refine Json.fits_obj.mpr ?_
        intro member hmember
        obtain ⟨e, he, rfl⟩ := List.mem_map.mp hmember
        obtain ⟨e', he', hv⟩ := exists_of_mem_ofList (List.mem_map_of_mem he)
        obtain ⟨source, hsource, hread⟩ := Json.exists_of_mem_mapM hes he'
        obtain ⟨v, hvalue, rfl⟩ := Option.map_eq_some_iff.mp hread
        change e.2.toJson.fits m = true
        rw [← hv]
        exact PropertyValue.fits_of_ofJson? (Json.fits_obj.mp h source hsource) hvalue
    · cases hread
  · cases hread

/-- A map that was left out is left out again. -/
theorem fits_of_ofMember? {j : Option Json} (h : ∀ k, j = some k → k.fits n = true)
    (hread : ofMember? o j = some p) : ∀ m ∈ p.toMember, m.2.fits n = true := by
  cases j with
  | none =>
    cases hread
    intro m hm
    cases hm
  | some k =>
    have hp := fits_of_ofJson? (h k rfl) hread
    rcases p.toMember_cases with ⟨hm, _⟩ | hm
    · simp [hm]
    · simpa [hm] using hp

end Properties

theorem NodeKind.fits_of_ofJson? {o : Origin} {j : Json} {k : NodeKind} {n : Nat}
    (h : j.fits n = true) (hread : ofJson? o j = some k) : k.toJson.fits n = true := by
  unfold ofJson? at hread
  split at hread
  · rename_i tag rest htagged
    obtain ⟨_, m, rfl⟩ := Json.fits_of_tagged? h htagged
    exact k.fits_toJson m
  · cases hread

theorem Edge.fits_of_ofJson? {o : Origin} {j : Json} {e : Edge} {n : Nat} (h : j.fits n = true)
    (hread : ofJson? o j = some e) : e.toJson.fits n = true := by
  unfold ofJson? at hread
  split at hread
  · rename_i kind properties hrecord
    split at hread
    · rename_i k p hkind hp
      cases hread
      obtain ⟨m, rfl, hvs⟩ := Json.fits_of_record? h hrecord
      have hp := Properties.fits_of_ofMember? (n := m) (fun k hk => hvs k (by simp [hk])) hp
      rw [toJson, Json.fits_obj, List.singleton_append, List.forall_mem_cons]
      exact ⟨rfl, hp⟩
    · cases hread
  · cases hread

namespace OverlayEntry

variable {j rest : Json} {e : OverlayEntry} {n : Nat}

theorem fits_of_addNodeOf? (h : rest.fits n = true) (hread : addNodeOf? rest = some e) :
    e.toJson.fits n = true := by
  unfold addNodeOf? at hread
  split at hread
  · rename_i id kind properties hbody
    split at hread
    · rename_i i k p hid hkind hp
      cases hread
      obtain ⟨m, rfl, hvs⟩ := Json.fits_of_body? h hbody
      have hkind := NodeKind.fits_of_ofJson? (hvs kind (by simp)) hkind
      have hp := Properties.fits_of_ofMember? (n := m) (fun k hk => hvs k (by simp [hk])) hp
      simp only [toJson, Json.fits_obj, List.cons_append, List.nil_append, List.forall_mem_cons]
      exact ⟨rfl, rfl, hkind, hp⟩
    · cases hread
  · cases hread

/-- An entry of three fields, of which the last may be deep. -/
theorem fits_obj {tag a b c : String} {i k l : Json} (hi : i.fits n = true) (hk : k.fits n = true)
    (hl : l.fits n = true) :
    (Json.obj [("op", .str tag), (a, i), (b, k), (c, l)]).fits (n + 1) = true := by
  simp only [Json.fits_obj, List.forall_mem_cons]
  exact ⟨rfl, hi, hk, hl, by simp⟩

theorem fits_of_edgeOf? {make : NodeId → NodeId → Edge → OverlayEntry}
    (hmake : ∀ m src dst edge, edge.toJson.fits m = true →
      (make src dst edge).toJson.fits (m + 1) = true)
    (h : rest.fits n = true) (hread : Change.edgeOf? NodeId.ofJson? make rest = some e) :
    e.toJson.fits n = true := by
  unfold Change.edgeOf? at hread
  split at hread
  · rename_i src dst edge hbody
    split at hread
    · rename_i hedge
      cases hread
      obtain ⟨m, rfl, hvs⟩ := Json.fits_of_body? h hbody
      exact hmake m _ _ _ (Edge.fits_of_ofJson? (hvs edge (by simp)) hedge)
    · cases hread
  · cases hread

theorem fits_of_propertyOf? {make : NodeId → String → PropertyValue → OverlayEntry}
    (hmake : ∀ m node key value, value.toJson.fits m = true →
      (make node key value).toJson.fits (m + 1) = true)
    (h : rest.fits n = true) (hread : Change.propertyOf? NodeId.ofJson? make rest = some e) :
    e.toJson.fits n = true := by
  unfold Change.propertyOf? at hread
  split at hread
  · rename_i node key value hbody
    split at hread
    · rename_i hvalue
      cases hread
      obtain ⟨m, rfl, hvs⟩ := Json.fits_of_body? h hbody
      exact hmake m _ _ _ (PropertyValue.fits_of_ofJson? (hvs value (by simp)) hvalue)
    · cases hread
  · cases hread

theorem fits_of_removeNode (h : rest.fits n = true)
    (hread : Change.nodeOf? "id" NodeId.ofJson? removeNode rest = some e) :
    e.toJson.fits n = true := by
  unfold Change.nodeOf? at hread
  split at hread
  · rename_i id hbody
    obtain ⟨m, rfl, _⟩ := Json.fits_of_body? h hbody
    obtain ⟨i, _, rfl⟩ := Option.map_eq_some_iff.mp hread
    simp only [toJson, Json.fits_obj, List.forall_mem_cons]
    exact ⟨rfl, rfl, by simp⟩
  · cases hread

theorem fits_of_valueOfJson? {k : Option Json} {value : Option PropertyValue}
    (h : ∀ l, k = some l → l.fits n = true) (hread : Change.valueOfJson? k = some value) :
    (Change.valueToJson value).fits n = true := by
  cases value with
  | none => rfl
  | some v =>
    cases k with
    | none => cases hread
    | some l =>
      have hvalue : PropertyValue.ofJson? .held l = some v := by
        rw [Change.valueOfJson?, Json.nullable?.eq_def] at hread
        split at hread
        · cases hread
        · obtain ⟨w, hw, heq⟩ := Option.map_eq_some_iff.mp hread
          cases heq
          exact hw
      exact PropertyValue.fits_of_ofJson? (h l rfl) hvalue

theorem fits_of_restoreProperty (h : rest.fits n = true)
    (hread : Change.restorePropertyOf? restoreProperty rest = some e) :
    e.toJson.fits n = true := by
  unfold Change.restorePropertyOf? at hread
  split at hread
  · rename_i node key value hbody
    split at hread
    · rename_i hvalue
      cases hread
      obtain ⟨m, rfl, hvs⟩ := Json.fits_of_body? h hbody
      exact fits_obj rfl rfl (fits_of_valueOfJson? (fun l hl => hvs l (by simp [hl])) hvalue)
    · cases hread
  · cases hread

theorem fits_of_ofTagged? {tag : String} (h : rest.fits n = true)
    (hread : ofTagged? tag rest = some e) : e.toJson.fits n = true := by
  unfold ofTagged? at hread
  split at hread
  · exact fits_of_addNodeOf? h hread
  · exact fits_of_edgeOf? (fun m src dst edge => fits_obj rfl rfl) h hread
  · exact fits_of_propertyOf? (fun m node key value => fits_obj rfl rfl) h hread
  · exact fits_of_propertyOf? (fun m node key value => fits_obj rfl rfl) h hread
  · exact fits_of_removeNode h hread
  · exact fits_of_edgeOf? (fun m src dst edge => fits_obj rfl rfl) h hread
  · exact fits_of_restoreProperty h hread
  · cases hread

/-- An entry is written no deeper than it may stand where it was read. -/
theorem fits_of_ofJson? (hread : ofJson? (.text n) j = some e) : e.toJson.fits n = true := by
  unfold ofJson? at hread
  split at hread
  · rename_i tag rest htagged
    obtain ⟨hrest, _⟩ := Json.fits_of_tagged? (Json.fits_of_tagged?_text htagged) htagged
    exact fits_of_ofTagged? hrest hread
  · cases hread

end OverlayEntry

namespace Overlay

theorem fits_of_ofJson? {j : Json} {o : Overlay} (hread : ofJson? .top j = some o) :
    o.toJson.fits 127 = true := by
  unfold ofJson? at hread
  split at hread
  · rename_i inner entries hrecord
    cases Json.enter_of_record? hrecord
    obtain ⟨es, hes, rfl⟩ := Option.map_eq_some_iff.mp hread
    rw [toJson, Json.fits_obj, List.forall_mem_singleton, Json.fits_arr, List.forall_mem_map]
    intro e he
    obtain ⟨inner, k, henter, hk⟩ := Json.exists_of_mem_list? hes he
    cases henter
    exact OverlayEntry.fits_of_ofJson? hk
  · cases hread

/-- The bytes of the overlay that some bytes are read as. -/
def recode (bytes : ByteArray) : Except StoreError ByteArray := (ofBytes bytes).map toBytes

theorem ofBytes_toBytes_of_ofBytes {bytes : ByteArray} {o : Overlay} (h : ofBytes bytes = .ok o) :
    ofBytes o.toBytes = .ok o := by
  unfold ofBytes at h
  split at h
  · rename_i hread
    cases h
    obtain ⟨j, _, hj⟩ := Option.bind_eq_some_iff.mp hread
    exact ofBytes_toBytes_of_fits (fits_of_ofJson? hj)
  · cases h

theorem recode_of_recode {bytes again : ByteArray} (h : recode bytes = .ok again) :
    recode again = .ok again := by
  unfold recode at h
  cases ho : ofBytes bytes with
  | error e =>
    rw [ho] at h
    cases h
  | ok o =>
    rw [ho] at h
    cases h
    rw [recode, ofBytes_toBytes_of_ofBytes ho]
    rfl

end Overlay

/-- Overlays and scripts are read back as they were written, with the order of all properties.
Bytes that are read as an overlay and written again change no more when this is done once more. -/
theorem overlays_and_scripts_read_back :
    (∀ o : Overlay, (∀ v ∈ o.toDiff.values, v.depth ≤ 100) →
      Overlay.ofBytes o.toBytes = .ok o) ∧
    (∀ d : Diff, (∀ v ∈ d.values, v.depth ≤ 100) → Diff.ofText? d.toText = some d) ∧
    ∀ bytes again, Overlay.recode bytes = .ok again → Overlay.recode again = .ok again := by
  refine ⟨fun o ho => ?_, fun d hd => ?_, fun bytes again => Overlay.recode_of_recode⟩
  · exact Overlay.ofBytes_toBytes fun v hv => Nat.le_trans (ho v hv) (by decide)
  · exact Diff.ofText?_toText fun v hv => Nat.le_trans (hd v hv) (by decide)

/-- Names that have to be escaped, the greatest and the least numbers, and lists in lists. -/
def oddProperties : Properties :=
  .ofList [("z\"\\", .list [.list [], .list [.bool false, .int (-9223372036854775808)]]),
    ("\u0000\n", .str "\t\u001f€"), ("", .int 9223372036854775807)]

/-- An entry of every kind. -/
def everyEntry : Overlay where
  entries :=
    [.addNode ⟨18446744073709551615⟩ (.parameter "\"" 4294967295) oddProperties,
      .addNode ⟨0⟩ .methodReturn {}, .addEdge ⟨0⟩ ⟨1⟩ ⟨.reachingDef, oddProperties⟩,
      .setProperty ⟨0⟩ "\\" (.list []), .appendProperty ⟨0⟩ "\r" (.str ""), .removeNode ⟨7⟩,
      .removeEdge ⟨0⟩ ⟨0⟩ ⟨.cfg, {}⟩, .restoreProperty ⟨0⟩ "k" none,
      .restoreProperty ⟨0⟩ "k" (some (.bool true))]

/-- A change of every kind. -/
def everyChange : Diff where
  changes :=
    [.createNode ⟨4294967295⟩ (.unknown "\u0001") oddProperties, .createNode ⟨0⟩ .block {},
      .createEdge (.new ⟨0⟩) (.existing ⟨18446744073709551615⟩) ⟨.argument, oddProperties⟩,
      .setProperty (.new ⟨0⟩) "\n" (.int (-1)), .addProperty (.existing ⟨0⟩) "" (.bool false),
      .removeNode ⟨7⟩, .removeEdge ⟨0⟩ ⟨0⟩ ⟨.cfg, {}⟩, .restoreProperty ⟨0⟩ "k" none,
      .restoreNode ⟨⟨3⟩, .literal "0" 1, oddProperties⟩]

/-- An overlay in another spelling, with arrays for records. -/
def terse : ByteArray := "[ [ [\"remove_node\", 7] ] ]".toUTF8

theorem everyEntry_everyChange_read_back : ∃ again,
    (∀ v ∈ everyEntry.toDiff.values, v.depth ≤ 100) ∧
    Overlay.ofBytes everyEntry.toBytes = .ok everyEntry ∧
    (∀ v ∈ everyChange.values, v.depth ≤ 100) ∧
    Diff.ofText? everyChange.toText = some everyChange ∧
    Overlay.recode terse = .ok again ∧ Overlay.recode again = .ok again ∧ again ≠ terse := by
  obtain ⟨hoverlay, hdiff, hrecode⟩ := overlays_and_scripts_read_back
  have hentries : ∀ v ∈ everyEntry.toDiff.values, v.depth ≤ 100 := by decide +kernel
  have hchanges : ∀ v ∈ everyChange.values, v.depth ≤ 100 := by decide +kernel
  have hterse : Overlay.recode terse = .ok (Overlay.mk [.removeNode ⟨7⟩]).toBytes := by
    decide +kernel
  exact ⟨_, hentries, hoverlay _ hentries, hchanges, hdiff _ hchanges, hterse, hrecode _ _ hterse,
    by decide +kernel⟩

end CodeGraph
