import CodeGraph.Codec.Database
import CodeGraph.Proofs.Codec.Element
import Mathlib

/-!
# Database files read back

The bytes of a database file are read back as that file (`DatabaseFile.ofBytes_toBytes`), provided
that every number in it fits in 64 bits.  The numbers are the schema version and how many entries
each overlay has.
-/

namespace CodeGraph

open Json (Origin)

/-! ## Bytes -/

theorem toList_loop_eq (bytes : ByteArray) (i : Nat) (taken : List UInt8) :
    ByteArray.toList.loop bytes i taken = taken.reverse ++ bytes.data.toList.drop i := by
  fun_induction ByteArray.toList.loop bytes i taken with
  | case1 i taken hi ih =>
    have hlt : i < bytes.data.toList.length := hi
    have hget : bytes.get! i = bytes.data.toList[i] := getElem!_pos bytes.data i hi
    rw [ih, List.drop_eq_getElem_cons hlt, hget, List.reverse_cons, List.append_assoc]
    rfl
  | case2 i taken hi =>
    have hle : bytes.data.toList.length ≤ i := Nat.not_lt.mp hi
    rw [List.drop_eq_nil_of_le hle, List.append_nil]

theorem toList_eq_data (bytes : ByteArray) : bytes.toList = bytes.data.toList :=
  toList_loop_eq bytes 0 []

theorem size_eq_length_toList (b : ByteArray) : b.size = b.toList.length := by
  rw [toList_eq_data]
  rfl

theorem toList_append (a b : ByteArray) : (a ++ b).toList = a.toList ++ b.toList := by
  rw [toList_eq_data, toList_eq_data, toList_eq_data, ByteArray.toList_data_append]

theorem mk_toArray_toList (bytes : ByteArray) : (⟨bytes.toList.toArray⟩ : ByteArray) = bytes := by
  rw [toList_eq_data]

/-- No two texts have the same bytes. -/
theorem toUTF8_toList_injective {s t : String} (h : s.toUTF8.toList = t.toUTF8.toList) : s = t := by
  rw [toList_eq_data, toList_eq_data] at h
  exact String.toByteArray_inj.mp (ByteArray.ext (Array.toList_inj.mp h))

theorem fromUTF8?_toUTF8 (s : String) : String.fromUTF8? s.toUTF8 = some s := by
  have hvalid : s.toUTF8.IsValidUTF8 := s.isValidUTF8
  rw [String.fromUTF8?, dif_pos hvalid]
  rfl

theorem hexValue?_hexDigit (b : UInt8) : hexValue? (hexDigit (b / 16)) = some (b / 16) ∧
    hexValue? (hexDigit (b % 16)) = some (b % 16) ∧ b / 16 * 16 + b % 16 = b := by
  revert b
  decide +kernel

/-- Bytes are read back from their digits. -/
theorem bytesOfHex?_hexOfBytes (bytes : List UInt8) :
    bytesOfHex? (hexOfBytes bytes) = some bytes := by
  induction bytes with
  | nil => rfl
  | cons b bytes ih =>
    obtain ⟨hhigh, hlow, hsum⟩ := hexValue?_hexDigit b
    change bytesOfHex? (hexDigit (b / 16) :: hexDigit (b % 16) :: hexOfBytes bytes) = _
    rw [bytesOfHex?, hhigh, hlow, ih]
    change some ((b / 16 * 16 + b % 16) :: bytes) = _
    rw [hsum]

/-! ## Tables -/

variable {o : Origin}

theorem OverlayRow.ofJson?_toJson {r : OverlayRow} (hcount : r.entryCount < UInt64.size)
    (h : o.holds r.toJson = true) : ofJson? o r.toJson = some r := by
  obtain ⟨inner, henter, _⟩ := Origin.holds_obj h
  have hrecord : Json.record? o [⟨"name", .required⟩, ⟨"data", .required⟩,
      ⟨"entry_count", .required⟩, ⟨"content_hash", .required⟩] r.toJson = some (inner, _) :=
    Json.record?_obj henter rfl (by simp)
  rw [ofJson?, hrecord]
  simp only [List.map_cons, List.map_nil, Json.string?, String.toList_ofList,
    bytesOfHex?_hexOfBytes, Json.natBelow?_int hcount, Option.bind_eq_bind, Option.bind_some,
    mk_toArray_toList]
  rfl

/-- The numbers of entries can be stored. -/
def Tables.Countable (t : Tables) : Prop := ∀ r ∈ t.rows, r.entryCount < UInt64.size

theorem Tables.ofJson?_toJson {t : Tables} (hcount : t.Countable) (h : o.holds t.toJson = true) :
    ofJson? o t.toJson = some t := by
  obtain ⟨inner, henter, hmembers⟩ := Origin.holds_obj h
  simp only [List.forall_mem_cons] at hmembers
  have hrows : Json.list? inner OverlayRow.ofJson? (.arr (t.rows.map OverlayRow.toJson)) =
      some t.rows :=
    Json.list?_map hmembers.2.1 fun _ r hr => OverlayRow.ofJson?_toJson (hcount r hr)
  have hrecord : Json.record? o [⟨"base", .required⟩, ⟨"overlays", .required⟩] t.toJson =
      some (inner, _) :=
    Json.record?_obj henter rfl (by simp)
  rw [ofJson?, hrecord]
  simp only [List.map_cons, List.map_nil, hrows]
  obtain ⟨base, rows⟩ := t
  cases base <;> rfl

/-! ## Databases -/

/-- The numbers in a database can be stored. -/
structure Database.Storable (d : Database) : Prop where
  version : Json.Bounded (.int d.version)
  tables : ∀ t, d.tables = some t → t.Countable

theorem Database.storable_empty : Storable {} := by
  refine ⟨Json.bounded_nat (k := 1) (by decide), ?_⟩
  rintro t ⟨⟩ r hr
  cases hr

theorem Database.ofJson?_toJson {d : Database} (hd : d.Storable) (h : o.holds d.toJson = true) :
    ofJson? o d.toJson = some d := by
  obtain ⟨inner, henter, hmembers⟩ := Origin.holds_obj h
  simp only [List.forall_mem_cons] at hmembers
  have hrecord : Json.record? o [⟨"version", .required⟩, ⟨"tables", .required⟩] d.toJson =
      some (inner, _) :=
    Json.record?_obj henter rfl (by simp)
  rw [ofJson?, hrecord]
  obtain ⟨tables, version⟩ := d
  cases tables with
  | none => rfl
  | some t =>
    have htables : Tables.ofJson? inner t.toJson = some t :=
      Tables.ofJson?_toJson (hd.tables t rfl) hmembers.2.1
    change (((Tables.ofJson? inner t.toJson).map some).bind fun tables =>
      some (Database.mk tables version)) = _
    rw [htables]
    rfl

namespace DatabaseFile

variable {f : DatabaseFile}

theorem bounded_toJson (hf : f.database.Storable) : f.toJson.Bounded := by
  have htables : ∀ t, f.database.tables = some t → t.toJson.Bounded := by
    intro t ht
    simp only [Tables.toJson, Json.bounded_obj, List.forall_mem_cons, Json.bounded_arr,
      List.forall_mem_map]
    refine ⟨by cases t.base <;> trivial, fun r hr => ?_, by simp⟩
    simp only [OverlayRow.toJson, Json.bounded_obj, List.forall_mem_cons]
    exact ⟨trivial, trivial, Json.bounded_nat (hf.tables t ht r hr), trivial, by simp⟩
  simp only [toJson, Database.toJson, Json.bounded_obj, List.forall_mem_cons]
  refine ⟨⟨hf.version, ?_, by simp⟩, trivial, by simp⟩
  cases ht : f.database.tables with
  | none => trivial
  | some t => exact htables t ht

theorem fits_toJson (f : DatabaseFile) : f.toJson.fits 127 = true := by
  have hrow : ∀ r : OverlayRow, r.toJson.fits 123 = true := fun r => by
    simp only [OverlayRow.toJson, Json.fits_obj, List.forall_mem_cons]
    exact ⟨rfl, rfl, rfl, rfl, by simp⟩
  have htables : ∀ t : Tables, t.toJson.fits 125 = true := fun t => by
    simp only [Tables.toJson, Json.fits_obj, List.forall_mem_cons, Json.fits_arr,
      List.forall_mem_map]
    exact ⟨by cases t.base <;> rfl, fun r _ => hrow r, by simp⟩
  simp only [toJson, Database.toJson, Json.fits_obj, List.forall_mem_cons]
  refine ⟨⟨rfl, ?_, by simp⟩, rfl, by simp⟩
  cases f.database.tables with
  | none => rfl
  | some t => exact htables t

theorem ofJson?_toJson (hf : f.database.Storable) : ofJson? f.toJson = some f := by
  have hfits : Origin.top.holds f.toJson = true := f.fits_toJson
  obtain ⟨inner, henter, hmembers⟩ := Origin.holds_obj hfits
  simp only [List.forall_mem_cons] at hmembers
  have hdatabase : Database.ofJson? inner f.database.toJson = some f.database :=
    Database.ofJson?_toJson hf hmembers.1
  have hrecord : Json.record? .top [⟨"database", .required⟩, ⟨"logged", .required⟩] f.toJson =
      some (inner, _) :=
    Json.record?_obj henter rfl (by simp)
  rw [ofJson?, hrecord]
  simp only [List.map_cons, List.map_nil, hdatabase, Option.map_some]

/-! ## Bytes of files -/

theorem head?_blankPage : blankPage.head? = some 83 := by
  have hstart : "SQLite format 3".toUTF8.toList.head? = some 83 := by cbv
  rw [blankPage, List.append_assoc, List.append_assoc, List.append_assoc, List.append_assoc,
    List.append_assoc, List.append_assoc, List.append_assoc, List.head?_append, hstart]
  rfl

theorem length_blankPage : 3990 ≤ blankPage.length := by
  rw [blankPage, List.length_append, List.length_replicate]
  exact Nat.le_add_left 3990 _

theorem isVacant_toBytes (f : DatabaseFile) : isVacant f.toBytes = false := by
  rw [isVacant, toBytes, decide_eq_false_iff_not, Nat.not_le]
  split
  · change 1 < blankPage.toArray.size
    rw [List.size_toArray]
    exact Nat.lt_of_lt_of_le (by decide) length_blankPage
  · rw [ByteArray.size_append]
    exact Nat.lt_of_lt_of_le (by decide) (Nat.le_add_right 5 _)

/-- A database file is read back from its bytes. -/
theorem ofBytes_toBytes (hf : f.database.Storable) : ofBytes f.toBytes = .ok f := by
  rw [ofBytes, if_neg (by simp [isVacant_toBytes f])]
  by_cases hblank : f.isBlankPage = true
  · have hbytes : f.toBytes.toList = blankPage := by
      rw [toBytes, if_pos hblank, toList_eq_data]
    rw [if_pos hbytes]
    obtain ⟨⟨tables, version⟩, logged⟩ := f
    simp only [isBlankPage, Bool.and_eq_true, Option.isNone_iff_eq_none, decide_eq_true_eq]
      at hblank
    obtain ⟨⟨rfl, rfl⟩, rfl⟩ := hblank
    rfl
  · have hbytes : f.toBytes.toList = mark ++ f.toJson.compact.toUTF8.toList := by
      rw [toBytes, if_neg hblank, toList_append, toList_eq_data]
    have hne : f.toBytes.toList ≠ blankPage := by
      intro heq
      have hhead := congrArg List.head? (hbytes.symm.trans heq)
      rw [head?_blankPage] at hhead
      cases hhead
    rw [if_neg hne, hbytes, if_pos List.take_left, List.drop_left, mk_toArray_toList,
      Json.compact, Json.ofBytes?_render .compact (bounded_toJson hf), Option.bind_some,
      ofJson?_toJson hf]

end DatabaseFile

end CodeGraph
