import CodeGraph.Codec.Property
import CodeGraph.Proofs.Json.RoundTrip
import Mathlib.Data.List.Nodup
import Mathlib.Data.List.Perm.Subperm
import Mathlib.Logic.Function.Basic

/-!
# What a property map finds

A property map is known by what `get?` finds in it.  Putting in and removing a
name change that at one point, two maps are the same when they find the same
(`same_iff`), and then their sorted entries are equal (`sorted_eq_iff`).

Written as JSON, no two property values are equal.
-/

namespace CodeGraph

/-! ## Maps -/

namespace Entries

variable {es : Entries} {key : String} {value : PropertyValue}

theorem lookup_insert (es : Entries) (key : String) (value : PropertyValue) (k : String) :
    (insert key value es).lookup k = if k = key then some value else es.lookup k := by
  induction es with
  | nil =>
    by_cases hk : k = key
    · simp [insert, hk]
    · have hb : (k == key) = false := by simpa using hk
      simp [insert, hk, List.lookup_cons, hb]
  | cons e es ih =>
    obtain ⟨a, v⟩ := e
    by_cases ha : a = key
    · subst ha
      by_cases hk : k = a
      · simp [insert, hk]
      · have hb : (k == a) = false := by simpa using hk
        simp [insert, hk, List.lookup_cons, hb]
    · by_cases hk : k = a
      · simp [insert, ha, hk]
      · have hb : (k == a) = false := by simpa using hk
        simp [insert, ha, List.lookup_cons, hb, ih]

theorem lookup_erase (es : Entries) (key k : String) :
    (erase key es).lookup k = if k = key then none else es.lookup k := by
  unfold erase
  induction es with
  | nil => simp
  | cons e es ih =>
    obtain ⟨a, v⟩ := e
    by_cases ha : a = key
    · rw [List.filter_cons_of_neg (by simpa using ha), ih]
      by_cases hk : k = key
      · rw [if_pos hk, if_pos hk]
      · have hb : (k == a) = false := by simpa [ha] using hk
        rw [if_neg hk, if_neg hk, List.lookup_cons, hb]
    · rw [List.filter_cons_of_pos (by simpa using ha), List.lookup_cons, List.lookup_cons]
      by_cases hk : k = a
      · simp [hk, ha]
      · have hb : (k == a) = false := by simpa using hk
        simp only [hb, ih]

theorem mem_iff_lookup (h : es.keys.Nodup) : (key, value) ∈ es ↔ es.lookup key = some value := by
  induction es with
  | nil => simp
  | cons e es ih =>
    obtain ⟨a, v⟩ := e
    obtain ⟨ha, h⟩ := List.nodup_cons.mp h
    by_cases hk : key = a
    · subst hk
      have hnot : (key, value) ∉ es := fun hmem => ha (List.mem_map.mpr ⟨_, hmem, rfl⟩)
      simp [hnot, eq_comm]
    · have hb : (key == a) = false := by simpa using hk
      simp [hk, List.lookup_cons, hb, ih h]

/-- A value put back in its place. -/
theorem insert_insert_of_lookup {old : PropertyValue} (h : es.lookup key = some old) :
    insert key old (insert key value es) = es := by
  induction es with
  | nil => cases h
  | cons e es ih =>
    obtain ⟨a, v⟩ := e
    by_cases ha : a = key
    · subst ha
      rw [List.lookup_cons_self, Option.some.injEq] at h
      simp [insert, h]
    · have hb : (key == a) = false := by simpa using Ne.symm ha
      rw [List.lookup_cons, hb] at h
      simp [insert, ha, ih h]

/-- A new name taken out again. -/
theorem erase_insert_of_lookup (h : es.lookup key = none) :
    erase key (insert key value es) = es := by
  induction es with
  | nil => simp [insert, erase]
  | cons e es ih =>
    obtain ⟨a, v⟩ := e
    have ha : a ≠ key := by
      rintro rfl
      rw [List.lookup_cons_self] at h
      cases h
    have hb : (key == a) = false := by simpa using Ne.symm ha
    rw [List.lookup_cons, hb] at h
    have hrest := ih h
    simp only [erase] at hrest
    rw [insert, if_neg ha, erase, List.filter_cons_of_pos (by simpa using ha), hrest]

end Entries

namespace Properties

variable {p q : Properties} {key : String} {value : PropertyValue}

theorem get?_insert (p : Properties) (key : String) (value : PropertyValue) :
    (p.insert key value).get? = Function.update p.get? key (some value) := by
  funext k
  rw [Function.update_apply]
  exact Entries.lookup_insert p.entries key value k

theorem get?_erase (p : Properties) (key : String) :
    (p.erase key).get? = Function.update p.get? key none := by
  funext k
  rw [Function.update_apply]
  exact Entries.lookup_erase p.entries key k

theorem insert_insert_of_get? {old : PropertyValue} (h : p.get? key = some old) :
    (p.insert key value).insert key old = p := by
  obtain ⟨entries, nodup⟩ := p
  exact Properties.mk.injEq .. ▸ Entries.insert_insert_of_lookup h

theorem erase_insert_of_get? (h : p.get? key = none) : (p.insert key value).erase key = p := by
  obtain ⟨entries, nodup⟩ := p
  exact Properties.mk.injEq .. ▸ Entries.erase_insert_of_lookup h

theorem mem_entries_iff : (key, value) ∈ p.entries ↔ p.get? key = some value :=
  Entries.mem_iff_lookup p.nodup

/-- The values of a map. -/
def values (p : Properties) : List PropertyValue := p.entries.map Prod.snd

theorem mem_values_iff : value ∈ p.values ↔ ∃ key, p.get? key = some value := by
  rw [values, List.mem_map]
  constructor
  · rintro ⟨⟨key, value⟩, hmem, rfl⟩
    exact ⟨key, mem_entries_iff.mp hmem⟩
  · rintro ⟨key, hkey⟩
    exact ⟨(key, value), mem_entries_iff.mpr hkey, rfl⟩

theorem nodup_entries (p : Properties) : p.entries.Nodup :=
  List.Nodup.of_map Prod.fst p.nodup

/-- Maps that find the same have the same entries, in any order. -/
theorem perm_entries_iff : p.entries.Perm q.entries ↔ p.get? = q.get? := by
  rw [List.perm_ext_iff_of_nodup p.nodup_entries q.nodup_entries]
  constructor
  · intro h
    funext key
    apply Option.ext
    intro value
    exact mem_entries_iff.symm.trans ((h (key, value)).trans mem_entries_iff)
  · rintro h ⟨key, value⟩
    rw [mem_entries_iff, mem_entries_iff, h]

theorem same_iff : p.same q ↔ p.get? = q.get? := by
  rw [← perm_entries_iff]
  have hsame : p.same q ↔ p.size = q.size ∧ ∀ e ∈ p.entries, q.get? e.1 = some e.2 := by
    simp [same]
  rw [hsame]
  constructor
  · rintro ⟨hsize, hall⟩
    have hsub : p.entries ⊆ q.entries := fun e he => mem_entries_iff.mpr (hall e he)
    exact (List.subperm_of_subset p.nodup_entries hsub).perm_of_length_le (Nat.le_of_eq hsize.symm)
  · intro h
    exact ⟨h.length_eq, fun e he => mem_entries_iff.mp (h.mem_iff.mp he)⟩

theorem pairwise_sorted (p : Properties) : p.sorted.Pairwise fun a b => a.1 ≤ b.1 := by
  have h : p.sorted.Pairwise fun a b => decide (a.1 ≤ b.1) = true := by
    refine List.pairwise_mergeSort ?_ ?_ p.entries
    · intro a b c hab hbc
      simp only [decide_eq_true_eq] at hab hbc ⊢
      exact String.le_trans hab hbc
    · intro a b
      simpa using String.le_total a.1 b.1
  exact h.imp fun hab => by simpa using hab

theorem perm_sorted (p : Properties) : p.sorted.Perm p.entries := List.mergeSort_perm _ _

/-- Sorted entries tell maps apart just as `get?` does. -/
theorem sorted_eq_iff : p.sorted = q.sorted ↔ p.get? = q.get? := by
  rw [← perm_entries_iff]
  constructor
  · intro h
    exact p.perm_sorted.symm.trans (h ▸ q.perm_sorted)
  · intro h
    refine List.Perm.eq_of_pairwise ?_ p.pairwise_sorted q.pairwise_sorted
      (p.perm_sorted.trans (h.trans q.perm_sorted.symm))
    intro a b ha hb hab hba
    -- a name occurs once
    have hkey : a.1 = b.1 := String.le_antisymm hab hba
    have ha : p.get? a.1 = some a.2 := mem_entries_iff.mp (p.perm_sorted.mem_iff.mp ha)
    have hb : p.get? b.1 = some b.2 :=
      mem_entries_iff.mp (h.mem_iff.mpr (q.perm_sorted.mem_iff.mp hb))
    rw [hkey, hb, Option.some.injEq] at ha
    exact Prod.ext hkey ha.symm

end Properties

/-! ## Values in JSON -/

namespace PropertyValue

mutual

theorem ofHeld?_toJson : (v : PropertyValue) → ofHeld? v.toJson = some v
  | .bool _ => rfl
  | .int n => by
    have hmin := n.le_toInt
    have hmax := n.toInt_lt
    rw [toJson, ofHeld?, Json.int64?, if_pos ⟨by omega, by omega⟩, Int64.ofInt_toInt]
    rfl
  | .str _ => rfl
  | .list items => by
    rw [toJson, ofHeld?, ofHeldList?_toJsonList items]
    rfl

theorem ofHeldList?_toJsonList : (vs : List PropertyValue) →
    ofHeldList? (toJsonList vs) = some vs
  | [] => rfl
  | v :: vs => by rw [toJsonList, ofHeldList?, ofHeld?_toJson v, ofHeldList?_toJsonList vs]

end

theorem toJson_injective {v w : PropertyValue} (h : v.toJson = w.toJson) : v = w := by
  have hv := ofHeld?_toJson v
  rw [h, ofHeld?_toJson w] at hv
  exact (Option.some.inj hv).symm

mutual

theorem bounded_toJson : (v : PropertyValue) → v.toJson.Bounded
  | .bool _ => by simp [toJson, Json.Bounded]
  | .int n => by
    have hmin := n.le_toInt
    have hmax := n.toInt_lt
    rw [toJson, Json.Bounded]
    omega
  | .str _ => by simp [toJson, Json.Bounded]
  | .list items => by
    rw [toJson, Json.Bounded]
    exact bounded_toJsonList items

theorem bounded_toJsonList : (vs : List PropertyValue) → Json.BoundedItems (toJsonList vs)
  | [] => trivial
  | v :: vs => ⟨bounded_toJson v, bounded_toJsonList vs⟩

end

end PropertyValue

namespace Properties

theorem bounded_membersOf (es : List (String × PropertyValue)) :
    Json.Bounded (.obj (membersOf es)) := by
  rw [Json.bounded_obj]
  intro m hm
  obtain ⟨e, _, rfl⟩ := List.mem_map.mp hm
  exact e.2.bounded_toJson

theorem membersOf_injective {es fs : List (String × PropertyValue)}
    (h : membersOf es = membersOf fs) : es = fs := by
  refine List.map_injective_iff.mpr ?_ h
  rintro ⟨a, v⟩ ⟨b, w⟩ hab
  obtain ⟨hkey, hvalue⟩ := Prod.mk.inj hab
  exact Prod.ext hkey (PropertyValue.toJson_injective hvalue)

end Properties

end CodeGraph
