import CodeGraph.Slots
import Mathlib.Data.List.Nodup
import Mathlib.Data.List.Perm.Basic
import Mathlib.Data.List.ReduceOption

/-!
# The cells of a row

A row is known by what its cells hold.  Each operation is described by its
effect on `get?`, under the one condition that the free list names exactly the
vacant cells (`Slots.Sound`).  Putting an element in takes a vacant cell, so it
changes nothing else.

The lists of elements are the cells in order, so they can be exchanged for any
list that names every cell in use once (`perm_elements`).

Of a row its elements and the numbers of its vacant cells are stored, without those
at the end.  The cells are spread out from these again (`spread_vacant`).
-/

namespace CodeGraph.Slots

variable {α : Type} {s : Slots α} {a : α} {i j : Nat}

/-- The free list names the vacant cells, each once. -/
structure Sound (s : Slots α) : Prop where
  mem_free : ∀ i, i ∈ s.free ↔ i < s.cells.size ∧ s.get? i = none
  nodup_free : s.free.Nodup

theorem sound_empty : Sound ({} : Slots α) where
  mem_free := by simp
  nodup_free := by simp

theorem lt_size_of_get? (h : s.get? i = some a) : i < s.cells.size := by
  unfold get? at h
  by_contra hi
  simp [Nat.not_lt.mp hi] at h

theorem get?_eq_none_of_size_le (h : s.cells.size ≤ i) : s.get? i = none := by
  simp [get?, h]

/-! ## Insertion -/

/-- A new element goes to a vacant cell. -/
theorem Sound.get?_insert_fst (h : Sound s) (a : α) : s.get? (s.insert a).1 = none := by
  unfold insert
  cases hf : s.free with
  | nil => exact get?_eq_none_of_size_le (Nat.le_refl _)
  | cons k free => exact ((h.mem_free k).mp (by simp [hf])).2

theorem Sound.get?_insert (h : Sound s) (a : α) (j : Nat) :
    (s.insert a).2.get? j = if j = (s.insert a).1 then some a else s.get? j := by
  unfold insert
  cases hf : s.free with
  | nil =>
    by_cases hj : j = s.cells.size
    · simp [get?, hj]
    · simp [get?, hj, Array.getElem?_push]
  | cons k free =>
    have hk : k < s.cells.size := ((h.mem_free k).mp (by simp [hf])).1
    by_cases hj : j = k
    · simp [get?, hj, hk]
    · simp [get?, hj, Ne.symm hj]

theorem Sound.insert (h : Sound s) (a : α) : Sound (s.insert a).2 where
  mem_free := by
    intro j
    rw [h.get?_insert]
    unfold Slots.insert
    cases hf : s.free with
    | nil =>
      have hnone := h.mem_free j
      rw [hf] at hnone
      by_cases hj : j = s.cells.size
      · simp [hj]
      · have hlt : j < s.cells.size + 1 ↔ j < s.cells.size := by omega
        simpa [hj, hf, hlt] using hnone
    | cons k free =>
      have hnodup := h.nodup_free
      rw [hf, List.nodup_cons] at hnodup
      have hmem := h.mem_free j
      rw [hf, List.mem_cons] at hmem
      by_cases hj : j = k
      · simp [hj, hnodup.1]
      · simpa [hj] using hmem
  nodup_free := by
    unfold Slots.insert
    cases hf : s.free with
    | nil => simp
    | cons k free =>
      have hnodup := h.nodup_free
      rw [hf, List.nodup_cons] at hnodup
      exact hnodup.2

/-! ## Replacement -/

theorem get?_replace (h : (s.get? i).isSome) (a : α) (j : Nat) :
    (s.replace i a).get? j = if j = i then some a else s.get? j := by
  obtain ⟨b, hb⟩ := Option.isSome_iff_exists.mp h
  unfold replace
  rw [hb]
  by_cases hj : j = i
  · simp [get?, hj, lt_size_of_get? hb]
  · simp [get?, hj, Ne.symm hj]

theorem Sound.replace (h : Sound s) (i : Nat) (a : α) : Sound (s.replace i a) := by
  cases hi : s.get? i with
  | none =>
    unfold Slots.replace
    rw [hi]
    exact h
  | some b =>
    have hsome : (s.get? i).isSome := by simp [hi]
    have hfree : (s.replace i a).free = s.free := by simp [Slots.replace, hi]
    have hsize : (s.replace i a).cells.size = s.cells.size := by simp [Slots.replace, hi]
    refine ⟨?_, by rw [hfree]; exact h.nodup_free⟩
    intro j
    rw [hfree, hsize, get?_replace hsome, h.mem_free]
    by_cases hj : j = i
    · simp [hj, hi]
    · simp [hj]

/-! ## Removal -/

theorem get?_erase (s : Slots α) (i j : Nat) :
    (s.erase i).get? j = if j = i then none else s.get? j := by
  unfold erase
  cases hi : s.get? i with
  | none =>
    by_cases hj : j = i
    · simp [hj, hi]
    · simp [hj]
  | some b =>
    by_cases hj : j = i
    · simp [get?, hj, lt_size_of_get? hi]
    · simp [get?, hj, Ne.symm hj]

theorem Sound.erase (h : Sound s) (i : Nat) : Sound (s.erase i) := by
  cases hi : s.get? i with
  | none =>
    unfold Slots.erase
    rw [hi]
    exact h
  | some b =>
    have hfree : (s.erase i).free = i :: s.free := by simp [Slots.erase, hi]
    have hsize : (s.erase i).cells.size = s.cells.size := by simp [Slots.erase, hi]
    have hi' : i ∉ s.free := by simp [h.mem_free, hi]
    refine ⟨?_, by rw [hfree]; exact List.nodup_cons.mpr ⟨hi', h.nodup_free⟩⟩
    intro j
    rw [hfree, hsize, get?_erase, List.mem_cons, h.mem_free]
    by_cases hj : j = i
    · simp [hj, lt_size_of_get? hi]
    · simp [hj]

theorem get?_eraseAll (s : Slots α) (is : List Nat) (j : Nat) :
    (s.eraseAll is).get? j = if j ∈ is then none else s.get? j := by
  unfold eraseAll
  induction is generalizing s with
  | nil => simp
  | cons i is ih =>
    rw [List.foldl_cons, ih, get?_erase]
    by_cases hj : j = i
    · simp [hj]
    · simp [hj]

theorem Sound.eraseAll (h : Sound s) (is : List Nat) : Sound (s.eraseAll is) := by
  unfold Slots.eraseAll
  induction is generalizing s with
  | nil => exact h
  | cons i is ih => exact ih (h.erase i)

/-! ## The number of cells -/

theorem size_cells_erase (s : Slots α) (i : Nat) : (s.erase i).cells.size = s.cells.size := by
  unfold erase
  cases s.get? i <;> simp

/-! ## Lists of elements -/

theorem elements_eq (s : Slots α) : s.elements = (List.range s.cells.size).filterMap s.get? := by
  have hcells : (List.range s.cells.size).map s.get? = s.cells.toList := by
    apply List.ext_getElem
    · simp
    · intro i h1 h2
      simp at h2
      simp [get?, h2]
  rw [elements, ← hcells, List.reduceOption, List.filterMap_map]
  rfl

theorem mem_elements : a ∈ s.elements ↔ ∃ i, s.get? i = some a := by
  rw [elements_eq, List.mem_filterMap]
  constructor
  · rintro ⟨i, _, hi⟩
    exact ⟨i, hi⟩
  · rintro ⟨i, hi⟩
    exact ⟨i, List.mem_range.mpr (lt_size_of_get? hi), hi⟩

/-- The elements are found through any list that names every cell in use once. -/
theorem perm_elements {is : List Nat} (hnodup : is.Nodup)
    (hmem : ∀ i, i ∈ is ↔ (s.get? i).isSome) : s.elements.Perm (is.filterMap s.get?) := by
  have hused : ((List.range s.cells.size).filter fun i => (s.get? i).isSome).Perm is := by
    refine (List.perm_ext_iff_of_nodup (List.nodup_range.filter _) hnodup).mpr ?_
    intro i
    rw [List.mem_filter, List.mem_range, hmem]
    constructor
    · exact And.right
    · intro hi
      obtain ⟨a, ha⟩ := Option.isSome_iff_exists.mp hi
      exact ⟨lt_size_of_get? ha, hi⟩
  have hfilter : ((List.range s.cells.size).filter fun i => (s.get? i).isSome).filterMap s.get? =
      s.elements := by
    rw [elements_eq, List.filterMap_filter]
    congr 1
    funext i
    cases s.get? i <;> simp
  rw [← hfilter]
  exact hused.filterMap s.get?

theorem mem_toList : (i, a) ∈ s.toList ↔ s.get? i = some a := by
  rw [toList, List.mem_filterMap]
  constructor
  · rintro ⟨⟨cell, k⟩, hmem, hk⟩
    rw [List.mk_mem_zipIdx_iff_getElem?, Array.getElem?_toList] at hmem
    obtain ⟨b, rfl, hb⟩ := Option.map_eq_some_iff.mp hk
    cases hb
    rw [get?, hmem]
    rfl
  · intro hi
    refine ⟨(some a, i), ?_, rfl⟩
    rw [List.mk_mem_zipIdx_iff_getElem?, Array.getElem?_toList]
    exact Option.join_eq_some_iff.mp hi

theorem filterMap_get?_toList (s : Slots α) :
    (s.toList.map Prod.fst).filterMap s.get? = s.elements := by
  have hget : (s.toList.map Prod.fst).filterMap s.get? = s.toList.map Prod.snd := by
    rw [List.filterMap_map, ← List.filterMap_eq_map]
    refine List.filterMap_congr fun e he => ?_
    exact mem_toList.mp he
  have hzip : s.cells.toList.zipIdx.map Prod.fst = s.cells.toList := List.zipIdx_map_fst 0 _
  rw [hget, toList, List.map_filterMap, elements, List.reduceOption, ← hzip, List.filterMap_map,
    hzip]
  refine List.filterMap_congr fun e _ => ?_
  obtain ⟨cell, i⟩ := e
  cases cell <;> rfl

theorem nodup_map_fst_toList (s : Slots α) : (s.toList.map Prod.fst).Nodup := by
  have hsub : ∀ es : List (Option α × Nat),
      ((es.filterMap fun e => e.1.map (e.2, ·)).map Prod.fst).Sublist (es.map Prod.snd) := by
    intro es
    induction es with
    | nil => exact List.Sublist.slnil
    | cons e es ih =>
      obtain ⟨cell, k⟩ := e
      cases cell with
      | none => exact ih.cons k
      | some a => exact ih.cons_cons k
  refine List.Nodup.sublist (hsub s.cells.toList.zipIdx) ?_
  rw [List.zipIdx_map_snd]
  exact List.nodup_range'

/-! ## Stored cells -/

/-- What is not stored of the cells is vacant. -/
theorem exists_used_append (s : Slots α) :
    ∃ rest, s.cells.toList = s.used ++ rest ∧ ∀ c ∈ rest, c = none := by
  refine ⟨(s.cells.toList.reverse.takeWhile Option.isNone).reverse, ?_, ?_⟩
  · rw [used, ← List.reverse_append, List.takeWhile_append_dropWhile, List.reverse_reverse]
  · intro c hc
    exact Option.isNone_iff_eq_none.mp
      (List.all_eq_true.mp List.all_takeWhile c (List.mem_reverse.mp hc))

theorem length_used_le (s : Slots α) : s.used.length ≤ s.cells.size := by
  obtain ⟨rest, hcells, _⟩ := s.exists_used_append
  rw [← Array.length_toList, hcells, List.length_append]
  exact Nat.le_add_right _ _

theorem reduceOption_used (s : Slots α) : s.used.reduceOption = s.elements := by
  obtain ⟨rest, hcells, hrest⟩ := s.exists_used_append
  have hnone : rest.reduceOption = [] := by
    rw [List.reduceOption, List.filterMap_eq_nil_iff]
    exact hrest
  rw [elements, hcells, List.reduceOption_append, hnone, List.append_nil]

theorem mem_elements_of_mem_used (h : some a ∈ s.used) : a ∈ s.elements := by
  rw [← reduceOption_used]
  exact List.reduceOption_mem_iff.mpr h

theorem join_getElem?_used (s : Slots α) (i : Nat) : s.used[i]?.join = s.get? i := by
  obtain ⟨rest, hcells, hrest⟩ := s.exists_used_append
  rw [get?, ← Array.getElem?_toList, hcells]
  rcases Nat.lt_or_ge i s.used.length with hi | hi
  · rw [List.getElem?_append_left hi]
  · rw [List.getElem?_append_right hi, List.getElem?_eq_none hi]
    cases hc : rest[i - s.used.length]? with
    | none => rfl
    | some c =>
      rw [hrest c (List.mem_of_getElem? hc)]
      rfl

/-- The stored cells end with the last one in use. -/
theorem lt_length_used_iff : i < s.used.length ↔ ∃ j, i ≤ j ∧ (s.get? j).isSome := by
  constructor
  · intro hi
    have hne : s.cells.toList.reverse.dropWhile Option.isNone ≠ [] := by
      intro hnil
      rw [used, hnil] at hi
      cases hi
    have hlast := List.head_dropWhile_not Option.isNone hne
    refine ⟨s.used.length - 1, by omega, ?_⟩
    have hget : s.used[s.used.length - 1]? =
        some ((s.cells.toList.reverse.dropWhile Option.isNone).head hne) := by
      rw [← List.getLast?_eq_getElem?, used, List.getLast?_reverse, List.head?_eq_some_head hne]
    rw [← join_getElem?_used, hget]
    simpa using hlast
  · rintro ⟨j, hij, hj⟩
    rw [← join_getElem?_used] at hj
    by_contra hi
    rw [List.getElem?_eq_none (by omega)] at hj
    cases hj

/-- The stored cells are known from what the cells hold. -/
theorem used_eq_of_get?_eq {t : Slots α} (h : ∀ i, s.get? i = t.get? i) : s.used = t.used := by
  have hlt : ∀ i, i < s.used.length ↔ i < t.used.length := by
    intro i
    rw [lt_length_used_iff, lt_length_used_iff]
    simp only [h]
  have hlength : s.used.length = t.used.length := by
    have hs := hlt s.used.length
    have ht := hlt t.used.length
    omega
  refine List.ext_getElem hlength ?_
  intro i hs ht
  have hcell := (join_getElem?_used s i).trans ((h i).trans (join_getElem?_used t i).symm)
  rw [List.getElem?_eq_getElem hs, List.getElem?_eq_getElem ht] at hcell
  exact hcell

theorem elements_eq_of_get?_eq {t : Slots α} (h : ∀ i, s.get? i = t.get? i) :
    s.elements = t.elements := by
  rw [← reduceOption_used, ← reduceOption_used, used_eq_of_get?_eq h]

theorem get?_ofCells (cells : List (Option α)) (i : Nat) :
    (ofCells cells).get? i = cells[i]?.join := by
  rw [get?, ofCells, List.getElem?_toArray]

theorem mem_vacant {cells : List (Option α)} : i ∈ vacant cells ↔ cells[i]? = some none := by
  rw [vacant, List.mem_filterMap]
  constructor
  · rintro ⟨⟨cell, k⟩, hmem, hk⟩
    rw [List.mk_mem_zipIdx_iff_getElem?] at hmem
    cases cell with
    | none =>
      cases hk
      exact hmem
    | some a => cases hk
  · intro hi
    exact ⟨(none, i), List.mk_mem_zipIdx_iff_getElem?.mpr hi, rfl⟩

/-- The numbers of the vacant cells of a list that starts at cell `k`. -/
def vacantFrom : Nat → List (Option α) → List Nat
  | _, [] => []
  | k, none :: cells => k :: vacantFrom (k + 1) cells
  | k, some _ :: cells => vacantFrom (k + 1) cells

theorem vacant_eq (cells : List (Option α)) : vacant cells = vacantFrom 0 cells := by
  have hfrom : ∀ k, (cells.zipIdx k).filterMap (fun e => if e.1.isNone then some e.2 else none) =
      vacantFrom k cells := by
    induction cells with
    | nil => exact fun _ => rfl
    | cons c cells ih =>
      intro k
      cases c with
      | none => exact congrArg (List.cons k) (ih (k + 1))
      | some a => exact ih (k + 1)
  exact hfrom 0

theorem le_of_mem_vacantFrom {cells : List (Option α)} {k : Nat} (h : i ∈ vacantFrom k cells) :
    k ≤ i := by
  induction cells generalizing k with
  | nil => cases h
  | cons c cells ih =>
    cases c with
    | none =>
      rcases List.mem_cons.mp h with rfl | h
      · exact Nat.le_refl i
      · exact Nat.le_of_succ_le (ih h)
    | some a => exact Nat.le_of_succ_le (ih h)

theorem nodup_vacantFrom (cells : List (Option α)) (k : Nat) : (vacantFrom k cells).Nodup := by
  induction cells generalizing k with
  | nil => exact List.nodup_nil
  | cons c cells ih =>
    cases c with
    | none =>
      refine List.nodup_cons.mpr ⟨?_, ih (k + 1)⟩
      intro hmem
      exact Nat.not_succ_le_self k (le_of_mem_vacantFrom hmem)
    | some a => exact ih (k + 1)

/-- Cells are spread out again from their elements and the numbers of the vacant ones. -/
theorem spread_vacantFrom (cells : List (Option α)) (k : Nat) :
    spread k (vacantFrom k cells) cells.reduceOption = some cells := by
  induction cells generalizing k with
  | nil => rw [vacantFrom, List.reduceOption_nil, spread]; rfl
  | cons c cells ih =>
    have hrest := ih (k + 1)
    cases c with
    | none =>
      rw [vacantFrom, List.reduceOption_cons_of_none]
      cases helements : cells.reduceOption with
      | nil =>
        rw [helements] at hrest
        rw [spread, if_pos rfl, hrest, Option.map_some]
      | cons a as =>
        rw [helements] at hrest
        rw [spread, if_pos rfl, hrest, Option.map_some]
    | some a =>
      rw [vacantFrom, List.reduceOption_cons_of_some]
      cases hholes : vacantFrom (k + 1) cells with
      | nil =>
        rw [hholes, spread, Option.some.injEq] at hrest
        rw [spread, List.map_cons, hrest]
      | cons h hs =>
        have hne : h ≠ k := by
          have hle : k + 1 ≤ h := le_of_mem_vacantFrom (hholes ▸ List.mem_cons_self)
          omega
        rw [hholes] at hrest
        rw [spread, if_neg hne, hrest, Option.map_some]

theorem spread_vacant (cells : List (Option α)) :
    spread 0 (vacant cells) cells.reduceOption = some cells := by
  rw [vacant_eq]
  exact spread_vacantFrom cells 0

theorem sound_ofCells (cells : List (Option α)) : Sound (ofCells cells) where
  mem_free := by
    intro i
    rw [get?_ofCells]
    change i ∈ (vacant cells).reverse ↔ i < cells.toArray.size ∧ _
    rw [List.mem_reverse, mem_vacant, List.size_toArray]
    constructor
    · intro hi
      exact ⟨(List.getElem?_eq_some_iff.mp hi).1, by rw [hi]; rfl⟩
    · rintro ⟨hlt, hnone⟩
      rw [List.getElem?_eq_getElem hlt] at hnone ⊢
      exact congrArg some hnone
  nodup_free := by
    change (vacant cells).reverse.Nodup
    rw [List.nodup_reverse, vacant_eq]
    exact nodup_vacantFrom cells 0

end CodeGraph.Slots
