import CodeGraph.DataFlow.FactSet
import Mathlib.Data.List.Perm.Subperm

/-!
# The members of a set of facts

A set is known by its members: each operation is described by what it does to
membership, and two sets with the same members are equal.  So a set that grows
gets longer, which is what bounds the number of times a fact can change.
-/

namespace CodeGraph.DataFlow

variable {α : Type} [Ord α]

/-- Putting in an element loses nothing: an element that compares equal is equal. -/
theorem mem_insertAscending_of [Std.LawfulEqOrd α] {a x : α} {as : List α}
    (h : x = a ∨ x ∈ as) : x ∈ insertAscending a as := by
  induction as with
  | nil => simpa [insertAscending] using h
  | cons b bs ih =>
    simp only [insertAscending]
    split
    · simpa using h
    · next hab =>
      rw [Std.LawfulEqOrd.eq_of_compare hab] at h
      simpa using h
    · rcases h with h | h
      · exact List.mem_cons_of_mem _ (ih (Or.inl h))
      · rcases List.mem_cons.mp h with h | h
        · rw [h]
          exact List.mem_cons_self ..
        · exact List.mem_cons_of_mem _ (ih (Or.inr h))

namespace FactSet

@[simp] theorem not_mem_empty (a : α) : a ∉ (∅ : FactSet α) := List.not_mem_nil

@[simp] theorem mem_filter {p : α → Bool} {s : FactSet α} {a : α} :
    a ∈ s.filter p ↔ a ∈ s ∧ p a = true := List.mem_filter

section Members

variable [Std.TransOrd α] [Std.LawfulEqOrd α]

@[simp] theorem mem_insert {s : FactSet α} {a x : α} : x ∈ s.insert a ↔ x = a ∨ x ∈ s :=
  ⟨mem_insertAscending, mem_insertAscending_of⟩

theorem mem_foldl_insert {as : List α} {s : FactSet α} {x : α} :
    x ∈ as.foldl insert s ↔ x ∈ s ∨ x ∈ as := by
  induction as generalizing s with
  | nil => simp
  | cons a as ih =>
    rw [List.foldl_cons, ih, mem_insert, List.mem_cons]
    tauto

@[simp] theorem mem_ofList {as : List α} {x : α} : x ∈ ofList as ↔ x ∈ as := by
  rw [ofList, mem_foldl_insert]
  exact or_iff_right (not_mem_empty x)

@[simp] theorem mem_union {s t : FactSet α} {x : α} : x ∈ s.union t ↔ x ∈ s ∨ x ∈ t :=
  mem_foldl_insert

/-- A fact is in a union of many sets if it is in one of them. -/
theorem mem_foldl_union {β : Type} {f : β → FactSet α} {bs : List β} {s : FactSet α} {x : α} :
    x ∈ bs.foldl (fun s b => s.union (f b)) s ↔ x ∈ s ∨ ∃ b ∈ bs, x ∈ f b := by
  induction bs generalizing s with
  | nil => simp
  | cons b bs ih =>
    rw [List.foldl_cons, ih, mem_union]
    simp [or_assoc]

end Members

/-! ## Size -/

section Size

variable [Std.LawfulEqOrd α]

theorem nodup_toList (s : FactSet α) : s.toList.Nodup := by
  refine s.ascending.imp ?_
  intro a b hab heq
  subst heq
  simp at hab

theorem ext [Std.TransOrd α] {s t : FactSet α} (h : ∀ a, a ∈ s ↔ a ∈ t) : s = t := by
  have hperm : s.toList.Perm t.toList :=
    (List.perm_ext_iff_of_nodup s.nodup_toList t.nodup_toList).mpr h
  have hlist : s.toList = t.toList := by
    refine hperm.eq_of_pairwise ?_ s.ascending t.ascending
    intro a b _ _ hab hba
    rw [Std.OrientedCmp.gt_of_lt hab] at hba
    cases hba
  cases s
  cases t
  cases hlist
  rfl

/-- A set is no longer than a list that has all its members. -/
theorem length_toList_le {s : FactSet α} {as : List α} (h : ∀ a ∈ s, a ∈ as) :
    s.toList.length ≤ as.length :=
  (s.nodup_toList.subperm h).length_le

/-- A set that grows gets longer. -/
theorem length_toList_lt [Std.TransOrd α] {s t : FactSet α} (h : ∀ a ∈ s, a ∈ t) (hne : s ≠ t) :
    s.toList.length < t.toList.length := by
  have hsub := s.nodup_toList.subperm h
  refine Nat.lt_of_le_of_ne hsub.length_le fun hlen => hne (ext fun a => ?_)
  exact (hsub.perm_of_length_le (Nat.le_of_eq hlen.symm)).mem_iff

end Size

end FactSet

end CodeGraph.DataFlow
