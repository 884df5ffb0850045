import Std.Data.TreeMap

/-!
# Sets of facts

A finite set is a strictly ascending list.  So two sets with the same members
are equal, and a set is printed in order.
-/

namespace CodeGraph.DataFlow

variable {α : Type} [Ord α]

/-- A list with an element put in its place, unless it is there. -/
def insertAscending (a : α) : List α → List α
  | [] => [a]
  | b :: bs =>
    match compare a b with
    | .lt => a :: b :: bs
    | .eq => b :: bs
    | .gt => b :: insertAscending a bs

/-- Strictly ascending lists. -/
def Ascending (as : List α) : Prop := as.Pairwise fun a b => compare a b = .lt

/-- The members of a list after putting in an element, up to comparison. -/
theorem mem_insertAscending {a x : α} {as : List α} (h : x ∈ insertAscending a as) :
    x = a ∨ x ∈ as := by
  induction as with
  | nil => simpa [insertAscending] using h
  | cons b bs ih =>
    simp only [insertAscending] at h
    split at h
    · simpa using h
    · exact Or.inr h
    · rcases List.mem_cons.mp h with h | h
      · exact Or.inr (by simp [h])
      · rcases ih h with h | h
        · exact Or.inl h
        · exact Or.inr (by simp [h])

/-- Putting in an element keeps a list ascending. -/
theorem Ascending.insertAscending [Std.TransOrd α] {as : List α} (h : Ascending as) (a : α) :
    Ascending (insertAscending a as) := by
  induction as with
  | nil => simp [DataFlow.insertAscending, Ascending]
  | cons b bs ih =>
    have hb := List.pairwise_cons.mp h
    simp only [DataFlow.insertAscending]
    split
    · next hab =>
      refine List.pairwise_cons.mpr ⟨?_, h⟩
      intro x hx
      rcases List.mem_cons.mp hx with hx | hx
      · exact hx ▸ hab
      · exact Std.TransCmp.lt_trans hab (hb.1 x hx)
    · exact h
    · next hab =>
      refine List.pairwise_cons.mpr ⟨?_, ih hb.2⟩
      intro x hx
      rcases mem_insertAscending hx with hx | hx
      · exact hx ▸ Std.OrientedCmp.lt_of_gt hab
      · exact hb.1 x hx

/-- A finite set. -/
structure FactSet (α : Type) [Ord α] where
  /-- The members in ascending order. -/
  toList : List α
  /-- The order is strict. -/
  ascending : Ascending toList

namespace FactSet

instance [DecidableEq α] : DecidableEq (FactSet α) := fun s t =>
  if h : s.toList = t.toList then isTrue (by cases s; cases t; cases h; rfl)
  else isFalse fun h' => h (by rw [h'])

/-- The set without members. -/
def empty : FactSet α := ⟨[], List.Pairwise.nil⟩

instance : EmptyCollection (FactSet α) := ⟨empty⟩

instance : Inhabited (FactSet α) := ⟨empty⟩

instance : Membership α (FactSet α) := ⟨fun s a => a ∈ s.toList⟩

instance [DecidableEq α] (a : α) (s : FactSet α) : Decidable (a ∈ s) :=
  inferInstanceAs (Decidable (a ∈ s.toList))

/-- The members that pass a test. -/
def filter (p : α → Bool) (s : FactSet α) : FactSet α :=
  ⟨s.toList.filter p, s.ascending.sublist List.filter_sublist⟩

variable [Std.TransOrd α]

/-- A set with one more member. -/
def insert (s : FactSet α) (a : α) : FactSet α :=
  ⟨insertAscending a s.toList, s.ascending.insertAscending a⟩

/-- The set of the elements of a list. -/
def ofList (as : List α) : FactSet α := as.foldl insert {}

/-- The union of two sets. -/
def union (s t : FactSet α) : FactSet α := t.toList.foldl insert s

variable [DecidableEq α]

/-- The intersection of two sets. -/
def inter (s t : FactSet α) : FactSet α := s.filter fun a => a ∈ t

/-- The members of the first set that are not in the second. -/
def diff (s t : FactSet α) : FactSet α := s.filter fun a => a ∉ t

end FactSet

end CodeGraph.DataFlow
