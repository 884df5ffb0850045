/-!
# Properties

Nodes and edges carry properties: named values that are booleans, 64-bit
integers, strings or lists of values.  `Properties` is a map from names to
values that remembers the order in which its names were first put in.
Overwriting a value keeps its place, and removing a name closes the gap.

The order shows in texts.  It does not count when two maps are compared by
`Properties.same`.
-/

namespace CodeGraph

/-! ## Values -/

/-- The value of a property. -/
inductive PropertyValue where
  /-- A truth value. -/
  | bool (b : Bool)
  /-- An integer. -/
  | int (n : Int64)
  /-- A text. -/
  | str (s : String)
  /-- A list of values. -/
  | list (items : List PropertyValue)
  deriving Inhabited

namespace PropertyValue

mutual

/-- Equality of values is decidable. -/
def decEq : (a b : PropertyValue) → Decidable (a = b)
  | .bool a, .bool b => if h : a = b then isTrue (by rw [h]) else isFalse (by simp [h])
  | .int a, .int b => if h : a = b then isTrue (by rw [h]) else isFalse (by simp [h])
  | .str a, .str b => if h : a = b then isTrue (by rw [h]) else isFalse (by simp [h])
  | .list as, .list bs =>
    match decEqList as bs with
    | isTrue h => isTrue (by rw [h])
    | isFalse h => isFalse (by simp [h])
  | .bool _, .int _ | .bool _, .str _ | .bool _, .list _ => isFalse (by simp)
  | .int _, .bool _ | .int _, .str _ | .int _, .list _ => isFalse (by simp)
  | .str _, .bool _ | .str _, .int _ | .str _, .list _ => isFalse (by simp)
  | .list _, .bool _ | .list _, .int _ | .list _, .str _ => isFalse (by simp)

/-- Equality of lists of values is decidable. -/
def decEqList : (as bs : List PropertyValue) → Decidable (as = bs)
  | [], [] => isTrue rfl
  | [], _ :: _ => isFalse (by simp)
  | _ :: _, [] => isFalse (by simp)
  | a :: as, b :: bs =>
    match decEq a b, decEqList as bs with
    | isTrue h, isTrue h' => isTrue (by rw [h, h'])
    | isFalse h, _ => isFalse (by simp [h])
    | _, isFalse h => isFalse (by simp [h])

end

instance : DecidableEq PropertyValue := decEq

mutual

/-- The number of lists inside each other. -/
def depth : PropertyValue → Nat
  | .list items => depthList items + 1
  | _ => 0

/-- The greatest depth of the items of a list. -/
def depthList : List PropertyValue → Nat
  | [] => 0
  | v :: vs => max (depth v) (depthList vs)

end

end PropertyValue

/-! ## Maps -/

/-- Insertion-ordered association lists. -/
abbrev Entries := List (String × PropertyValue)

namespace Entries

/-- The names, in order. -/
def keys (es : Entries) : List String := es.map Prod.fst

/-- The entries with a value put under a name: in its place, or at the end. -/
def insert (key : String) (value : PropertyValue) : Entries → Entries
  | [] => [(key, value)]
  | e :: es => if e.1 = key then (key, value) :: es else e :: insert key value es

/-- The entries without a name. -/
def erase (key : String) (es : Entries) : Entries := es.filter (·.1 ≠ key)

/-- Putting in a value adds its name at the end, unless it is there. -/
theorem keys_insert (key : String) (value : PropertyValue) (es : Entries) :
    keys (insert key value es) = if key ∈ keys es then keys es else keys es ++ [key] := by
  induction es with
  | nil => simp [insert, keys]
  | cons e es ih =>
    by_cases h : e.1 = key
    · simp [insert, keys, h]
    · have h' : ¬ key = e.1 := fun h' => h h'.symm
      simp only [insert, h, if_false]
      simp only [keys, List.map_cons, List.mem_cons, h', false_or] at ih ⊢
      rw [ih]
      by_cases hk : key ∈ List.map Prod.fst es <;> simp [hk]

/-- Putting in a value keeps the names distinct. -/
theorem nodup_insert {es : Entries} (h : es.keys.Nodup) (key : String) (value : PropertyValue) :
    (insert key value es).keys.Nodup := by
  rw [keys_insert]
  split
  · exact h
  · next hk =>
    rw [List.nodup_append]
    refine ⟨h, by simp, ?_⟩
    intro a ha b hb hab
    rw [List.mem_singleton] at hb
    exact hk (by rw [← hb, ← hab]; exact ha)

/-- Removing a name keeps the names distinct. -/
theorem nodup_erase {es : Entries} (h : es.keys.Nodup) (key : String) : (erase key es).keys.Nodup :=
  List.Nodup.sublist (List.Sublist.map Prod.fst List.filter_sublist) h

end Entries

/-- A map from names to values that keeps the order in which names were put in. -/
structure Properties where
  /-- The entries in that order. -/
  entries : Entries
  /-- No name occurs twice. -/
  nodup : entries.keys.Nodup
  deriving DecidableEq

namespace Properties

/-- The map without entries. -/
def empty : Properties := ⟨[], by simp [Entries.keys]⟩

instance : EmptyCollection Properties := ⟨empty⟩

instance : Inhabited Properties := ⟨empty⟩

/-- The number of entries. -/
def size (p : Properties) : Nat := p.entries.length

/-- Whether there is no entry. -/
def isEmpty (p : Properties) : Bool := p.entries.isEmpty

/-- The value under a name. -/
def get? (p : Properties) (key : String) : Option PropertyValue := p.entries.lookup key

/-- The map with a value put under a name. -/
def insert (p : Properties) (key : String) (value : PropertyValue) : Properties :=
  ⟨p.entries.insert key value, Entries.nodup_insert p.nodup key value⟩

/-- The map without a name. -/
def erase (p : Properties) (key : String) : Properties :=
  ⟨p.entries.erase key, Entries.nodup_erase p.nodup key⟩

/-- The map of a list of entries.  A repeated name keeps its first place and its last value. -/
def ofList (es : List (String × PropertyValue)) : Properties :=
  es.foldl (fun p e => p.insert e.1 e.2) empty

/-- Whether two maps have the same entries, in any order. -/
def same (p q : Properties) : Bool :=
  p.size = q.size && p.entries.all fun e => q.get? e.1 = some e.2

/-- The entries in ascending order of their names. -/
def sorted (p : Properties) : List (String × PropertyValue) :=
  p.entries.mergeSort fun a b => a.1 ≤ b.1

end Properties

end CodeGraph
