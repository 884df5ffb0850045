/-!
# Slots

A `Slots` is a row of numbered cells, some of them vacant.  A new element goes
into the cell that was vacated last, or into a new cell at the end.  So the
number of an element never changes while it is there, and is used again after it
is gone.
-/

namespace CodeGraph

/-- A row of numbered cells. -/
structure Slots (α : Type) where
  /-- The cells, `none` where vacant. -/
  cells : Array (Option α) := #[]
  /-- The numbers of the vacant cells, the one vacated last first. -/
  free : List Nat := []

namespace Slots

variable {α : Type}

instance : Inhabited (Slots α) := ⟨{}⟩

/-- The element in a cell. -/
def get? (s : Slots α) (i : Nat) : Option α := s.cells[i]?.join

/-- The row with a new element, and the number of its cell. -/
def insert (s : Slots α) (a : α) : Nat × Slots α :=
  match s.free with
  | i :: free => (i, { cells := s.cells.setIfInBounds i (some a), free })
  | [] => (s.cells.size, { s with cells := s.cells.push (some a) })

/-- The row with the element of a cell replaced. -/
def replace (s : Slots α) (i : Nat) (a : α) : Slots α :=
  match s.get? i with
  | some _ => { s with cells := s.cells.setIfInBounds i (some a) }
  | none => s

/-- The row with a cell vacated. -/
def erase (s : Slots α) (i : Nat) : Slots α :=
  match s.get? i with
  | some _ => { cells := s.cells.setIfInBounds i none, free := i :: s.free }
  | none => s

/-- The row with cells vacated one after the other. -/
def eraseAll (s : Slots α) (is : List Nat) : Slots α := is.foldl erase s

/-- The elements with their numbers, in the order of the cells. -/
def toList (s : Slots α) : List (Nat × α) :=
  s.cells.toList.zipIdx.filterMap fun (cell, i) => cell.map (i, ·)

/-- The elements in the order of the cells. -/
def elements (s : Slots α) : List α := s.cells.toList.reduceOption

/-- The number of elements. -/
def size (s : Slots α) : Nat := s.elements.length

/-- The cells through the last that is not vacant. -/
def used (s : Slots α) : List (Option α) :=
  (s.cells.toList.reverse.dropWhile Option.isNone).reverse

/-- The numbers of the vacant cells of a list, in ascending order. -/
def vacant (cells : List (Option α)) : List Nat :=
  cells.zipIdx.filterMap fun (cell, i) => if cell.isNone then some i else none

/-- The row of a list of cells.  The vacant cells count as vacated in ascending order. -/
def ofCells (cells : List (Option α)) : Slots α :=
  { cells := cells.toArray, free := (vacant cells).reverse }

/-- The cells of a list of elements with vacant cells at the given numbers.  The
numbers have to be ascending and to leave no gap at the end.  `i` is the number
of the first cell. -/
def spread (i : Nat) : List Nat → List α → Option (List (Option α))
  | [], as => some (as.map some)
  | h :: hs, [] => if h = i then (spread (i + 1) hs []).map (none :: ·) else none
  | h :: hs, a :: as =>
    if h = i then (spread (i + 1) hs (a :: as)).map (none :: ·)
    else (spread (i + 1) (h :: hs) as).map (some a :: ·)
termination_by hs as => hs.length + as.length

end Slots

end CodeGraph
