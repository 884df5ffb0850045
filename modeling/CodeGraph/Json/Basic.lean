import CodeGraph.Text.Utf8

/-!
# JSON values

Graph files, edit scripts and overlays are JSON texts.  A `Json` is what such a
text says.  Objects keep their members in the order of the text, and a repeated
key stays repeated.

Nothing in this library has a use for numbers that are not 64-bit integers.
Such a number is `real` and its digits are not kept.

A text may hold a value that is complete but means nothing: a string with an
unpaired surrogate or an ill-formed byte, an object with such a string as a key,
a number beyond the range of floating point.  Such a value is `flawed`.  A
reader may skip it, and never uses it.
-/

namespace CodeGraph

/-- A JSON value. -/
inductive Json where
  /-- The literal `null`. -/
  | null
  /-- A truth value. -/
  | bool (b : Bool)
  /-- An integer that fits in 64 bits, with or without sign. -/
  | int (n : Int)
  /-- Any other number. -/
  | real
  /-- A string. -/
  | str (s : String)
  /-- An array. -/
  | arr (items : List Json)
  /-- An object, its members in the order of the text. -/
  | obj (members : List (String × Json))
  /-- A value that may only be skipped. -/
  | flawed
  deriving Inhabited

namespace Json

mutual

/-- Whether a value has no flawed part and at most `levels` arrays and objects inside each other. -/
def fits (levels : Nat) : Json → Bool
  | .arr items => match levels with
    | 0 => false
    | n + 1 => allFit n items
  | .obj members => match levels with
    | 0 => false
    | n + 1 => membersFit n members
  | .flawed => false
  | _ => true

/-- `fits` for every item of an array. -/
def allFit (levels : Nat) : List Json → Bool
  | [] => true
  | j :: rest => fits levels j && allFit levels rest

/-- `fits` for every member of an object. -/
def membersFit (levels : Nat) : List (String × Json) → Bool
  | [] => true
  | (_, j) :: rest => fits levels j && membersFit levels rest

end

end Json

end CodeGraph
