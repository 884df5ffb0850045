import CodeGraph.Json.Basic

/-!
# Records and variants in JSON

The types of this library are stored in three shapes.

* A *record* is an object with known field names.  Other members are skipped, a
  repeated field is an error.  An array of the fields in their order is read
  too.
* A *tagged variant* is an object with one member that names the variant, next
  to the members of its fields.  An array that starts with the name is read too.
* A *plain variant* is a string, or an object with one member.

A tagged variant can only be understood once its tag is found, so the whole of
it is *held back* first.  Depth is bounded where a value is used.  A value read
straight from the text has a number of levels left.  A value that was held back
was checked as a whole at that time.  Inside it two forms are read that a text
does not offer: a tag may be the position of its variant, and a plain variant
may carry an empty object.
-/

namespace CodeGraph.Json

/-! ## Where a value comes from -/

/-- Where a value is read from. -/
inductive Origin where
  /-- Straight from the text, with this many levels of arrays and objects left. -/
  | text (levels : Nat)
  /-- From a value that was held back. -/
  | held
  deriving DecidableEq

/-- The start of a text: at most 127 arrays and objects inside each other. -/
def Origin.top : Origin := .text 127

/-- The origin of the parts of an array or object. -/
def Origin.enter : Origin → Option Origin
  | .text 0 => none
  | .text (n + 1) => some (.text n)
  | .held => some .held

/-- Whether a value of this origin can be held back. -/
def Origin.holds : Origin → Json → Bool
  | .text levels, j => j.fits levels
  | .held, _ => true

/-! ## Scalars and arrays -/

/-- A natural number below `bound`. -/
def natBelow? (bound : Nat) : Json → Option Nat
  | .int n => if 0 ≤ n ∧ n < bound then some n.toNat else none
  | _ => none

/-- An unsigned number of 64 bits. -/
def uint64? (j : Json) : Option UInt64 := (natBelow? UInt64.size j).map UInt64.ofNat

/-- An unsigned number of 32 bits. -/
def uint32? (j : Json) : Option UInt32 := (natBelow? UInt32.size j).map UInt32.ofNat

/-- A signed number of 64 bits. -/
def int64? : Json → Option Int64
  | .int n =>
    if -9223372036854775808 ≤ n ∧ n < 9223372036854775808 then some (Int64.ofInt n) else none
  | _ => none

/-- A string. -/
def string? : Json → Option String
  | .str s => some s
  | _ => none

/-- A number of 64 bits as a value. -/
def ofUInt64 (n : UInt64) : Json := .int n.toNat

/-- A number of 32 bits as a value. -/
def ofUInt32 (n : UInt32) : Json := .int n.toNat

/-- An array whose items are read by `read`. -/
def list? {α : Type} (o : Origin) (read : Origin → Json → Option α) : Json → Option (List α)
  | .arr items =>
    match o.enter with
    | some o => items.mapM (read o)
    | none => none
  | _ => none

/-- A value that may be `null`. -/
def nullable? {α : Type} (read : Json → Option α) : Json → Option (Option α)
  | .null => some none
  | j => (read j).map some

/-! ## Records -/

/-- When a field of a record may be missing. -/
inductive Presence where
  /-- Never. -/
  | required
  /-- In an object. -/
  | optional
  /-- In an object and at the end of an array. -/
  | defaulted
  deriving DecidableEq

/-- A field of a record. -/
structure Field where
  /-- The name of the field. -/
  name : String
  /-- When it may be missing. -/
  presence : Presence := .required

/-- The value of a field among the members of an object. -/
def Field.ofMembers? (members : List (String × Json)) (f : Field) : Option (Option Json) :=
  match members.filter (·.1 = f.name) with
  | [] => if f.presence = .required then none else some none
  | [(_, j)] => some (some j)
  | _ => none

/-- The values of the fields among the items of an array. -/
def Field.ofItems? : List Field → List Json → Option (List (Option Json))
  | [], [] => some []
  | [], _ :: _ => none
  | f :: fs, [] => if f.presence = .defaulted then (ofItems? fs []).map (none :: ·) else none
  | _ :: fs, j :: js => (ofItems? fs js).map (some j :: ·)

/-- The values of the fields of a record, in their order, with the origin of these values. -/
def record? (o : Origin) (fields : List Field) (j : Json) : Option (Origin × List (Option Json)) :=
  match o.enter, j with
  | some inner, .obj members => (fields.mapM (Field.ofMembers? members)).map (inner, ·)
  | some inner, .arr items => (Field.ofItems? fields items).map (inner, ·)
  | _, _ => none

/-! ## Variants -/

/-- The variant that a tag names. -/
def label? (o : Origin) (labels : List String) : Json → Option String
  | .str s => if s ∈ labels then some s else none
  | .int n => if o = .held ∧ 0 ≤ n then labels[n.toNat]? else none
  | _ => none

/-- The variant of a tagged value and the rest of the value, which is held back. -/
def tagged? (o : Origin) (tag : String) (labels : List String) (j : Json) :
    Option (String × Json) :=
  if o.holds j then
    match j with
    | .obj members =>
      match members.filter (·.1 = tag) with
      | [(_, t)] => (label? o labels t).map (·, .obj (members.filter (·.1 ≠ tag)))
      | _ => none
    | .arr (t :: items) => (label? o labels t).map (·, .arr items)
    | _ => none
  else none

/-- Whether the rest of a tagged value suits a variant without fields. -/
def isUnit : Json → Bool
  | .obj _ => true
  | .arr items => items.isEmpty
  | _ => false

/-- The fields of a tagged variant. -/
def body? (fields : List Field) (rest : Json) : Option (List (Option Json)) :=
  (record? .held fields rest).map Prod.snd

/-- Whether a value stands for the absence of fields in a plain variant. -/
def isNothing (o : Origin) : Json → Bool
  | .null => true
  | .obj members => o = .held && members.isEmpty
  | _ => false

/-- The variant of a plain variant without fields. -/
def plain? (o : Origin) (labels : List String) : Json → Option String
  | .str s => if s ∈ labels then some s else none
  | .obj [(key, j)] => if o.enter.isSome ∧ isNothing o j ∧ key ∈ labels then some key else none
  | _ => none

/-- The name and the value of a plain variant with one value. -/
def wrapped? (o : Origin) : Json → Option (String × Json)
  | .obj [(key, j)] => if o.enter.isSome then some (key, j) else none
  | _ => none

end CodeGraph.Json
