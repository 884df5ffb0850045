import CodeGraph.Property
import CodeGraph.Json.Record

/-!
# Properties in JSON

A property value is stored as the JSON value of its own shape, and a map as an
object with its names in order.  Null, objects and numbers that are not signed
64-bit integers are no property values.  A value has to be seen before its shape
is known, so it is held back as a whole.
-/

namespace CodeGraph

namespace PropertyValue

mutual

/-- A value as JSON. -/
def toJson : PropertyValue → Json
  | .bool b => .bool b
  | .int n => .int n.toInt
  | .str s => .str s
  | .list items => .arr (toJsonList items)

/-- A list of values as JSON. -/
def toJsonList : List PropertyValue → List Json
  | [] => []
  | v :: vs => toJson v :: toJsonList vs

end

mutual

/-- The value of a JSON value that was held back. -/
def ofHeld? : Json → Option PropertyValue
  | .bool b => some (.bool b)
  | .int n => (Json.int64? (.int n)).map .int
  | .str s => some (.str s)
  | .arr items => (ofHeldList? items).map .list
  | _ => none

/-- The values of a list of JSON values. -/
def ofHeldList? : List Json → Option (List PropertyValue)
  | [] => some []
  | j :: js =>
    match ofHeld? j, ofHeldList? js with
    | some v, some vs => some (v :: vs)
    | _, _ => none

end

/-- The value of a JSON value. -/
def ofJson? (o : Json.Origin) (j : Json) : Option PropertyValue :=
  if o.holds j then ofHeld? j else none

end PropertyValue

namespace Properties

/-- Entries as the members of an object. -/
def membersOf (es : List (String × PropertyValue)) : List (String × Json) :=
  es.map fun e => (e.1, e.2.toJson)

/-- A map as JSON. -/
def toJson (p : Properties) : Json := .obj (membersOf p.entries)

/-- The map of a JSON value. -/
def ofJson? (o : Json.Origin) : Json → Option Properties
  | .obj members =>
    match o.enter with
    | some o => (members.mapM fun m => (PropertyValue.ofJson? o m.2).map (m.1, ·)).map ofList
    | none => none
  | _ => none

/-- A map as the last member of a record, where an empty map is left out. -/
def toMember (p : Properties) : List (String × Json) :=
  if p.isEmpty then [] else [("properties", p.toJson)]

/-- The map of a member that may be left out. -/
def ofMember? (o : Json.Origin) : Option Json → Option Properties
  | some j => ofJson? o j
  | none => some {}

end Properties

end CodeGraph
