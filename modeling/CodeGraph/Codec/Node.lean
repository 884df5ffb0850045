import CodeGraph.Node
import CodeGraph.Codec.Property

/-!
# Nodes in JSON

An id is a number.  A kind is a variant tagged by `label`, with its fields
beside the tag.  A node is a record of id, kind and properties, where empty
properties are left out.
-/

namespace CodeGraph

open Json (Origin Field)

namespace NodeId

/-- An id as JSON. -/
def toJson (id : NodeId) : Json := Json.ofUInt64 id.value

/-- The id of a JSON value. -/
def ofJson? (j : Json) : Option NodeId := (Json.uint64? j).map NodeId.mk

end NodeId

namespace NodeKind

/-- The tags of the kinds, in their order. -/
def tags : List String :=
  ["Method", "MethodParameterIn", "Call", "Identifier", "Literal", "ControlStructure", "Return",
    "MethodReturn", "Block", "Local", "Unknown"]

/-- A kind as the members of an object. -/
def toMembers : NodeKind → List (String × Json)
  | .method name fullName =>
    [("label", .str "Method"), ("name", .str name), ("full_name", .str fullName)]
  | .parameter name order =>
    [("label", .str "MethodParameterIn"), ("name", .str name), ("order", Json.ofUInt32 order)]
  | .call name code => [("label", .str "Call"), ("name", .str name), ("code", .str code)]
  | .identifier name i =>
    [("label", .str "Identifier"), ("name", .str name), ("argument_index", Json.ofUInt32 i)]
  | .literal code i =>
    [("label", .str "Literal"), ("code", .str code), ("argument_index", Json.ofUInt32 i)]
  | .controlStructure code => [("label", .str "ControlStructure"), ("code", .str code)]
  | .ret code => [("label", .str "Return"), ("code", .str code)]
  | .methodReturn => [("label", .str "MethodReturn")]
  | .block => [("label", .str "Block")]
  | .loc name => [("label", .str "Local"), ("name", .str name)]
  | .unknown name => [("label", .str "Unknown"), ("name", .str name)]

/-- A kind as JSON. -/
def toJson (k : NodeKind) : Json := .obj k.toMembers

/-- A variant with one text. -/
def ofText? (field : String) (make : String → NodeKind) (rest : Json) : Option NodeKind :=
  match Json.body? [⟨field, .required⟩] rest with
  | some [some a] => (Json.string? a).map make
  | _ => none

/-- A variant with two texts. -/
def ofTexts? (first second : String) (make : String → String → NodeKind) (rest : Json) :
    Option NodeKind :=
  match Json.body? [⟨first, .required⟩, ⟨second, .required⟩] rest with
  | some [some a, some b] =>
    match Json.string? a, Json.string? b with
    | some a, some b => some (make a b)
    | _, _ => none
  | _ => none

/-- A variant with a text and a position. -/
def ofPlace? (first second : String) (make : String → UInt32 → NodeKind) (rest : Json) :
    Option NodeKind :=
  match Json.body? [⟨first, .required⟩, ⟨second, .required⟩] rest with
  | some [some a, some b] =>
    match Json.string? a, Json.uint32? b with
    | some a, some b => some (make a b)
    | _, _ => none
  | _ => none

/-- A variant without fields. -/
def ofUnit? (kind : NodeKind) (rest : Json) : Option NodeKind :=
  if Json.isUnit rest then some kind else none

/-- The kind with a given tag. -/
def ofTagged? (tag : String) (rest : Json) : Option NodeKind :=
  match tag with
  | "Method" => ofTexts? "name" "full_name" .method rest
  | "MethodParameterIn" => ofPlace? "name" "order" .parameter rest
  | "Call" => ofTexts? "name" "code" .call rest
  | "Identifier" => ofPlace? "name" "argument_index" .identifier rest
  | "Literal" => ofPlace? "code" "argument_index" .literal rest
  | "ControlStructure" => ofText? "code" .controlStructure rest
  | "Return" => ofText? "code" .ret rest
  | "MethodReturn" => ofUnit? .methodReturn rest
  | "Block" => ofUnit? .block rest
  | "Local" => ofText? "name" .loc rest
  | "Unknown" => ofText? "name" .unknown rest
  | _ => none

/-- The kind of a JSON value. -/
def ofJson? (o : Origin) (j : Json) : Option NodeKind :=
  match Json.tagged? o "label" tags j with
  | some (tag, rest) => ofTagged? tag rest
  | none => none

end NodeKind

namespace Node

/-- The fields of a stored node. -/
def fields : List Field := [⟨"id", .required⟩, ⟨"kind", .required⟩, ⟨"properties", .defaulted⟩]

/-- A node as JSON. -/
def toJson (n : Node) : Json :=
  .obj ([("id", n.id.toJson), ("kind", n.kind.toJson)] ++ n.properties.toMember)

/-- The node of a JSON value. -/
def ofJson? (o : Origin) (j : Json) : Option Node :=
  match Json.record? o fields j with
  | some (o, [some id, some kind, properties]) =>
    match NodeId.ofJson? id, NodeKind.ofJson? o kind, Properties.ofMember? o properties with
    | some id, some kind, some properties => some ⟨id, kind, properties⟩
    | _, _, _ => none
  | _ => none

end Node

end CodeGraph
