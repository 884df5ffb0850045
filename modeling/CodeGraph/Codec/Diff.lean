import CodeGraph.Diff.Basic
import CodeGraph.Codec.Node
import CodeGraph.Codec.Edge
import CodeGraph.Json.Parse
import CodeGraph.Json.Render

/-!
# Edit scripts in JSON

A change is a variant tagged by `op`.  A reference to a node is a plain variant
with one value.  A script is a record of its changes.

The entries of an overlay are variants of the same shapes, so the readers of the
fields of a variant do not say what is made of them.
-/

namespace CodeGraph

open Json (Origin Field)

namespace NewKey

/-- A key as JSON. -/
def toJson (key : NewKey) : Json := Json.ofUInt32 key.value

/-- The key of a JSON value. -/
def ofJson? (j : Json) : Option NewKey := (Json.uint32? j).map NewKey.mk

end NewKey

namespace NodeRef

/-- A reference as JSON. -/
def toJson : NodeRef → Json
  | .existing id => .obj [("Existing", id.toJson)]
  | .new key => .obj [("New", key.toJson)]

/-- The reference of a JSON value. -/
def ofJson? (o : Origin) (j : Json) : Option NodeRef :=
  match Json.wrapped? o j with
  | some ("Existing", j) => (NodeId.ofJson? j).map .existing
  | some ("New", j) => (NewKey.ofJson? j).map .new
  | _ => none

end NodeRef

namespace Change

/-- The tags of the changes, in their order. -/
def tags : List String :=
  ["CreateNode", "CreateEdge", "SetNodeProperty", "AddNodeProperty", "RemoveNode", "RemoveEdge",
    "RestoreNodeProperty", "RestoreNode"]

/-- A value that may be missing as JSON. -/
def valueToJson : Option PropertyValue → Json
  | some v => v.toJson
  | none => .null

/-- A value that may be missing. -/
def valueOfJson? : Option Json → Option (Option PropertyValue)
  | some j => Json.nullable? (PropertyValue.ofJson? .held) j
  | none => some none

/-- A change as JSON. -/
def toJson : Change → Json
  | .createNode key kind properties =>
    .obj [("op", .str "CreateNode"), ("key", key.toJson), ("kind", kind.toJson),
      ("properties", properties.toJson)]
  | .createEdge src dst edge =>
    .obj [("op", .str "CreateEdge"), ("src", src.toJson), ("dst", dst.toJson),
      ("edge", edge.toJson)]
  | .setProperty node key value =>
    .obj [("op", .str "SetNodeProperty"), ("node", node.toJson), ("key", .str key),
      ("value", value.toJson)]
  | .addProperty node key value =>
    .obj [("op", .str "AddNodeProperty"), ("node", node.toJson), ("key", .str key),
      ("value", value.toJson)]
  | .removeNode node => .obj [("op", .str "RemoveNode"), ("node", node.toJson)]
  | .removeEdge src dst edge =>
    .obj [("op", .str "RemoveEdge"), ("src", src.toJson), ("dst", dst.toJson),
      ("edge", edge.toJson)]
  | .restoreProperty node key value =>
    .obj [("op", .str "RestoreNodeProperty"), ("node", node.toJson), ("key", .str key),
      ("value", valueToJson value)]
  | .restoreNode node => .obj [("op", .str "RestoreNode"), ("node", node.toJson)]

/-- The change that creates a node. -/
def createNodeOf? (rest : Json) : Option Change :=
  match Json.body? [⟨"key", .required⟩, ⟨"kind", .required⟩, ⟨"properties", .required⟩] rest with
  | some [some key, some kind, some properties] =>
    match NewKey.ofJson? key, NodeKind.ofJson? .held kind, Properties.ofJson? .held properties with
    | some key, some kind, some properties => some (.createNode key kind properties)
    | _, _, _ => none
  | _ => none

/-- What is made of an edge whose ends are read by `read`. -/
def edgeOf? {α β : Type} (read : Json → Option α) (make : α → α → Edge → β) (rest : Json) :
    Option β :=
  match Json.body? [⟨"src", .required⟩, ⟨"dst", .required⟩, ⟨"edge", .required⟩] rest with
  | some [some src, some dst, some edge] =>
    match read src, read dst, Edge.ofJson? .held edge with
    | some src, some dst, some edge => some (make src dst edge)
    | _, _, _ => none
  | _ => none

/-- What is made of a property with a value, where the node is read by `read`. -/
def propertyOf? {α β : Type} (read : Json → Option α) (make : α → String → PropertyValue → β)
    (rest : Json) : Option β :=
  match Json.body? [⟨"node", .required⟩, ⟨"key", .required⟩, ⟨"value", .required⟩] rest with
  | some [some node, some key, some value] =>
    match read node, Json.string? key, PropertyValue.ofJson? .held value with
    | some node, some key, some value => some (make node key value)
    | _, _, _ => none
  | _ => none

/-- What is made of a property whose value may be missing. -/
def restorePropertyOf? {β : Type} (make : NodeId → String → Option PropertyValue → β)
    (rest : Json) : Option β :=
  match Json.body? [⟨"node", .required⟩, ⟨"key", .required⟩, ⟨"value", .optional⟩] rest with
  | some [some node, some key, value] =>
    match NodeId.ofJson? node, Json.string? key, valueOfJson? value with
    | some node, some key, some value => some (make node key value)
    | _, _, _ => none
  | _ => none

/-- What is made of a node that stands under `field` and is read by `read`. -/
def nodeOf? {α β : Type} (field : String) (read : Json → Option α) (make : α → β) (rest : Json) :
    Option β :=
  match Json.body? [⟨field, .required⟩] rest with
  | some [some node] => (read node).map make
  | _ => none

/-- The change with a given tag. -/
def ofTagged? (tag : String) (rest : Json) : Option Change :=
  match tag with
  | "CreateNode" => createNodeOf? rest
  | "CreateEdge" => edgeOf? (NodeRef.ofJson? .held) .createEdge rest
  | "SetNodeProperty" => propertyOf? (NodeRef.ofJson? .held) .setProperty rest
  | "AddNodeProperty" => propertyOf? (NodeRef.ofJson? .held) .addProperty rest
  | "RemoveNode" => nodeOf? "node" NodeId.ofJson? .removeNode rest
  | "RemoveEdge" => edgeOf? NodeId.ofJson? .removeEdge rest
  | "RestoreNodeProperty" => restorePropertyOf? .restoreProperty rest
  | "RestoreNode" => nodeOf? "node" (Node.ofJson? .held) .restoreNode rest
  | _ => none

/-- The change of a JSON value. -/
def ofJson? (o : Origin) (j : Json) : Option Change :=
  match Json.tagged? o "op" tags j with
  | some (tag, rest) => ofTagged? tag rest
  | none => none

end Change

namespace Diff

/-- A script as JSON. -/
def toJson (d : Diff) : Json := .obj [("changes", .arr (d.changes.map Change.toJson))]

/-- The script of a JSON value. -/
def ofJson? (o : Origin) (j : Json) : Option Diff :=
  match Json.record? o [⟨"changes", .required⟩] j with
  | some (o, [some changes]) => (Json.list? o Change.ofJson? changes).map Diff.mk
  | _ => none

/-- The text of a script. -/
def toText (d : Diff) : String := d.toJson.compact

/-- The script of a text. -/
def ofText? (s : String) : Option Diff := (Json.ofString? s).bind (ofJson? .top)

end Diff

end CodeGraph
