import CodeGraph.Overlay
import CodeGraph.Codec.Diff
import CodeGraph.Digest.Blake3

/-!
# Overlays in JSON

An entry is a variant tagged by `op`.  An overlay is a record of its entries.
Its bytes are the compact text in UTF-8, and its hash is that of these bytes.
-/

namespace CodeGraph

open Json (Origin Field)

namespace OverlayEntry

/-- The tags of the entries, in their order. -/
def tags : List String :=
  ["add_node", "add_edge", "set_property", "append_property", "remove_node", "remove_edge",
    "restore_property"]

/-- An entry as JSON. -/
def toJson : OverlayEntry → Json
  | .addNode id kind properties =>
    .obj ([("op", .str "add_node"), ("id", id.toJson), ("kind", kind.toJson)] ++
      properties.toMember)
  | .addEdge src dst edge =>
    .obj [("op", .str "add_edge"), ("src", src.toJson), ("dst", dst.toJson), ("edge", edge.toJson)]
  | .setProperty node key value =>
    .obj [("op", .str "set_property"), ("node", node.toJson), ("key", .str key),
      ("value", value.toJson)]
  | .appendProperty node key value =>
    .obj [("op", .str "append_property"), ("node", node.toJson), ("key", .str key),
      ("value", value.toJson)]
  | .removeNode id => .obj [("op", .str "remove_node"), ("id", id.toJson)]
  | .removeEdge src dst edge =>
    .obj [("op", .str "remove_edge"), ("src", src.toJson), ("dst", dst.toJson),
      ("edge", edge.toJson)]
  | .restoreProperty node key value =>
    .obj [("op", .str "restore_property"), ("node", node.toJson), ("key", .str key),
      ("value", Change.valueToJson value)]

/-- The entry that adds a node. -/
def addNodeOf? (rest : Json) : Option OverlayEntry :=
  match Json.body? [⟨"id", .required⟩, ⟨"kind", .required⟩, ⟨"properties", .defaulted⟩] rest with
  | some [some id, some kind, properties] =>
    match NodeId.ofJson? id, NodeKind.ofJson? .held kind, Properties.ofMember? .held properties with
    | some id, some kind, some properties => some (.addNode id kind properties)
    | _, _, _ => none
  | _ => none

/-- The entry with a given tag. -/
def ofTagged? (tag : String) (rest : Json) : Option OverlayEntry :=
  match tag with
  | "add_node" => addNodeOf? rest
  | "add_edge" => Change.edgeOf? NodeId.ofJson? .addEdge rest
  | "set_property" => Change.propertyOf? NodeId.ofJson? .setProperty rest
  | "append_property" => Change.propertyOf? NodeId.ofJson? .appendProperty rest
  | "remove_node" => Change.nodeOf? "id" NodeId.ofJson? .removeNode rest
  | "remove_edge" => Change.edgeOf? NodeId.ofJson? .removeEdge rest
  | "restore_property" => Change.restorePropertyOf? .restoreProperty rest
  | _ => none

/-- The entry of a JSON value. -/
def ofJson? (o : Origin) (j : Json) : Option OverlayEntry :=
  match Json.tagged? o "op" tags j with
  | some (tag, rest) => ofTagged? tag rest
  | none => none

end OverlayEntry

namespace Overlay

/-- An overlay as JSON. -/
def toJson (o : Overlay) : Json := .obj [("entries", .arr (o.entries.map OverlayEntry.toJson))]

/-- The overlay of a JSON value. -/
def ofJson? (o : Origin) (j : Json) : Option Overlay :=
  match Json.record? o [⟨"entries", .required⟩] j with
  | some (o, [some entries]) => (Json.list? o OverlayEntry.ofJson? entries).map Overlay.mk
  | _ => none

/-- The bytes of an overlay. -/
def toBytes (o : Overlay) : ByteArray := o.toJson.compact.toUTF8

/-- The overlay of some bytes. -/
def ofBytes (bytes : ByteArray) : Except StoreError Overlay :=
  match (Json.ofBytes? bytes).bind (ofJson? .top) with
  | some o => .ok o
  | none => .error .serialization

end Overlay

end CodeGraph
