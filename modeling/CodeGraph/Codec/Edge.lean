import CodeGraph.Edge
import CodeGraph.Codec.Property

/-!
# Edges in JSON

A kind is a plain variant.  An edge is a record of kind and properties, where
empty properties are left out.
-/

namespace CodeGraph

open Json (Origin Field)

namespace EdgeKind

/-- Every kind, in order. -/
def all : List EdgeKind := [.ast, .cfg, .argument, .reachingDef]

/-- A kind as JSON. -/
def toJson (k : EdgeKind) : Json := .str k.label

/-- The kind of a JSON value. -/
def ofJson? (o : Origin) (j : Json) : Option EdgeKind :=
  match Json.plain? o (all.map label) j with
  | some s => all.find? fun k => k.label = s
  | none => none

end EdgeKind

namespace Edge

/-- The fields of a stored edge. -/
def fields : List Field := [⟨"kind", .required⟩, ⟨"properties", .defaulted⟩]

/-- An edge as JSON. -/
def toJson (e : Edge) : Json := .obj ([("kind", e.kind.toJson)] ++ e.properties.toMember)

/-- The edge of a JSON value. -/
def ofJson? (o : Origin) (j : Json) : Option Edge :=
  match Json.record? o fields j with
  | some (o, [some kind, properties]) =>
    match EdgeKind.ofJson? o kind, Properties.ofMember? o properties with
    | some kind, some properties => some ⟨kind, properties⟩
    | _, _ => none
  | _ => none

end Edge

end CodeGraph
