import CodeGraph.Graph.Error

/-!
# Errors of overlays and stores
-/

namespace CodeGraph

/-- Why an operation on an overlay or a store failed. -/
inductive StoreError where
  /-- Bytes or a text could not be read. -/
  | serialization
  /-- The text of the base graph has a gap in its slots. -/
  | gap
  /-- No overlay has the name. -/
  | overlayNotFound (name : String)
  /-- An overlay has the name already. -/
  | duplicateOverlay (name : String)
  /-- A script names a node that its application did not create. -/
  | unresolvedNode (reference : String)
  /-- The bytes of an overlay are not those that were stored. -/
  | integrity (name : String)
  /-- An overlay could not be replayed. -/
  | replay (e : GraphError)
  /-- The tables of the database are not there. -/
  | database
  /-- The database may only be read. -/
  | readOnly
  /-- The database has a schema that cannot be brought up to date. -/
  | migration
  deriving DecidableEq

/-- The message of an error. -/
def StoreError.message : StoreError → String
  | .serialization => "serialization error: malformed text"
  | .gap => "serialization error: gap in the slots"
  | .overlayNotFound name => "overlay not found: " ++ name
  | .duplicateOverlay name => "overlay already exists: " ++ name
  | .unresolvedNode reference =>
    "unresolved node reference in applied diff graph: " ++ reference
  | .integrity name => "integrity error: content hash mismatch for overlay '" ++ name ++ "'"
  | .replay e => "replay error: " ++ e.message
  | .database => "sqlite error: no such table"
  | .readOnly => "sqlite error: attempt to write a readonly database"
  | .migration => "migration error: schema version not supported"

end CodeGraph
