import CodeGraph.Codec.Graph
import CodeGraph.Codec.Overlay

/-!
# Overlay stores

A store keeps a base graph, if one was saved, and overlays under names.
Overlays are only ever added.  Names are unique and are listed in the order in
which they were added.

There are two kinds of stores.  A `MemoryStore` keeps bytes as they are.  A
`Database` reads an overlay before it stores it, keeps the number of its entries
and the hash of its bytes with it, and compares the hash whenever the overlay is
asked for.  So bytes that were changed behind its back are never handed out.  A
database may be open for reading only, and then what would change it fails.

A database can be spoiled from outside: its tables may be dropped, and its
schema version may be set to one that this library does not know.
-/

namespace CodeGraph

/-- The base graph of a stored text. -/
def baseOfText (text : String) : Except StoreError Graph :=
  match Graph.read text with
  | .ok g => .ok g
  | .error .malformed => .error .serialization
  | .error .gap => .error .gap

/-! ## In memory -/

/-- A store in memory. -/
structure MemoryStore where
  /-- The text of the base graph. -/
  base : Option String := none
  /-- The overlays, oldest first. -/
  overlays : List (String × ByteArray) := []

namespace MemoryStore

instance : Inhabited MemoryStore := ⟨{}⟩

/-- The number of overlays. -/
def size (s : MemoryStore) : Nat := s.overlays.length

/-- A base graph saved. -/
def saveBase (s : MemoryStore) (g : Graph) : MemoryStore := { s with base := some g.toCompactText }

/-- The base graph. -/
def loadBase (s : MemoryStore) : Except StoreError (Option Graph) :=
  match s.base with
  | none => .ok none
  | some text => (baseOfText text).map some

/-- An overlay added. -/
def add (s : MemoryStore) (name : String) (bytes : ByteArray) : Except StoreError MemoryStore :=
  if s.overlays.any fun o => o.1 = name then .error (.duplicateOverlay name)
  else .ok { s with overlays := s.overlays ++ [(name, bytes)] }

/-- The bytes of an overlay. -/
def get (s : MemoryStore) (name : String) : Except StoreError ByteArray :=
  match s.overlays.find? fun o => o.1 = name with
  | some o => .ok o.2
  | none => .error (.overlayNotFound name)

/-- The names of the overlays. -/
def names (s : MemoryStore) : List String := s.overlays.map Prod.fst

/-- Whether nothing was stored. -/
def isEmpty (s : MemoryStore) : Bool := s.base.isNone && s.overlays.isEmpty

end MemoryStore

/-! ## In a database -/

/-- A row of the table of overlays. -/
structure OverlayRow where
  /-- The name. -/
  name : String
  /-- The bytes. -/
  data : ByteArray
  /-- The number of entries. -/
  entryCount : Nat
  /-- The hash of the bytes when they were stored. -/
  contentHash : String

namespace OverlayRow

/-- Two rows are the same when they agree in every field. -/
theorem eq_iff (r s : OverlayRow) : (r.name = s.name ∧ r.data.data = s.data.data ∧
    r.entryCount = s.entryCount ∧ r.contentHash = s.contentHash) ↔ r = s := by
  constructor
  · intro h
    obtain ⟨n, ⟨d⟩, c, k⟩ := r
    obtain ⟨n', ⟨d'⟩, c', k'⟩ := s
    obtain ⟨hn, hd, hc, hk⟩ := h
    cases hn
    cases hd
    cases hc
    cases hk
    rfl
  · intro h
    cases h
    exact ⟨rfl, rfl, rfl, rfl⟩

instance : DecidableEq OverlayRow := fun r s => decidable_of_iff _ (eq_iff r s)

end OverlayRow

/-- What is listed of a stored overlay. -/
structure OverlayInfo where
  /-- The name. -/
  name : String
  /-- The number of entries. -/
  entryCount : Nat
  /-- The hash of its bytes. -/
  contentHash : String
  deriving DecidableEq

/-- The tables of a database. -/
structure Tables where
  /-- The text of the base graph. -/
  base : Option String := none
  /-- The overlays, oldest first. -/
  rows : List OverlayRow := []
  deriving DecidableEq

/-- A store in a database. -/
structure Database where
  /-- The tables, unless they were dropped. -/
  tables : Option Tables := some {}
  /-- The schema version. -/
  version : Int := 1
  deriving DecidableEq

namespace Database

instance : Inhabited Database := ⟨{}⟩

/-- The schema version of this library. -/
def currentVersion : Int := 1

/-- A database without a schema. -/
def blank : Database := ⟨none, 0⟩

/-- The database as it is after opening it.  A schema of version zero is one
without tables, and is brought up to date. -/
def reopen (d : Database) : Except StoreError Database :=
  if d.version = currentVersion then .ok d
  else if d.version = 0 ∧ d.tables.isNone then .ok {}
  else .error .migration

/-- The tables, or an error when they were dropped. -/
def read (d : Database) : Except StoreError Tables :=
  match d.tables with
  | some t => .ok t
  | none => .error .database

/-- A base graph saved. -/
def saveBase (d : Database) (g : Graph) : Except StoreError Database := do
  let t ← d.read
  return { d with tables := some { t with base := some g.toCompactText } }

/-- The base graph. -/
def loadBase (d : Database) : Except StoreError (Option Graph) := do
  let t ← d.read
  match t.base with
  | none => return none
  | some text => return some (← baseOfText text)

/-- An overlay added. -/
def add (d : Database) (name : String) (bytes : ByteArray) : Except StoreError Database := do
  let overlay ← Overlay.ofBytes bytes
  let t ← d.read
  if t.rows.any fun r => r.name = name then throw (.duplicateOverlay name)
  let row := ⟨name, bytes, overlay.size, Digest.contentHash bytes⟩
  return { d with tables := some { t with rows := t.rows ++ [row] } }

/-- The bytes of an overlay, if they are those that were stored. -/
def get (d : Database) (name : String) : Except StoreError ByteArray := do
  let t ← d.read
  match t.rows.find? fun r => r.name = name with
  | none => throw (.overlayNotFound name)
  | some r =>
    if Digest.contentHash r.data = r.contentHash then return r.data else throw (.integrity name)

/-- The names of the overlays. -/
def names (d : Database) : Except StoreError (List String) := do
  let t ← d.read
  return t.rows.map OverlayRow.name

/-- What is listed of the overlays. -/
def infos (d : Database) : Except StoreError (List OverlayInfo) := do
  let t ← d.read
  return t.rows.map fun r => ⟨r.name, r.entryCount, r.contentHash⟩

/-- Whether nothing was stored. -/
def isEmpty (d : Database) : Except StoreError Bool := do
  let t ← d.read
  return t.base.isNone && t.rows.isEmpty

/-! ### Changes behind its back -/

/-- The bytes of an overlay replaced, its hash left as it is.  The number of
rows changed is returned. -/
def tamper (d : Database) (name : String) (bytes : ByteArray) :
    Except StoreError (Nat × Database) := do
  let t ← d.read
  let rows := t.rows.map fun r => if r.name = name then { r with data := bytes } else r
  return (t.rows.countP fun r => r.name = name, { d with tables := some { t with rows } })

/-- The text of the base graph replaced.  The number of rows changed is returned. -/
def tamperBase (d : Database) (text : String) : Except StoreError (Nat × Database) := do
  let t ← d.read
  match t.base with
  | some _ => return (1, { d with tables := some { t with base := some text } })
  | none => return (0, d)

/-- The tables dropped. -/
def drop (d : Database) : Database := { d with tables := none }

/-- The schema version set.  It has 32 bits, and one that does not fit is set to zero. -/
def setVersion (d : Database) (version : Int) : Database :=
  { d with version := if -2147483648 ≤ version ∧ version ≤ 2147483647 then version else 0 }

end Database

/-! ## Either -/

/-- A store of either kind. -/
inductive Store where
  /-- In memory. -/
  | memory (s : MemoryStore)
  /-- In a database. -/
  | database (d : Database)
  /-- In a database that may only be read. -/
  | locked (d : Database)
  deriving Inhabited

namespace Store

/-- A base graph saved. -/
def saveBase (s : Store) (g : Graph) : Except StoreError Store :=
  match s with
  | .memory s => .ok (.memory (s.saveBase g))
  | .database d => (d.saveBase g).map .database
  | .locked d => (d.saveBase g).bind fun _ => .error .readOnly

/-- The base graph. -/
def loadBase : Store → Except StoreError (Option Graph)
  | .memory s => s.loadBase
  | .database d | .locked d => d.loadBase

/-- An overlay added. -/
def add (s : Store) (name : String) (bytes : ByteArray) : Except StoreError Store :=
  match s with
  | .memory s => (s.add name bytes).map .memory
  | .database d => (d.add name bytes).map .database
  | .locked d => (d.add name bytes).bind fun _ => .error .readOnly

/-- The bytes of an overlay. -/
def get (s : Store) (name : String) : Except StoreError ByteArray :=
  match s with
  | .memory s => s.get name
  | .database d | .locked d => d.get name

/-- The names of the overlays, oldest first. -/
def names : Store → Except StoreError (List String)
  | .memory s => .ok s.names
  | .database d | .locked d => d.names

/-- Whether nothing was stored. -/
def isEmpty : Store → Except StoreError Bool
  | .memory s => .ok s.isEmpty
  | .database d | .locked d => d.isEmpty

end Store

end CodeGraph
