import CodeGraph.Store.Basic

/-!
# Database files

This is the form that the engine of files gives to its databases.  The bytes of a
file are a mark, followed by the database as compact JSON.  The first byte of the
mark occurs in no UTF-8 text, so a text is never taken for a database, nor a
database for a text.  A database without a schema has files of its own.  When it
is not logged there is nothing in its file, and when it is, there is a single
page, which is a text.

A file also says how its database is changed: in the file itself, or in a log
beside it first.
-/

namespace CodeGraph

open Json (Origin Field)

/-! ## Bytes in JSON -/

/-- The digit of a number below sixteen. -/
def hexDigit (n : UInt8) : Char :=
  if n < 10 then Char.ofNat (48 + n.toNat) else Char.ofNat (87 + n.toNat)

/-- The number of a digit. -/
def hexValue? (c : Char) : Option UInt8 :=
  if '0' ≤ c ∧ c ≤ '9' then some (UInt8.ofNat (c.toNat - 48))
  else if 'a' ≤ c ∧ c ≤ 'f' then some (UInt8.ofNat (c.toNat - 87))
  else none

/-- Bytes as pairs of digits. -/
def hexOfBytes (bytes : List UInt8) : List Char :=
  bytes.flatMap fun b => [hexDigit (b / 16), hexDigit (b % 16)]

/-- The bytes of pairs of digits. -/
def bytesOfHex? : List Char → Option (List UInt8)
  | [] => some []
  | [_] => none
  | hi :: lo :: rest => do
    let h ← hexValue? hi
    let l ← hexValue? lo
    let bytes ← bytesOfHex? rest
    return (h * 16 + l) :: bytes

namespace OverlayRow

/-- A row as JSON. -/
def toJson (r : OverlayRow) : Json :=
  .obj [("name", .str r.name), ("data", .str (String.ofList (hexOfBytes r.data.toList))),
    ("entry_count", .int r.entryCount), ("content_hash", .str r.contentHash)]

/-- The row of a JSON value. -/
def ofJson? (o : Origin) (j : Json) : Option OverlayRow :=
  match Json.record? o [⟨"name", .required⟩, ⟨"data", .required⟩, ⟨"entry_count", .required⟩,
    ⟨"content_hash", .required⟩] j with
  | some (_, [some name, some data, some count, some hash]) => do
    let name ← Json.string? name
    let data ← bytesOfHex? (← Json.string? data).toList
    let count ← Json.natBelow? UInt64.size count
    let hash ← Json.string? hash
    return ⟨name, ⟨data.toArray⟩, count, hash⟩
  | _ => none

end OverlayRow

namespace Tables

/-- The tables as JSON. -/
def toJson (t : Tables) : Json :=
  let base : Json := match t.base with
    | some text => .str text
    | none => .null
  .obj [("base", base), ("overlays", .arr (t.rows.map OverlayRow.toJson))]

/-- The tables of a JSON value. -/
def ofJson? (o : Origin) (j : Json) : Option Tables :=
  match Json.record? o [⟨"base", .required⟩, ⟨"overlays", .required⟩] j with
  | some (o, [some base, some rows]) => do
    let base ← Json.nullable? Json.string? base
    let rows ← Json.list? o OverlayRow.ofJson? rows
    return ⟨base, rows⟩
  | _ => none

end Tables

namespace Database

/-- A database as JSON. -/
def toJson (d : Database) : Json :=
  let tables : Json := match d.tables with
    | some t => t.toJson
    | none => .null
  .obj [("version", .int d.version), ("tables", tables)]

/-- The database of a JSON value. -/
def ofJson? (o : Origin) (j : Json) : Option Database :=
  match Json.record? o [⟨"version", .required⟩, ⟨"tables", .required⟩] j with
  | some (o, [some (.int version), some tables]) => do
    let tables ← Json.nullable? (Tables.ofJson? o) tables
    return ⟨tables, version⟩
  | _ => none

end Database

/-- What a database file holds. -/
structure DatabaseFile where
  /-- The database. -/
  database : Database := .blank
  /-- Whether changes go to a log first. -/
  logged : Bool := false

namespace DatabaseFile

/-- What a database file starts with. -/
def mark : List UInt8 := [0x89, 0x63, 0x70, 0x67, 0x0A]

/-- The bytes of a number of four bytes, the highest first. -/
def bytesOfNumber (n : Nat) : List UInt8 :=
  [UInt8.ofNat (n / 16777216), UInt8.ofNat (n / 65536), UInt8.ofNat (n / 256), UInt8.ofNat n]

/-- The page of a database without a schema whose changes are logged. -/
def blankPage : List UInt8 :=
  "SQLite format 3".toUTF8.toList ++ [0, 16, 0, 2, 2, 0, 64, 32, 32] ++ bytesOfNumber 1 ++
    bytesOfNumber 1 ++ List.replicate 60 0 ++ bytesOfNumber 1 ++ bytesOfNumber 3046000 ++
    [13, 0, 0, 0, 0, 16] ++ List.replicate 3990 0

/-- A database file as JSON. -/
def toJson (f : DatabaseFile) : Json :=
  .obj [("database", f.database.toJson), ("logged", .bool f.logged)]

/-- The database file of a JSON value. -/
def ofJson? (j : Json) : Option DatabaseFile :=
  match Json.record? .top [⟨"database", .required⟩, ⟨"logged", .required⟩] j with
  | some (o, [some database, some (.bool logged)]) =>
    (Database.ofJson? o database).map (⟨·, logged⟩)
  | _ => none

/-- Whether a file holds no schema, and its changes are logged. -/
def isBlankPage (f : DatabaseFile) : Bool :=
  f.logged && f.database.tables.isNone && f.database.version = 0

/-- The bytes of a database file. -/
def toBytes (f : DatabaseFile) : ByteArray :=
  if f.isBlankPage then ⟨blankPage.toArray⟩ else ⟨mark.toArray⟩ ++ f.toJson.compact.toUTF8

/-- Whether some bytes are those of a file that holds nothing yet.  A single byte counts for
nothing. -/
def isVacant (bytes : ByteArray) : Bool := bytes.size ≤ 1

/-- The database file of some bytes.  One that holds nothing yet is blank. -/
def ofBytes (bytes : ByteArray) : Except StoreError DatabaseFile :=
  if isVacant bytes then .ok {}
  else if bytes.toList = blankPage then .ok { logged := true }
  else if bytes.toList.take mark.length = mark then
    match (Json.ofBytes? ⟨(bytes.toList.drop mark.length).toArray⟩).bind ofJson? with
    | some f => .ok f
    | none => .error .database
  else .error .database

end DatabaseFile

end CodeGraph
