import CodeGraph.CommandLine.Engine
import CodeGraph.Proofs.Codec.Database
import CodeGraph.Proofs.CommandLine.Disk
import Mathlib

/-!
# What is expected of a database engine

The commands take their engine as an argument.  So what they do with a database is known as far as
the engine is known, and what has to be known is said here.

`Engine.Life` is what may have become of a database since a disk on which it was found.  It was
opened, changed and closed, perhaps several times, and other files were written meanwhile.  An
engine is `Durable` for a database if that is opened again as it was closed, and if no files are
touched but its own.  A database is `Fresh` if nothing is stored in it.

From this follows what becomes of connections: one to a fresh database has the empty tables
(`Engine.Fresh.of_connect`), and one to a database that was closed has the tables that it
had (`Engine.Durable.exec_connect`).
-/

namespace CodeGraph.CommandLine

variable {E : Engine} {text time : String} {own : Set (List FileName)} {d d' d'' : Disk}
  {s : Option E.Handle} {h : E.Handle} {db db' : Database}

/-- A change of a disk that leaves all files as they are, except those of a database. -/
structure Spares (own : Set (List FileName)) (d d' : Disk) : Prop where
  sameDirectories : d.SameDirectories d'
  file?_eq : ∀ q ∉ own, d'.file? q = d.file? q

namespace Engine

/-! ## Laws -/

/-- What may become of the database that a text names, from the disk `d` on: the handle by which it
is in use, if it is, and what it holds.  The files that belong to it are `own`. -/
inductive Life (E : Engine) (text : String) (own : Set (List FileName)) (d : Disk) :
    Option E.Handle → Database → Disk → Prop where
  /-- It is there to be opened. -/
  | found {time : String} {h : E.Handle} {db : Database} {d' : Disk}
      (hconnect : d.exec time (E.connect text) = (.ok (h, db), d')) : Life E text own d none db d
  /-- It is opened. -/
  | connect {time : String} {h : E.Handle} {db db' : Database} {d' d'' : Disk}
      (hlife : Life E text own d none db d')
      (hconnect : d'.exec time (E.connect text) = (.ok (h, db'), d'')) :
      Life E text own d (some h) db' d''
  /-- It is changed. -/
  | keep {time : String} {h : E.Handle} {db db' : Database} {d' d'' : Disk}
      (hlife : Life E text own d (some h) db d') (hdb : db'.Storable)
      (hkeep : d'.exec time (E.keep h db') = (.ok (), d'')) : Life E text own d (some h) db' d''
  /-- It is closed. -/
  | close {h : E.Handle} {db : Database} {d' : Disk} (hlife : Life E text own d (some h) db d')
      (time : String) : Life E text own d none db (d'.run time (E.close h)).2
  /-- Files are written that are not its own. -/
  | elsewhere {s : Option E.Handle} {db : Database} {d' d'' : Disk}
      (hlife : Life E text own d s db d') (hgrown : d'.Grown d'')
      (hown : ∀ q ∈ own, d''.file? q = d'.file? q) : Life E text own d s db d''

/-- What an engine promises for the database that a text names. -/
structure Durable (E : Engine) (text : String) (own : Set (List FileName)) (d : Disk) : Prop where
  /-- A database that was closed is opened again with the same tables. -/
  reopen : ∀ {db d'}, E.Life text own d none db d' → ∀ time,
    ∃ h d'', d'.exec time (E.connect text) = (.ok (h, db), d'')
  /-- No files are touched but its own when it is opened, -/
  connect : ∀ {db d'}, E.Life text own d none db d' → ∀ {time h db' d''},
    d'.exec time (E.connect text) = (.ok (h, db'), d'') → Spares own d' d''
  /-- when it is changed, -/
  keep : ∀ {h db d'}, E.Life text own d (some h) db d' → ∀ {time db' d''}, db'.Storable →
    d'.exec time (E.keep h db') = (.ok (), d'') → Spares own d' d''
  /-- and when it is closed. -/
  close : ∀ {h db d'}, E.Life text own d (some h) db d' → ∀ time,
    Spares own d' (d'.run time (E.close h)).2

/-- Nothing is stored in the database that a text names.  It has no schema yet, or it has one and
its tables are empty. -/
def Fresh (E : Engine) (text : String) (d : Disk) : Prop :=
  ∀ {time h db d'}, d.exec time (E.connect text) = (.ok (h, db), d') → db = .blank ∨ db = {}

/-! ## Connections -/

theorem Durable.sameDirectories (hE : E.Durable text own d) (hd : d.Proper)
    (hlife : E.Life text own d s db d') : d.SameDirectories d' := by
  induction hlife with
  | found => exact .refl hd
  | connect hlife hconnect ih => exact ih.trans (hE.connect hlife hconnect).sameDirectories
  | keep hlife hdb hkeep ih => exact ih.trans (hE.keep hlife hdb hkeep).sameDirectories
  | close hlife time ih => exact ih.trans (hE.close hlife time).sameDirectories
  | elsewhere _ hgrown _ ih => exact ih.trans hgrown.toSameDirectories

end Engine

namespace Connection

variable {c c' : Connection E}

theorem store_eq_database (hlocked : E.isLocked h = false) : store ⟨h, db⟩ = .database db := by
  simp [store, hlocked]

theorem store_eq_locked (hlocked : E.isLocked h = true) : store ⟨h, db⟩ = .locked db := by
  simp [store, hlocked]

theorem exec_withSchema (hversion : c.database.version = 1) :
    d.exec time c.withSchema = (.ok c, d) := by
  have hreopen : c.database.reopen = .ok c.database := if_pos hversion
  simp only [withSchema, hreopen, if_true]
  rfl

/-- A database without a schema gets one. -/
theorem exec_withSchema_blank (hlocked : E.isLocked h = false) :
    d.exec time (withSchema ⟨h, .blank⟩) = d.exec time (keep ⟨h, .blank⟩ {}) := by
  rw [withSchema, store_eq_database hlocked]
  rfl

theorem isLocked_of_withSchema (hok : d.exec time (withSchema ⟨h, .blank⟩) = (.ok c, d')) :
    E.isLocked h = false := by
  cases hlocked : E.isLocked h with
  | false => rfl
  | true =>
    rw [withSchema, store_eq_locked hlocked] at hok
    obtain ⟨_, _, _, hthrow⟩ := Disk.exec_bind_eq_ok hok
    cases hthrow

/-- What is known when a connection has been given another database. -/
theorem exec_keep_eq_ok (hok : d.exec time (c.keep db) = (.ok c', d')) :
    c' = ⟨c.handle, db⟩ ∧
      (db = c.database ∧ d' = d ∨ d.exec time (E.keep c.handle db) = (.ok (), d')) := by
  unfold keep at hok
  split at hok
  · rename_i heq
    cases hok
    exact ⟨heq ▸ rfl, .inl ⟨heq, rfl⟩⟩
  · obtain ⟨_, d₁, hkeep, hok⟩ := Disk.exec_bind_eq_ok hok
    cases hok
    exact ⟨rfl, .inr hkeep⟩

end Connection

namespace Engine

open Connection

variable {c c' : Connection E}

/-- A connection that was given another database has it. -/
theorem Life.of_keep (hlife : E.Life text own d (some c.handle) c.database d') (hdb : db.Storable)
    (hok : d'.exec time (c.keep db) = (.ok c', d'')) :
    c' = ⟨c.handle, db⟩ ∧ E.Life text own d (some c.handle) db d'' := by
  obtain ⟨hc, ⟨rfl, rfl⟩ | hkeep⟩ := exec_keep_eq_ok hok
  · exact ⟨hc, hlife⟩
  · exact ⟨hc, hlife.keep hdb hkeep⟩

/-- A connection to a fresh database has the empty tables. -/
theorem Fresh.of_connect (hfresh : E.Fresh text d) (own : Set (List FileName))
    (hok : d.exec time (Connection.connect E text) = (.ok c, d')) :
    c.database = {} ∧ E.Life text own d (some c.handle) {} d' := by
  obtain ⟨⟨h, db⟩, d₁, hconnect, hok⟩ := Disk.exec_bind_eq_ok hok
  have hlife : E.Life text own d (some h) db d₁ := (Life.found hconnect).connect hconnect
  rcases hfresh hconnect with rfl | rfl
  · rw [exec_withSchema_blank (isLocked_of_withSchema hok)] at hok
    obtain ⟨rfl, hlife⟩ := hlife.of_keep Database.storable_empty hok
    exact ⟨rfl, hlife⟩
  · cases (exec_withSchema (c := ⟨h, {}⟩) rfl).symm.trans hok
    exact ⟨rfl, hlife⟩

/-- A connection to a database that was closed has the tables that it had. -/
theorem Durable.exec_connect (hE : E.Durable text own d) (hlife : E.Life text own d none db d')
    (hversion : db.version = 1) (time : String) :
    ∃ h d'', d'.exec time (Connection.connect E text) = (.ok ⟨h, db⟩, d'') ∧
      E.Life text own d (some h) db d'' := by
  obtain ⟨h, d'', hconnect⟩ := hE.reopen hlife time
  refine ⟨h, d'', ?_, hlife.connect hconnect⟩
  simp only [Connection.connect, Disk.exec_bind, hconnect]
  exact exec_withSchema hversion

end Engine

end CodeGraph.CommandLine
