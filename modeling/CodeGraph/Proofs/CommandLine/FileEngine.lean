import CodeGraph.CommandLine.FileEngine
import CodeGraph.Proofs.CommandLine.Engine
import Mathlib

/-!
# The engine of files is durable

A *site* is a place for a database, with nothing beside it (`Site`).  On a disk that has grown
since, a database at the site is in use (`FileEngine.InUse`) or closed (`FileEngine.AtRest`).  Its
file holds what is known of it, and only companions stand beside the file, or nothing once it is
closed.  A database without a file is one that holds nothing.

Each step of the engine has a lemma that says which of the files it changes.  A database is opened
under every address that is `Usable` (`FileEngine.AtRest.exec_connect`), is changed
(`FileEngine.InUse.exec_keep`) and is closed (`FileEngine.InUse.run_close`).  So the two states are
all that can become of it (`FileEngine.AtRest.kept_of_life`), and the engine is durable for it
(`FileEngine.AtRest.durable`).
-/

namespace CodeGraph.CommandLine

open CodeGraph.Disk (Grown Leads Spot Wrote Target)

variable {time : String} {d d' : Disk} {p dir : List FileName} {name : FileName} {a : Address}

namespace Opening

theorem exec_must {α : Type} (access : FileProgram (Except FileError α)) :
    d.exec time (must access) =
      match d.run time access with
      | (.ok x, d') => (.ok x, d')
      | (.error e, d') => (.error (.file e), d') := by
  simp only [must, Disk.exec_bind, Disk.exec_lift]
  rcases d.run time access with ⟨_ | x, d'⟩ <;> rfl

/-! ## Paths -/

theorem exec_locate_of_forall {names : List FileName} (h : names.all (· = []) = true) :
    d.exec time (locate p names) = (.ok p, d) := by
  induction names with
  | nil => rfl
  | cons name names ih =>
    rw [List.all_cons, Bool.and_eq_true] at h
    rw [locate, if_pos (.inl (of_decide_eq_true h.1))]
    exact ih h.2

/-- A name that is looked up when a path is made absolute. -/
theorem exec_locate_cons {names : List FileName} (hidle : ¬FileName.IsIdle name)
    (hdots : name ≠ .ofString "..") (hsize : (Path.ofNames (dir ++ [name])).size < pathLimit)
    (hfind : d.find (.ofNames (dir ++ [name])) = .ok () ∨
      d.find (.ofNames (dir ++ [name])) = .error .notFound) :
    d.exec time (locate dir (name :: names)) = d.exec time (locate (dir ++ [name]) names) := by
  rw [locate, if_neg hidle, if_neg hdots, if_neg (Nat.not_le.mpr hsize)]
  simp only [Disk.exec_bind, Disk.exec_lift, Disk.run_findFile]
  rcases hfind with hfind | hfind <;> rw [hfind]

/-- Names are followed to a place when they are looked up, or cannot be.  Which of the two does not
depend on what has come to the disk since. -/
def Located (d : Disk) (dir names p : List FileName) : Prop :=
  ∃ r : Except ConnectionError (List FileName), (r = .ok p ∨ ∃ e, r = .error e) ∧
    ∀ time d', d.Grown d' → d'.exec time (locate dir names) = (r, d')

/-- A name of a directory, or one where nothing is, is passed unless the path is too long. -/
theorem Located.cons {names : List FileName} (hroom : d.Room dir name)
    (hlook : d.look (dir ++ [name]) false = .directory ∨
      d.look (dir ++ [name]) false = .missing (dir ++ [name]) false)
    (h : Located d (dir ++ [name]) names p) : Located d dir (name :: names) p := by
  obtain ⟨r, hr, hrest⟩ := h
  by_cases hsize : pathLimit ≤ (Path.ofNames (dir ++ [name])).size
  · refine ⟨.error (.file .nameTooLong), .inr ⟨_, rfl⟩, fun time d' _ => ?_⟩
    rw [locate, if_neg hroom.legal.not_isIdle, if_neg hroom.legal.ne_dots, if_pos hsize]
    rfl
  have hlt := Nat.not_le.mp hsize
  refine ⟨r, hr, fun time d' hd' => ?_⟩
  rw [exec_locate_cons hroom.legal.not_isIdle hroom.legal.ne_dots hlt]
  · exact hrest time d' hd'
  · have hroom' : d'.Room dir name :=
      ⟨hroom.names, (hd'.isDirectory dir).trans hroom.isDirectory, hroom.legal⟩
    rw [Disk.find, hd'.proper.target_ofNames hroom' (Nat.le_of_lt (hlt.trans (by decide))),
      hd'.look_eq]
    rcases hlook with hlook | hlook
    · rw [hlook]
      exact .inl rfl
    · rw [hlook, Disk.renew]
      split
      · exact .inl rfl
      · exact .inr rfl

theorem located_of_leads {names : List FileName} {slash : Bool} {t : Target}
    (hd : d.Proper) (h : d.Leads dir names t) (ht : t = .missing p slash)
    (hslash : ∀ n ∈ names, Path.slash ∉ n) (hlegal : ∀ n ∈ dir, FileName.Legal n)
    (hdir : d.isDirectory dir = true) : Located d dir names p := by
  induction h with
  | here => cases ht
  | skip hidle _ ih =>
    simp only [Located, locate, if_pos hidle]
    exact ih ht (List.forall_mem_cons.mp hslash).2 hlegal hdir
  | back hidle hdots _ ih =>
    simp only [Located, locate, if_neg hidle, if_pos hdots]
    exact ih ht (List.forall_mem_cons.mp hslash).2
      (fun n hn => hlegal n (List.mem_of_mem_dropLast hn))
      (Disk.isDirectory_of_above ( List.dropLast_prefix _) hdir)
  | overlong => cases ht
  | enter hidle hdots hlength hlook _ ih =>
    obtain ⟨hname, hnames⟩ := List.forall_mem_cons.mp hslash
    have hisdir := Disk.isDirectory_of_look hlook
    have hlegalname : FileName.Legal _ := ⟨hidle, hdots, hname, hlength⟩
    refine .cons ⟨hlegal, hdir, hlegalname⟩ (.inl (hd.look_of_isDirectory hisdir _))
      (ih ht hnames ?_ hisdir)
    intro n hn
    rcases List.mem_append.mp hn with hn | hn
    · exact hlegal n hn
    · exact List.mem_singleton.mp hn ▸ hlegalname
  | stop hidle hdots hlength _ hlast =>
    obtain ⟨hname, _⟩ := List.forall_mem_cons.mp hslash
    obtain ⟨rfl, hdevice, hfile, hfree⟩ := Disk.look_eq_missing ht
    refine .cons ⟨hlegal, hdir, hidle, hdots, hname, hlength⟩ (.inr ?_) ?_
    · simp [Disk.look, hdevice, hfile, hfree]
    · exact ⟨.ok _, .inl rfl, fun _ _ _ => exec_locate_of_forall hlast⟩

/-- The absolute path is that of the place that a path leads to. -/
theorem exec_absolute {path : Path} {slash : Bool} (hd : d.Proper)
    (h : d.target path = .ok (.missing p slash)) :
    ∃ r : Except ConnectionError Path,
      (r = .ok (.ofNames p) ∧ (Path.ofNames p).size + endingLimit ≤ pathLimit ∨ ∃ e, r = .error e) ∧
      ∀ time d', d.Grown d' → d'.exec time (absolute path) = (r, d') := by
  have hslash : ∀ n ∈ path.names, Path.slash ∉ n := fun n => not_mem_of_mem_splitBytes
  -- the names that are looked up lead from the root to the same place
  have hlocated : Located d [] (if path.isAbsolute then path.names
      else (Path.ofNames d.home).names ++ path.names) p := by
    have hroot : d.isDirectory [] = true :=
      Disk.isDirectory_of_above List.nil_prefix d.isDirectory_home
    rw [Disk.target] at h
    split at h
    · cases h
    split at h
    · cases h
    split at h
    · rename_i habsolute
      rw [if_pos habsolute]
      exact located_of_leads hd (Disk.leads_of_follow h) rfl hslash (by simp) hroot
    · rename_i habsolute
      rw [if_neg habsolute]
      rw [← hd.follow_home] at h
      refine located_of_leads hd (Disk.leads_of_follow h) rfl ?_ (by simp) hroot
      intro n hn
      rcases List.mem_append.mp hn with hn | hn
      · exact not_mem_of_mem_splitBytes hn
      · exact hslash n hn
  obtain ⟨r, hr, hlocate⟩ := hlocated
  rcases hr with rfl | ⟨e, rfl⟩
  · have hexec : ∀ time d', d.Grown d' → d'.exec time (absolute path) =
        if pathLimit < (Path.ofNames p).size + endingLimit then
          (.error (.file .nameTooLong), d') else (.ok (.ofNames p), d') := by
      intro time d' hd'
      simp only [absolute, Disk.exec_bind, Disk.exec_lift, Disk.run_workingDirectory, hd'.home,
        hlocate time d' hd']
      split <;> rfl
    by_cases hsize : pathLimit < (Path.ofNames p).size + endingLimit
    · simp only [hsize, if_true] at hexec
      exact ⟨_, .inr ⟨_, rfl⟩, hexec⟩
    · simp only [hsize, if_false] at hexec
      exact ⟨_, .inl ⟨rfl, Nat.not_lt.mp hsize⟩, hexec⟩
  · refine ⟨.error e, .inr ⟨e, rfl⟩, fun time d' hd' => ?_⟩
    simp only [absolute, Disk.exec_bind, Disk.exec_lift, Disk.run_workingDirectory, hd'.home,
      hlocate time d' hd']

/-! ## The places of a database -/

/-- The endings of the names of the files beside that of a database. -/
def endings : List String := ["-journal", "-wal", "-shm", ".lock"]

/-- The place of a file whose name is that of another with an ending. -/
def beside (dir : List FileName) (name : FileName) (ending : String) : List FileName :=
  dir ++ [name ++ ending.toUTF8.toList]

theorem beside_injective {e f : String} (h : beside dir name e = beside dir name f) : e = f := by
  have h := List.append_cancel_left h
  exact toUTF8_toList_injective (List.append_cancel_left (List.singleton_inj.mp h))

theorem beside_ne_of_not_mem {e : String} {es : List String} (h : e ∉ es) :
    ∀ f ∈ es, beside dir name e ≠ beside dir name f := by
  intro f hf heq
  rw [beside_injective heq] at h
  exact h hf

theorem beside_ne {e : String} (h : e ∈ endings) : beside dir name e ≠ dir ++ [name] := by
  intro heq
  have hempty : dir ++ [name] = beside dir name "" := by
    simp [beside]
  rw [hempty] at heq
  have := beside_injective heq
  subst this
  revert h
  decide

/-- A place for a database.  Nothing stands beside it. -/
structure Site (d : Disk) (dir : List FileName) (name : FileName) : Prop where
  proper : d.Proper
  spot : d.Spot dir name
  spots : ∀ e ∈ endings, d.Spot dir (name ++ e.toUTF8.toList)
  clear : ∀ e ∈ endings, d.file? (beside dir name e) = none

/-- The files that belong to a database. -/
def filesOf (dir : List FileName) (name : FileName) : Set (List FileName) :=
  {q | q = dir ++ [name] ∨ ∃ e ∈ endings, q = beside dir name e}

theorem not_mem_filesOf_iff {q : List FileName} : q ∉ filesOf dir name ↔
    q ≠ dir ++ [name] ∧ ∀ e ∈ endings, q ≠ beside dir name e := by
  simp [filesOf]

/-- What is read from the file at a place.  Where there is none, it is as if an empty one were
there. -/
def contentAt (d : Disk) (dir : List FileName) (name : FileName) : Except StoreError DatabaseFile :=
  DatabaseFile.ofBytes ((d.file? (dir ++ [name])).getD .empty)

theorem contentAt_congr (h : d'.file? (dir ++ [name]) = d.file? (dir ++ [name])) :
    contentAt d' dir name = contentAt d dir name := by
  rw [contentAt, h, contentAt]

theorem contentAt_toBytes {f : DatabaseFile} (hf : f.database.Storable)
    (h : d.file? (dir ++ [name]) = some f.toBytes) : contentAt d dir name = .ok f := by
  rw [contentAt, h]
  exact DatabaseFile.ofBytes_toBytes hf

theorem slash_not_mem_ending : ∀ e ∈ "" :: endings, Path.slash ∉ e.toUTF8.toList := by
  have hall : (("" :: endings).all fun e => decide (Path.slash ∉ e.toUTF8.toList)) = true := by cbv
  intro e he
  exact of_decide_eq_true (List.all_eq_true.mp hall e he)

/-- A database can be made where nothing is found, neither at its place nor beside it. -/
theorem site_of_find (hd : d.Proper) {path : Path} {slash : Bool}
    (htarget : d.target path = .ok (.missing (dir ++ [name]) slash))
    (hfind : ∀ e ∈ "" :: endings,
      d.find ((Path.ofNames (dir ++ [name])).withEnding e) = .error .notFound) :
    Site d dir name := by
  have hroom : d.Room dir name := by
    rcases hd.exists_room_of_target htarget with ht | ⟨_, ht⟩ | ⟨dir', name', _, hroom, ht⟩
    · cases ht
    · cases ht
    · obtain ⟨heq, _⟩ := Disk.look_eq_missing ht.symm
      obtain ⟨rfl, hname⟩ := List.append_inj' heq rfl
      cases hname
      exact hroom
  have hspot : ∀ e ∈ "" :: endings,
      d.Spot dir (name ++ e.toUTF8.toList) ∧ d.file? (beside dir name e) = none := by
    intro e he
    have hslash := slash_not_mem_ending e he
    have hfind := hfind e he
    rw [Path.withEnding_ofNames] at hfind
    exact hd.spot_of_find hroom.names hroom.isDirectory
      (List.mem_append.not.mpr (not_or.mpr ⟨hroom.legal.slash_not_mem, hslash⟩)) hfind
  have hself := (hspot "" List.mem_cons_self).1
  have hempty : "".toUTF8.toList = [] := by cbv
  rw [hempty, List.append_nil] at hself
  exact ⟨hd, hself, fun e he => (hspot e (List.mem_cons_of_mem _ he)).1,
    fun e he => (hspot e (List.mem_cons_of_mem _ he)).2⟩

/-- The endings of the companions of a database that is open and may be changed. -/
def companionsOf (a : Address) : List String :=
  if a.isSolitary then [] else if a.layer = .exclusive then ["-wal"] else ["-wal", "-shm"]

theorem companionsOf_subset (a : Address) : companionsOf a ⊆ endings := by
  unfold companionsOf
  split
  · decide
  · split <;> decide

/-- How a database that may be changed is used. -/
def usageOf (a : Address) (path : Path) : Usage where
  companions := (companionsOf a).map path.withEnding
  logs := !a.isSolitary

/-- A grown disk on which only the files of some endings have changed. -/
structure Within (d : Disk) (dir : List FileName) (name : FileName) (es : List String)
    (d' d'' : Disk) : Prop where
  grown : d.Grown d''
  file?_eq : ∀ r, (∀ e ∈ es, r ≠ beside dir name e) → d''.file? r = d'.file? r

section Steps

variable {d'' : Disk} {content : Option ByteArray} {b : ByteArray} {e : String}

namespace Site

variable (hsite : Site d dir name) (h : d.Grown d') (time)

include hsite h

/-! ## Single files -/

theorem exec_read (hfile : d'.file? (dir ++ [name]) = some b) :
    d'.exec time (must (FileProgram.readFile (.ofNames (dir ++ [name])))) = (.ok b, d') := by
  rw [exec_must, Disk.run_readFile, hsite.spot.read_eq h hfile]

theorem exec_write (b : ByteArray) :
    d'.exec time (must (FileProgram.writeFile (.ofNames (dir ++ [name])) b)) =
      (.ok (), d'.put (dir ++ [name]) b) := by
  rw [exec_must, Disk.run_writeFile, hsite.spot.write_eq h]
  rfl

theorem read_beside (he : e ∈ endings) (hfile : d'.file? (beside dir name e) = none) :
    d'.read ((Path.ofNames (dir ++ [name])).withEnding e) = .error .notFound := by
  rw [Path.withEnding_ofNames]
  exact (hsite.spots e he).read_eq_error h hfile

theorem find_beside (he : e ∈ endings) (hfile : d'.file? (beside dir name e) = none) :
    d'.find ((Path.ofNames (dir ++ [name])).withEnding e) = .error .notFound := by
  rw [Path.withEnding_ofNames]
  exact (hsite.spots e he).find_eq_error h hfile

theorem write_beside (he : e ∈ endings) (b : ByteArray) :
    d'.write ((Path.ofNames (dir ++ [name])).withEnding e) b =
      .ok (d'.put (beside dir name e) b) := by
  rw [Path.withEnding_ofNames]
  exact (hsite.spots e he).write_eq h b

theorem exec_write_beside (he : e ∈ endings) (b : ByteArray) :
    d'.exec time (must (FileProgram.writeFile ((Path.ofNames (dir ++ [name])).withEnding e) b)) =
      (.ok (), d'.put (beside dir name e) b) := by
  rw [exec_must, Disk.run_writeFile, hsite.write_beside h he]
  rfl

theorem exec_remove_beside (he : e ∈ endings) (hfile : d'.file? (beside dir name e) = some b) :
    d'.exec time (must (FileProgram.removeFile ((Path.ofNames (dir ++ [name])).withEnding e))) =
      (.ok (), d'.erase (beside dir name e)) := by
  rw [exec_must, Disk.run_removeFile, Path.withEnding_ofNames,
    (hsite.spots e he).remove_eq h hfile]
  rfl

/-- A file that is taken away, if it is there. -/
theorem run_discard (he : e ∈ endings) :
    ∃ d'', d'.run time (FileProgram.removeFile ((Path.ofNames (dir ++ [name])).withEnding e)) =
        ((d'.run time (FileProgram.removeFile
          ((Path.ofNames (dir ++ [name])).withEnding e))).1, d'') ∧
      d.Wrote (beside dir name e) none d' d'' := by
  rw [Disk.run_removeFile, Path.withEnding_ofNames]
  refine ⟨_, rfl, ?_⟩
  cases hfile : d'.file? (beside dir name e) with
  | some b =>
    have hremove := (hsite.spots e he).remove_eq h hfile
    rw [hremove]
    exact h.wrote_erase (hsite.clear e he)
  | none =>
    have hremove := (hsite.spots e he).remove_eq_error h hfile
    rw [hremove]
    exact .of_file? h hfile

/-- The file of a database written with a journal beside it, which is gone afterwards. -/
theorem exec_writeJournaled
    (hjournal : d'.file? (beside dir name "-journal") = none) (f : DatabaseFile) :
    ∃ d'', d'.exec time (writeJournaled (.ofNames (dir ++ [name])) f) = (.ok (), d'') ∧
      d.Wrote (dir ++ [name]) (some f.toBytes) d' d'' := by
  have he : "-journal" ∈ endings := by decide
  have hne : dir ++ [name] ≠ beside dir name "-journal" := (beside_ne he).symm
  have h₁ : d.Grown (d'.put (beside dir name "-journal") .empty) :=
    (hsite.spots _ he).grown_put h .empty
  have h₂ := hsite.spot.grown_put h₁ f.toBytes
  have h₃ := h₂.erase (hsite.clear _ he)
  have hput := hsite.exec_write_beside time h he .empty
  have hwrite := hsite.exec_write time h₁ f.toBytes
  have hremove := hsite.exec_remove_beside time h₂ he (b := .empty) (by simp [hne.symm])
  have hread := hsite.exec_read time h₃ (b := f.toBytes) (by simp [hne])
  refine ⟨_, ?_, h₃, fun r => ?_⟩
  · simp only [writeJournaled, journal, Disk.exec_bind, hput, hwrite, hremove, hread,
      DatabaseFile.isVacant_toBytes]
    rfl
  · simp only [Disk.file?_erase, Disk.file?_put]
    by_cases hr : r = beside dir name "-journal"
    · rw [if_pos hr, if_neg (hr ▸ hne.symm), hr, hjournal]
    · simp only [hr, if_false]

/-! ## Opening -/

theorem exec_checkMarker (a : Address) (hmarker : d'.file? (beside dir name ".lock") = none) :
    d'.exec time (checkMarker a (.ofNames (dir ++ [name]))) = (.ok (), d') := by
  have hfind := hsite.find_beside h (by decide : ".lock" ∈ endings) hmarker
  unfold checkMarker
  split
  · simp only [marker, Disk.exec_bind, Disk.exec_lift, Disk.run_findFile, hfind]
    rfl
  · rfl

theorem run_isClaimed (a : Address) (hmarker : d'.file? (beside dir name ".lock") = none) :
    ∃ claimed, d'.run time (isClaimed a (.ofNames (dir ++ [name]))) = (claimed, d') := by
  have hfind := hsite.find_beside h (by decide : ".lock" ∈ endings) hmarker
  unfold isClaimed
  split
  · simp only [marker, Disk.run_bind, Disk.run_findFile, hfind]
    exact ⟨_, rfl⟩
  · exact ⟨_, rfl⟩

theorem exec_settle (a : Address) (isVacant : Bool)
    (hmarker : d'.file? (beside dir name ".lock") = none)
    (hjournal : d'.file? (beside dir name "-journal") = none) :
    d'.exec time (settle a (.ofNames (dir ++ [name])) isVacant) = (.ok (), d') := by
  obtain ⟨claimed, hclaimed⟩ := hsite.run_isClaimed time h a hmarker
  have hread := hsite.read_beside h (by decide : "-journal" ∈ endings) hjournal
  simp only [settle, Disk.exec_bind, Disk.exec_lift, hclaimed]
  cases claimed with
  | true => rfl
  | false =>
    simp only [Bool.false_eq_true, if_false, journal, Disk.exec_bind, Disk.exec_lift,
      Disk.run_readFile, hread, Disk.exec_pure]

theorem exec_useFoundLog (a : Address) (isVacant : Bool)
    (hlog : d'.file? (beside dir name "-wal") = none) :
    d'.exec time (useFoundLog a (.ofNames (dir ++ [name])) isVacant) = (.ok none, d') := by
  have hread := hsite.read_beside h (by decide : "-wal" ∈ endings) hlog
  simp only [useFoundLog, log, Disk.exec_bind, Disk.exec_lift, Disk.run_readFile, hread]
  rfl

theorem exec_logAt (hlog : d'.file? (beside dir name "-wal") = none) :
    d'.exec time (logAt (.ofNames (dir ++ [name]))) =
      (.ok .empty, d'.put (beside dir name "-wal") .empty) := by
  have he : "-wal" ∈ endings := by decide
  have hread := hsite.read_beside h he hlog
  have hwrite := hsite.exec_write_beside time h he .empty
  simp only [logAt, log, Disk.exec_bind, Disk.exec_lift, Disk.run_readFile, hread, hwrite]
  rfl

/-- The companions are made when a database is opened. -/
theorem exec_accompany {a : Address} (haccess : a.access ≠ .readOnly)
    (hsolitary : a.isSolitary = false) (hindex : a.borrowed = true → a.layer = .exclusive)
    (hlog : d'.file? (beside dir name "-wal") = none) :
    ∃ d'', d'.exec time (accompany a (.ofNames (dir ++ [name]))) =
        (.ok (usageOf a (.ofNames (dir ++ [name]))), d'') ∧
      Within d dir name (companionsOf a) d' d'' := by
  have hwal : "-wal" ∈ endings := by decide
  have hshm : "-shm" ∈ endings := by decide
  have h₁ : d.Grown (d'.put (beside dir name "-wal") .empty) :=
    (hsite.spots _ hwal).grown_put h .empty
  have hlogAt := hsite.exec_logAt time h hlog
  simp only [accompany, Disk.exec_bind, hlogAt]
  by_cases hlayer : a.layer = .exclusive
  · have hcompanions : companionsOf a = ["-wal"] := by
      simp [companionsOf, hsolitary, hlayer]
    rw [if_pos ⟨hlayer, haccess⟩, usageOf, hcompanions, hsolitary]
    refine ⟨_, rfl, h₁, fun r hr => ?_⟩
    rw [Disk.file?_put, if_neg (hr "-wal" (by simp))]
  · have hcompanions : companionsOf a = ["-wal", "-shm"] := by
      simp [companionsOf, hsolitary, hlayer]
    have hborrowed : a.borrowed = false := Bool.eq_false_iff.mpr fun hb => hlayer (hindex hb)
    have hwrite := hsite.write_beside h₁ hshm indexMark
    have h₂ := (hsite.spots _ hshm).grown_put h₁ indexMark
    rw [if_neg fun hl => hlayer hl.1, usageOf, hcompanions, hsolitary]
    simp only [makeIndex, index, hborrowed, Bool.false_eq_true, if_false, Disk.exec_bind,
      Disk.exec_lift, Disk.run_writeFile, hwrite, Disk.changed, Disk.exec_pure, if_true, haccess]
    refine ⟨_, rfl, h₂, fun r hr => ?_⟩
    rw [Disk.file?_put, if_neg (hr "-shm" (by simp)), Disk.file?_put, if_neg (hr "-wal" (by simp))]

/-- A database is used with companions, if it can have some.  It becomes logged when it was not. -/
theorem exec_useFile {a : Address} {f : DatabaseFile} (haccess : a.access = .create)
    (hindex : a.borrowed = true → a.isSolitary = true ∨ a.layer = .exclusive)
    (hlogged : f.logged = true → a.isSolitary = false) (hf : f.database.Storable)
    (hfile : contentAt d' dir name = .ok f)
    (hjournal : d'.file? (beside dir name "-journal") = none)
    (hlog : d'.file? (beside dir name "-wal") = none) :
    ∃ d'', d'.exec time (useFile a (.ofNames (dir ++ [name])) f) =
        (.ok (⟨f.database, !a.isSolitary⟩, usageOf a (.ofNames (dir ++ [name]))), d'') ∧
      d.Grown d'' ∧
      (∀ r, r ≠ dir ++ [name] → (∀ e ∈ companionsOf a, r ≠ beside dir name e) →
        d''.file? r = d'.file? r) ∧
      contentAt d'' dir name = .ok ⟨f.database, !a.isSolitary⟩ := by
  have hreadOnly : a.access ≠ .readOnly := by simp [haccess]
  obtain ⟨database, logged⟩ := f
  cases hsolitary : a.isSolitary with
  | true =>
    cases logged with
    | true => rw [hlogged rfl] at hsolitary; cases hsolitary
    | false =>
      refine ⟨d', ?_, h, fun _ _ _ => rfl, hfile⟩
      simp [useFile, usageOf, companionsOf, hsolitary, haccess, Disk.exec_pure]
  | false =>
    have hindex : a.borrowed = true → a.layer = .exclusive := fun hb => by
      simpa [hsolitary] using hindex hb
    have hkept : ∀ e ∈ companionsOf a, dir ++ [name] ≠ beside dir name e := fun e he =>
      (beside_ne (companionsOf_subset a he)).symm
    cases logged with
    | true =>
      obtain ⟨d'', hexec, hwithin⟩ :=
        hsite.exec_accompany time h hreadOnly hsolitary hindex hlog
      refine ⟨d'', ?_, hwithin.grown, fun r _ hr => hwithin.file?_eq r hr,
        (contentAt_congr (hwithin.file?_eq _ hkept)).trans hfile⟩
      simp only [useFile, hsolitary, Bool.false_eq_true, if_false, if_true, Disk.exec_bind, hexec]
      rfl
    | false =>
      obtain ⟨d₁, hwrite, hwrote⟩ := hsite.exec_writeJournaled time h hjournal ⟨database, true⟩
      have hlog₁ : d₁.file? (beside dir name "-wal") = none := by
        rw [hwrote.file?_of_ne (beside_ne (by decide)), hlog]
      obtain ⟨d'', hexec, hwithin⟩ :=
        hsite.exec_accompany time hwrote.grown hreadOnly hsolitary hindex hlog₁
      refine ⟨d'', ?_, hwithin.grown, fun r hr hrs => ?_, ?_⟩
      · simp only [useFile, hsolitary, Bool.false_eq_true, if_false, hreadOnly, Disk.exec_bind,
          hwrite, hexec]
        rfl
      · rw [hwithin.file?_eq r hrs, hwrote.file?_of_ne hr]
      · rw [contentAt_congr (hwithin.file?_eq _ hkept)]
        exact contentAt_toBytes hf hwrote.file?_self

/-- The file of a database is made when it is not there. -/
theorem exec_bytesAt : ∃ d'',
    d'.exec time (bytesAt (.ofNames (dir ++ [name])) .create) =
        (.ok ((d'.file? (dir ++ [name])).getD .empty), d'') ∧
      d.Wrote (dir ++ [name]) (some ((d'.file? (dir ++ [name])).getD .empty)) d' d'' := by
  cases hfile : d'.file? (dir ++ [name]) with
  | some bytes =>
    refine ⟨d', ?_, .of_file? h hfile⟩
    simp only [bytesAt, Disk.exec_bind, Disk.exec_lift, Disk.run_readFile,
      hsite.spot.read_eq h hfile]
    rfl
  | none =>
    refine ⟨_, ?_, hsite.spot.wrote_put h .empty⟩
    simp only [bytesAt, Disk.exec_bind, Disk.exec_lift, Disk.run_readFile,
      hsite.spot.read_eq_error h hfile, hsite.exec_write time h .empty, ne_eq, not_true_eq_false,
      if_false]
    rfl

end Site

/-- Files beside a database taken away, as far as they are there. -/
theorem Site.run_discardFiles (hsite : Site d dir name) (time : String) (h : d.Grown d')
    {es : List String} (hes : es ⊆ endings) :
    ∃ d'', d'.run time (discardFiles (es.map (Path.ofNames (dir ++ [name])).withEnding)) =
        ((), d'') ∧ Within d dir name es d' d'' ∧
      ∀ e ∈ es, d''.file? (beside dir name e) = none := by
  induction es generalizing d' with
  | nil => exact ⟨d', rfl, ⟨h, fun _ _ => rfl⟩, by simp⟩
  | cons e es ih =>
    obtain ⟨he, hes⟩ := List.cons_subset.mp hes
    obtain ⟨d₁, hremove, hwrote⟩ := hsite.run_discard time h he
    obtain ⟨d'', hrun, hwithin, hgone⟩ := ih hwrote.grown hes
    refine ⟨d'', ?_, ⟨hwithin.grown, fun r hr => ?_⟩, fun e' he' => ?_⟩
    · have hcons : discardFiles ((e :: es).map (Path.ofNames (dir ++ [name])).withEnding) =
          (FileProgram.removeFile ((Path.ofNames (dir ++ [name])).withEnding e) >>= fun _ =>
            pure ()) >>= fun _ => discardFiles
              (es.map (Path.ofNames (dir ++ [name])).withEnding) := rfl
      rw [hcons, Disk.run_bind, Disk.run_bind, hremove]
      exact hrun
    · obtain ⟨hr, hrs⟩ := List.forall_mem_cons.mp hr
      rw [hwithin.file?_eq r hrs, hwrote.file?_of_ne hr]
    · by_cases hmem : e' ∈ es
      · exact hgone e' hmem
      · obtain rfl : e' = e := (List.mem_cons.mp he').resolve_right hmem
        rw [hwithin.file?_eq _ (beside_ne_of_not_mem hmem), hwrote.file?_self]

end Steps

end Opening

namespace FileEngine

open Opening

/-! ## States -/

/-- What stands for a database at a place that may be changed. -/
def handleAt (dir : List FileName) (name : FileName) (a : Address) : Handle :=
  some ⟨.ofNames (dir ++ [name]), !a.isSolitary, usageOf a (.ofNames (dir ++ [name]))⟩

/-- A database that is in use at a place.  Its file holds what is known of it, and nothing stands
beside the file but the companions. -/
structure InUse (d : Disk) (dir : List FileName) (name : FileName) (a : Address) (h : Handle)
    (db : Database) (d' : Disk) : Prop where
  grown : d.Grown d'
  opened : h = handleAt dir name a
  storable : db.Storable
  content : contentAt d' dir name = .ok ⟨db, !a.isSolitary⟩
  clear : ∀ e ∈ endings, e ∉ companionsOf a → d'.file? (beside dir name e) = none

/-- A database that is closed.  Nothing stands beside its file. -/
structure AtRest (d : Disk) (dir : List FileName) (name : FileName) (a : Address) (db : Database)
    (d' : Disk) : Prop where
  grown : d.Grown d'
  storable : db.Storable
  content : ∃ logged, (logged = true → a.isSolitary = false) ∧
    contentAt d' dir name = .ok ⟨db, logged⟩
  clear : ∀ e ∈ endings, d'.file? (beside dir name e) = none

/-- The two states of a database. -/
def Kept (d : Disk) (dir : List FileName) (name : FileName) (a : Address) :
    Option Handle → Database → Disk → Prop
  | some h => InUse d dir name a h
  | none => AtRest d dir name a

/-- An address under which a database can be made and changed at a place. -/
structure Usable (d : Disk) (dir : List FileName) (name : FileName) (a : Address) : Prop where
  isPrivate : a.isPrivate = false
  layer : a.layer ≠ .memory
  access : a.access = .create
  frozen : a.frozen = false
  index : a.borrowed = true → a.isSolitary = true ∨ a.layer = .exclusive
  model : ∀ path, a.model = some path → d.find path = .ok ()
  absolute : ∀ time d', d.Grown d' →
    d'.exec time (absolute a.path) = (.ok (.ofNames (dir ++ [name])), d')

variable {d'' : Disk} {h : Handle} {db : Database} {text : String}

/-- Nothing is stored where no file is, or one with nothing in it. -/
theorem atRest_blank (hsite : Site d dir name) (a : Address) (h : contentAt d dir name = .ok {}) :
    AtRest d dir name a .blank d where
  grown := .refl hsite.proper
  storable := ⟨Json.bounded_nat (k := 0) (by decide), nofun⟩
  content := ⟨false, nofun, h⟩
  clear := hsite.clear

theorem InUse.of_file?_eq (hh : InUse d dir name a h db d') (hgrown : d'.Grown d'')
    (heq : ∀ q ∈ filesOf dir name, d''.file? q = d'.file? q) : InUse d dir name a h db d'' where
  grown := hh.grown.trans hgrown
  opened := hh.opened
  storable := hh.storable
  content := (contentAt_congr (heq _ (.inl rfl))).trans hh.content
  clear := fun e he hnot => (heq _ (.inr ⟨e, he, rfl⟩)).trans (hh.clear e he hnot)

theorem AtRest.of_file?_eq (hdb : AtRest d dir name a db d') (hgrown : d'.Grown d'')
    (heq : ∀ q ∈ filesOf dir name, d''.file? q = d'.file? q) : AtRest d dir name a db d'' where
  grown := hdb.grown.trans hgrown
  storable := hdb.storable
  content := by
    obtain ⟨logged, hlogged, hcontent⟩ := hdb.content
    exact ⟨logged, hlogged, (contentAt_congr (heq _ (.inl rfl))).trans hcontent⟩
  clear := fun e he => (heq _ (.inr ⟨e, he, rfl⟩)).trans (hdb.clear e he)

theorem not_mem_companionsOf {e : String} (a : Address) (hwal : e ≠ "-wal") (hshm : e ≠ "-shm") :
    e ∉ companionsOf a := by
  unfold companionsOf
  split
  · simp
  · split <;> simp [hwal, hshm]

/-! ## Steps -/

section Steps

variable (hsite : Site d dir name)

include hsite

/-- A changed database is written to its file. -/
theorem InUse.exec_keep (hh : InUse d dir name a h db d') (time : String) {db' : Database}
    (hdb' : db'.Storable) :
    ∃ d'', d'.exec time (keep h db') = (.ok (), d'') ∧ InUse d dir name a h db' d'' ∧
      Spares (filesOf dir name) d' d'' := by
  have hjournal := hh.clear "-journal" (by decide) (not_mem_companionsOf a (by decide) (by decide))
  have hkeep : ∃ d'', d'.exec time (keep h db') = (.ok (), d'') ∧
      d.Wrote (dir ++ [name]) (some (DatabaseFile.toBytes ⟨db', !a.isSolitary⟩)) d' d'' := by
    simp only [hh.opened, handleAt, keep]
    split
    · exact ⟨_, hsite.exec_write time hh.grown _, hsite.spot.wrote_put hh.grown _⟩
    · exact hsite.exec_writeJournaled time hh.grown hjournal ⟨db', !a.isSolitary⟩
  obtain ⟨d'', hexec, hwrote⟩ := hkeep
  refine ⟨d'', hexec, ⟨hwrote.grown, hh.opened, hdb', contentAt_toBytes hdb' hwrote.file?_self,
    fun e he hnot => ?_⟩, ?_, fun q hq => ?_⟩
  · rw [hwrote.file?_of_ne (beside_ne he)]
    exact hh.clear e he hnot
  · exact hh.grown.toSameDirectories.of_both hwrote.grown.toSameDirectories
  · exact hwrote.file?_of_ne (not_mem_filesOf_iff.mp hq).1

theorem InUse.run_close (hh : InUse d dir name a h db d') (time : String) :
    ∃ d'', d'.run time (close h) = ((), d'') ∧ AtRest d dir name a db d'' ∧
      Spares (filesOf dir name) d' d'' := by
  obtain ⟨d'', hrun, hwithin, hgone⟩ :=
    hsite.run_discardFiles time hh.grown (companionsOf_subset a)
  have hkept : ∀ e ∈ companionsOf a, dir ++ [name] ≠ beside dir name e := fun e he =>
    (beside_ne (companionsOf_subset a he)).symm
  have hcontent := (contentAt_congr (hwithin.file?_eq _ hkept)).trans hh.content
  refine ⟨d'', ?_, ⟨hwithin.grown, hh.storable, ⟨_, by simp, hcontent⟩, fun e he => ?_⟩, ?_,
    fun q hq => ?_⟩
  · rw [hh.opened]
    exact hrun
  · by_cases hmem : e ∈ companionsOf a
    · exact hgone e hmem
    · rw [hwithin.file?_eq _ (beside_ne_of_not_mem hmem)]
      exact hh.clear e he hmem
  · exact hh.grown.toSameDirectories.of_both hwithin.grown.toSameDirectories
  · exact hwithin.file?_eq q fun e he => (not_mem_filesOf_iff.mp hq).2 e (companionsOf_subset a he)

/-- A database is reached through its file, which is made when it is not there. -/
theorem exec_connect (hu : Usable d dir name a) (ha : Address.ofText? text = some a)
    (h : d.Grown d') (time : String) :
    ∃ d₁, d'.exec time (connect text) = d₁.exec time
        (toFile a (.ofNames (dir ++ [name])) ((d'.file? (dir ++ [name])).getD .empty)) ∧
      d.Wrote (dir ++ [name]) (some ((d'.file? (dir ++ [name])).getD .empty)) d' d₁ := by
  obtain ⟨d₁, hbytes, hwrote⟩ := hsite.exec_bytesAt time h
  refine ⟨d₁, ?_, hwrote⟩
  have hconnect : connect text = toAddress a := by
    simp [connect, ha, hu.isPrivate, hu.layer]
  rw [hconnect]
  simp only [toAddress, Disk.exec_bind, hu.absolute time d' h]
  cases hmodel : a.model with
  | some path =>
    simp only [Disk.exec_bind, exec_must, Disk.run_findFile, h.find_eq (hu.model path hmodel),
      hu.access, hbytes, hu.frozen, Bool.false_eq_true, if_false]
  | none =>
    simp only [Disk.exec_bind, hu.access, hbytes, hu.frozen, Bool.false_eq_true, if_false]

section Reading

variable (hgrown : d.Grown d') (a) (time : String) {bytes : ByteArray}
  (hclear : ∀ e ∈ endings, d'.file? (beside dir name e) = none)

include hgrown hclear

/-- Where nothing stands beside the file of a database, it is used as it is read. -/
theorem exec_toFile {f : DatabaseFile} (hread : DatabaseFile.ofBytes bytes = .ok f) :
    d'.exec time (toFile a (.ofNames (dir ++ [name])) bytes) =
      d'.exec time (useFile a (.ofNames (dir ++ [name])) f >>= fun r =>
        pure (some ⟨.ofNames (dir ++ [name]), r.1.logged, r.2⟩, r.1.database)) := by
  have hjournal := hclear "-journal" (by decide)
  have hmarker := hclear ".lock" (by decide)
  simp only [toFile, Disk.exec_bind, hsite.exec_checkMarker time hgrown a hmarker,
    hsite.exec_settle time hgrown a _ hmarker hjournal,
    hsite.exec_useFoundLog time hgrown a _ (hclear "-wal" (by decide)), hread]

theorem exec_toFile_eq_error {e : StoreError} (hread : DatabaseFile.ofBytes bytes = .error e) :
    d'.exec time (toFile a (.ofNames (dir ++ [name])) bytes) = (.error (.store e), d') := by
  have hjournal := hclear "-journal" (by decide)
  have hmarker := hclear ".lock" (by decide)
  simp only [toFile, Disk.exec_bind, hsite.exec_checkMarker time hgrown a hmarker,
    hsite.exec_settle time hgrown a _ hmarker hjournal,
    hsite.exec_useFoundLog time hgrown a _ (hclear "-wal" (by decide)), hread]
  rfl

end Reading

/-- A database that was closed is opened again as it was. -/
theorem AtRest.exec_connect (hdb : AtRest d dir name a db d') (hu : Usable d dir name a)
    (ha : Address.ofText? text = some a) (time : String) :
    ∃ d'', d'.exec time (connect text) = (.ok (handleAt dir name a, db), d'') ∧
      InUse d dir name a (handleAt dir name a) db d'' ∧ Spares (filesOf dir name) d' d'' := by
  obtain ⟨logged, hlogged, hcontent⟩ := hdb.content
  obtain ⟨d₁, hconnect, hwrote⟩ := FileEngine.exec_connect hsite hu ha hdb.grown time
  have hcontent₁ : contentAt d₁ dir name = .ok ⟨db, logged⟩ := by
    rw [contentAt, hwrote.file?_self]
    exact hcontent
  have hclear₁ : ∀ e ∈ endings, d₁.file? (beside dir name e) = none := fun e he =>
    (hwrote.file?_of_ne (beside_ne he)).trans (hdb.clear e he)
  obtain ⟨d'', huse, hgrown, hspared, hcontent'⟩ := hsite.exec_useFile time hwrote.grown hu.access
    hu.index hlogged hdb.storable hcontent₁ (hclear₁ "-journal" (by decide))
    (hclear₁ "-wal" (by decide))
  refine ⟨d'', ?_, ⟨hgrown, rfl, hdb.storable, hcontent', fun e he hnot => ?_⟩, ?_, fun q hq => ?_⟩
  · rw [hconnect, exec_toFile a hsite hwrote.grown time hclear₁ hcontent, Disk.exec_bind, huse]
    rfl
  · rw [hspared _ (beside_ne he) (beside_ne_of_not_mem hnot)]
    exact hclear₁ e he
  · exact hdb.grown.toSameDirectories.of_both hgrown.toSameDirectories
  · obtain ⟨hself, hbeside⟩ := not_mem_filesOf_iff.mp hq
    rw [hspared q hself fun e he => hbeside e (companionsOf_subset a he),
      hwrote.file?_of_ne hself]

/-- A file of something else is not opened as a database. -/
theorem exec_connect_eq_error (hu : Usable d dir name a) (ha : Address.ofText? text = some a)
    (h : d.Grown d') {e : StoreError} (hcontent : contentAt d' dir name = .error e)
    (hclear : ∀ e ∈ endings, d'.file? (beside dir name e) = none) (time : String) :
    ∃ d'', d'.exec time (connect text) = (.error (.store e), d'') := by
  obtain ⟨d₁, hconnect, hwrote⟩ := FileEngine.exec_connect hsite hu ha h time
  refine ⟨d₁, ?_⟩
  rw [hconnect]
  exact exec_toFile_eq_error a hsite hwrote.grown time
    (fun e he => (hwrote.file?_of_ne (beside_ne he)).trans (hclear e he)) hcontent

/-! ## Connections -/

theorem InUse.exec_keep_connection (hh : InUse d dir name a h db d') (time : String)
    {db' : Database} (hdb' : db'.Storable) :
    ∃ d'', d'.exec time (Connection.keep (E := fileEngine) ⟨h, db⟩ db') = (.ok ⟨h, db'⟩, d'') ∧
      InUse d dir name a h db' d'' := by
  unfold Connection.keep
  split
  · rename_i heq
    cases heq
    exact ⟨d', rfl, hh⟩
  · obtain ⟨d'', hexec, hh', _⟩ := hh.exec_keep hsite time hdb'
    refine ⟨d'', ?_, hh'⟩
    have hexec : d'.exec time (fileEngine.keep h db') = (.ok (), d'') := hexec
    simp only [Disk.exec_bind, hexec]
    rfl

/-- A database that holds nothing is given a schema. -/
theorem AtRest.exec_connection (hdb : AtRest d dir name a .blank d') (hu : Usable d dir name a)
    (ha : Address.ofText? text = some a) (time : String) :
    ∃ d'', d'.exec time (Connection.connect fileEngine text) =
        (.ok ⟨handleAt dir name a, {}⟩, d'') ∧
      InUse d dir name a (handleAt dir name a) {} d'' := by
  obtain ⟨d₁, hconnect, hinUse, _⟩ := hdb.exec_connect hsite hu ha time
  obtain ⟨d'', hkeep, hinUse'⟩ :=
    hinUse.exec_keep_connection hsite time Database.storable_empty
  refine ⟨d'', ?_, hinUse'⟩
  have hconnect : d'.exec time (fileEngine.connect text) =
    (.ok (handleAt dir name a, .blank), d₁) := hconnect
  simp only [Connection.connect, Disk.exec_bind, hconnect]
  exact (Connection.exec_withSchema_blank (E := fileEngine) rfl).trans hkeep

/-! ## Durability -/

section Durability

variable {db₀ : Database} (hstart : AtRest d dir name a db₀ d) (hu : Usable d dir name a)
  (ha : Address.ofText? text = some a)

include hstart hu ha

/-- A database is always in one of its states. -/
theorem AtRest.kept_of_life {s : Option fileEngine.Handle}
    (hlife : fileEngine.Life text (filesOf dir name) d s db d') : Kept d dir name a s db d' := by
  induction hlife with
  | found hconnect =>
    obtain ⟨d₁, hexec, _⟩ := hstart.exec_connect hsite hu ha _
    cases hexec.symm.trans hconnect
    exact hstart
  | connect _ hconnect ih =>
    obtain ⟨d₁, hexec, hinUse, _⟩ := AtRest.exec_connect hsite ih hu ha _
    cases hexec.symm.trans hconnect
    exact hinUse
  | keep _ hdb hkeep ih =>
    obtain ⟨d₁, hexec, hinUse, _⟩ := InUse.exec_keep hsite ih _ hdb
    cases hexec.symm.trans hkeep
    exact hinUse
  | close _ time ih =>
    obtain ⟨d₁, hrun, hrest, _⟩ := InUse.run_close hsite ih time
    have hclose := congrArg Prod.snd hrun
    exact hclose ▸ hrest
  | @elsewhere s _ _ _ _ hgrown hown ih =>
    cases s with
    | some h => exact InUse.of_file?_eq ih hgrown hown
    | none => exact AtRest.of_file?_eq ih hgrown hown

/-- The engine of files is durable for a database that can be opened and changed. -/
theorem AtRest.durable : fileEngine.Durable text (filesOf dir name) d where
  reopen := by
    intro db d' hlife time
    obtain ⟨d'', hexec, _⟩ :=
      AtRest.exec_connect hsite (hstart.kept_of_life hsite hu ha hlife) hu ha time
    exact ⟨_, d'', hexec⟩
  connect := by
    intro db d' hlife time h db' d'' hconnect
    obtain ⟨d₁, hexec, _, hspares⟩ :=
      AtRest.exec_connect hsite (hstart.kept_of_life hsite hu ha hlife) hu ha time
    cases hexec.symm.trans hconnect
    exact hspares
  keep := by
    intro h db d' hlife time db' d'' hdb' hkeep
    obtain ⟨d₁, hexec, _, hspares⟩ :=
      InUse.exec_keep hsite (hstart.kept_of_life hsite hu ha hlife) time hdb'
    cases hexec.symm.trans hkeep
    exact hspares
  close := by
    intro h db d' hlife time
    obtain ⟨d₁, hrun, _, hspares⟩ :=
      InUse.run_close hsite (hstart.kept_of_life hsite hu ha hlife) time
    have hclose := congrArg Prod.snd hrun
    exact hclose ▸ hspares

/-- A database that holds nothing is fresh. -/
theorem AtRest.fresh (hempty : db₀ = .blank ∨ db₀ = {}) : fileEngine.Fresh text d := by
  intro time h db d' hconnect
  obtain ⟨d₁, hexec, _⟩ := hstart.exec_connect hsite hu ha time
  cases hexec.symm.trans hconnect
  exact hempty

end Durability

end Steps

end FileEngine

end CodeGraph.CommandLine
