import CodeGraph.CommandLine.Files
import Mathlib

/-!
# Disks and their places

A *place* on a disk is a path of names from the root.  What stands there, a file, a device, a
directory or nothing, is all that matters for a path that leads there
(`Disk.Proper.target_ofNames`).

A disk *grows* when files are put in directories that are there, and when files are taken away that
were not there at first (`Disk.Grown`).  Its directories stay as they are, so a path that led
somewhere leads there still, and only what is in the files can change (`Disk.Grown.target_eq`).
-/

namespace CodeGraph

/-! ## Names -/

/-- A name that stands for the directory it is in. -/
abbrev FileName.IsIdle (name : FileName) : Prop := name = [] ∨ name = .ofString "."

/-- A name that stands for itself in a path, and is short enough. -/
structure FileName.Legal (name : FileName) : Prop where
  not_isIdle : ¬FileName.IsIdle name
  ne_dots : name ≠ .ofString ".."
  slash_not_mem : Path.slash ∉ name
  length_le : name.length ≤ Disk.nameLimit

/-- Whether a name is legal. -/
def FileName.isLegal (name : FileName) : Bool :=
  decide (¬FileName.IsIdle name) && decide (name ≠ .ofString "..") && decide (Path.slash ∉ name) &&
    decide (name.length ≤ Disk.nameLimit)

theorem FileName.legal_of_isLegal {name : FileName} (h : name.isLegal = true) : name.Legal := by
  simp only [isLegal, Bool.and_eq_true, decide_eq_true_eq] at h
  obtain ⟨⟨⟨hidle, hdots⟩, hslash⟩, hlength⟩ := h
  exact ⟨hidle, hdots, hslash, hlength⟩

theorem splitBytes_append {mark : UInt8} {bytes rest piece : List UInt8}
    {pieces : List (List UInt8)} (hmark : mark ∉ bytes)
    (hrest : splitBytes mark rest = piece :: pieces) :
    splitBytes mark (bytes ++ rest) = (bytes ++ piece) :: pieces := by
  induction bytes with
  | nil => exact hrest
  | cons b bytes ih =>
    obtain ⟨hb, hbytes⟩ := not_or.mp (List.mem_cons.not.mp hmark)
    rw [List.cons_append, splitBytes, if_neg (Ne.symm hb), ih hbytes]
    rfl

theorem splitBytes_flatMap {mark : UInt8} {names : List (List UInt8)}
    (h : ∀ name ∈ names, mark ∉ name) :
    splitBytes mark (names.flatMap (mark :: ·)) = [] :: names := by
  induction names with
  | nil => rfl
  | cons name names ih =>
    obtain ⟨hname, hnames⟩ := List.forall_mem_cons.mp h
    rw [List.flatMap_cons, List.cons_append, splitBytes, if_pos rfl,
      splitBytes_append hname (ih hnames), List.append_nil]

/-- No piece has a mark in it. -/
theorem not_mem_of_mem_splitBytes {mark : UInt8} {bytes piece : List UInt8}
    (h : piece ∈ splitBytes mark bytes) : mark ∉ piece := by
  induction bytes generalizing piece with
  | nil =>
    rw [splitBytes, List.mem_singleton] at h
    simp [h]
  | cons b bytes ih =>
    rw [splitBytes] at h
    split at h
    · rcases List.mem_cons.mp h with rfl | h
      · simp
      · exact ih h
    · rename_i hb
      split at h
      · rw [List.mem_singleton] at h
        simpa [h] using Ne.symm hb
      · rename_i first pieces hpieces
        rcases List.mem_cons.mp h with rfl | h
        · have hfirst : mark ∉ first := ih (hpieces ▸ List.mem_cons_self)
          simpa [hfirst] using Ne.symm hb
        · exact ih (hpieces ▸ List.mem_cons_of_mem first h)

namespace Path

theorem ofNames_eq {names : List FileName} (h : names ≠ []) :
    ofNames names = ⟨names.flatMap (slash :: ·)⟩ := by
  cases names with
  | nil => exact absurd rfl h
  | cons name names => rfl

theorem ofNames_concat (dir : List FileName) (name : FileName) :
    ofNames (dir ++ [name]) = ⟨dir.flatMap (slash :: ·) ++ slash :: name⟩ := by
  rw [ofNames_eq (by simp), List.flatMap_append, List.flatMap_singleton]

theorem withEnding_ofNames (dir : List FileName) (name : FileName) (ending : String) :
    (ofNames (dir ++ [name])).withEnding ending =
      ofNames (dir ++ [name ++ ending.toUTF8.toList]) := by
  rw [ofNames_concat, ofNames_concat, withEnding, List.append_assoc, List.cons_append]

theorem isAbsolute_ofNames (names : List FileName) : (ofNames names).isAbsolute = true := by
  cases names <;> rfl

theorem bytes_ofNames_ne_nil (names : List FileName) : (ofNames names).bytes ≠ [] := by
  cases names <;> simp [ofNames]

theorem names_ofNames {names : List FileName} (hne : names ≠ [])
    (h : ∀ name ∈ names, slash ∉ name) : (ofNames names).names = [] :: names := by
  rw [ofNames_eq hne]
  exact splitBytes_flatMap h

end Path

namespace Disk

variable {d d' : Disk} {p q r dir : List FileName} {name : FileName} {b bytes : ByteArray}

/-! ## Files -/

theorem file?_isSome_iff : (d.file? q).isSome = true ↔ ∃ f ∈ d.files, f.1 = q := by
  rw [file?, ← not_iff_not, Bool.not_eq_true, Option.isSome_eq_false_iff, Option.isNone_iff_eq_none,
    List.lookup_eq_none_iff]
  grind

theorem lookup_filter_ne (files : List (List FileName × ByteArray)) (q r : List FileName) :
    (files.filter fun f => f.1 ≠ q).lookup r = if r = q then none else files.lookup r := by
  induction files with
  | nil => simp
  | cons f files ih =>
    obtain ⟨s, b⟩ := f
    rw [List.filter_cons, List.lookup_cons]
    split
    · rename_i hs
      have hs : s ≠ q := by simpa using hs
      rw [List.lookup_cons, ih]
      by_cases hr : r = s
      · simp [hr, hs]
      · simp [beq_false_of_ne hr]
    · rename_i hs
      have hs : s = q := by simpa using hs
      rw [ih]
      by_cases hr : r = q
      · simp [hr]
      · simp [hr, hs, beq_false_of_ne hr]

@[simp]
theorem file?_erase (d : Disk) (q r : List FileName) :
    (d.erase q).file? r = if r = q then none else d.file? r :=
  lookup_filter_ne d.files q r

@[simp]
theorem file?_put (d : Disk) (q r : List FileName) (b : ByteArray) :
    (d.put q b).file? r = if r = q then some b else d.file? r := by
  change ((q, b) :: (d.erase q).files).lookup r = _
  rw [List.lookup_cons]
  by_cases hr : r = q
  · simp [hr]
  · rw [if_neg hr, beq_false_of_ne hr]
    exact (file?_erase d q r).trans (if_neg hr)

@[simp]
theorem file?_print (d : Disk) (stream : Stream) (text : String) (q : List FileName) :
    (d.print stream text).file? q = d.file? q := by
  cases stream <;> rfl

/-! ## Directories -/

theorem isBelow_iff : isBelow p q = true ↔ q <+: p ∧ q ≠ p := by
  simp [isBelow]

theorem isDirectory_iff : d.isDirectory q = true ↔
    (∃ s ∈ d.home :: standing, q <+: s) ∨ (∃ f ∈ Device.all, isBelow f.1 q = true) ∨
      ∃ s, (d.file? s).isSome = true ∧ isBelow s q = true := by
  have hfiles : (∃ f ∈ d.files, isBelow f.1 q = true) ↔
      ∃ s, (d.file? s).isSome = true ∧ isBelow s q = true := by
    constructor
    · rintro ⟨f, hf, hbelow⟩
      exact ⟨f.1, file?_isSome_iff.mpr ⟨f, hf, rfl⟩, hbelow⟩
    · rintro ⟨s, hs, hbelow⟩
      obtain ⟨f, hf, rfl⟩ := file?_isSome_iff.mp hs
      exact ⟨f, hf, hbelow⟩
  rw [isDirectory, Bool.or_eq_true, Bool.or_eq_true, List.any_eq_true, List.any_eq_true,
    List.any_eq_true, hfiles, or_assoc]
  simp only [ List.isPrefixOf_iff_prefix]

/-- What leads to a directory leads through directories. -/
theorem isDirectory_of_above (h : q <+: p) (hp : d.isDirectory p = true) :
    d.isDirectory q = true := by
  have hbelow : ∀ s, isBelow s p = true → isBelow s q = true := by
    intro s hs
    obtain ⟨habove, hne⟩ := isBelow_iff.mp hs
    refine isBelow_iff.mpr ⟨h.trans habove, ?_⟩
    rintro rfl
    exact hne (h.eq_of_length_le habove.length_le).symm
  rcases isDirectory_iff.mp hp with ⟨s, hs, habove⟩ | ⟨f, hf, hs⟩ | ⟨s, hs, hsp⟩
  · exact isDirectory_iff.mpr (.inl ⟨s, hs, h.trans habove⟩)
  · exact isDirectory_iff.mpr (.inr (.inl ⟨f, hf, hbelow _ hs⟩))
  · exact isDirectory_iff.mpr (.inr (.inr ⟨s, hs, hbelow _ hsp⟩))

theorem isDirectory_home (d : Disk) : d.isDirectory d.home = true :=
  isDirectory_iff.mpr (.inl ⟨d.home, List.mem_cons_self, List.prefix_rfl⟩)

/-- A disk on which a directory is nothing else, and whose working directory has legal names. -/
structure Proper (d : Disk) : Prop where
  home : ∀ name ∈ d.home, FileName.Legal name
  device : ∀ q, d.isDirectory q = true → Device.all.lookup q = none
  file : ∀ q, d.isDirectory q = true → d.file? q = none

/-- The directories of a disk, some more than once. -/
def directories (d : Disk) : List (List FileName) :=
  (d.home :: standing).flatMap List.inits ++
    (Device.all.map Prod.fst ++ d.files.map Prod.fst).flatMap fun q => q.dropLast.inits

theorem mem_inits_dropLast (h : isBelow p q = true) : q ∈ p.dropLast.inits := by
  obtain ⟨⟨t, rfl⟩, hne⟩ := isBelow_iff.mp h
  have ht : t ≠ [] := by
    rintro rfl
    exact hne (List.append_nil q).symm
  rw [List.dropLast_append_of_ne_nil ht, List.mem_inits]
  exact List.prefix_append q _

theorem mem_directories (h : d.isDirectory q = true) : q ∈ d.directories := by
  rw [directories, List.mem_append, List.mem_flatMap, List.mem_flatMap]
  rcases isDirectory_iff.mp h with ⟨s, hs, hprefix⟩ | ⟨f, hf, hbelow⟩ | ⟨s, hs, hbelow⟩
  · exact .inl ⟨s, hs, (List.mem_inits q s).mpr hprefix⟩
  · exact .inr ⟨f.1, List.mem_append_left _ (List.mem_map_of_mem hf), mem_inits_dropLast hbelow⟩
  · obtain ⟨f, hf, rfl⟩ := file?_isSome_iff.mp hs
    exact .inr ⟨f.1, List.mem_append_right _ (List.mem_map_of_mem hf), mem_inits_dropLast hbelow⟩

theorem proper_of_all (hhome : d.home.all FileName.isLegal = true)
    (h : (d.directories.all fun q => (Device.all.lookup q).isNone && (d.file? q).isNone) = true) :
    d.Proper := by
  have hall : ∀ q, d.isDirectory q = true → Device.all.lookup q = none ∧ d.file? q = none := by
    intro q hq
    have hboth := List.all_eq_true.mp h q (mem_directories hq)
    rwa [Bool.and_eq_true, Option.isNone_iff_eq_none, Option.isNone_iff_eq_none] at hboth
  exact ⟨fun name hname => FileName.legal_of_isLegal (List.all_eq_true.mp hhome name hname),
    fun q hq => (hall q hq).1, fun q hq => (hall q hq).2⟩

/-! ## Disks that change -/

/-- The directories are the same, and so is the working directory. -/
structure SameDirectories (d d' : Disk) : Prop where
  before : d.Proper
  proper : d'.Proper
  home : d'.home = d.home
  isDirectory : ∀ q, d'.isDirectory q = d.isDirectory q

namespace SameDirectories

theorem refl (hd : d.Proper) : d.SameDirectories d := ⟨hd, hd, rfl, fun _ => rfl⟩

theorem trans {d'' : Disk} (h : d.SameDirectories d') (h' : d'.SameDirectories d'') :
    d.SameDirectories d'' :=
  ⟨h.before, h'.proper, h'.home.trans h.home, fun q => (h'.isDirectory q).trans (h.isDirectory q)⟩

/-- Disks that come from the same one. -/
theorem of_both {d'' : Disk} (h : d.SameDirectories d') (h' : d.SameDirectories d'') :
    d'.SameDirectories d'' :=
  ⟨h.proper, h'.proper, h'.home.trans h.home.symm,
    fun q => (h'.isDirectory q).trans (h.isDirectory q).symm⟩

end SameDirectories

/-- The directories are the same, and the files that were there are there still, perhaps with
other bytes. -/
structure Grown (d d' : Disk) : Prop extends SameDirectories d d' where
  kept : ∀ q, (d.file? q).isSome = true → (d'.file? q).isSome = true

namespace Grown

theorem refl (hd : d.Proper) : d.Grown d := ⟨.refl hd, fun _ h => h⟩

theorem trans {d'' : Disk} (h : d.Grown d') (h' : d'.Grown d'') : d.Grown d'' :=
  ⟨h.toSameDirectories.trans h'.toSameDirectories, fun q hq => h'.kept q (h.kept q hq)⟩

/-- A disk with the same working directory, and with files at the same places or at others in
directories that are there. -/
theorem of_files (h : d.Grown d') {e : Disk} (hhome : e.home = d'.home)
    (hkept : ∀ q, (d.file? q).isSome = true → (e.file? q).isSome = true)
    (hnew : ∀ q, (e.file? q).isSome = true → (d'.file? q).isSome = true ∨
      d.isDirectory q = false ∧ ∀ r, isBelow q r = true → d.isDirectory r = true) :
    d.Grown e := by
  have hhome' : e.home = d.home := hhome.trans h.home
  have hdirectory : ∀ q, e.isDirectory q = d.isDirectory q := by
    intro q
    rw [Bool.eq_iff_iff]
    constructor
    · intro hq
      rcases isDirectory_iff.mp hq with hs | hs | ⟨s, hs, hsq⟩
      · exact isDirectory_iff.mpr (.inl (hhome' ▸ hs))
      · exact isDirectory_iff.mpr (.inr (.inl hs))
      · rcases hnew s hs with hs | ⟨_, hs⟩
        · rw [← h.isDirectory]
          exact isDirectory_iff.mpr (.inr (.inr ⟨s, hs, hsq⟩))
        · exact hs q hsq
    · intro hq
      rcases isDirectory_iff.mp hq with hs | hs | ⟨s, hs, hsq⟩
      · exact isDirectory_iff.mpr (.inl (hhome'.symm ▸ hs))
      · exact isDirectory_iff.mpr (.inr (.inl hs))
      · exact isDirectory_iff.mpr (.inr (.inr ⟨s, hkept s hs, hsq⟩))
  refine ⟨⟨h.before, ⟨?_, ?_, ?_⟩, hhome', hdirectory⟩, hkept⟩
  · exact hhome ▸ h.proper.home
  · intro q hq
    exact h.proper.device q (by rwa [h.isDirectory, ← hdirectory])
  · intro q hq
    rw [hdirectory] at hq
    by_contra hsome
    rcases hnew q (Option.isSome_iff_ne_none.mpr hsome) with hq' | ⟨hq', _⟩
    · rw [h.proper.file q (by rwa [h.isDirectory])] at hq'
      cases hq'
    · rw [hq] at hq'
      cases hq'

theorem put (h : d.Grown d') (hdir : d.isDirectory dir = true)
    (hq : d.isDirectory (dir ++ [name]) = false) (b : ByteArray) :
    d.Grown (d'.put (dir ++ [name]) b) := by
  refine h.of_files rfl ?_ ?_
  · intro q hkept
    rw [file?_put]
    split
    · rfl
    · exact h.kept q hkept
  · intro q hsome
    rw [file?_put] at hsome
    split at hsome
    · rename_i heq
      subst heq
      refine .inr ⟨hq, fun r hr => isDirectory_of_above ?_ hdir⟩
      obtain ⟨habove, hne⟩ := isBelow_iff.mp hr
      exact (List.prefix_concat_iff.mp habove).resolve_left hne
    · exact .inl hsome

theorem erase (h : d.Grown d') (hq : d.file? q = none) : d.Grown (d'.erase q) := by
  refine h.of_files rfl ?_ ?_
  · intro r hkept
    rw [file?_erase, if_neg]
    · exact h.kept r hkept
    · rintro rfl
      rw [hq] at hkept
      cases hkept
  · intro r hsome
    rw [file?_erase] at hsome
    split at hsome
    · cases hsome
    · exact .inl hsome

theorem print (h : d.Grown d') (stream : Stream) (text : String) :
    d.Grown (d'.print stream text) := by
  refine h.of_files (by cases stream <;> rfl) ?_ ?_
  · intro q hkept
    rw [file?_print]
    exact h.kept q hkept
  · intro q hsome
    rw [file?_print] at hsome
    exact .inl hsome

end Grown

/-! ## Paths -/

/-- What stands at a place, for a path that leads there with a slash after it or not. -/
def look (d : Disk) (q : List FileName) (slash : Bool) : Target :=
  match Device.all.lookup q, d.file? q with
  | some device, _ => .device device slash
  | none, some bytes => .file q bytes slash
  | none, none => if d.isDirectory q then .directory else .missing q slash

/-- A target as it is on a disk where files may have come to be. -/
def renew (d : Disk) : Target → Target
  | .file q _ slash | .missing q slash =>
    match d.file? q with
    | some bytes => .file q bytes slash
    | none => .missing q slash
  | t => t

theorem isDirectory_of_look {slash : Bool} (h : d.look q slash = .directory) :
    d.isDirectory q = true := by
  rw [look] at h
  split at h
  · cases h
  · cases h
  · split at h
    · assumption
    · cases h

theorem look_eq_missing {slash slash' : Bool} (h : d.look q slash = .missing p slash') :
    p = q ∧ Device.all.lookup q = none ∧ d.file? q = none ∧ d.isDirectory q = false := by
  rw [look] at h
  split at h
  · cases h
  · cases h
  · split at h
    · cases h
    · cases h
      exact ⟨rfl, by assumption, by assumption, Bool.eq_false_iff.mpr (by assumption)⟩

theorem look_eq_file {slash slash' : Bool} (h : d.look q slash = .file p b slash') :
    p = q ∧ d.file? q = some b := by
  rw [look] at h
  split at h
  · cases h
  · cases h
    exact ⟨rfl, by assumption⟩
  · split at h <;> cases h

/-- Why a path cannot go on from what it has come to. -/
def obstacle : Target → FileError
  | .missing _ _ => .notFound
  | _ => .notADirectory

/-- How names lead from a directory to a target, name by name. -/
inductive Leads (d : Disk) : List FileName → List FileName → Target → Prop where
  | here (dir : List FileName) : Leads d dir [] .directory
  | skip {dir names : List FileName} {name : FileName} {t : Target} (hidle : FileName.IsIdle name)
      (h : Leads d dir names t) : Leads d dir (name :: names) t
  | back {dir names : List FileName} {name : FileName} {t : Target} (hidle : ¬FileName.IsIdle name)
      (hdots : name = .ofString "..") (h : Leads d dir.dropLast names t) :
      Leads d dir (name :: names) t
  | overlong {dir names : List FileName} {name : FileName} (hidle : ¬FileName.IsIdle name)
      (hdots : name ≠ .ofString "..") (hlong : nameLimit < name.length)
      (hlast : names.all (· = []) = true) :
      Leads d dir (name :: names) (.overlong (!names.isEmpty))
  | enter {dir names : List FileName} {name : FileName} {t : Target} (hidle : ¬FileName.IsIdle name)
      (hdots : name ≠ .ofString "..") (hlength : name.length ≤ nameLimit)
      (hlook : d.look (dir ++ [name]) (!names.isEmpty) = .directory)
      (h : Leads d (dir ++ [name]) names t) : Leads d dir (name :: names) t
  | stop {dir names : List FileName} {name : FileName} (hidle : ¬FileName.IsIdle name)
      (hdots : name ≠ .ofString "..") (hlength : name.length ≤ nameLimit)
      (hlook : d.look (dir ++ [name]) (!names.isEmpty) ≠ .directory)
      (hlast : names.all (· = []) = true) :
      Leads d dir (name :: names) (d.look (dir ++ [name]) (!names.isEmpty))

section Follow

variable {names : List FileName}

theorem follow_of_idle (hidle : FileName.IsIdle name) :
    d.follow dir (name :: names) = d.follow dir names := by
  rw [follow, if_pos hidle]

theorem follow_of_dots (hidle : ¬FileName.IsIdle name) (hdots : name = .ofString "..") :
    d.follow dir (name :: names) = d.follow dir.dropLast names := by
  rw [follow, if_neg hidle, if_pos hdots]

variable (hidle : ¬FileName.IsIdle name) (hdots : name ≠ .ofString "..")

include hidle hdots

theorem follow_of_overlong (hlong : nameLimit < name.length) :
    d.follow dir (name :: names) =
      if names.all (· = []) then .ok (.overlong (!names.isEmpty)) else .error .nameTooLong := by
  rw [follow, if_neg hidle, if_neg hdots, if_pos hlong]

theorem follow_of_look_eq (hlength : name.length ≤ nameLimit)
    (h : d.look (dir ++ [name]) (!names.isEmpty) = .directory) :
    d.follow dir (name :: names) = d.follow (dir ++ [name]) names := by
  rw [follow, if_neg hidle, if_neg hdots, if_neg (Nat.not_lt.mpr hlength)]
  rw [look] at h
  split at h
  · cases h
  · cases h
  · split at h
    · simp [*]
    · cases h

theorem follow_of_look_ne (hlength : name.length ≤ nameLimit)
    (h : d.look (dir ++ [name]) (!names.isEmpty) ≠ .directory) :
    d.follow dir (name :: names) =
      if names.all (· = []) then .ok (d.look (dir ++ [name]) (!names.isEmpty))
      else .error (obstacle (d.look (dir ++ [name]) (!names.isEmpty))) := by
  rw [follow, if_neg hidle, if_neg hdots, if_neg (Nat.not_lt.mpr hlength)]
  rw [look] at h ⊢
  split at h
  · simp [*, obstacle]
  · simp [*, obstacle]
  · split at h
    · exact absurd rfl h
    · simp [*, obstacle]

end Follow

theorem leads_of_follow {names : List FileName} {t : Target} (h : d.follow dir names = .ok t) :
    d.Leads dir names t := by
  induction names generalizing dir with
  | nil =>
    cases h
    exact .here dir
  | cons name names ih =>
    by_cases hidle : FileName.IsIdle name
    · rw [follow_of_idle hidle] at h
      exact .skip hidle (ih h)
    by_cases hdots : name = .ofString ".."
    · rw [follow_of_dots hidle hdots] at h
      exact .back hidle hdots (ih h)
    by_cases hlong : nameLimit < name.length
    · rw [follow_of_overlong hidle hdots hlong] at h
      split at h
      · rename_i hlast
        cases h
        exact .overlong hidle hdots hlong hlast
      · cases h
    have hlength := Nat.not_lt.mp hlong
    by_cases hlook : d.look (dir ++ [name]) (!names.isEmpty) = .directory
    · rw [follow_of_look_eq hidle hdots hlength hlook] at h
      exact .enter hidle hdots hlength hlook (ih h)
    · rw [follow_of_look_ne hidle hdots hlength hlook] at h
      split at h
      · rename_i hlast
        cases h
        exact .stop hidle hdots hlength hlook hlast
      · cases h

theorem SameDirectories.look_eq (h : d.SameDirectories d') (q : List FileName) (slash : Bool) :
    d'.look q slash = d'.renew (d.look q slash) := by
  unfold look
  cases hdevice : Device.all.lookup q with
  | some device => rfl
  | none =>
    cases hfile : d.file? q with
    | some bytes =>
      have hdir : d.isDirectory q = false := Bool.eq_false_iff.mpr fun hdir => by
        rw [h.before.file q hdir] at hfile
        cases hfile
      cases hfile' : d'.file? q <;> simp [hdir, h.isDirectory, hfile', renew]
    | none =>
      by_cases hdir : d.isDirectory q = true
      · have hdir' := (h.isDirectory q).trans hdir
        simp only [hdir, hdir', h.proper.file q hdir', if_true, renew]
      · cases hfile' : d'.file? q <;> simp [hdir, h.isDirectory, hfile', renew]

theorem renew_eq_directory_iff {t : Target} : d.renew t = .directory ↔ t = .directory := by
  cases t <;> simp [renew]
  all_goals split <;> simp

/-- A path that leads somewhere leads there still. -/
theorem SameDirectories.follow_eq (h : d.SameDirectories d') {names : List FileName} {t : Target}
    (ht : d.Leads dir names t) : d'.follow dir names = .ok (d'.renew t) := by
  induction ht with
  | here => rfl
  | skip hidle _ ih =>
    rw [follow_of_idle hidle]
    exact ih
  | back hidle hdots _ ih =>
    rw [follow_of_dots hidle hdots]
    exact ih
  | overlong hidle hdots hlong hlast =>
    rw [follow_of_overlong hidle hdots hlong, if_pos hlast]
    rfl
  | enter hidle hdots hlength hlook _ ih =>
    rw [follow_of_look_eq hidle hdots hlength]
    · exact ih
    · rw [h.look_eq, hlook]
      rfl
  | stop hidle hdots hlength hlook hlast =>
    rw [follow_of_look_ne hidle hdots hlength, if_pos hlast, h.look_eq]
    rw [h.look_eq]
    exact renew_eq_directory_iff.not.mpr hlook

theorem SameDirectories.target_eq (h : d.SameDirectories d') {path : Path} {t : Target}
    (ht : d.target path = .ok t) : d'.target path = .ok (d'.renew t) := by
  rw [target] at ht ⊢
  rw [h.home]
  split at ht
  · cases ht
  · split at ht
    · cases ht
    · simp only [*, if_false]
      exact h.follow_eq (leads_of_follow ht)

/-! ## Places -/

/-- A directory that is there, and a name in it, where something may stand or not. -/
structure Room (d : Disk) (dir : List FileName) (name : FileName) : Prop where
  names : ∀ n ∈ dir, FileName.Legal n
  isDirectory : d.isDirectory dir = true
  legal : FileName.Legal name

namespace Proper

variable (hd : d.Proper)

include hd

theorem look_of_isDirectory (h : d.isDirectory q = true) (slash : Bool) :
    d.look q slash = .directory := by
  simp only [look, hd.device q h, hd.file q h, h, if_true]

/-- Names that lead through directories are followed. -/
theorem follow_append {names : List FileName} (hq : ∀ n ∈ q, FileName.Legal n)
    (h : d.isDirectory (dir ++ q) = true) :
    d.follow dir (q ++ names) = d.follow (dir ++ q) names := by
  induction q generalizing dir with
  | nil => rw [List.nil_append, List.append_nil]
  | cons n q ih =>
    obtain ⟨hn, hq⟩ := List.forall_mem_cons.mp hq
    have hassoc : dir ++ n :: q = dir ++ [n] ++ q := by simp
    rw [hassoc] at h ⊢
    have hdir : d.isDirectory (dir ++ [n]) = true :=
      isDirectory_of_above (List.prefix_append _ q) h
    rw [List.cons_append, follow_of_look_eq hn.not_isIdle hn.ne_dots hn.length_le
      (hd.look_of_isDirectory hdir _)]
    exact ih hq h

theorem target_eq_follow (hnames : ∀ n ∈ dir, FileName.Legal n) (hslash : Path.slash ∉ name)
    (hdir : d.isDirectory dir = true)
    (hsize : (Path.ofNames (dir ++ [name])).size ≤ pathLimit) :
    d.target (.ofNames (dir ++ [name])) = d.follow dir [name] := by
  have hslashes : ∀ n ∈ dir ++ [name], Path.slash ∉ n := by
    intro n hn
    rcases List.mem_append.mp hn with hn | hn
    · exact (hnames n hn).slash_not_mem
    · exact List.mem_singleton.mp hn ▸ hslash
  rw [target, if_neg (Nat.not_lt.mpr hsize), if_neg (Path.bytes_ofNames_ne_nil _),
    if_pos (Path.isAbsolute_ofNames _), Path.names_ofNames (by simp) hslashes, follow,
    if_pos (.inl rfl)]
  exact hd.follow_append hnames hdir

/-- The names of the working directory lead to it from the root. -/
theorem follow_home (names : List FileName) :
    d.follow [] ((Path.ofNames d.home).names ++ names) = d.follow d.home names := by
  by_cases hhome : d.home = []
  · rw [hhome]
    exact (follow_of_idle (.inl rfl)).trans (follow_of_idle (.inl rfl))
  · rw [Path.names_ofNames hhome fun n hn => (hd.home n hn).slash_not_mem, List.cons_append,
      follow_of_idle (.inl rfl)]
    exact hd.follow_append hd.home d.isDirectory_home

/-- The path of a place leads to what stands there. -/
theorem target_ofNames (h : d.Room dir name)
    (hsize : (Path.ofNames (dir ++ [name])).size ≤ pathLimit) :
    d.target (.ofNames (dir ++ [name])) = .ok (d.look (dir ++ [name]) false) := by
  rw [hd.target_eq_follow h.names h.legal.slash_not_mem h.isDirectory hsize]
  by_cases hlook : d.look (dir ++ [name]) false = .directory
  · rw [follow_of_look_eq h.legal.not_isIdle h.legal.ne_dots h.legal.length_le hlook, hlook]
    rfl
  · exact follow_of_look_ne h.legal.not_isIdle h.legal.ne_dots h.legal.length_le hlook

theorem target_overlong (hnames : ∀ n ∈ dir, FileName.Legal n) (hslash : Path.slash ∉ name)
    (hdir : d.isDirectory dir = true) (hlong : nameLimit < name.length)
    (hsize : (Path.ofNames (dir ++ [name])).size ≤ pathLimit) :
    d.target (.ofNames (dir ++ [name])) = .ok (.overlong false) := by
  have hne : ∀ n : FileName, n.length ≤ nameLimit → name ≠ n := by
    rintro n hn rfl
    exact Nat.not_lt.mpr hn hlong
  have hidle : ¬FileName.IsIdle name := not_or.mpr ⟨hne [] (Nat.zero_le _), hne _ (by cbv)⟩
  rw [hd.target_eq_follow hnames hslash hdir hsize, follow_of_overlong hidle (hne _ (by cbv)) hlong]
  rfl

end Proper

/-- What a path leads to stands at a place, unless it is a directory or a name is too long. -/
theorem exists_room_of_leads {names : List FileName} {t : Target} (h : d.Leads dir names t)
    (hslash : ∀ n ∈ names, Path.slash ∉ n) (hlegal : ∀ n ∈ dir, FileName.Legal n)
    (hdir : d.isDirectory dir = true) : t = .directory ∨ (∃ slash, t = .overlong slash) ∨
      ∃ dir' name slash, d.Room dir' name ∧ t = d.look (dir' ++ [name]) slash := by
  induction h with
  | here => exact .inl rfl
  | skip _ _ ih => exact ih (List.forall_mem_cons.mp hslash).2 hlegal hdir
  | back _ _ _ ih =>
    exact ih (List.forall_mem_cons.mp hslash).2
      (fun n hn => hlegal n (List.mem_of_mem_dropLast hn))
      (isDirectory_of_above ( List.dropLast_prefix _) hdir)
  | overlong => exact .inr (.inl ⟨_, rfl⟩)
  | enter hidle hdots hlength hlook _ ih =>
    obtain ⟨hname, hnames⟩ := List.forall_mem_cons.mp hslash
    refine ih hnames ?_ (isDirectory_of_look hlook)
    intro n hn
    rcases List.mem_append.mp hn with hn | hn
    · exact hlegal n hn
    · exact List.mem_singleton.mp hn ▸ (⟨hidle, hdots, hname, hlength⟩ : FileName.Legal _)
  | stop hidle hdots hlength _ _ =>
    have hname := (List.forall_mem_cons.mp hslash).1
    exact .inr (.inr ⟨_, _, _, ⟨hlegal, hdir, ⟨hidle, hdots, hname, hlength⟩⟩, rfl⟩)

theorem Proper.exists_room_of_target (hd : d.Proper) {path : Path} {t : Target}
    (h : d.target path = .ok t) : t = .directory ∨ (∃ slash, t = .overlong slash) ∨
      ∃ dir name slash, d.Room dir name ∧ t = d.look (dir ++ [name]) slash := by
  have hslash : ∀ n ∈ path.names, Path.slash ∉ n := fun n => not_mem_of_mem_splitBytes
  rw [target] at h
  split at h
  · cases h
  · split at h
    · cases h
    · split at h
      · exact exists_room_of_leads (leads_of_follow h) hslash (by simp)
          (isDirectory_of_above List.nil_prefix d.isDirectory_home)
      · exact exists_room_of_leads (leads_of_follow h) hslash hd.home d.isDirectory_home

/-! ## Single files -/

/-- A place for a file: a name in a directory, that is not taken by a directory or a device. -/
structure Spot (d : Disk) (dir : List FileName) (name : FileName) : Prop extends
    Room d dir name where
  size_le : (Path.ofNames (dir ++ [name])).size ≤ pathLimit
  device : Device.all.lookup (dir ++ [name]) = none
  free : d.isDirectory (dir ++ [name]) = false

/-- Where a path that can be looked up leads to nothing, there is a place for a file. -/
theorem Proper.spot_of_find (hd : d.Proper) (hnames : ∀ n ∈ dir, FileName.Legal n)
    (hdir : d.isDirectory dir = true) (hslash : Path.slash ∉ name)
    (h : d.find (.ofNames (dir ++ [name])) = .error .notFound) :
    d.Spot dir name ∧ d.file? (dir ++ [name]) = none := by
  have hsize : (Path.ofNames (dir ++ [name])).size ≤ pathLimit := by
    by_contra hsize
    rw [find, target, if_pos (Nat.not_le.mp hsize)] at h
    cases h
  have htarget := hd.target_eq_follow hnames hslash hdir hsize
  have hidle : ¬FileName.IsIdle name := by
    intro hidle
    rw [find, htarget, follow_of_idle hidle] at h
    cases h
  have hdots : name ≠ .ofString ".." := by
    intro hdots
    rw [find, htarget, follow_of_dots hidle hdots] at h
    cases h
  have hlength : name.length ≤ nameLimit := by
    by_contra hlong
    rw [find, hd.target_overlong hnames hslash hdir (Nat.not_le.mp hlong) hsize] at h
    cases h
  have hroom : d.Room dir name :=
    ⟨hnames, hdir, ⟨hidle, hdots, hslash, hlength⟩⟩
  rw [find, hd.target_ofNames hroom hsize] at h
  cases hlook : d.look (dir ++ [name]) false with
  | missing q slash =>
    obtain ⟨_, hdevice, hfile, hfree⟩ := look_eq_missing hlook
    exact ⟨⟨hroom, hsize, hdevice, hfree⟩, hfile⟩
  | device device slash =>
    rw [hlook] at h
    cases slash <;> cases h
  | file q b slash =>
    rw [hlook] at h
    cases slash <;> cases h
  | directory =>
    rw [hlook] at h
    cases h
  | overlong slash =>
    rw [hlook] at h
    cases h

namespace Spot

theorem of_grown (hs : d.Spot dir name) (h : d.Grown d') : d'.Spot dir name :=
  ⟨⟨hs.names, (h.isDirectory dir).trans hs.isDirectory, hs.legal⟩, hs.size_le, hs.device,
    (h.isDirectory _).trans hs.free⟩

variable (hs : d.Spot dir name) (h : d.Grown d')

include hs h

theorem target_eq (hfile : d'.file? (dir ++ [name]) = some b) :
    d'.target (.ofNames (dir ++ [name])) = .ok (.file (dir ++ [name]) b false) := by
  have hs' := hs.of_grown h
  rw [h.proper.target_ofNames hs'.toRoom hs'.size_le, look, hs'.device, hfile]

theorem target_eq_missing (hfile : d'.file? (dir ++ [name]) = none) :
    d'.target (.ofNames (dir ++ [name])) = .ok (.missing (dir ++ [name]) false) := by
  have hs' := hs.of_grown h
  rw [h.proper.target_ofNames hs'.toRoom hs'.size_le, look, hs'.device, hfile]
  simp only [hs'.free, Bool.false_eq_true, if_false]

theorem read_eq (hfile : d'.file? (dir ++ [name]) = some b) :
    d'.read (.ofNames (dir ++ [name])) = .ok b := by
  rw [read, hs.target_eq h hfile]
  rfl

theorem read_eq_error (hfile : d'.file? (dir ++ [name]) = none) :
    d'.read (.ofNames (dir ++ [name])) = .error .notFound := by
  rw [read, hs.target_eq_missing h hfile]
  rfl

theorem find_eq_error (hfile : d'.file? (dir ++ [name]) = none) :
    d'.find (.ofNames (dir ++ [name])) = .error .notFound := by
  rw [find, hs.target_eq_missing h hfile]
  rfl

theorem write_eq (b : ByteArray) :
    d'.write (.ofNames (dir ++ [name])) b = .ok (d'.put (dir ++ [name]) b) := by
  cases hfile : d'.file? (dir ++ [name]) with
  | some _ =>
    rw [write, hs.target_eq h hfile]
    rfl
  | none =>
    rw [write, hs.target_eq_missing h hfile]
    rfl

theorem remove_eq (hfile : d'.file? (dir ++ [name]) = some b) :
    d'.remove (.ofNames (dir ++ [name])) = .ok (d'.erase (dir ++ [name])) := by
  rw [remove, hs.target_eq h hfile]
  rfl

theorem remove_eq_error (hfile : d'.file? (dir ++ [name]) = none) :
    d'.remove (.ofNames (dir ++ [name])) = .error .notFound := by
  rw [remove, hs.target_eq_missing h hfile]
  rfl

theorem grown_put (b : ByteArray) : d.Grown (d'.put (dir ++ [name]) b) :=
  h.put hs.isDirectory hs.free b

end Spot

/-- A grown disk with a file at a place, or with none there, and otherwise with the files that it
had. -/
structure Wrote (d : Disk) (q : List FileName) (b : Option ByteArray) (d' d'' : Disk) : Prop where
  grown : d.Grown d''
  file?_eq : ∀ r, d''.file? r = if r = q then b else d'.file? r

namespace Wrote

variable {d'' : Disk} {content : Option ByteArray}

theorem file?_self (h : d.Wrote q content d' d'') : d''.file? q = content := by
  rw [h.file?_eq, if_pos rfl]

theorem file?_of_ne (h : d.Wrote q content d' d'') (hr : r ≠ q) : d''.file? r = d'.file? r := by
  rw [h.file?_eq, if_neg hr]

/-- A file that is as it is to be need not be written. -/
theorem of_file? (h : d.Grown d') (hq : d'.file? q = content) : d.Wrote q content d' d' := by
  refine ⟨h, fun r => ?_⟩
  split
  · rename_i hr
    rw [hr, hq]
  · rfl

end Wrote

theorem Spot.wrote_put (hs : d.Spot dir name) (h : d.Grown d') (b : ByteArray) :
    d.Wrote (dir ++ [name]) (some b) d' (d'.put (dir ++ [name]) b) :=
  ⟨hs.grown_put h b, fun r => file?_put d' _ r b⟩

theorem Grown.wrote_erase (h : d.Grown d') (hq : d.file? q = none) :
    d.Wrote q none d' (d'.erase q) :=
  ⟨h.erase hq, file?_erase d' q⟩

theorem Proper.file?_of_target (hd : d.Proper) {path : Path} {slash : Bool}
    (h : d.target path = .ok (.file q b slash)) : d.file? q = some b := by
  rcases hd.exists_room_of_target h with ht | ⟨_, ht⟩ | ⟨dir, name, _, _, ht⟩
  · cases ht
  · cases ht
  · obtain ⟨rfl, hfile⟩ := look_eq_file ht.symm
    exact hfile

/-- What is found on a disk is found when it has grown. -/
theorem Grown.find_eq (h : d.Grown d') {path : Path}
    (hfind : d.find path = .ok ()) : d'.find path = .ok () := by
  cases ht : d.target path with
  | error e =>
    rw [find, ht] at hfind
    cases hfind
  | ok t =>
    rw [find, h.target_eq ht]
    rw [find, ht] at hfind
    cases t with
    | directory => rfl
    | device device slash => exact hfind
    | file q b slash =>
      obtain ⟨b', hfile⟩ :=
        Option.isSome_iff_exists.mp (h.kept q (by rw [h.before.file?_of_target ht]; rfl))
      rw [renew, hfile]
      cases slash with
      | false => rfl
      | true => cases hfind
    | missing q slash => cases hfind
    | overlong slash => cases hfind

/-- A path that leads to a file at a place, or to where one can be put. -/
def Names (d : Disk) (path : Path) (q : List FileName) : Prop :=
  d.target path = .ok (.missing q false) ∨ ∃ b, d.target path = .ok (.file q b false)

namespace Names

variable {path : Path} (hq : d.Names path q)

include hq

theorem exists_dir (hd : d.Proper) : ∃ dir name,
    q = dir ++ [name] ∧ d.isDirectory dir = true ∧ d.isDirectory q = false := by
  rcases hq with h | ⟨b, h⟩
  · rcases hd.exists_room_of_target h with ht | ⟨_, ht⟩ | ⟨dir, name, _, hroom, ht⟩
    · cases ht
    · cases ht
    · obtain ⟨rfl, _, _, hfree⟩ := look_eq_missing ht.symm
      exact ⟨dir, name, rfl, hroom.isDirectory, hfree⟩
  · have hfile := hd.file?_of_target h
    rcases hd.exists_room_of_target h with ht | ⟨_, ht⟩ | ⟨dir, name, _, hroom, ht⟩
    · cases ht
    · cases ht
    · obtain ⟨rfl, _⟩ := look_eq_file ht.symm
      refine ⟨dir, name, rfl, hroom.isDirectory, Bool.eq_false_iff.mpr fun hdir => ?_⟩
      rw [hd.file _ hdir] at hfile
      cases hfile

variable (h : d.SameDirectories d')

include h

theorem target_eq : d'.target path = .ok (d'.renew (.missing q false)) := by
  rcases hq with ht | ⟨b, ht⟩
  · exact h.target_eq ht
  · have htarget := h.target_eq ht
    exact htarget

theorem read_eq (hfile : d'.file? q = some b) : d'.read path = .ok b := by
  simp only [read, hq.target_eq h, renew, hfile]
  rfl

theorem write_eq (b : ByteArray) : d'.write path b = .ok (d'.put q b) := by
  simp only [write, hq.target_eq h, renew]
  cases d'.file? q <;> rfl

theorem grown_put (b : ByteArray) : d'.Grown (d'.put q b) := by
  obtain ⟨dir, name, rfl, hdir, hfree⟩ := hq.exists_dir h.before
  exact (Grown.refl h.proper).put ((h.isDirectory dir).trans hdir) ((h.isDirectory _).trans hfree) b

end Names

/-! ## Programs -/

section Programs

variable {α β ε : Type} {time : String}

theorem run_bind (time : String) (d : Disk) (x : FileProgram α) (f : α → FileProgram β) :
    d.run time (x >>= f) = (d.run time x).2.run time (f (d.run time x).1) := by
  change d.run time (x.bind f) = _
  induction x generalizing d with
  | done a => rfl
  | home next ih => exact ih _ d
  | find path next ih => exact ih _ d
  | read path next ih => exact ih _ d
  | write path bytes next ih => exact ih _ _
  | remove path next ih => exact ih _ _
  | print stream text next ih => exact ih _
  | elapsed next ih => exact ih _ d

/-- A program that may end early, run on a disk. -/
def exec (time : String) (d : Disk) (x : ExceptT ε FileProgram α) : Except ε α × Disk :=
  d.run time x.run

theorem exec_pure (a : α) : d.exec time (pure a : ExceptT ε FileProgram α) = (.ok a, d) := rfl

theorem exec_bind (time : String) (d : Disk) (x : ExceptT ε FileProgram α)
    (f : α → ExceptT ε FileProgram β) : d.exec time (x >>= f) =
      match d.exec time x with
      | (.ok a, d') => d'.exec time (f a)
      | (.error e, d') => (.error e, d') := by
  change d.run time (x.run >>= ExceptT.bindCont f) = _
  rw [run_bind]
  change _ = match d.run time x.run with
    | (.ok a, d') => d'.exec time (f a)
    | (.error e, d') => (.error e, d')
  rcases d.run time x.run with ⟨_ | a, d'⟩ <;> rfl

/-- What a program did before the part that depends on its result. -/
theorem exec_bind_eq_ok {x : ExceptT ε FileProgram α} {f : α → ExceptT ε FileProgram β} {z : β}
    (h : d.exec time (x >>= f) = (.ok z, d')) :
    ∃ y d₁, d.exec time x = (.ok y, d₁) ∧ d₁.exec time (f y) = (.ok z, d') := by
  rw [exec_bind] at h
  rcases hx : d.exec time x with ⟨_ | y, d₁⟩
  · rw [hx] at h
    cases h
  · rw [hx] at h
    exact ⟨y, d₁, rfl, h⟩

theorem exec_lift (time : String) (d : Disk) (x : FileProgram α) :
    d.exec time (liftM x : ExceptT ε FileProgram α) =
      (.ok (d.run time x).1, (d.run time x).2) := by
  change d.run time (x >>= fun a => .done (Except.ok (ε := ε) a)) = _
  rw [run_bind]
  rfl

theorem run_workingDirectory :
    d.run time FileProgram.workingDirectory = (.ofNames d.home, d) := rfl

theorem run_findFile (path : Path) :
    d.run time (FileProgram.findFile path) = (d.find path, d) := rfl

theorem run_readFile (path : Path) :
    d.run time (FileProgram.readFile path) = (d.read path, d) := rfl

theorem run_writeFile (path : Path) (b : ByteArray) :
    d.run time (FileProgram.writeFile path b) = d.changed (d.write path b) := rfl

theorem run_removeFile (path : Path) :
    d.run time (FileProgram.removeFile path) = d.changed (d.remove path) := rfl

end Programs

end Disk

end CodeGraph
