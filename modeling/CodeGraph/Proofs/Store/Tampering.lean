import CodeGraph.Proofs.Store.Ledger

/-!
# Overlays changed behind a database's back

A database in use is called, opened again, and the bytes of its overlays are
replaced from outside, with their hashes left as they are.

The row of a name is made by the first call that adds it, and from then on only
replacements under this name change it, and only its bytes (`track`).  So its hash
is for ever that of the bytes that were added.  Where no two byte strings of a run have
one hash, bytes are given out just when they are these.
-/

namespace CodeGraph

/-- What happens to a database in use. -/
inductive DatabaseStep where
  /-- It is called. -/
  | call (c : StoreCall)
  /-- It is closed and opened again. -/
  | reopen
  /-- The bytes of an overlay are replaced from outside. -/
  | tamper (name : String) (bytes : ByteArray)

namespace DatabaseStep

/-- The byte strings that a step brings in. -/
def bytes : DatabaseStep → List ByteArray
  | .call (.add _ bytes) => [bytes]
  | .tamper _ bytes => [bytes]
  | _ => []

/-- The bytes that a step puts under a name from outside. -/
def replaces? (name : String) : DatabaseStep → Option ByteArray
  | .tamper other bytes => if other = name then some bytes else none
  | _ => none

/-- Whether a step leaves the bytes of other overlays alone. -/
def spares (name : String) : DatabaseStep → Bool
  | .tamper other _ => other = name
  | _ => true

/-- What becomes of the row of a name in a step. -/
def track (name : String) (r : Option OverlayRow) : DatabaseStep → Option OverlayRow
  | .call (.add other bytes) =>
    if other = name ∧ Overlay.reads bytes = true then r.or (some (Ledger.rowOf (name, bytes)))
    else r
  | .tamper other bytes => if other = name then r.map fun r => { r with data := bytes } else r
  | _ => r

end DatabaseStep

open DatabaseStep

namespace Database

/-- A step of a database.  One that fails leaves it as it is. -/
def step (d : Database) : DatabaseStep → Except StoreError StoreReply × Database
  | .call c => d.call c
  | .reopen => commit d d.reopen
  | .tamper name bytes => commit d ((d.tamper name bytes).map Prod.snd)

/-- The bytes in the row of a name, whatever its hash. -/
def stored? (d : Database) (name : String) : Option ByteArray := (d.row? name).map OverlayRow.data

/-- The tables are there and have the schema of this library. -/
structure InUse (d : Database) : Prop where
  version : d.version = currentVersion
  tables : ∃ t, d.tables = some t

variable {d : Database} {name : String} {bytes : ByteArray} {s : DatabaseStep}

theorem inUse_empty : InUse {} := ⟨rfl, {}, rfl⟩

/-! ## One step -/

/-- All that adding an overlay can do to a database in use. -/
theorem InUse.call_add (hd : d.InUse) (name : String) (bytes : ByteArray) :
    (∃ t o, d.tables = some t ∧ Overlay.ofBytes bytes = .ok o ∧ d.row? name = none ∧
      d.call (.add name bytes) = (.ok .done, { d with tables := some { t with
        rows := t.rows ++ [⟨name, bytes, o.size, Digest.contentHash bytes⟩] } })) ∨
    ((Overlay.reads bytes = false ∨ (d.row? name).isSome) ∧
      ∃ e, d.call (.add name bytes) = (.error e, d)) := by
  cases hreads : Overlay.reads bytes with
  | false => exact .inr ⟨.inl rfl, .serialization, by rw [call, add_of_refused hreads]; rfl⟩
  | true =>
    obtain ⟨o, hread⟩ := Overlay.reads_eq_true_iff.mp hreads
    cases hrow : d.row? name with
    | some r =>
      exact .inr ⟨.inr rfl, .duplicateOverlay name, by rw [call, add_of_row? hread hrow]; rfl⟩
    | none =>
      obtain ⟨t, ht⟩ := hd.tables
      exact .inl ⟨t, o, ht, hread, rfl, by rw [call, add_of_row?_eq_none ht hread hrow]; rfl⟩

theorem InUse.call_saveBase (hd : d.InUse) (g : Graph) : ∃ t, d.tables = some t ∧
    d.call (.saveBase g) =
      (.ok .done, { d with tables := some { t with base := some g.toCompactText } }) := by
  obtain ⟨t, ht⟩ := hd.tables
  refine ⟨t, ht, ?_⟩
  simp only [call, saveBase, read, ht]
  rfl

theorem InUse.step_reopen (hd : d.InUse) : d.step .reopen = (.ok .done, d) := by
  rw [step, reopen, if_pos hd.version]
  rfl

theorem InUse.step_tamper (hd : d.InUse) (name : String) (bytes : ByteArray) :
    ∃ t, d.tables = some t ∧
      d.step (.tamper name bytes) = (.ok .done, { d with tables := some { t with
        rows := t.rows.map fun r => if r.name = name then { r with data := bytes } else r } }) := by
  obtain ⟨t, ht⟩ := hd.tables
  refine ⟨t, ht, ?_⟩
  simp only [step, tamper, read, ht]
  rfl

theorem InUse.step (hd : d.InUse) (s : DatabaseStep) : (d.step s).2.InUse := by
  cases s with
  | call c =>
    cases c with
    | add name bytes =>
      rcases hd.call_add name bytes with ⟨t, o, _, _, _, hcall⟩ | ⟨_, e, hcall⟩
      · rw [Database.step, hcall]
        exact ⟨hd.version, _, rfl⟩
      · rw [Database.step, hcall]
        exact hd
    | saveBase g =>
      obtain ⟨t, _, hcall⟩ := hd.call_saveBase g
      rw [Database.step, hcall]
      exact ⟨hd.version, _, rfl⟩
    | loadBase => exact hd
    | get name => exact hd
    | names => exact hd
    | isEmpty => exact hd
  | reopen => rwa [hd.step_reopen]
  | tamper name bytes =>
    obtain ⟨t, _, hstep⟩ := hd.step_tamper name bytes
    rw [hstep]
    exact ⟨hd.version, _, rfl⟩

theorem row?_of_tables {t : Tables} (ht : d.tables = some t) (name : String) :
    d.row? name = t.rows.find? fun r => r.name = name := by
  rw [row?, ht, Option.bind_some]

/-- The row of a name after its bytes, or those of another name, were replaced. -/
theorem find?_map_replace (rows : List OverlayRow) (name other : String) (bytes : ByteArray) :
    ((rows.map fun r => if r.name = other then { r with data := bytes } else r).find?
      fun r => r.name = name) =
    if other = name then (rows.find? fun r => r.name = name).map fun r => { r with data := bytes }
    else rows.find? fun r => r.name = name := by
  induction rows with
  | nil => simp
  | cons r rows ih =>
    simp only [List.map_cons, List.find?_cons]
    by_cases hr : r.name = name
    · by_cases ho : other = name
      · simp [hr, ho]
      · have hne : name ≠ other := fun h => ho h.symm
        simp [hr, ho, hne]
    · have hkeep : (if r.name = other then { r with data := bytes } else r).name ≠ name := by
        split_ifs <;> exact hr
      simp only [hr, hkeep, decide_false, ih]

theorem InUse.row?_step (hd : d.InUse) (s : DatabaseStep) (name : String) :
    (d.step s).2.row? name = track name (d.row? name) s := by
  cases s with
  | call c =>
    cases c with
    | add other bytes =>
      rcases hd.call_add other bytes with ⟨t, o, ht, hread, hnone, hcall⟩ | ⟨hfails, e, hcall⟩
      · have hreads := Overlay.reads_eq_true_iff.mpr ⟨o, hread⟩
        rw [row?_of_tables ht] at hnone ⊢
        rw [Database.step, hcall, row?_of_tables rfl, track]
        simp only [List.find?_append, hreads, and_true]
        by_cases h : other = name
        · subst h
          simp [hnone, Ledger.rowOf, hread, Except.toOption]
        · simp [h]
      · rw [Database.step, hcall, track]
        split_ifs with h
        · obtain ⟨rfl, hreads⟩ := h
          rcases hfails with hrefused | hsome
          · rw [hreads] at hrefused
            cases hrefused
          · rw [Option.or_of_isSome hsome]
        · rfl
    | saveBase g =>
      obtain ⟨t, ht, hcall⟩ := hd.call_saveBase g
      rw [Database.step, hcall, row?_of_tables ht, row?_of_tables rfl]
      rfl
    | loadBase => rfl
    | get name => rfl
    | names => rfl
    | isEmpty => rfl
  | reopen =>
    rw [hd.step_reopen]
    rfl
  | tamper other bytes =>
    obtain ⟨t, ht, hstep⟩ := hd.step_tamper other bytes
    rw [hstep, row?_of_tables ht, row?_of_tables rfl, find?_map_replace]
    rfl

/-- An overlay is added just when its bytes are those of one and its name has no row. -/
theorem InUse.call_add_eq_done (hd : d.InUse) :
    (d.step (.call (.add name bytes))).1 = .ok .done ↔
      Overlay.reads bytes = true ∧ d.row? name = none := by
  rw [Database.step]
  rcases hd.call_add name bytes with ⟨t, o, ht, hread, hnone, hcall⟩ | ⟨hfails, e, hcall⟩
  · have hreads := Overlay.reads_eq_true_iff.mpr ⟨o, hread⟩
    simp [hcall, hreads, hnone]
  · rw [hcall]
    constructor
    · intro h
      cases h
    · rintro ⟨hreads, hnone⟩
      rw [hreads, hnone] at hfails
      rcases hfails with h | h <;> cases h

/-! ## A run -/

theorem inUse_serve (steps : List DatabaseStep) : (serve step {} steps).2.InUse :=
  serve_induction (fun _ d => InUse d) (fun _ s _ hd => hd.step s) inUse_empty steps

/-- The row of a name after a run is told from the steps that concern this name. -/
theorem row?_serve (steps : List DatabaseStep) (name : String) :
    (serve step {} steps).2.row? name = steps.foldl (track name) none := by
  induction steps using List.reverseRecOn with
  | nil => rfl
  | append_singleton steps s ih =>
    rw [serve_concat, (inUse_serve steps).row?_step, ih, List.foldl_concat]

end Database

namespace DatabaseStep

variable {name : String} {r : OverlayRow}

/-- Of a row that is there, a step changes no more than the bytes, and only from outside. -/
theorem track_some (r : OverlayRow) (s : DatabaseStep) :
    track name (some r) s = some { r with data := (s.replaces? name).getD r.data } := by
  cases s with
  | call c => cases c <;> simp [track, replaces?]
  | reopen => rfl
  | tamper other bytes => by_cases h : other = name <;> simp [track, replaces?, h]

theorem foldl_track_some (r : OverlayRow) (steps : List DatabaseStep) :
    steps.foldl (track name) (some r) =
      some { r with data := ((steps.filterMap (replaces? name)).getLast?).getD r.data } := by
  induction steps generalizing r with
  | nil => rfl
  | cons s steps ih =>
    rw [List.foldl_cons, track_some, ih]
    cases h : s.replaces? name <;> simp [h, List.getLast?_cons]

/-- What is done to the bytes of other overlays does not matter to a row. -/
theorem foldl_track_filter_spares (r : Option OverlayRow) (steps : List DatabaseStep) :
    (steps.filter (spares name)).foldl (track name) r = steps.foldl (track name) r := by
  rw [List.foldl_filter]
  congr 1
  funext r s
  cases s with
  | tamper other bytes => by_cases h : other = name <;> simp [spares, track, h]
  | call c => rfl
  | reopen => rfl

theorem mem_bytes_of_replaces? {s : DatabaseStep} {bytes : ByteArray}
    (h : s.replaces? name = some bytes) : bytes ∈ s.bytes := by
  cases s with
  | tamper other data =>
    by_cases hother : other = name
    · rw [replaces?, if_pos hother] at h
      cases h
      exact List.mem_singleton_self _
    · rw [replaces?, if_neg hother] at h
      cases h
  | call c => cases h
  | reopen => cases h

/-- Only a call that adds the name makes a row. -/
theorem eq_add_of_track {s : DatabaseStep} (h : track name none s = some r) :
    ∃ bytes, s = .call (.add name bytes) ∧ Overlay.reads bytes = true := by
  cases s with
  | call c =>
    cases c with
    | add other bytes =>
      by_cases hadd : other = name ∧ Overlay.reads bytes = true
      · exact ⟨bytes, by rw [hadd.1], hadd.2⟩
      · rw [track, if_neg hadd] at h
        cases h
    | _ => cases h
  | reopen => cases h
  | tamper other bytes =>
    rw [track, Option.map_none, ite_self] at h
    cases h

/-- A row goes back to the first call that adds its name. -/
theorem exists_add_of_foldl_track {steps : List DatabaseStep}
    (h : steps.foldl (track name) none = some r) : ∃ before bytes after,
    steps = before ++ .call (.add name bytes) :: after ∧ Overlay.reads bytes = true ∧
      before.foldl (track name) none = none := by
  induction steps with
  | nil => cases h
  | cons s steps ih =>
    rw [List.foldl_cons] at h
    cases htrack : track name none s with
    | none =>
      rw [htrack] at h
      obtain ⟨before, bytes, after, rfl, hreads, hnone⟩ := ih h
      exact ⟨s :: before, bytes, after, rfl, hreads, by rw [List.foldl_cons, htrack, hnone]⟩
    | some r' =>
      obtain ⟨bytes, rfl, hreads⟩ := eq_add_of_track htrack
      exact ⟨[], bytes, steps, rfl, hreads, rfl⟩

/-- The row after a call that added its name and further steps. -/
theorem foldl_track_of_add {before after : List DatabaseStep} {bytes : ByteArray}
    (hreads : Overlay.reads bytes = true) (hnone : before.foldl (track name) none = none) :
    (before ++ .call (.add name bytes) :: after).foldl (track name) none =
      some { Ledger.rowOf (name, bytes) with
        data := ((after.filterMap (replaces? name)).getLast?).getD bytes } := by
  rw [List.foldl_append, hnone, List.foldl_cons, track, if_pos ⟨rfl, hreads⟩, Option.none_or,
    foldl_track_some]
  rfl

end DatabaseStep

/-! ## Reading -/

/-- In a run bytes were added under a name: the call was made, and it succeeded. -/
def Added (steps : List DatabaseStep) (name : String) (bytes : ByteArray) : Prop :=
  ∃ before after, steps = before ++ .call (.add name bytes) :: after ∧
    ((serve Database.step {} before).2.step (.call (.add name bytes))).1 = .ok .done

/-- No two byte strings that occur in a run have the same hash. -/
def NoCollision (steps : List DatabaseStep) : Prop :=
  ∀ a ∈ steps.flatMap DatabaseStep.bytes, ∀ b ∈ steps.flatMap DatabaseStep.bytes,
    Digest.contentHash a = Digest.contentHash b → a = b

variable {steps : List DatabaseStep} {name : String} {bytes : ByteArray}

/-- What is in the row of a name that was added: the bytes put there last, with the hash of those
that were added. -/
theorem row?_of_added {before after : List DatabaseStep}
    (hadd : ((serve Database.step {} before).2.step (.call (.add name bytes))).1 = .ok .done) :
    ∃ r, (serve Database.step {} (before ++ .call (.add name bytes) :: after)).2.row? name =
        some r ∧
      r.contentHash = Digest.contentHash bytes ∧
      r.data = ((after.filterMap (replaces? name)).getLast?).getD bytes := by
  obtain ⟨hreads, hnone⟩ := (Database.inUse_serve before).call_add_eq_done.mp hadd
  rw [Database.row?_serve] at hnone
  exact ⟨_, (Database.row?_serve _ name).trans (foldl_track_of_add hreads hnone), rfl, rfl⟩

theorem exists_added_of_row? {r : OverlayRow}
    (h : (serve Database.step {} steps).2.row? name = some r) :
    ∃ bytes, Added steps name bytes := by
  rw [Database.row?_serve] at h
  obtain ⟨before, bytes, after, rfl, hreads, hnone⟩ := exists_add_of_foldl_track h
  refine ⟨bytes, before, after, rfl, ?_⟩
  refine (Database.inUse_serve before).call_add_eq_done.mpr ⟨hreads, ?_⟩
  rw [Database.row?_serve, hnone]

/-- Bytes that were added and bytes put in their place occur in the run. -/
theorem mem_flatMap_bytes (before after : List DatabaseStep) (name : String) (bytes : ByteArray) :
    ((after.filterMap (replaces? name)).getLast?).getD bytes ∈
      (before ++ .call (.add name bytes) :: after).flatMap DatabaseStep.bytes := by
  cases hlast : (after.filterMap (replaces? name)).getLast? with
  | none => exact List.mem_flatMap.mpr ⟨.call (.add name bytes), by simp, List.mem_singleton_self _⟩
  | some data =>
    obtain ⟨s, hs, hdata⟩ := List.mem_filterMap.mp (List.mem_of_getLast? hlast)
    exact List.mem_flatMap.mpr ⟨s, by simp [hs], mem_bytes_of_replaces? hdata⟩

theorem Added.mem_bytes (h : Added steps name bytes) :
    bytes ∈ steps.flatMap DatabaseStep.bytes := by
  obtain ⟨before, after, rfl, _⟩ := h
  exact List.mem_flatMap.mpr ⟨.call (.add name bytes), by simp, List.mem_singleton_self _⟩

/-- What an overlay is read as is decided by its row. -/
theorem Database.InUse.get_congr {d d' : Database} (hd : d.InUse) (hd' : d'.InUse)
    (hrow : d.row? name = d'.row? name) : d.get name = d'.get name := by
  obtain ⟨t, ht⟩ := hd.tables
  obtain ⟨t', ht'⟩ := hd'.tables
  cases h : d.row? name with
  | none => rw [get_of_row?_eq_none ht h, get_of_row?_eq_none ht' (hrow ▸ h)]
  | some r => rw [get_of_row? h, get_of_row? (hrow ▸ h)]

/-- The row of an overlay that was added has the hash of the bytes that were added, and bytes that
occur in the run. -/
theorem Added.exists_row (h : Added steps name bytes) :
    ∃ r, (serve Database.step {} steps).2.row? name = some r ∧
      r.contentHash = Digest.contentHash bytes ∧ r.data ∈ steps.flatMap DatabaseStep.bytes := by
  obtain ⟨before, after, rfl, hadd⟩ := h
  obtain ⟨r, hr, hkept, hdata⟩ := row?_of_added hadd
  exact ⟨r, hr, hkept, hdata ▸ mem_flatMap_bytes before after name bytes⟩

theorem Added.unique (hhash : NoCollision steps) {other : ByteArray} (h : Added steps name bytes)
    (hother : Added steps name other) : bytes = other := by
  obtain ⟨r, hr, hkept, _⟩ := h.exists_row
  obtain ⟨r', hr', hkept', _⟩ := hother.exists_row
  cases hr.symm.trans hr'
  exact hhash _ h.mem_bytes _ hother.mem_bytes (hkept.symm.trans hkept')

theorem Added.exists_stored (hhash : NoCollision steps) (h : Added steps name bytes) :
    ∃ data, (serve Database.step {} steps).2.stored? name = some data ∧
      (data ≠ bytes → (serve Database.step {} steps).2.get name = .error (.integrity name)) ∧
      (data = bytes → (serve Database.step {} steps).2.get name = .ok bytes) := by
  obtain ⟨r, hr, hkept, hoccurs⟩ := h.exists_row
  refine ⟨r.data, by rw [Database.stored?, hr]; rfl, fun hne => ?_, fun heq => ?_⟩
  · rw [Database.get_of_row? hr, if_neg]
    exact fun hsame => hne (hhash _ hoccurs _ h.mem_bytes (hsame.trans hkept))
  · rw [Database.get_of_row? hr, if_pos (by rw [hkept, heq]), heq]

theorem get_of_never_added (h : ∀ bytes, ¬ Added steps name bytes) :
    (serve Database.step {} steps).2.get name = .error (.overlayNotFound name) := by
  obtain ⟨t, ht⟩ := (Database.inUse_serve steps).tables
  refine Database.get_of_row?_eq_none ht ?_
  cases hr : (serve Database.step {} steps).2.row? name with
  | none => rfl
  | some r =>
    obtain ⟨bytes, hadded⟩ := exists_added_of_row? hr
    exact absurd hadded (h bytes)

theorem added_of_get (hhash : NoCollision steps)
    (h : (serve Database.step {} steps).2.get name = .ok bytes) : Added steps name bytes := by
  by_cases hadded : ∃ added, Added steps name added
  · obtain ⟨added, hadded⟩ := hadded
    obtain ⟨data, _, hne, heq⟩ := hadded.exists_stored hhash
    by_cases hdata : data = added
    · cases h.symm.trans (heq hdata)
      exact hadded
    · cases h.symm.trans (hne hdata)
  · cases h.symm.trans (get_of_never_added (not_exists.mp hadded))

/-- What is known of an overlay of a database after a run. -/
structure Detects (steps : List DatabaseStep) (name : String) : Prop where
  /-- One that was never added is not found. -/
  never_added : (∀ bytes, ¬ Added steps name bytes) →
    (serve Database.step {} steps).2.get name = .error (.overlayNotFound name)
  /-- One whose bytes are not those that were added is refused, and any other is read as it was
  added. -/
  added : ∀ bytes, Added steps name bytes →
    ∃ data, (serve Database.step {} steps).2.stored? name = some data ∧
      (data ≠ bytes → (serve Database.step {} steps).2.get name = .error (.integrity name)) ∧
      (data = bytes → (serve Database.step {} steps).2.get name = .ok bytes)
  /-- What is read was added. -/
  sound : ∀ out, (serve Database.step {} steps).2.get name = .ok out → Added steps name out
  /-- It was added once. -/
  unique : ∀ a b, Added steps name a → Added steps name b → a = b
  /-- Its bytes are those that were put there last. -/
  stored : ∀ before bytes after, steps = before ++ .call (.add name bytes) :: after →
    ((serve Database.step {} before).2.step (.call (.add name bytes))).1 = .ok .done →
    (serve Database.step {} steps).2.stored? name =
      some (((after.filterMap (replaces? name)).getLast?).getD bytes)
  /-- Replacing the bytes of another overlay does not matter to it. -/
  spared : (serve Database.step {} steps).2.get name =
    (serve Database.step {} (steps.filter (spares name))).2.get name

/-- Bytes are given out just when they are those that were added, in any run of calls, reopenings
and replacements from outside in which no two byte strings have one hash. -/
theorem tampering_detected (steps : List DatabaseStep) (hhash : NoCollision steps)
    (name : String) : Detects steps name where
  never_added := get_of_never_added
  added := fun _ h => h.exists_stored hhash
  sound := fun _ => added_of_get hhash
  unique := fun _ _ ha => ha.unique hhash
  stored := by
    rintro before bytes after rfl hadd
    obtain ⟨r, hr, _, hdata⟩ := row?_of_added hadd
    rw [Database.stored?, hr, ← hdata]
    rfl
  spared := by
    refine (Database.inUse_serve steps).get_congr (Database.inUse_serve _) ?_
    rw [Database.row?_serve, Database.row?_serve, foldl_track_filter_spares]

/-- One overlay is changed and stays so, another is changed and put back, over a reopening and a
name that clashes. -/
def meddle : List DatabaseStep :=
  [.call (.add "a" "[[]]".toUTF8), .call (.add "b" "[[ ]]".toUTF8), .tamper "a" "[ []]".toUTF8,
    .tamper "b" "[[]]".toUTF8, .reopen, .call (.add "a" "[ []]".toUTF8),
    .tamper "b" "[[ ]]".toUTF8, .tamper "c" "[[]]".toUTF8]

theorem meddle_detected : NoCollision meddle ∧
    Added meddle "a" "[[]]".toUTF8 ∧ Added meddle "b" "[[ ]]".toUTF8 ∧
    (∀ bytes, ¬ Added meddle "c" bytes) ∧
    (serve Database.step {} meddle).2.get "a" = .error (.integrity "a") ∧
    (serve Database.step {} meddle).2.get "b" = .ok "[[ ]]".toUTF8 ∧
    (serve Database.step {} meddle).2.get "c" = .error (.overlayNotFound "c") := by
  have hhash : NoCollision meddle := by
    unfold NoCollision
    decide +kernel
  have hdone : ∀ {name bytes before}, Overlay.reads bytes = true →
      (serve Database.step {} before).2.row? name = none →
      ((serve Database.step {} before).2.step (.call (.add name bytes))).1 = .ok .done :=
    fun hreads hnone => (Database.inUse_serve _).call_add_eq_done.mpr ⟨hreads, hnone⟩
  have ha : Added meddle "a" "[[]]".toUTF8 :=
    ⟨[], _, rfl, hdone (by decide +kernel) rfl⟩
  have hb : Added meddle "b" "[[ ]]".toUTF8 :=
    ⟨[.call (.add "a" "[[]]".toUTF8)], _, rfl, hdone (by decide +kernel) (by decide +kernel)⟩
  have hc : ∀ bytes, ¬ Added meddle "c" bytes := by
    rintro bytes ⟨before, after, hsplit, -⟩
    have hmem : .call (.add "c" bytes) ∈ meddle := hsplit ▸ by simp
    simp [meddle] at hmem
  refine ⟨hhash, ha, hb, hc, ?_, ?_, (tampering_detected meddle hhash "c").never_added hc⟩
  · obtain ⟨data, hdata, hne, -⟩ := (tampering_detected meddle hhash "a").added _ ha
    have hstored : (serve Database.step {} meddle).2.stored? "a" = some "[ []]".toUTF8 := by
      decide +kernel
    cases hdata.symm.trans hstored
    exact hne (by decide +kernel)
  · obtain ⟨data, hdata, -, heq⟩ := (tampering_detected meddle hhash "b").added _ hb
    have hstored : (serve Database.step {} meddle).2.stored? "b" = some "[[ ]]".toUTF8 := by
      decide +kernel
    cases hdata.symm.trans hstored
    exact heq rfl

end CodeGraph
