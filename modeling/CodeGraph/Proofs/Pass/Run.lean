import CodeGraph.Pass.Runner

/-!
# Steps of a run

A run goes through its parts, and through the scripts of each part.  A script is
applied, counted, and kept as an overlay.  `chunk_eq_none` says all that a script
can do when it succeeds, and `keep_eq_ok` all that keeping its overlay can do.

`emitted` lists the scripts of a run in their order.  What one script keeps, a run
that comes to its end keeps (`sequential_induction`).
-/

namespace CodeGraph

/-! ## Endings -/

theorem PassError.ending_eq_failed {e e' : PassError} (h : e.ending = .failed e') :
    e = e' ∧ e' ≠ .apply .overflow := by
  rw [ending] at h
  split at h
  · cases h
  · next hne =>
    cases h
    exact ⟨rfl, hne⟩

theorem RunResult.eq_failed {r : Run} {stop : Option Stop} {e : PassError}
    (h : (RunResult.of r stop).ending = .failed e) :
    stop = some (.failed e) ∧ e ≠ .apply .overflow := by
  cases stop with
  | none => cases h
  | some stop =>
    cases stop with
    | crashed => cases h
    | failed e' =>
      obtain ⟨rfl, hne⟩ := PassError.ending_eq_failed h
      exact ⟨rfl, hne⟩

theorem RunResult.eq_finished {r : Run} {stop : Option Stop} {summary : Summary}
    (h : (RunResult.of r stop).ending = .finished summary) : stop = none ∧ r.summary = summary := by
  cases stop with
  | none =>
    cases h
    exact ⟨rfl, rfl⟩
  | some stop =>
    cases stop with
    | crashed => cases h
    | failed e =>
      change e.ending = _ at h
      rw [PassError.ending] at h
      split at h <;> cases h

namespace Run

variable {r r' : Run} {i : Nat} {d : Diff} {a : Applied} {e : PassError}

/-! ## Scripts -/

/-- The application of a script in a run. -/
def application (r : Run) (i : Nat) (d : Diff) : Application :=
  r.graph.apply d (r.poolOf i) (r.sink.any Sink.invert)

/-- The run with the graph and the key pool of an application. -/
def withApplication (r : Run) (i : Nat) (a : Application) : Run :=
  { r with graph := a.graph, pools := r.withPool i a.pool }

/-- The run with a script applied and counted, but not yet kept. -/
def applied (r : Run) (i : Nat) (d : Diff) (a : Applied) : Run :=
  { r.withApplication i (r.application i d) with summary := counted r.summary d a }

/-- The run with one more script in its summary. -/
def nextChunk (r : Run) : Run :=
  { r with summary := { r.summary with chunks := r.summary.chunks + 1 } }

/-- The run with one more overlay, and with the store that has it. -/
def withOverlay (r : Run) (sink : Sink) (store : Store) (name : String) : Run :=
  { r with
    sink := some { sink with store }
    summary := { r.summary with overlays := r.summary.overlays ++ [name] } }

theorem withPool_of_pools (hpools : r.pools = none) (pool : Option KeyPool) :
    r.withPool i pool = none := by
  cases pool with
  | none => exact hpools
  | some pool =>
    rw [withPool, hpools]
    rfl

theorem chunk_of_error {e : GraphError} (h : (r.application i d).result = .error e) :
    r.chunk i d = (r.withApplication i (r.application i d), some (.apply e)) := by
  simp only [application] at h
  simp only [chunk, h]
  rfl

theorem chunk_of_keep_error {e : StoreError} (h : (r.application i d).result = .ok a)
    (hkeep : (r.applied i d a).keep a = .error e) :
    r.chunk i d = (r.applied i d a, some (.storage e)) := by
  simp only [application] at h
  simp only [applied, withApplication, application] at hkeep ⊢
  simp only [chunk, h, hkeep]

theorem chunk_of_ok (h : (r.application i d).result = .ok a)
    (hkeep : (r.applied i d a).keep a = .ok r') : r.chunk i d = (r'.nextChunk, none) := by
  simp only [application] at h
  simp only [applied, withApplication, application] at hkeep
  simp only [chunk, h, hkeep]
  rfl

/-- What a script did that succeeded. -/
theorem chunk_eq_none (h : r.chunk i d = (r', none)) : ∃ a s,
    (r.application i d).result = .ok a ∧ (r.applied i d a).keep a = .ok s ∧ r' = s.nextChunk := by
  cases hresult : (r.application i d).result with
  | error e => rw [chunk_of_error hresult] at h; cases h
  | ok a =>
    cases hkeep : (r.applied i d a).keep a with
    | error e => rw [chunk_of_keep_error hresult hkeep] at h; cases h
    | ok s =>
      rw [chunk_of_ok hresult hkeep] at h
      cases h
      exact ⟨a, s, rfl, hkeep, rfl⟩

/-- What keeping an overlay did that succeeded, where there is a store. -/
theorem keep_eq_ok {sink : Sink} (hsink : r.sink = some sink) (h : r.keep a = .ok r') :
    ∃ overlay, overlayOf a = .ok overlay ∧
      (overlay.isEmpty = true ∧ r' = r ∨
        overlay.isEmpty = false ∧ ∃ store,
          sink.store.add (overlayName sink r.summary) overlay.toBytes = .ok store ∧
            r' = r.withOverlay sink store (overlayName sink r.summary)) := by
  simp only [keep, hsink] at h
  cases hoverlay : overlayOf a with
  | error e => rw [hoverlay] at h; cases h
  | ok overlay =>
    refine ⟨overlay, rfl, ?_⟩
    rw [hoverlay] at h
    simp only [bind, Except.bind] at h
    cases hempty : overlay.isEmpty with
    | true =>
      simp only [hempty, if_true] at h
      cases h
      exact .inl ⟨rfl, rfl⟩
    | false =>
      simp only [hempty] at h
      cases hadd : sink.store.add (overlayName sink r.summary) overlay.toBytes with
      | error e => rw [hadd] at h; cases h
      | ok store =>
        rw [hadd] at h
        cases h
        exact .inr ⟨rfl, store, rfl, rfl⟩

theorem keep_of_add {sink : Sink} {overlay : Overlay} {store : Store} (hsink : r.sink = some sink)
    (hoverlay : overlayOf a = .ok overlay) (hempty : overlay.isEmpty = false)
    (hadd : sink.store.add (overlayName sink r.summary) overlay.toBytes = .ok store) :
    r.keep a = .ok (r.withOverlay sink store (overlayName sink r.summary)) := by
  simp only [keep, hsink, hoverlay, hempty, hadd, bind, Except.bind]
  rfl

/-- Why an overlay is not kept: it cannot be made, or the store refuses it. -/
theorem keep_eq_error {sink : Sink} {e : StoreError} (hsink : r.sink = some sink)
    (h : r.keep a = .error e) : overlayOf a = .error e ∨
      ∃ overlay, overlayOf a = .ok overlay ∧ overlay.isEmpty = false ∧
        sink.store.add (overlayName sink r.summary) overlay.toBytes = .error e := by
  simp only [keep, hsink] at h
  cases hoverlay : overlayOf a with
  | error e' =>
    rw [hoverlay] at h
    cases h
    exact .inl rfl
  | ok overlay =>
    rw [hoverlay] at h
    simp only [bind, Except.bind] at h
    cases hempty : overlay.isEmpty with
    | true =>
      simp only [hempty, if_true] at h
      cases h
    | false =>
      simp only [hempty] at h
      cases hadd : sink.store.add (overlayName sink r.summary) overlay.toBytes with
      | error e' =>
        rw [hadd] at h
        cases h
        exact .inr ⟨overlay, rfl, hempty, hadd⟩
      | ok store =>
        rw [hadd] at h
        cases h

/-- What a script did that succeeded, where there is a store: its overlay was empty or was added. -/
theorem chunk_kept {sink : Sink} (hsink : r.sink = some sink) (h : r.chunk i d = (r', none)) :
    ∃ a overlay, (r.graph.apply d (r.poolOf i) sink.invert).result = .ok a ∧
      overlayOf a = .ok overlay ∧
      r'.graph = (r.graph.apply d (r.poolOf i) sink.invert).graph ∧
      (overlay.isEmpty = true ∧ r'.sink = some sink ∧ r'.summary.overlays = r.summary.overlays ∨
        ∃ store name, sink.store.add name overlay.toBytes = .ok store ∧
          r'.sink = some { sink with store } ∧
          r'.summary.overlays = r.summary.overlays ++ [name]) := by
  obtain ⟨a, s, hresult, hkeep, rfl⟩ := chunk_eq_none h
  have hsink' : (r.applied i d a).sink = some sink := hsink
  have happlication : r.application i d = r.graph.apply d (r.poolOf i) sink.invert := by
    rw [application, hsink, Option.any_some]
  obtain ⟨overlay, hoverlay, hkept⟩ := keep_eq_ok hsink' hkeep
  rw [happlication] at hresult
  refine ⟨a, overlay, hresult, hoverlay, ?_⟩
  rcases hkept with ⟨hempty, rfl⟩ | ⟨_, store, hadd, rfl⟩
  · exact ⟨congrArg Application.graph happlication, .inl ⟨hempty, hsink, rfl⟩⟩
  · exact ⟨congrArg Application.graph happlication, .inr ⟨store, _, hadd, rfl, rfl⟩⟩

/-! ## Parts -/

/-- The run with one more part in its summary. -/
def nextPart (r : Run) : Run :=
  { r with summary := { r.summary with parts := r.summary.parts + 1 } }

/-- The scripts of the parts from number `i` on, as long as nothing fails. -/
def emitted (r : Run) (i : Nat) : List Part → List Diff
  | [] => []
  | part :: parts =>
    match r.poolMissing? i with
    | some _ => []
    | none =>
      match part r.graph with
      | .emitted ds =>
        ds ++ match r.nextPart.chunks i ds with
          | (r, none) => r.emitted (i + 1) parts
          | (_, some _) => []
      | _ => []

theorem chunks_induction {Keeps : Run → Prop} {Good : Diff → Prop}
    (hchunk : ∀ r i d r', Keeps r → Good d → r.chunk i d = (r', none) → Keeps r')
    {ds : List Diff} (hr : Keeps r) (hds : ∀ d ∈ ds, Good d)
    (h : r.chunks i ds = (r', none)) : Keeps r' := by
  induction ds generalizing r with
  | nil => cases h; exact hr
  | cons d ds ih =>
    obtain ⟨hd, hds⟩ := List.forall_mem_cons.mp hds
    rw [chunks] at h
    cases hc : r.chunk i d with
    | mk s error =>
      rw [hc] at h
      cases error with
      | some e => cases h
      | none => exact ih (hchunk r i d s hr hd hc) hds h

theorem sequential_cons_of_emitted {part : Part} {parts : List Part} {ds : List Diff} {s : Run}
    (hpool : r.poolMissing? i = none) (hpart : part r.graph = .emitted ds)
    (hchunks : r.nextPart.chunks i ds = (s, none)) :
    r.sequential i (part :: parts) = s.sequential (i + 1) parts := by
  simp only [nextPart] at hchunks
  simp only [sequential, hpool, hpart, hchunks]

theorem sequential_cons_of_chunks_error {part : Part} {parts : List Part} {ds : List Diff} {s : Run}
    (hpool : r.poolMissing? i = none) (hpart : part r.graph = .emitted ds)
    (hchunks : r.nextPart.chunks i ds = (s, some e)) :
    r.sequential i (part :: parts) = (s, some (.failed e)) := by
  simp only [nextPart] at hchunks
  simp only [sequential, hpool, hpart, hchunks]

/-- What a part did before the parts after it were run to the end. -/
theorem sequential_cons_eq_none {part : Part} {parts : List Part}
    (h : r.sequential i (part :: parts) = (r', none)) : ∃ ds s,
    r.poolMissing? i = none ∧ part r.graph = .emitted ds ∧
      r.nextPart.chunks i ds = (s, none) ∧ s.sequential (i + 1) parts = (r', none) := by
  cases hpool : r.poolMissing? i with
  | some e => simp only [sequential, hpool] at h; cases h
  | none =>
    cases hpart : part r.graph with
    | crashed => simp only [sequential, hpool, hpart] at h; cases h
    | failed message => simp only [sequential, hpool, hpart] at h; cases h
    | emitted ds =>
      cases hchunks : r.nextPart.chunks i ds with
      | mk s error =>
        cases error with
        | some e => rw [sequential_cons_of_chunks_error hpool hpart hchunks] at h; cases h
        | none =>
          rw [sequential_cons_of_emitted hpool hpart hchunks] at h
          exact ⟨ds, s, rfl, rfl, hchunks, h⟩

/-- What counting a part and every script keeps, a run that comes to its end keeps. -/
theorem sequential_induction {Keeps : Run → Prop} {Good : Diff → Prop}
    (hpart : ∀ r, Keeps r → Keeps r.nextPart)
    (hchunk : ∀ r i d r', Keeps r → Good d → r.chunk i d = (r', none) → Keeps r')
    {parts : List Part} (hr : Keeps r) (hds : ∀ d ∈ r.emitted i parts, Good d)
    (h : r.sequential i parts = (r', none)) : Keeps r' := by
  induction parts generalizing r i with
  | nil => cases h; exact hr
  | cons part parts ih =>
    obtain ⟨ds, s, hpool, hpart', hchunks, hrest⟩ := sequential_cons_eq_none h
    simp only [emitted, hpool, hpart', hchunks, List.forall_mem_append] at hds
    exact ih (chunks_induction hchunk (hpart r hr) hds.1 hchunks) hds.2 hrest

end Run

end CodeGraph
