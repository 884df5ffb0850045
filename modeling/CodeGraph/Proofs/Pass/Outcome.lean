import CodeGraph.Proofs.Pass.Parallel
import CodeGraph.Proofs.Pass.Stored
import Mathlib

/-!
# What a run comes to

What a run of a pass does is told without the runner.  `Pass.Completed` says what
the parts up to a number emit and what their scripts make of the graph,
`Pass.Reaches` says the same up to one script of a part, and `Pass.FailsAfter`
adds why the pass goes no further.  `overlaysOf` gives the overlays of what was
applied.

A run is followed by `Run.Tracks`: the scripts that were applied so far are
counted, and the overlays of those that are not empty are in the store, under the
numbers that their scripts have among all.  Scripts and parts keep this, in all three
ways of running a pass, and where a run fails it says what is left (`Run.Ended`).
-/

namespace CodeGraph

/-! ## Key pools -/

namespace Progress

variable {p p' : Progress} {c : Change} {cs : List Change}

theorem pool_commit (p : Progress) (r : Except GraphError (Graph × List Change)) :
    (p.commit r).1.pool = p.pool := by
  cases r <;> rfl

theorem isSome_pool_apply (p : Progress) (c : Change) :
    (p.apply c).1.pool.isSome = p.pool.isSome := by
  cases c with
  | createNode key kind properties =>
    rw [apply, createNode]
    cases hdraw : p.draw with
    | error e => rfl
    | ok drawn =>
      obtain ⟨id, p₁⟩ := drawn
      have hpool : p₁.pool.isSome = p.pool.isSome := by
        obtain ⟨_, _, rfl⟩ | ⟨_, _, hpool, _, rfl⟩ := draw_cases hdraw
        · rfl
        · rw [hpool]
          rfl
      dsimp only
      cases p₁.graph.insertNode ⟨id, kind, properties⟩ <;> exact hpool
  | createEdge | setProperty | addProperty | removeNode | removeEdge | restoreProperty
  | restoreNode => exact congrArg Option.isSome (pool_commit p _)

theorem isSome_pool_applyAll (p : Progress) (cs : List Change) :
    (p.applyAll cs).1.pool.isSome = p.pool.isSome :=
  applyAll_induction (fun q => q.pool.isSome = p.pool.isSome) (fun _ => True)
    (fun q c hq _ => (isSome_pool_apply q c).trans hq) rfl (fun _ _ => trivial)

theorem isSome_pool_rollback (p : Progress) : p.rollback.pool.isSome = p.pool.isSome :=
  List.foldlRecOn (motive := fun q => q.pool.isSome = p.pool.isSome) p.inverse _ rfl
    fun q hq c _ => (isSome_pool_apply q c).trans hq

end Progress

theorem Graph.isSome_pool_apply (g : Graph) (d : Diff) (pool : Option KeyPool)
    (withInverse : Bool) : (g.apply d pool withInverse).pool.isSome = pool.isSome := by
  have hall := Progress.isSome_pool_applyAll { graph := g, pool } d.changes
  cases h : Progress.applyAll { graph := g, pool } d.changes with
  | mk p error =>
    rw [h] at hall
    cases error with
    | none =>
      rw [apply_of_applyAll_none h]
      exact hall
    | some e =>
      by_cases he : e = .overflow
      · subst he
        rw [apply_of_crash h]
        exact hall
      · rw [apply_of_applyAll_some h he]
        exact p.isSome_pool_rollback.trans hall

/-! ## What a run comes to -/

/-- The three ways to run a pass. -/
inductive Mode where
  /-- Part by part. -/
  | inOrder
  /-- All parts at once. -/
  | atOnce
  /-- Part by part, with overlays stored. -/
  | storing (store : Store) (invert : Bool) (series : String)

namespace Mode

/-- A pass run in one of the three ways. -/
def run (mode : Mode) (p : Pass) (g : Graph) : RunResult :=
  match mode with
  | .inOrder => p.runOn g
  | .atOnce => p.runParallel g
  | .storing store invert series => p.runInto g store invert series

/-- The graph that a part looks at, of the graph at first and the graph so far. -/
def seen (mode : Mode) (g h : Graph) : Graph :=
  match mode with
  | .atOnce => g
  | _ => h

/-- Whether scripts are applied with their inverses. -/
def inverse : Mode → Bool
  | .storing store invert _ =>
    match store.isEmpty with
    | .ok empty => invert && !empty
    | .error _ => false
  | _ => false

end Mode

/-- Scripts applied one after the other, each with the key pool that the one before it left.  The
result is the last graph and pool, with what was done. -/
def Graph.applyEach (g : Graph) (pool : Option KeyPool) (inverse : Bool) :
    List Diff → Option (Graph × Option KeyPool × List Applied)
  | [] => some (g, pool, [])
  | d :: ds =>
    let a := g.apply d pool inverse
    match a.result with
    | .error _ => none
    | .ok applied =>
      (a.graph.applyEach a.pool inverse ds).map fun (g, pool, as) => (g, pool, applied :: as)

namespace Pass

/-- The key pool of a part before the run. -/
def poolOf (p : Pass) (i : Nat) : Option KeyPool := p.pools.bind fun pools => pools[i]?

/-- A part has a key pool, if the pass brings any. -/
def HasPool (p : Pass) (i : Nat) : Prop := ∀ pools, p.pools = some pools → i < pools.length

/-- The parts before number `i` emit scripts, which can all be applied in their order.  This is
what was applied, and the graph that it gives. -/
inductive Completed (p : Pass) (mode : Mode) (g : Graph) : Nat → List Applied → Graph → Prop where
  | start : Completed p mode g 0 [] g
  | part {i : Nat} {as bs : List Applied} {h h' : Graph} {part : Part} {ds : List Diff}
      {pool : Option KeyPool} (before : Completed p mode g i as h) (hpool : p.HasPool i)
      (hpart : (p.parts g)[i]? = some part) (hemitted : part (mode.seen g h) = .emitted ds)
      (happly : h.applyEach (p.poolOf i) mode.inverse ds = some (h', pool, bs)) :
      Completed p mode g (i + 1) (as ++ bs) h'

/-- A part emits the script `d` after some others, and everything before it can be applied.  This
is what was applied, and the graph and key pool for the script. -/
inductive Reaches (p : Pass) (mode : Mode) (g : Graph) (d : Diff) :
    List Applied → Graph → Option KeyPool → Prop where
  | script {i : Nat} {as bs : List Applied} {h h' : Graph} {part : Part} {ds rest : List Diff}
      {pool : Option KeyPool} (before : Completed p mode g i as h) (hpool : p.HasPool i)
      (hpart : (p.parts g)[i]? = some part)
      (hemitted : part (mode.seen g h) = .emitted (ds ++ d :: rest))
      (happly : h.applyEach (p.poolOf i) mode.inverse ds = some (h', pool, bs)) :
      Reaches p mode g d (as ++ bs) h' pool

/-- Why a pass goes no further, with what was applied before that and the graph that it gives. -/
inductive FailsAfter (p : Pass) (mode : Mode) (g : Graph) :
    PassError → List Applied → Graph → Prop where
  | missingKeyPool {i : Nat} {as : List Applied} {h : Graph} {pools : List KeyPool}
      (before : p.Completed mode g i as h) (hpart : i < (p.parts g).length)
      (hpools : p.pools = some pools) (hi : pools.length ≤ i) :
      FailsAfter p mode g (.missingKeyPool p.name i pools.length) as h
  | partFailed {i : Nat} {as : List Applied} {h : Graph} {part : Part} {message : String}
      (before : p.Completed mode g i as h) (hpool : p.HasPool i)
      (hpart : (p.parts g)[i]? = some part) (hfailed : part (mode.seen g h) = .failed message) :
      FailsAfter p mode g (.partFailed p.name i message) as h
  | workerCrashed {i : Nat} {as : List Applied} {h : Graph} {part : Part}
      (before : p.Completed mode g i as h) (hpool : p.HasPool i)
      (hpart : (p.parts g)[i]? = some part) (hmode : mode = .atOnce)
      (hcrashed : part g = .crashed) :
      FailsAfter p mode g (.workerCrashed p.name i) as h
  | apply {d : Diff} {as : List Applied} {h : Graph} {pool : Option KeyPool} {e : GraphError}
      (before : p.Reaches mode g d as h pool)
      (herror : (h.apply d pool mode.inverse).result = .error e) :
      FailsAfter p mode g (.apply e) as h

end Pass

/-- The overlays of what was applied, without those of empty scripts.  They are numbered by the
places that their scripts have among all. -/
def overlaysOf (series pass : String) (as : List Applied) :
    Except StoreError (List (String × ByteArray)) :=
  (as.zipIdx.filter fun (a, _) => !a.diff.isEmpty).mapM fun (a, i) => do
    return (series ++ "_" ++ pass ++ "_" ++ Text.natText i, (← Run.overlayOf a).toBytes)

/-- What was applied is in the store afterwards, and nothing else is new. -/
def Mode.Stores (mode : Mode) (pass : String) (as : List Applied) (store' : Option Store) : Prop :=
  match mode with
  | .storing store _ series => ∃ added s, store' = some s ∧
      overlaysOf series pass as = .ok added ∧ store.Grown added s
  | _ => store' = none

/-! ## Following a run -/

section Overlays

variable {series pass : String} {as : List Applied} {added : List (String × ByteArray)}
  {a : Applied} {o : Overlay}

theorem overlaysOf_append_of_isEmpty (h : overlaysOf series pass as = .ok added)
    (ha : a.diff.isEmpty = true) : overlaysOf series pass (as ++ [a]) = .ok added := by
  unfold overlaysOf at h ⊢
  rw [List.zipIdx_append, List.filter_append]
  simpa [ha] using h

theorem overlaysOf_append (h : overlaysOf series pass as = .ok added)
    (ha : a.diff.isEmpty = false) (ho : Run.overlayOf a = .ok o) :
    overlaysOf series pass (as ++ [a]) = .ok (added ++
      [(series ++ "_" ++ pass ++ "_" ++ Text.natText as.length, o.toBytes)]) := by
  unfold overlaysOf at h ⊢
  rw [List.zipIdx_append, List.filter_append, List.mapM_append, h]
  simp [ha, ho, bind, Except.bind, pure, Except.pure]

end Overlays

/-- The sink of a run has the store of what was applied. -/
def Mode.Keeps (mode : Mode) (pass : String) (as : List Applied) (sink : Option Sink) : Prop :=
  match mode with
  | .storing store _ series => ∃ added s, sink = some ⟨s, mode.inverse, series⟩ ∧
      overlaysOf series pass as = .ok added ∧ store.Grown added s
  | _ => sink = none

namespace Mode

variable {mode : Mode} {pass : String} {as : List Applied} {sink : Option Sink}

theorem inverse_storing {store : Store} {empty : Bool} (h : store.isEmpty = .ok empty)
    (invert : Bool) (series : String) :
    (storing store invert series).inverse = (invert && !empty) := by
  simp only [inverse, h]

theorem Keeps.stores (h : mode.Keeps pass as sink) :
    mode.Stores pass as (sink.map Sink.store) := by
  cases mode with
  | inOrder | atOnce => exact congrArg (Option.map Sink.store) h
  | storing store invert series =>
    obtain ⟨added, s, rfl, hadded, hgrown⟩ := h
    exact ⟨added, s, rfl, hadded, hgrown⟩

theorem Keeps.inverse_eq (h : mode.Keeps pass as sink) : sink.any Sink.invert = mode.inverse := by
  cases mode with
  | inOrder | atOnce =>
    cases h
    rfl
  | storing store invert series =>
    obtain ⟨added, s, rfl, _, _⟩ := h
    rfl

end Mode

namespace Run

variable {p : Pass} {mode : Mode} {as : List Applied} {r s : Run} {i : Nat} {d : Diff} {a : Applied}

/-- What is known of a run after the scripts that were applied so far. -/
structure Tracks (p : Pass) (mode : Mode) (as : List Applied) (r : Run) : Prop where
  pass_eq : r.summary.pass = p.name
  chunks_eq : r.summary.chunks = as.length
  length_pools : r.pools.map List.length = p.pools.map List.length
  keeps : mode.Keeps p.name as r.sink

theorem Tracks.application_eq (h : r.Tracks p mode as) (i : Nat) (d : Diff) :
    r.application i d = r.graph.apply d (r.poolOf i) mode.inverse := by
  rw [application, h.keeps.inverse_eq]

theorem length_withPool (r : Run) (i : Nat) (pool : Option KeyPool) :
    (r.withPool i pool).map List.length = r.pools.map List.length := by
  cases pool with
  | none => rfl
  | some pool =>
    rw [withPool, Option.map_map]
    congr 1
    funext pools
    exact List.length_set

/-- What is kept of an overlay does not touch graph and pools. -/
theorem keep_graph (h : r.keep a = .ok s) :
    s.graph = r.graph ∧ s.pools = r.pools ∧ s.summary.pass = r.summary.pass ∧
      s.summary.chunks = r.summary.chunks := by
  cases hsink : r.sink with
  | none =>
    simp only [keep, hsink] at h
    cases h
    exact ⟨rfl, rfl, rfl, rfl⟩
  | some sink =>
    obtain ⟨_, _, ⟨_, rfl⟩ | ⟨_, _, _, rfl⟩⟩ := keep_eq_ok hsink h
    · exact ⟨rfl, rfl, rfl, rfl⟩
    · exact ⟨rfl, rfl, rfl, rfl⟩

theorem isEmpty_of_overlayOf {g : Graph} {pool : Option KeyPool} {inverse : Bool} {o : Overlay}
    (h : (g.apply d pool inverse).result = .ok a) (ho : overlayOf a = .ok o) :
    o.isEmpty = a.diff.isEmpty := by
  have hdiff : a.diff = d := by
    obtain ⟨_, _, _, rfl⟩ := Graph.apply_eq_ok h
    rfl
  rw [hdiff]
  refine Graph.isEmpty_of_apply h ?_
  unfold overlayOf at ho
  cases hinverse : Overlay.inverse? a with
  | none => exact .inl (by rw [hinverse] at ho; exact ho)
  | some overlay => exact .inr (by rw [hinverse] at ho; exact congrArg some ho)

/-- An overlay is stored under the number of its script, unless it is empty. -/
theorem Tracks.keep {g : Graph} {pool : Option KeyPool} (h : r.Tracks p mode as)
    (hresult : (g.apply d pool mode.inverse).result = .ok a) (hkeep : r.keep a = .ok s) :
    s.nextChunk.Tracks p mode (as ++ [a]) := by
  obtain ⟨_, hpools, hpass, hchunks⟩ := keep_graph hkeep
  refine ⟨hpass.trans h.pass_eq, ?_, hpools ▸ h.length_pools, ?_⟩
  · change s.summary.chunks + 1 = _
    rw [hchunks, h.chunks_eq, List.length_append, List.length_singleton]
  have hkeeps := h.keeps
  cases mode with
  | inOrder | atOnce =>
    have hnone : r.sink = none := hkeeps
    simp only [Run.keep, hnone] at hkeep
    cases hkeep
    exact hnone
  | storing store invert series =>
    obtain ⟨added, store', hsink, hadded, hgrown⟩ := hkeeps
    obtain ⟨o, ho, hkept⟩ := keep_eq_ok hsink hkeep
    have hempty := isEmpty_of_overlayOf hresult ho
    rcases hkept with ⟨hnil, rfl⟩ | ⟨hnil, store'', hadd, rfl⟩
    · exact ⟨added, store', hsink, overlaysOf_append_of_isEmpty hadded (hempty ▸ hnil), hgrown⟩
    · refine ⟨_, store'', rfl, overlaysOf_append hadded (hempty ▸ hnil) ho, ?_⟩
      rw [overlayName, h.pass_eq, h.chunks_eq] at hadd
      exact hgrown.add hadd

/-! ## One script -/

theorem Tracks.withApplication (h : r.Tracks p mode as) (i : Nat) (a : Application) :
    (r.withApplication i a).Tracks p mode as :=
  ⟨h.pass_eq, h.chunks_eq, (length_withPool r i a.pool).trans h.length_pools, h.keeps⟩

theorem Tracks.applied (h : r.Tracks p mode as) (i : Nat) (d : Diff) (a : Applied) :
    (r.applied i d a).Tracks p mode as :=
  ⟨h.pass_eq, h.chunks_eq, (length_withPool r i _).trans h.length_pools, h.keeps⟩

/-- The pool of the part is the one that the application left, and the other pools are as before. -/
theorem poolOf_withApplication (r : Run) (i : Nat) (a : Application)
    (h : a.pool.isSome = (r.poolOf i).isSome) (j : Nat) :
    (r.withApplication i a).poolOf j = if j = i then a.pool else r.poolOf j := by
  unfold poolOf at h ⊢
  unfold Run.withApplication withPool
  cases hpools : r.pools with
  | none =>
    rw [hpools] at h
    cases hpool : a.pool with
    | none => simp
    | some pool =>
      rw [hpool] at h
      cases h
  | some pools =>
    rw [hpools] at h
    cases hpool : a.pool with
    | none =>
      rw [hpool] at h
      have hnone : pools[i]? = none := by simpa using h.symm
      by_cases hj : j = i
      · simp [hj, hnone]
      · simp [hj]
    | some pool =>
      rw [hpool] at h
      have hi : i < pools.length := by simpa using h.symm
      by_cases hj : j = i
      · simp [hj, hi]
      · simp [hj, Ne.symm hj]

/-- A script ends a run: it cannot be applied, or it was and its overlay cannot be kept. -/
def Refused (result : Except GraphError Applied) (s : Run) : PassError → Prop
  | .apply e => result = .error e
  | .storage e => ∃ a, result = .ok a ∧ s.keep a = .error e
  | _ => False

theorem Tracks.poolOf_withApplication (h : r.Tracks p mode as) (i : Nat) (d : Diff) (j : Nat) :
    (r.withApplication i (r.application i d)).poolOf j =
      if j = i then (r.graph.apply d (r.poolOf i) mode.inverse).pool else r.poolOf j := by
  rw [h.application_eq]
  exact r.poolOf_withApplication i _ (Graph.isSome_pool_apply _ _ _ _) j

theorem Tracks.chunk_eq_none (h : r.Tracks p mode as) (hchunk : r.chunk i d = (s, none)) : ∃ a,
    (r.graph.apply d (r.poolOf i) mode.inverse).result = .ok a ∧
      s.graph = (r.graph.apply d (r.poolOf i) mode.inverse).graph ∧
      (∀ j, s.poolOf j =
        if j = i then (r.graph.apply d (r.poolOf i) mode.inverse).pool else r.poolOf j) ∧
      s.Tracks p mode (as ++ [a]) := by
  obtain ⟨a, s', hresult, hkeep, rfl⟩ := Run.chunk_eq_none hchunk
  obtain ⟨hgraph, hpools, _, _⟩ := keep_graph hkeep
  rw [h.application_eq] at hresult
  refine ⟨a, hresult, ?_, ?_, (h.applied i d a).keep hresult hkeep⟩
  · rw [← h.application_eq]
    exact hgraph
  · intro j
    rw [← h.poolOf_withApplication i d j]
    exact congrArg (Option.bind · fun pools => pools[j]?) hpools

theorem Tracks.chunk_eq_some {e : PassError} (h : r.Tracks p mode as)
    (hchunk : r.chunk i d = (s, some e)) :
    s.graph = (r.graph.apply d (r.poolOf i) mode.inverse).graph ∧
      Refused (r.graph.apply d (r.poolOf i) mode.inverse).result s e ∧ s.Tracks p mode as := by
  rw [← h.application_eq]
  cases hresult : (r.application i d).result with
  | error e' =>
    rw [chunk_of_error hresult] at hchunk
    cases hchunk
    exact ⟨rfl, rfl, h.withApplication i _⟩
  | ok a =>
    cases hkeep : (r.applied i d a).keep a with
    | ok s' =>
      rw [chunk_of_ok hresult hkeep] at hchunk
      cases hchunk
    | error e' =>
      rw [chunk_of_keep_error hresult hkeep] at hchunk
      cases hchunk
      exact ⟨rfl, ⟨a, rfl, hkeep⟩, h.applied i d a⟩

/-! ## The scripts of a part -/

theorem applyEach_cons {g g' : Graph} {pool pool' : Option KeyPool} {inverse : Bool}
    {ds : List Diff} {bs : List Applied} (hresult : (g.apply d pool inverse).result = .ok a)
    (h : (g.apply d pool inverse).graph.applyEach (g.apply d pool inverse).pool inverse ds =
      some (g', pool', bs)) : g.applyEach pool inverse (d :: ds) = some (g', pool', a :: bs) := by
  simp only [Graph.applyEach, hresult, h, Option.map_some]

theorem Tracks.chunks_eq_none {ds : List Diff} (h : r.Tracks p mode as)
    (hchunks : r.chunks i ds = (s, none)) : ∃ bs,
    r.graph.applyEach (r.poolOf i) mode.inverse ds = some (s.graph, s.poolOf i, bs) ∧
      (∀ j, j ≠ i → s.poolOf j = r.poolOf j) ∧ s.Tracks p mode (as ++ bs) := by
  induction ds generalizing r as with
  | nil =>
    cases hchunks
    exact ⟨[], rfl, fun _ _ => rfl, (List.append_nil as).symm ▸ h⟩
  | cons d ds ih =>
    rw [chunks] at hchunks
    cases hchunk : r.chunk i d with
    | mk r₁ error =>
      rw [hchunk] at hchunks
      cases error with
      | some e => cases hchunks
      | none =>
        obtain ⟨a, hresult, hgraph, hpools, htracks⟩ := h.chunk_eq_none hchunk
        obtain ⟨bs, heach, hothers, htracks⟩ := ih htracks hchunks
        rw [hgraph, hpools i, if_pos rfl] at heach
        refine ⟨a :: bs, applyEach_cons hresult heach, fun j hj => ?_, ?_⟩
        · rw [hothers j hj, hpools j, if_neg hj]
        · rw [List.append_cons]
          exact htracks

theorem Tracks.chunks_eq_some {ds : List Diff} {e : PassError} (h : r.Tracks p mode as)
    (hchunks : r.chunks i ds = (s, some e)) : ∃ before d rest bs g pool,
    ds = before ++ d :: rest ∧
      r.graph.applyEach (r.poolOf i) mode.inverse before = some (g, pool, bs) ∧
      s.graph = (g.apply d pool mode.inverse).graph ∧
      Refused (g.apply d pool mode.inverse).result s e ∧ s.Tracks p mode (as ++ bs) := by
  induction ds generalizing r as with
  | nil => cases hchunks
  | cons d ds ih =>
    rw [chunks] at hchunks
    cases hchunk : r.chunk i d with
    | mk r₁ error =>
      rw [hchunk] at hchunks
      cases error with
      | some e' =>
        cases hchunks
        obtain ⟨hgraph, hrefused, htracks⟩ := h.chunk_eq_some hchunk
        exact ⟨[], d, ds, [], r.graph, r.poolOf i, rfl, rfl, hgraph, hrefused,
          (List.append_nil as).symm ▸ htracks⟩
      | none =>
        obtain ⟨a, hresult, hgraph, hpools, htracks⟩ := h.chunk_eq_none hchunk
        obtain ⟨before, d', rest, bs, g, pool, rfl, heach, hgraph', hrefused, htracks⟩ :=
          ih htracks hchunks
        rw [hgraph, hpools i, if_pos rfl] at heach
        refine ⟨d :: before, d', rest, a :: bs, g, pool, rfl, applyEach_cons hresult heach, hgraph',
          hrefused, ?_⟩
        rw [List.append_cons]
        exact htracks

/-! ## The parts of a pass -/

variable {g : Graph} {e : PassError} {part : Part} {ds : List Diff}

/-- A run stands before a part. -/
structure At (p : Pass) (mode : Mode) (g : Graph) (i : Nat) (as : List Applied) (r : Run) :
    Prop where
  completed : p.Completed mode g i as r.graph
  tracks : r.Tracks p mode as
  pools : ∀ j, i ≤ j → r.poolOf j = p.poolOf j

/-- A run has ended with an error: before a script, or at one. -/
inductive Ended (p : Pass) (mode : Mode) (g : Graph) (e : PassError) (s : Run) : Prop where
  | before {as : List Applied} (hfails : p.FailsAfter mode g e as s.graph)
      (htracks : s.Tracks p mode as)
  | script {as : List Applied} {d : Diff} {h : Graph} {pool : Option KeyPool}
      (hreaches : p.Reaches mode g d as h pool)
      (hgraph : s.graph = (h.apply d pool mode.inverse).graph)
      (hrefused : Refused (h.apply d pool mode.inverse).result s e) (htracks : s.Tracks p mode as)

namespace At

theorem nextPart (h : r.At p mode g i as) : r.nextPart.At p mode g i as :=
  ⟨h.completed, ⟨h.tracks.pass_eq, h.tracks.chunks_eq, h.tracks.length_pools, h.tracks.keeps⟩,
    h.pools⟩

theorem hasPool (h : r.At p mode g i as) (hpool : r.poolMissing? i = none) : p.HasPool i := by
  intro pools hpools
  have hlength := h.tracks.length_pools
  rw [hpools] at hlength
  obtain ⟨pools', hpools', hlength⟩ := Option.map_eq_some_iff.mp hlength
  simp only [poolMissing?, hpools'] at hpool
  split at hpool
  · next hi => exact hlength ▸ hi
  · cases hpool

theorem ended_of_poolMissing (h : r.At p mode g i as) (hi : i < (p.parts g).length)
    (hpool : r.poolMissing? i = some e) : Ended p mode g e r := by
  unfold poolMissing? at hpool
  cases hpools' : r.pools with
  | none =>
    rw [hpools'] at hpool
    cases hpool
  | some pools' =>
    simp only [hpools'] at hpool
    split at hpool
    · cases hpool
    · next hle =>
      cases hpool
      have hlength := h.tracks.length_pools
      rw [hpools', Option.map_some, eq_comm] at hlength
      obtain ⟨pools, hpools, hlength⟩ := Option.map_eq_some_iff.mp hlength
      rw [h.tracks.pass_eq, ← hlength]
      exact .before (.missingKeyPool h.completed hi hpools (by omega)) h.tracks

theorem emitted (h : r.At p mode g i as) (hpool : p.HasPool i)
    (hpart : (p.parts g)[i]? = some part) (hemitted : part (mode.seen g r.graph) = .emitted ds)
    (hchunks : r.chunks i ds = (s, none)) : ∃ bs, s.At p mode g (i + 1) (as ++ bs) := by
  obtain ⟨bs, heach, hothers, htracks⟩ := h.tracks.chunks_eq_none hchunks
  rw [h.pools i (Nat.le_refl i)] at heach
  refine ⟨bs, .part h.completed hpool hpart hemitted heach, htracks, fun j hj => ?_⟩
  rw [hothers j (by omega), h.pools j (by omega)]

theorem ended_of_emitted (h : r.At p mode g i as) (hpool : p.HasPool i)
    (hpart : (p.parts g)[i]? = some part) (hemitted : part (mode.seen g r.graph) = .emitted ds)
    (hchunks : r.chunks i ds = (s, some e)) : Ended p mode g e s := by
  obtain ⟨before, d, rest, bs, g', pool, rfl, heach, hgraph, hrefused, htracks⟩ :=
    h.tracks.chunks_eq_some hchunks
  rw [h.pools i (Nat.le_refl i)] at heach
  exact .script (.script h.completed hpool hpart hemitted heach) hgraph hrefused htracks

end At

theorem getElem?_of_drop {parts rest : List Part} (h : parts.drop i = part :: rest) :
    parts[i]? = some part ∧ i < parts.length ∧ parts.drop (i + 1) = rest := by
  have hlt : i < parts.length := by
    by_contra hle
    rw [List.drop_eq_nil_of_le (by omega)] at h
    cases h
  rw [List.drop_eq_getElem_cons hlt, List.cons.injEq] at h
  exact ⟨by rw [List.getElem?_eq_getElem hlt, h.1], hlt, h.2⟩

/-- Parts that are run one after the other. -/
theorem At.sequential {parts : List Part} (hseen : ∀ h, mode.seen g h = h)
    (h : r.At p mode g i as) (hparts : (p.parts g).drop i = parts)
    (hseq : r.sequential i parts = (s, some (.failed e))) : Ended p mode g e s := by
  -- the parts that are left are those from number `i` on, and the run stands before them
  induction parts generalizing r i as with
  | nil => cases hseq
  | cons part parts ih =>
    obtain ⟨hpart, hi, hrest⟩ := getElem?_of_drop hparts
    cases hmissing : r.poolMissing? i with
    | some e' =>
      simp only [Run.sequential, hmissing] at hseq
      cases hseq
      exact h.ended_of_poolMissing hi hmissing
    | none =>
      have hpool := h.hasPool hmissing
      cases hresult : part r.graph with
      | crashed =>
        simp only [Run.sequential, hmissing, hresult] at hseq
        cases hseq
      | failed message =>
        simp only [Run.sequential, hmissing, hresult] at hseq
        cases hseq
        refine .before ?_ h.nextPart.tracks
        change p.FailsAfter mode g (.partFailed r.summary.pass i message) as r.graph
        rw [h.tracks.pass_eq]
        exact .partFailed h.completed hpool hpart (by rw [hseen, hresult])
      | emitted ds =>
        have hemitted : part (mode.seen g r.nextPart.graph) = .emitted ds := by
          rw [hseen]
          exact hresult
        cases hchunks : r.nextPart.chunks i ds with
        | mk r₁ error =>
          cases error with
          | some e' =>
            rw [sequential_cons_of_chunks_error hmissing hresult hchunks] at hseq
            cases hseq
            exact h.nextPart.ended_of_emitted hpool hpart hemitted hchunks
          | none =>
            rw [sequential_cons_of_emitted hmissing hresult hchunks] at hseq
            obtain ⟨bs, hnext⟩ := h.nextPart.emitted hpool hpart hemitted hchunks
            exact ih hnext hrest hseq

/-- Parts that were all run on the graph at first. -/
theorem At.merge {parts : List Part} (h : r.At p .atOnce g i as)
    (hparts : (p.parts g).drop i = parts)
    (hmerge : r.merge i (parts.map fun part => part g) = (s, some e)) :
    Ended p .atOnce g e s := by
  induction parts generalizing r i as with
  | nil => cases hmerge
  | cons part parts ih =>
    obtain ⟨hpart, hi, hrest⟩ := getElem?_of_drop hparts
    rw [List.map_cons] at hmerge
    cases hmissing : r.poolMissing? i with
    | some e' =>
      simp only [Run.merge, hmissing] at hmerge
      cases hmerge
      exact h.ended_of_poolMissing hi hmissing
    | none =>
      have hpool := h.hasPool hmissing
      cases hresult : part g with
      | crashed =>
        simp only [Run.merge, hmissing, hresult] at hmerge
        cases hmerge
        rw [h.tracks.pass_eq]
        exact .before (.workerCrashed h.completed hpool hpart rfl hresult) h.tracks
      | failed message =>
        simp only [Run.merge, hmissing, hresult] at hmerge
        cases hmerge
        rw [h.tracks.pass_eq]
        exact .before (.partFailed h.completed hpool hpart hresult) h.tracks
      | emitted ds =>
        cases hchunks : r.chunks i ds with
        | mk r₁ error =>
          simp only [Run.merge, hmissing, hresult, hchunks] at hmerge
          cases error with
          | some e' =>
            cases hmerge
            exact h.ended_of_emitted hpool hpart hresult hchunks
          | none =>
            obtain ⟨bs, hnext⟩ := h.emitted hpool hpart hresult hchunks
            exact ih hnext hrest hmerge

end Run

/-! ## Whole runs -/

section Ended

variable {p : Pass} {g : Graph} {e : PassError} {store : Store} {invert empty : Bool}
  {series : String}

theorem Run.At.ended {mode : Mode} {r : Run} {result : RunResult}
    (hseen : ∀ h, mode.seen g h = h) (hstart : r.At p mode g 0 [])
    (hrun : result = RunResult.of (r.sequential 0 (p.parts g)).1 (r.sequential 0 (p.parts g)).2)
    (h : result.ending = .failed e) :
    ∃ s, Run.Ended p mode g e s ∧ result = RunResult.of s (some (.failed e)) := by
  cases hseq : r.sequential 0 (p.parts g) with
  | mk s stop =>
    rw [hseq] at hrun
    rw [hrun] at h
    obtain ⟨rfl, _⟩ := RunResult.eq_failed h
    exact ⟨s, hstart.sequential hseen rfl hseq, hrun⟩

theorem Pass.ended_runOn (h : (p.runOn g).ending = .failed e) :
    ∃ s, Run.Ended p .inOrder g e s ∧ p.runOn g = RunResult.of s (some (.failed e)) := by
  have hstart : (p.start g).At p .inOrder g 0 [] :=
    ⟨.start, ⟨rfl, rfl, rfl, rfl⟩, fun _ _ => rfl⟩
  exact hstart.ended (fun _ => rfl) rfl h

theorem Pass.ended_runParallel (h : (p.runParallel g).ending = .failed e) :
    ∃ s, Run.Ended p .atOnce g e s ∧ p.runParallel g = RunResult.of s (some (.failed e)) := by
  have hstart : ((p.start g).withParts (p.parts g).length).At p .atOnce g 0 [] :=
    ⟨.start, ⟨rfl, rfl, rfl, rfl⟩, fun _ _ => rfl⟩
  cases hmerge : ((p.start g).withParts (p.parts g).length).merge 0
      ((p.parts g).map fun part => part g) with
  | mk s error =>
    have hrun := p.runParallel_eq g hmerge
    rw [hrun] at h
    obtain ⟨hstop, _⟩ := RunResult.eq_failed h
    obtain ⟨e', rfl, heq⟩ := Option.map_eq_some_iff.mp hstop
    cases heq
    exact ⟨s, hstart.merge rfl hmerge, hrun⟩

theorem Pass.ended_runInto (hempty : store.isEmpty = .ok empty)
    (h : (p.runInto g store invert series).ending = .failed e) :
    ∃ s, Run.Ended p (.storing store invert series) g e s ∧
      p.runInto g store invert series = RunResult.of s (some (.failed e)) := by
  have hinverse := Mode.inverse_storing hempty invert series
  have hstart : (p.startInto g store (invert && !empty) series).At p
      (.storing store invert series) g 0 [] :=
    ⟨.start, ⟨rfl, rfl, rfl, [], store, by rw [hinverse]; rfl, rfl, .refl store⟩, fun _ _ => rfl⟩
  refine hstart.ended (fun _ => rfl) ?_ h
  rw [runInto, hempty]
  rfl

/-- A run that fails other than by its store has come to a part. -/
theorem Mode.ended_run {mode : Mode} (h : (mode.run p g).ending = .failed e)
    (he : ∀ e', e ≠ .storage e') :
    ∃ s, Run.Ended p mode g e s ∧ mode.run p g = RunResult.of s (some (.failed e)) := by
  cases mode with
  | inOrder => exact Pass.ended_runOn h
  | atOnce => exact Pass.ended_runParallel h
  | storing store invert series =>
    cases hempty : store.isEmpty with
    | ok empty => exact Pass.ended_runInto hempty h
    | error e' =>
      simp only [Mode.run, Pass.runInto, hempty] at h
      exact absurd (Ending.failed.inj h).symm (he e')

end Ended

end CodeGraph
