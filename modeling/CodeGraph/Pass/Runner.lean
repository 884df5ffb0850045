import CodeGraph.Pass.Basic

/-!
# Running passes

There are three ways to run a pass.

* `Pass.runOn` runs the parts one after the other.  The scripts of a part are
  applied before the next part runs, so a part sees the edits of the parts
  before it.
* `Pass.runParallel` runs all parts on the graph as it is at first, and then
  applies their scripts in the order of the parts.
* `Pass.runInto` runs the parts one after the other and stores an overlay for
  every script.

The parts are determined once, on the graph as it is at first.  The first error
ends a run, and what was applied and stored before it stays.  A script that makes
the program crash when it is applied has no error of its own.
-/

namespace CodeGraph

/-- Where overlays go. -/
structure Sink where
  /-- The store. -/
  store : Store
  /-- Whether the overlays undo what was applied. -/
  invert : Bool
  /-- The first part of the names. -/
  series : String

/-- A run under way. -/
structure Run where
  /-- The graph so far. -/
  graph : Graph
  /-- The key pools so far. -/
  pools : Option (List KeyPool)
  /-- Where overlays go. -/
  sink : Option Sink := none
  /-- What was done so far. -/
  summary : Summary

/-- What a step of a run may end it with. -/
inductive Stop where
  /-- An error. -/
  | failed (cause : PassError)
  /-- A crash. -/
  | crashed

namespace Run

/-- The error when a part has no key pool although the pass brings some. -/
def poolMissing? (r : Run) (part : Nat) : Option PassError :=
  match r.pools with
  | none => none
  | some pools =>
    if part < pools.length then none else some (.missingKeyPool r.summary.pass part pools.length)

/-- The key pool of a part. -/
def poolOf (r : Run) (part : Nat) : Option KeyPool := r.pools.bind fun pools => pools[part]?

/-- The key pools after the use of the pool of a part. -/
def withPool (r : Run) (part : Nat) : Option KeyPool → Option (List KeyPool)
  | some pool => r.pools.map fun pools => pools.set part pool
  | none => r.pools

/-- The name of the overlay of the next script. -/
def overlayName (s : Sink) (summary : Summary) : String :=
  s.series ++ "_" ++ summary.pass ++ "_" ++ Text.natText summary.chunks

/-- The overlay of an application: the one that undoes it if it has an inverse. -/
def overlayOf (a : Applied) : Except StoreError Overlay :=
  match Overlay.inverse? a with
  | some o => o
  | none => Overlay.forward a

/-- The overlay of an application stored, if there is a store and the overlay is not empty. -/
def keep (r : Run) (a : Applied) : Except StoreError Run :=
  match r.sink with
  | none => .ok r
  | some sink => do
    let overlay ← overlayOf a
    if overlay.isEmpty then return r
    let name := overlayName sink r.summary
    let store ← sink.store.add name overlay.toBytes
    return { r with
      sink := some { sink with store }
      summary := { r.summary with overlays := r.summary.overlays ++ [name] } }

/-- The summary with an applied script counted. -/
def counted (s : Summary) (d : Diff) (a : Applied) : Summary :=
  { s with
    committedEdits := s.committedEdits + d.size
    expandedEdits := s.expandedEdits + d.expandedSize
    newNodes := s.newNodes + a.newNodeIds.length }

/-- A script of a part applied and stored. -/
def chunk (r : Run) (part : Nat) (d : Diff) : Run × Option PassError :=
  let a := r.graph.apply d (r.poolOf part) (r.sink.any Sink.invert)
  let r := { r with graph := a.graph, pools := r.withPool part a.pool }
  match a.result with
  | .error e => (r, some (.apply e))
  | .ok applied =>
    let r := { r with summary := counted r.summary d applied }
    match r.keep applied with
    | .error e => (r, some (.storage e))
    | .ok r => ({ r with summary := { r.summary with chunks := r.summary.chunks + 1 } }, none)

/-- The scripts of a part applied and stored, up to the first that fails. -/
def chunks (r : Run) (part : Nat) : List Diff → Run × Option PassError
  | [] => (r, none)
  | d :: ds =>
    match r.chunk part d with
    | (r, none) => r.chunks part ds
    | (r, some e) => (r, some e)

/-- The parts from number `i` on, each run on the graph as it then is. -/
def sequential (r : Run) (i : Nat) : List Part → Run × Option Stop
  | [] => (r, none)
  | part :: parts =>
    match r.poolMissing? i with
    | some e => (r, some (.failed e))
    | none =>
      let r := { r with summary := { r.summary with parts := r.summary.parts + 1 } }
      match part r.graph with
      | .crashed => (r, some .crashed)
      | .failed message => (r, some (.failed (.partFailed r.summary.pass i message)))
      | .emitted ds =>
        match r.chunks i ds with
        | (r, none) => r.sequential (i + 1) parts
        | (r, some e) => (r, some (.failed e))

/-- What the parts from number `i` on came to, applied in order. -/
def merge (r : Run) (i : Nat) : List PartResult → Run × Option PassError
  | [] => (r, none)
  | result :: results =>
    match r.poolMissing? i with
    | some e => (r, some e)
    | none =>
      match result with
      | .crashed => (r, some (.workerCrashed r.summary.pass i))
      | .failed message => (r, some (.partFailed r.summary.pass i message))
      | .emitted ds =>
        match r.chunks i ds with
        | (r, none) => r.merge (i + 1) results
        | (r, some e) => (r, some e)

end Run

/-- The outcome of a run: the graph, the key pools and the store afterwards, and how it ended. -/
structure RunResult where
  /-- The graph afterwards. -/
  graph : Graph
  /-- The key pools afterwards. -/
  pools : Option (List KeyPool)
  /-- The store afterwards, if there was one. -/
  store : Option Store
  /-- How the run ended. -/
  ending : Ending

/-- The outcome of a run that came to its end or stopped. -/
def RunResult.of (r : Run) (stop : Option Stop) : RunResult where
  graph := r.graph
  pools := r.pools
  store := r.sink.map Sink.store
  ending := match stop with
    | none => .finished r.summary
    | some (.failed e) => e.ending
    | some .crashed => .crashed

namespace Pass

/-- The pass run part by part. -/
def runOn (p : Pass) (g : Graph) : RunResult :=
  let r : Run := { graph := g, pools := p.pools, summary := { pass := p.name } }
  let (r, stop) := r.sequential 0 (p.parts g)
  RunResult.of r stop

/-- The pass run on all parts at once. -/
def runParallel (p : Pass) (g : Graph) : RunResult :=
  let results := (p.parts g).map fun part => part g
  let summary : Summary := { pass := p.name, parts := results.length }
  let r : Run := { graph := g, pools := p.pools, summary }
  let (r, e) := r.merge 0 results
  RunResult.of r (e.map Stop.failed)

/-- The pass run part by part, with overlays stored.  Overlays that undo are
only made for a store that is not empty. -/
def runInto (p : Pass) (g : Graph) (store : Store) (invert : Bool) (series : String) : RunResult :=
  match store.isEmpty with
  | .error e => ⟨g, p.pools, some store, .failed (.storage e)⟩
  | .ok empty =>
    let sink : Sink := { store, invert := invert && !empty, series }
    let r : Run :=
      { graph := g, pools := p.pools, sink := some sink, summary := { pass := p.name } }
    let (r, stop) := r.sequential 0 (p.parts g)
    RunResult.of r stop

end Pass

end CodeGraph
