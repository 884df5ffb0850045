import CodeGraph.Store.Basic

/-!
# Passes

A pass is an analysis that is divided into parts.  A part looks at the graph and
emits edit scripts.  It may also fail with a message, or crash.  A pass may
bring key pools, one for each part.

A run of a pass ends with a summary, or with the first error.
-/

namespace CodeGraph

/-- What a part of a pass came to. -/
inductive PartResult where
  /-- The scripts that it emitted. -/
  | emitted (diffs : List Diff)
  /-- It failed, and what it emitted is void. -/
  | failed (message : String)
  /-- It crashed. -/
  | crashed

/-- What a part comes to that records scripts of edits. -/
def PartResult.recorded (edits : List (List Edit)) : PartResult :=
  match edits.mapM Diff.ofEdits with
  | .ok diffs => .emitted diffs
  | .error _ => .crashed

/-- A part of a pass: what it comes to on a graph. -/
abbrev Part := Graph → PartResult

/-- An analysis that emits edit scripts. -/
structure Pass where
  /-- The name of the pass. -/
  name : String
  /-- The parts for a graph. -/
  parts : Graph → List Part
  /-- The key pools of the parts, if the pass brings any. -/
  pools : Option (List KeyPool) := none

/-- What a run of a pass did. -/
structure Summary where
  /-- The name of the pass. -/
  pass : String
  /-- The number of parts. -/
  parts : Nat := 0
  /-- The number of scripts. -/
  chunks : Nat := 0
  /-- The number of changes. -/
  committedEdits : Nat := 0
  /-- The number of changes and of the properties that they carry. -/
  expandedEdits : Nat := 0
  /-- The number of new nodes. -/
  newNodes : Nat := 0
  /-- The names of the overlays that were stored. -/
  overlays : List String := []
  deriving DecidableEq

/-- Why a run of a pass failed. -/
inductive PassError where
  /-- The pass has more parts than key pools. -/
  | missingKeyPool (pass : String) (part pools : Nat)
  /-- A part failed. -/
  | partFailed (pass : String) (part : Nat) (message : String)
  /-- A part crashed on a thread of its own. -/
  | workerCrashed (pass : String) (part : Nat)
  /-- A script could not be applied. -/
  | apply (e : GraphError)
  /-- An overlay could not be made or stored. -/
  | storage (e : StoreError)
  deriving DecidableEq

/-- The message of an error. -/
def PassError.message : PassError → String
  | .missingKeyPool pass part pools =>
    "pass " ++ pass ++ ": part " ++ Text.natText part ++ " has no key pool (" ++
      Text.natText pools ++ " declared)"
  | .partFailed pass part message =>
    "pass " ++ pass ++ ": part " ++ Text.natText part ++ " failed: " ++ message
  | .workerCrashed pass part =>
    "pass " ++ pass ++ ": worker for part " ++ Text.natText part ++ " panicked"
  | .apply e => "apply error: " ++ e.message
  | .storage e => "storage error: " ++ e.message

/-- How a run of a pass ended. -/
inductive Ending where
  /-- With a summary. -/
  | finished (summary : Summary)
  /-- With an error. -/
  | failed (cause : PassError)
  /-- With a crash, of a part or while a script was applied. -/
  | crashed
  deriving DecidableEq

/-- How a run ends that was stopped by an error, or by a crash while a script was applied. -/
def PassError.ending (e : PassError) : Ending :=
  if e = .apply .overflow then .crashed else .failed e

/-- The message of a failed run that took some time. -/
def PassError.report (pass elapsed : String) (cause : PassError) : String :=
  "pass " ++ pass ++ " failed after " ++ elapsed ++ ": " ++ cause.message

end CodeGraph
