import CodeGraph.Proofs.Diff.Undo
import CodeGraph.Proofs.Pass.Run

/-!
# Running all parts at once

`Pass.runOn` runs a part on the graph with the edits of the parts before it.
`Pass.runParallel` runs every part on the first graph, and takes up key pools,
results and scripts afterwards.  Where a part comes to the same on both graphs
(`Pass.Independent`), the two ways have the same outcome: the same graph down to
its slots, the same key pools, and the same summary or the same error.

Both ways work through the parts in one order, and between two parts their runs
differ in one field only, the number of parts in the summary.  One way counts it
up and the other knows it from the start.  No step looks at it, so a step made
with another number (`Run.withParts`) is the same step.
-/

namespace CodeGraph

namespace Run

variable {r r' : Run} {i n : Nat} {g : Graph}

/-- The run with another number of parts in its summary. -/
def withParts (r : Run) (n : Nat) : Run := { r with summary := { r.summary with parts := n } }

/-! ## Steps with another number of parts -/

theorem keep_withParts (n : Nat) (a : Applied) :
    (r.withParts n).keep a = (r.keep a).map (·.withParts n) := by
  obtain ⟨graph, pools, sink, summary⟩ := r
  cases sink with
  | none => rfl
  | some sink =>
    simp only [withParts, keep]
    cases overlayOf a with
    | error e => rfl
    | ok overlay =>
      cases hempty : overlay.isEmpty with
      | true => simp [bind, Except.bind, pure, Except.pure, Except.map, hempty]
      | false =>
        have hname : overlayName sink { summary with parts := n } = overlayName sink summary := rfl
        simp only [bind, Except.bind, hempty, hname]
        cases sink.store.add (overlayName sink summary) overlay.toBytes with
        | error e => rfl
        | ok store => rfl

theorem chunk_withParts (n : Nat) (d : Diff) :
    (r.withParts n).chunk i d = ((r.chunk i d).1.withParts n, (r.chunk i d).2) := by
  cases h : (r.application i d).result with
  | error e =>
    have hn : ((r.withParts n).application i d).result = .error e := h
    rw [chunk_of_error h, chunk_of_error hn]
    rfl
  | ok a =>
    have hn : ((r.withParts n).application i d).result = .ok a := h
    have hkeep : ((r.withParts n).applied i d a).keep a = _ :=
      keep_withParts n a (r := r.applied i d a)
    cases hr : (r.applied i d a).keep a with
    | error e =>
      rw [hr] at hkeep
      rw [chunk_of_keep_error h hr, chunk_of_keep_error hn hkeep]
      rfl
    | ok s =>
      rw [hr] at hkeep
      rw [chunk_of_ok h hr, chunk_of_ok hn hkeep]
      rfl

theorem chunks_withParts (n : Nat) (ds : List Diff) :
    (r.withParts n).chunks i ds = ((r.chunks i ds).1.withParts n, (r.chunks i ds).2) := by
  induction ds generalizing r with
  | nil => rfl
  | cons d ds ih =>
    rw [chunks, chunks, chunk_withParts]
    cases hc : r.chunk i d with
    | mk s error =>
      cases error with
      | none => exact ih
      | some e => rfl

/-- A run keeps its number of parts while scripts are taken up: it is that number anyway. -/
theorem parts_chunks (ds : List Diff) : (r.chunks i ds).1.summary.parts = r.summary.parts := by
  have h := chunks_withParts (r := r) (i := i) r.summary.parts ds
  exact congrArg (fun s => s.1.summary.parts) h

/-! ## The two ways side by side -/

/-- The parts from number `i` on come to the same on `g` as where the run gets to them. -/
def Agrees (r : Run) (i : Nat) (g : Graph) (parts : List Part) : Prop :=
  ∀ before part after s, parts = before ++ part :: after → r.sequential i before = (s, none) →
    part s.graph = part g

/-- Where the parts agree, the results on `g` taken up in order give the run
that runs the parts in order, up to the number of parts. -/
theorem merge_eq_sequential {parts : List Part} (hagrees : r.Agrees i g parts)
    (hcrash : ∀ part ∈ parts, part g ≠ .crashed) (n : Nat) :
    ∃ s error, r.sequential i parts = (s, error.map Stop.failed) ∧
      (r.withParts n).merge i (parts.map fun part => part g) = (s.withParts n, error) ∧
      (error = none → s.summary.parts = r.summary.parts + parts.length) := by
  induction parts generalizing r i with
  | nil => exact ⟨r, none, rfl, rfl, fun _ => rfl⟩
  | cons part parts ih =>
    obtain ⟨hcrash, hcrashes⟩ := List.forall_mem_cons.mp hcrash
    have hpart : part r.graph = part g := hagrees [] part parts r rfl rfl
    have hpool : (r.withParts n).poolMissing? i = r.poolMissing? i := rfl
    cases hmissing : r.poolMissing? i with
    | some e =>
      refine ⟨r, some e, ?_, ?_, fun h => absurd h (Option.some_ne_none _)⟩
      · simp only [sequential, hmissing]; rfl
      · simp only [List.map_cons, merge, hpool, hmissing]
    | none =>
      cases hresult : part g with
      | crashed => exact absurd hresult hcrash
      | failed message =>
        refine ⟨r.nextPart, some (.partFailed r.summary.pass i message), ?_, ?_,
          fun h => absurd h (Option.some_ne_none _)⟩
        · simp only [sequential, hmissing, hpart, hresult]; rfl
        · simp only [List.map_cons, merge, hpool, hmissing, hresult]; rfl
      | emitted ds =>
        rw [hresult] at hpart
        have hmerge := chunks_withParts (r := r.nextPart) (i := i) n ds
        have hparts := parts_chunks (r := r.nextPart) (i := i) ds
        change (r.withParts n).chunks i ds = _ at hmerge
        cases hchunks : r.nextPart.chunks i ds with
        | mk s error =>
          rw [hchunks] at hmerge hparts
          cases error with
          | some e =>
            refine ⟨s, some e, sequential_cons_of_chunks_error hmissing hpart hchunks, ?_,
              fun h => absurd h (Option.some_ne_none _)⟩
            simp only [List.map_cons, merge, hpool, hmissing, hresult, hmerge]
          | none =>
            -- the parts that are left agree on the run after this one
            have hrest : s.Agrees (i + 1) g parts := by
              intro before p after s' hsplit hseq
              refine hagrees (part :: before) p after s' (by rw [hsplit]; rfl) ?_
              rw [sequential_cons_of_emitted hmissing hpart hchunks]
              exact hseq
            obtain ⟨s', error, hseq, hmerge', hcount⟩ := ih hrest hcrashes
            refine ⟨s', error, ?_, ?_, fun h => ?_⟩
            · rw [sequential_cons_of_emitted hmissing hpart hchunks, hseq]
            · simp only [List.map_cons, merge, hpool, hmissing, hresult, hmerge, hmerge']
            · rw [hcount h, hparts, List.length_cons]
              simp only [nextPart]
              omega

end Run

/-! ## Passes -/

namespace Pass

/-- A run of a pass before its first part, without a store. -/
def start (p : Pass) (g : Graph) : Run :=
  { graph := g, pools := p.pools, summary := { pass := p.name } }

/-- Every part comes to the same on the first graph as on the graph with the
edits of all parts before it. -/
def Independent (p : Pass) (g : Graph) : Prop := (p.start g).Agrees 0 g (p.parts g)

theorem runParallel_eq (p : Pass) (g : Graph) {s : Run} {error : Option PassError}
    (h : ((p.start g).withParts (p.parts g).length).merge 0 ((p.parts g).map fun part => part g) =
      (s, error)) : p.runParallel g = RunResult.of s (error.map Stop.failed) := by
  simp only [start, Run.withParts] at h
  simp only [runParallel, List.length_map, h]

/-- A pass of independent parts that do not crash has the same outcome, whether
its parts are run one after the other or all at once. -/
theorem runParallel_eq_runOn (p : Pass) (g : Graph) (hindependent : p.Independent g)
    (hcrash : ∀ part ∈ p.parts g, part g ≠ .crashed) : p.runParallel g = p.runOn g := by
  obtain ⟨s, error, hseq, hmerge, hparts⟩ :=
    Run.merge_eq_sequential hindependent hcrash (p.parts g).length
  have hrunOn : p.runOn g = RunResult.of s (error.map Stop.failed) := by
    simp only [start] at hseq
    simp only [runOn, hseq]
  rw [hrunOn, runParallel_eq p g hmerge]
  cases error with
  | some e => rfl
  | none =>
    have hcount : s.summary.parts = (p.parts g).length := (hparts rfl).trans (Nat.zero_add _)
    rw [← hcount]
    rfl

/-- A block is added, then every method is marked.  A third part has no key pool. -/
def markMethods : Pass where
  name := "mark"
  parts _ :=
    [fun _ => .emitted [⟨[.createNode ⟨0⟩ .block {}]⟩],
      fun g => .emitted [⟨g.methods.map fun m => .setProperty (.existing m) "seen" (.bool true)⟩],
      fun _ => .failed "never run"]
  pools := some [⟨10, 12, 10, by decide, by decide⟩, ⟨12, 14, 12, by decide, by decide⟩]

theorem independent_markMethods : markMethods.Independent Graph.tangled := by
  intro before part after s hsplit hseq
  have hs : s = ((markMethods.start Graph.tangled).sequential 0 before).1 := by rw [hseq]
  rcases before with _ | ⟨_, _ | ⟨_, _ | ⟨_, before⟩⟩⟩
  · cases hsplit; rfl
  · cases hsplit; rw [hs]; cbv
  · cases hsplit; rfl
  · cases before <;> cases hsplit

theorem markMethods_runParallel : markMethods.Independent Graph.tangled ∧
    (∀ part ∈ markMethods.parts Graph.tangled, part Graph.tangled ≠ .crashed) ∧
    markMethods.runParallel Graph.tangled = markMethods.runOn Graph.tangled ∧
    (markMethods.runOn Graph.tangled).ending = .failed (.missingKeyPool "mark" 2 2) := by
  have hcrash : ∀ part ∈ markMethods.parts Graph.tangled, part Graph.tangled ≠ .crashed := by
    simp [markMethods]
  exact ⟨independent_markMethods, hcrash,
    runParallel_eq_runOn markMethods Graph.tangled independent_markMethods hcrash, by cbv⟩

end Pass

end CodeGraph
