import CodeGraph.DataFlow.ReachingDefs
import CodeGraph.Proofs.DataFlow.FactSet
import CodeGraph.Proofs.DataFlow.FlowGraph
import CodeGraph.Proofs.DataFlow.Solver
import Mathlib

/-!
# Reaching definitions are exact over paths

The facts before a position are compared with paths that lead there.  A
`DefinitionPath` follows predecessors from a definition of a variable, never
comes back to the entry, and has no other definition of the variable on its way.

*Nothing extra.*  Every fact of every state of a run has a path
(`Justified`).  A visit follows one more edge, and the transfer function keeps a
fact only where its variable is not defined again.

*Nothing missed.*  In a fixpoint a definition is after its own position, and it
is handed on along every edge of a path.

*The end of the run.*  Outputs only grow (`Growing`), and no output is longer
than the number of positions that define something.  An output that changes puts
its successors on the worklist, so the length of the worklist and the growth
that is left, counted once for each successor, go down together.
-/

namespace CodeGraph.DataFlow.ReachingDefs

/-! ## Paths -/

/-- A path over predecessors from a definition of `v` to a position, on which `v`
is not defined again and the entry does not come up again. -/
structure DefinitionPath (r : ReachingDefs) (v : String) (d u k : Nat) (p : Nat → Nat) : Prop where
  long : 1 ≤ k
  first : p 0 = d
  last : p k = u
  edge : ∀ j < k, p j ∈ r.graph.pred (p (j + 1))
  inner : ∀ j, 1 ≤ j → j ≤ k → p j ≠ r.graph.entry
  clear : ∀ j, 1 ≤ j → j < k → r.definedAt? (p j) ≠ some v

/-- The end of a path, one edge at a time. -/
inductive Reaches (r : ReachingDefs) (v : String) (d : Nat) : Nat → Prop where
  | edge {u : Nat} : d ∈ r.graph.pred u → u ≠ r.graph.entry → Reaches r v d u
  | step {w u : Nat} : Reaches r v d w → r.definedAt? w ≠ some v → w ∈ r.graph.pred u →
      u ≠ r.graph.entry → Reaches r v d u

variable {r : ReachingDefs} {v : String} {d u : Nat}

theorem Reaches.exists_path (h : Reaches r v d u) : ∃ k p, DefinitionPath r v d u k p := by
  induction h with
  | @edge u hd hu =>
    refine ⟨1, fun j => if j = 0 then d else u, Nat.le_refl 1, rfl, rfl, ?_, ?_, ?_⟩
    · intro j hj
      obtain rfl : j = 0 := by omega
      exact hd
    · intro j h1 _
      rw [if_neg (by omega)]
      exact hu
    · intro j h1 h2
      omega
  | @step w u _ hw hwu hu ih =>
    obtain ⟨k, p, hp⟩ := ih
    -- the path goes on from its end at `k` with one more position
    refine ⟨k + 1, fun j => if j ≤ k then p j else u, by omega, ?_, ?_, ?_, ?_, ?_⟩
    · simp [hp.first]
    · simp
    · intro j hj
      rw [if_pos (show j ≤ k by omega)]
      by_cases hjk : j + 1 ≤ k
      · rw [if_pos hjk]
        exact hp.edge j hjk
      · obtain rfl : j = k := by omega
        rw [if_neg hjk, hp.last]
        exact hwu
    · intro j h1 h2
      by_cases hjk : j ≤ k
      · rw [if_pos hjk]
        exact hp.inner j h1 hjk
      · rw [if_neg hjk]
        exact hu
    · intro j h1 h2
      rw [if_pos (show j ≤ k by omega)]
      by_cases hjk : j < k
      · exact hp.clear j h1 hjk
      · obtain rfl : j = k := by omega
        rw [hp.last]
        exact hw

theorem DefinitionPath.reaches {k : Nat} {p : Nat → Nat} (h : DefinitionPath r v d u k p) :
    Reaches r v d u := by
  have hprefix : ∀ j, 1 ≤ j → j ≤ k → Reaches r v d (p j) := by
    intro j h1
    induction j, h1 using Nat.le_induction with
    | base =>
      intro hk
      have hedge := h.edge 0 (by omega)
      rw [h.first] at hedge
      exact .edge hedge (h.inner 1 (Nat.le_refl 1) hk)
    | succ j h1 ih =>
      intro hk
      exact .step (ih (by omega)) (h.clear j h1 (by omega)) (h.edge j (by omega))
        (h.inner (j + 1) (by omega) hk)
  have hend := hprefix k h.long (Nat.le_refl k)
  rwa [h.last] at hend

theorem reaches_iff_exists_path : Reaches r v d u ↔ ∃ k p, DefinitionPath r v d u k p :=
  ⟨Reaches.exists_path, fun ⟨_, _, h⟩ => h.reaches⟩

/-! ## The problem -/

theorem mem_transfer {i : Nat} {facts : FactSet Nat} :
    d ∈ r.transfer i facts ↔
      d = i ∧ (r.definedAt? i).isSome ∨
        d ∈ facts ∧ ∀ v, r.definedAt? i = some v → r.definedAt? d ≠ some v := by
  unfold transfer
  cases hi : r.definedAt? i with
  | none => simp
  | some var => simp

/-- What is made of more facts is more. -/
theorem transfer_mono {i : Nat} {facts facts' : FactSet Nat} (h : ∀ d ∈ facts, d ∈ facts') :
    ∀ d ∈ r.transfer i facts, d ∈ r.transfer i facts' := by
  intro d hd
  rw [mem_transfer] at hd ⊢
  exact hd.imp_right fun hd => ⟨h d hd.1, hd.2⟩

variable {s : State (FactSet Nat)} {i : Nat}

/-- The facts that drivers give are those after predecessors. -/
theorem mem_of_driven? {facts : FactSet Nat} (h : s.driven? r.problem i = some facts) :
    d ∈ facts ↔ ∃ w ∈ r.graph.pred i, d ∈ s.output.getD w ∅ := by
  unfold State.driven? at h
  split at h
  · cases h
  · cases hp : r.problem.drivers i with
    | nil =>
      rw [hp] at h
      cases h
    | cons e es =>
      rw [hp] at h
      obtain rfl := Option.some.inj h
      rw [show r.graph.pred i = e :: es from hp]
      refine FactSet.mem_foldl_union.trans ?_
      simp only [List.mem_cons, exists_eq_or_imp]
      rfl

theorem ne_entry_of_driven? {facts : FactSet Nat} (h : s.driven? r.problem i = some facts) :
    i ≠ r.graph.entry := by
  intro hi
  have hnone : s.driven? r.problem i = none := State.driven?_eq_none_iff.mpr (Or.inl hi)
  rw [hnone] at h
  cases h

/-! ## Nothing extra -/

/-- Every fact of a state has a path.  A fact after a position is made there, or
comes through it. -/
structure Justified (r : ReachingDefs) (s : State (FactSet Nat)) : Prop where
  input : ∀ u d, d ∈ s.input.getD u ∅ → ∃ v, r.definedAt? d = some v ∧ Reaches r v d u
  output : ∀ u d, d ∈ s.output.getD u ∅ → ∃ v, r.definedAt? d = some v ∧
    (d = u ∨ Reaches r v d u ∧ r.definedAt? u ≠ some v)

theorem input_initial (r : ReachingDefs) (u : Nat) :
    (State.initial r.problem).input.getD u ∅ = ∅ := by
  by_cases hu : u < r.problem.graph.size
  · simp [State.initial, hu]
    rfl
  · simp [State.initial, hu]

theorem output_initial (r : ReachingDefs) (u : Nat) :
    (State.initial r.problem).output.getD u ∅ = ∅ := by
  by_cases hu : u < r.problem.graph.size
  · simp [State.initial, hu]
    rfl
  · simp [State.initial, hu]

theorem justified_initial (r : ReachingDefs) : Justified r (State.initial r.problem) where
  input := by
    intro u d hd
    rw [input_initial] at hd
    exact absurd hd (FactSet.not_mem_empty d)
  output := by
    intro u d hd
    rw [output_initial] at hd
    exact absurd hd (FactSet.not_mem_empty d)

/-- One more edge is followed from the facts after the predecessors. -/
theorem Justified.refreshed (h : Justified r s) :
    ∀ u d, d ∈ (s.refreshed r.problem i).getD u ∅ →
      ∃ v, r.definedAt? d = some v ∧ Reaches r v d u := by
  intro u d hd
  rcases s.getD_refreshed_cases (p := r.problem) (i := i) u ∅ with hsame | ⟨rfl, hdriven⟩
  · rw [hsame] at hd
    exact h.input u d hd
  · obtain ⟨w, hw, hdw⟩ := (mem_of_driven? hdriven).mp hd
    obtain ⟨v, hv, rfl | ⟨hreach, hclear⟩⟩ := h.output w d hdw
    · exact ⟨v, hv, .edge hw (ne_entry_of_driven? hdriven)⟩
    · exact ⟨v, hv, .step hreach hclear hw (ne_entry_of_driven? hdriven)⟩

theorem Justified.visit {w : List Nat} (h : Justified r s) :
    Justified r (s.visit r.problem i w) where
  input := by
    rw [State.visit_input]
    exact h.refreshed
  output := by
    intro u d hd
    rcases s.getD_visit_output_cases (p := r.problem) (i := i) (w := w) u ∅ with
      hsame | ⟨rfl, hmade⟩
    · rw [hsame] at hd
      exact h.output u d hd
    · rw [hmade] at hd
      rcases mem_transfer.mp hd with ⟨rfl, hdef⟩ | ⟨hin, hkept⟩
      · obtain ⟨v, hv⟩ := Option.isSome_iff_exists.mp hdef
        exact ⟨v, hv, Or.inl rfl⟩
      · obtain ⟨v, hv, hreach⟩ := h.refreshed u d hin
        exact ⟨v, hv, Or.inr ⟨hreach, fun hu => hkept v hu hv⟩⟩

theorem justified_run (r : ReachingDefs) (limit : Nat) : Justified r (r.problem.run limit) :=
  State.run_induction (fun _ _ _ _ h => h.visit) limit _ (justified_initial r)

/-! ## The end of the run -/

/-- Every output is within what the next visit of its position will make. -/
structure Growing (r : ReachingDefs) (s : State (FactSet Nat)) : Prop where
  size_input : s.input.size = r.graph.size
  size_output : s.output.size = r.graph.size
  within : ∀ i, ∀ d ∈ s.output.getD i ∅,
    d ∈ r.transfer i ((s.refreshed r.problem i).getD i ∅)

theorem growing_initial (r : ReachingDefs) : Growing r (State.initial r.problem) where
  size_input := by simp [State.initial]; rfl
  size_output := by simp [State.initial]; rfl
  within := by
    intro i d hd
    rw [output_initial] at hd
    exact absurd hd (FactSet.not_mem_empty d)

/-- No visit takes a fact away from an output. -/
theorem Growing.output_subset {w : List Nat} (h : Growing r s) (j : Nat) :
    ∀ d ∈ s.output.getD j ∅, d ∈ (s.visit r.problem i w).output.getD j ∅ := by
  intro d hd
  rcases s.getD_visit_output_cases (p := r.problem) (i := i) (w := w) j ∅ with
    hsame | ⟨rfl, hmade⟩
  · rw [hsame]
    exact hd
  · rw [hmade]
    exact h.within j d hd

/-- What a position will be given only grows. -/
theorem Growing.refreshed_subset {w : List Nat} (h : Growing r s) (j : Nat) :
    ∀ d ∈ (s.refreshed r.problem j).getD j ∅,
      d ∈ ((s.visit r.problem i w).refreshed r.problem j).getD j ∅ := by
  intro d hd
  have hsize : (s.visit r.problem i w).input.size = s.input.size := by simp
  by_cases hj : j < s.input.size
  · rw [State.getD_refreshed_self hj] at hd
    rw [State.getD_refreshed_self (by rw [hsize]; exact hj)]
    cases hdriven : s.driven? r.problem j with
    | none =>
      -- a position that is given nothing is given nothing ever after
      have hafter : (s.visit r.problem i w).driven? r.problem j = none :=
        State.driven?_eq_none_iff.mpr (State.driven?_eq_none_iff.mp hdriven)
      rw [hdriven] at hd
      rw [hafter, Option.getD_none, State.visit_input]
      rcases s.getD_refreshed_cases (p := r.problem) (i := i) j ∅ with hsame | ⟨rfl, hgiven⟩
      · rw [hsame]
        exact hd
      · rw [hdriven] at hgiven
        cases hgiven
    | some facts =>
      cases hafter : (s.visit r.problem i w).driven? r.problem j with
      | none =>
        rw [State.driven?_eq_none_iff.mpr (State.driven?_eq_none_iff.mp hafter)] at hdriven
        cases hdriven
      | some facts' =>
        rw [hdriven, Option.getD_some, mem_of_driven? hdriven] at hd
        obtain ⟨q, hq, hdq⟩ := hd
        rw [Option.getD_some, mem_of_driven? hafter]
        exact ⟨q, hq, h.output_subset q d hdq⟩
  · have hout : (s.refreshed r.problem j).getD j ∅ = ∅ := by simp [Nat.not_lt.mp hj]
    rw [hout] at hd
    exact absurd hd (FactSet.not_mem_empty d)

theorem Growing.visit {w : List Nat} (h : Growing r s) : Growing r (s.visit r.problem i w) where
  size_input := by simp [h.size_input]
  size_output := by simp [h.size_output]
  within := by
    intro j d hd
    apply transfer_mono (h.refreshed_subset j)
    rcases s.getD_visit_output_cases (p := r.problem) (i := i) (w := w) j ∅ with
      hsame | ⟨rfl, hmade⟩
    · rw [hsame] at hd
      exact h.within j d hd
    · rw [hmade] at hd
      exact hd

/-- The positions that define something. -/
def definers (r : ReachingDefs) : List Nat :=
  (List.range r.defines.size).filter fun i => (r.definedAt? i).isSome

theorem lt_size_of_definedAt? (h : r.definedAt? d = some v) : d < r.defines.size := by
  unfold definedAt? at h
  by_contra hd
  simp [Nat.not_lt.mp hd] at h

theorem length_definers (r : ReachingDefs) : r.definers.length = r.definitionCount := by
  have hlist : (List.range r.defines.size).map r.definedAt? = r.defines.toList := by
    apply List.ext_getElem
    · simp
    · intro i h1 h2
      simp at h2
      simp [definedAt?, h2]
  unfold definers definitionCount
  rw [← Array.countP_toList, ← hlist, List.countP_map, ← List.countP_eq_length_filter]
  rfl

/-- No output is longer than the number of positions that define something. -/
theorem Justified.length_output_le (h : Justified r s) (j : Nat) :
    (s.output.getD j ∅).toList.length ≤ r.definitionCount := by
  rw [← length_definers]
  apply FactSet.length_toList_le
  intro d hd
  obtain ⟨v, hv, _⟩ := h.output j d hd
  simp [definers, hv, lt_size_of_definedAt? hv]

/-- The growth that is left, counted once for each successor. -/
def slack (r : ReachingDefs) (s : State (FactSet Nat)) : Nat :=
  ∑ j ∈ Finset.range r.graph.size,
    (r.definitionCount - (s.output.getD j ∅).toList.length) * (r.graph.succ j).length

/-- A position whose output is new is in the table: one that is not defines nothing. -/
theorem Growing.lt_size_of_new (h : Growing r s) (hdef : r.defines.size = r.graph.size)
    (hnew : r.transfer i ((s.refreshed r.problem i).getD i ∅) ≠ s.output.getD i ∅) :
    i < r.graph.size := by
  by_contra hi
  have hinput : (s.refreshed r.problem i).getD i ∅ = ∅ := by
    simp [h.size_input, Nat.not_lt.mp hi]
  have houtput : s.output.getD i ∅ = ∅ := by simp [h.size_output, Nat.not_lt.mp hi]
  have hnone : r.definedAt? i = none := by
    unfold definedAt?
    simp [hdef, Nat.not_lt.mp hi]
  rw [hinput, houtput, transfer, hnone] at hnew
  exact hnew rfl

/-- A new output uses up slack for each successor of its position. -/
theorem slack_visit_add_le {w : List Nat} (hJ : Justified r s) (hG : Growing r s)
    (hdef : r.defines.size = r.graph.size)
    (hnew : r.transfer i ((s.refreshed r.problem i).getD i ∅) ≠ s.output.getD i ∅) :
    r.slack (s.visit r.problem i w) + (r.graph.succ i).length ≤ r.slack s := by
  have hi : i ∈ Finset.range r.graph.size := Finset.mem_range.mpr (hG.lt_size_of_new hdef hnew)
  have hmade : (s.visit r.problem i w).output.getD i ∅ =
      r.transfer i ((s.refreshed r.problem i).getD i ∅) :=
    State.getD_visit_output_self (by rw [hG.size_output]; exact Finset.mem_range.mp hi) ∅
  have hlonger : (s.output.getD i ∅).toList.length <
      ((s.visit r.problem i w).output.getD i ∅).toList.length :=
    FactSet.length_toList_lt (hG.output_subset i) (by rw [hmade]; exact Ne.symm hnew)
  have hbound := (hJ.visit (i := i) (w := w)).length_output_le i
  calc r.slack (s.visit r.problem i w) + (r.graph.succ i).length
      = ∑ j ∈ Finset.range r.graph.size,
          ((r.definitionCount - ((s.visit r.problem i w).output.getD j ∅).toList.length) *
            (r.graph.succ j).length + if j = i then (r.graph.succ i).length else 0) := by
        rw [Finset.sum_add_distrib, Finset.sum_ite_eq' _ i, if_pos hi, slack]
    _ ≤ r.slack s := by
        apply Finset.sum_le_sum
        intro j _
        by_cases hji : j = i
        · subst hji
          rw [if_pos rfl, ← Nat.succ_mul]
          exact Nat.mul_le_mul_right _ (by omega)
        · rw [if_neg hji, State.getD_visit_output_of_ne (Ne.symm hji)]
          exact Nat.le_refl _

/-- The worklist and the slack go down together. -/
theorem worklist_add_slack_visit_lt {w : List Nat} (hJ : Justified r s) (hG : Growing r s)
    (hdef : r.defines.size = r.graph.size) (hw : s.worklist = i :: w) :
    (s.visit r.problem i w).worklist.length + r.slack (s.visit r.problem i w) <
      s.worklist.length + r.slack s := by
  rw [hw, List.length_cons]
  by_cases hsame : r.transfer i ((s.refreshed r.problem i).getD i ∅) = s.output.getD i ∅
  · have hslack : r.slack (s.visit r.problem i w) = r.slack s := by
      rw [slack, slack, State.visit_output_of_eq (p := r.problem) hsame]
    rw [State.visit_worklist_of_eq (p := r.problem) hsame, hslack]
    omega
  · have hslack := slack_visit_add_le (w := w) hJ hG hdef hsame
    have hlength : (s.visit r.problem i w).worklist.length ≤
        w.length + (r.graph.succ i).length := by
      rw [State.visit_worklist_of_ne (p := r.problem) hsame]
      exact State.length_foldl_enqueue_le (r.graph.succ i) w
    omega

theorem edgeCount_eq_sum (hsucc : r.graph.succTable.size = r.graph.size) :
    r.edgeCount = ∑ j ∈ Finset.range r.graph.size, (r.graph.succ j).length := by
  have hfold : ∀ (rows : List (List Nat)) (n : Nat),
      rows.foldl (fun n js => n + js.length) n = n + (rows.map List.length).sum := by
    intro rows
    induction rows with
    | nil => simp
    | cons js rows ih =>
      intro n
      rw [List.foldl_cons, ih, List.map_cons, List.sum_cons]
      omega
  have hrows : (List.range r.graph.size).map (fun j => (r.graph.succ j).length) =
      r.graph.succTable.toList.map List.length := by
    apply List.ext_getElem
    · simp [hsucc]
    · intro j h1 h2
      simp at h2
      simp [FlowGraph.succ, h2]
  rw [edgeCount, hfold, Nat.zero_add, ← hrows]
  rfl

/-- The worklist runs empty within `bound` visits, however successors and
predecessors are related. -/
theorem worklist_run_bound_eq_nil (hdef : r.defines.size = r.graph.size)
    (hsucc : r.graph.succTable.size = r.graph.size) :
    (r.problem.run r.bound).worklist = [] := by
  refine State.worklist_run_eq_nil (P := fun s => Justified r s ∧ Growing r s)
    (μ := fun s => s.worklist.length + r.slack s) ?_ ?_ _ _
    ⟨justified_initial r, growing_initial r⟩ ?_
  · intro s i w _ h
    exact ⟨h.1.visit, h.2.visit⟩
  · intro s i w hw h
    exact worklist_add_slack_visit_lt h.1 h.2 hdef hw
  · have hslack : r.slack (State.initial r.problem) = r.definitionCount * r.edgeCount := by
      rw [slack, edgeCount_eq_sum hsucc, Finset.mul_sum]
      apply Finset.sum_congr rfl
      intro j _
      rw [output_initial]
      rfl
    rw [hslack]
    simp [State.initial, bound]
    rfl

/-! ## Nothing missed -/

/-- When the run is done, the facts before a position other than the entry are
those after its predecessors. -/
theorem mem_input_iff (hs : s.Settled r.problem) (hdone : s.worklist = []) (hu : u < r.graph.size)
    (hentry : u ≠ r.graph.entry) :
    d ∈ s.input.getD u ∅ ↔ ∃ w ∈ r.graph.pred u, d ∈ s.output.getD w ∅ := by
  cases hdriven : s.driven? r.problem u with
  | none =>
    have hseed : s.input.getD u ∅ = ∅ := hs.seeded u hu hdriven
    have hpred : r.graph.pred u = [] :=
      (State.driven?_eq_none_iff.mp hdriven).resolve_left hentry
    simp [hseed, hpred]
  | some facts =>
    have hinput : s.input.getD u ∅ = facts := hs.driven u hu (by simp [hdone]) facts hdriven
    rw [hinput]
    exact mem_of_driven? hdriven

theorem mem_output_iff (hs : s.Settled r.problem) (hdone : s.worklist = [])
    (hu : u < r.graph.size) :
    d ∈ s.output.getD u ∅ ↔ d ∈ r.transfer u (s.input.getD u ∅) := by
  have hmade : s.output.getD u ∅ = r.transfer u (s.input.getD u ∅) :=
    hs.made u hu (by simp [hdone])
  rw [hmade]

theorem lt_size_of_mem_pred (hpred : r.graph.predTable.size = r.graph.size)
    (h : d ∈ r.graph.pred u) : u < r.graph.size := by
  by_contra hu
  simp [FlowGraph.pred, hpred, Nat.not_lt.mp hu] at h

/-- When the run is done, a definition is handed on along every path. -/
theorem Reaches.mem_input (hs : s.Settled r.problem) (hdone : s.worklist = [])
    (hdef : r.defines.size = r.graph.size) (hpred : r.graph.predTable.size = r.graph.size)
    (hd : r.definedAt? d = some v) (h : Reaches r v d u) : d ∈ s.input.getD u ∅ := by
  induction h with
  | @edge u hdu hentry =>
    have hsize : d < r.graph.size := hdef ▸ lt_size_of_definedAt? hd
    refine (mem_input_iff hs hdone (lt_size_of_mem_pred hpred hdu) hentry).mpr ⟨d, hdu, ?_⟩
    rw [mem_output_iff hs hdone hsize, mem_transfer]
    exact Or.inl ⟨rfl, by simp [hd]⟩
  | @step w u hreach hclear hwu hentry ih =>
    have hw : w < r.graph.size := by
      cases hreach with
      | edge h _ => exact lt_size_of_mem_pred hpred h
      | step _ _ h _ => exact lt_size_of_mem_pred hpred h
    refine (mem_input_iff hs hdone (lt_size_of_mem_pred hpred hwu) hentry).mpr ⟨w, hwu, ?_⟩
    rw [mem_output_iff hs hdone hw, mem_transfer]
    refine Or.inr ⟨ih, ?_⟩
    intro var hvar heq
    rw [hd] at heq
    exact hclear (heq ▸ hvar)

/-! ## Exactness -/

theorem eq_of_ofMethod {g : Graph} {method : NodeId} (h : ofMethod g method = .ok r) :
    FlowGraph.ofMethod g method = .ok r.graph ∧
      r.defines = r.graph.nodes.map (definition? g) ∧ r.uses = r.graph.nodes.map (usesOf g) := by
  unfold ofMethod at h
  cases hfg : FlowGraph.ofMethod g method with
  | error e =>
    rw [hfg] at h
    cases h
  | ok fg =>
    rw [hfg] at h
    cases h
    exact ⟨rfl, rfl, rfl⟩

section Methods

variable {g : Graph} {method : NodeId}

theorem size_defines_of_ofMethod (hr : ofMethod g method = .ok r) :
    r.defines.size = r.graph.size := by
  obtain ⟨_, hdefines, _⟩ := eq_of_ofMethod hr
  rw [hdefines, Array.size_map]
  rfl

/-- The solver comes to its end, whatever the method is like. -/
theorem worklist_run_of_ofMethod (hr : ofMethod g method = .ok r) :
    (r.problem.run r.bound).worklist = [] := by
  obtain ⟨hfg, _, _⟩ := eq_of_ofMethod hr
  obtain ⟨l, hbuilt⟩ := FlowGraph.built_of_ofMethod hfg
  exact worklist_run_bound_eq_nil (size_defines_of_ofMethod hr) hbuilt.size_succTable

theorem solve?_of_ofMethod (hr : ofMethod g method = .ok r) :
    r.problem.solve? r.bound = some r.solve := by
  simp [Problem.solve?, worklist_run_of_ofMethod hr, solve]

theorem settled_of_converse (hconv : r.graph.Converse) :
    (r.problem.run r.bound).Settled r.problem :=
  r.problem.settled_run (fun i d hd => (hconv d i).mpr hd) r.bound

/-- When the run is done, the definitions before a position are those that reach it. -/
theorem mem_input_run_iff (hr : ofMethod g method = .ok r) (hconv : r.graph.Converse)
    (hd : r.definedAt? d = some v) :
    d ∈ (r.problem.run r.bound).input.getD u ∅ ↔ Reaches r v d u := by
  obtain ⟨hfg, _, _⟩ := eq_of_ofMethod hr
  obtain ⟨l, hbuilt⟩ := FlowGraph.built_of_ofMethod hfg
  constructor
  · intro hmem
    obtain ⟨v', hv', hreach⟩ := (justified_run r r.bound).input u d hmem
    rw [hd] at hv'
    exact Option.some.inj hv' ▸ hreach
  · exact Reaches.mem_input (settled_of_converse hconv) (worklist_run_of_ofMethod hr)
      (size_defines_of_ofMethod hr) hbuilt.size_predTable hd

end Methods

/-- The facts before a position are the definitions from which a path leads there
on which their variable is not defined again, and the solver comes to its end. -/
theorem mem_before_solve_iff_path {g : Graph} {method : NodeId} (hr : ofMethod g method = .ok r)
    (hconv : r.graph.Converse) (hu : u < r.graph.size) :
    r.problem.solve? r.bound = some r.solve ∧
      ∃ id facts, r.graph.node? u = some id ∧ r.solve.before? id = some facts ∧
        (∀ d v, r.definedAt? d = some v →
          (d ∈ facts ↔ ∃ k p, DefinitionPath r v d u k p)) ∧
        ∀ d ∈ facts, (r.definedAt? d).isSome := by
  obtain ⟨hfg, _, _⟩ := eq_of_ofMethod hr
  obtain ⟨l, hbuilt⟩ := FlowGraph.built_of_ofMethod hfg
  have hnode : r.graph.nodes[u]? = some r.graph.nodes[u] := Array.getElem?_eq_getElem hu
  refine ⟨solve?_of_ofMethod hr, r.graph.nodes[u], (r.problem.run r.bound).input.getD u ∅, hnode,
    ?_, ?_, ?_⟩
  · have hfact : (r.problem.run r.bound).input.toList[u]? =
        some ((r.problem.run r.bound).input.getD u ∅) := by
      have hsize : u < (r.problem.run r.bound).input.size :=
        (settled_of_converse hconv).size_input ▸ hu
      simp [hsize]
    exact Problem.lookup_zip hbuilt.nodup_nodes (by rw [Array.getElem?_toList]; exact hnode) hfact
  · intro d v hd
    rw [← reaches_iff_exists_path]
    exact mem_input_run_iff hr hconv hd
  · intro d hmem
    obtain ⟨v, hv, _⟩ := (justified_run r r.bound).input u d hmem
    simp [hv]

/-- A method with a parameter `x` and the loop `while x = x`. -/
def loopGraph : Graph where
  nodes := .ofCells
    [some ⟨⟨1⟩, .method "f" "f", {}⟩, some ⟨⟨2⟩, .parameter "x" 0, {}⟩,
      some ⟨⟨3⟩, .methodReturn, {}⟩, some ⟨⟨4⟩, .controlStructure "while", {}⟩,
      some ⟨⟨5⟩, .call NodeKind.assignment "x = x", {}⟩, some ⟨⟨6⟩, .identifier "x" 1, {}⟩,
      some ⟨⟨7⟩, .identifier "x" 2, {}⟩]
  arcs := .ofCells
    [some ⟨0, 1, ⟨.ast, {}⟩⟩, some ⟨0, 2, ⟨.ast, {}⟩⟩, some ⟨0, 3, ⟨.cfg, {}⟩⟩,
      some ⟨3, 4, ⟨.cfg, {}⟩⟩, some ⟨4, 3, ⟨.cfg, {}⟩⟩, some ⟨3, 2, ⟨.cfg, {}⟩⟩,
      some ⟨4, 5, ⟨.argument, {}⟩⟩, some ⟨4, 6, ⟨.argument, {}⟩⟩]
  recent := [7, 6, 5, 4, 3, 2, 1, 0]
  index := Std.TreeMap.ofList
    [((⟨1⟩ : NodeId), 0), (⟨2⟩, 1), (⟨3⟩, 2), (⟨4⟩, 3), (⟨5⟩, 4), (⟨6⟩, 5), (⟨7⟩, 6)]
  nextId := 8

/-- The parameter and the assignment define `x`. -/
def loopDefs : ReachingDefs where
  graph :=
    { method := ⟨1⟩, nodes := #[⟨1⟩, ⟨2⟩, ⟨4⟩, ⟨5⟩, ⟨3⟩], paramCount := 1
      succTable := #[[1], [2], [3, 4], [2], []]
      predTable := #[[], [0], [1, 3], [2], [2]] }
  defines := #[none, some "x", none, some "x", none]
  uses := #[[], [], [], ["x"], []]

theorem converse_loopDefs : loopDefs.graph.Converse := by
  have hsucc : ∀ i < 5, ∀ j ∈ loopDefs.graph.succ i, i ∈ loopDefs.graph.pred j := by decide
  have hpred : ∀ j < 5, ∀ i ∈ loopDefs.graph.pred j, j ∈ loopDefs.graph.succ i := by decide
  intro i j
  constructor
  · intro hj
    by_cases hi : i < 5
    · exact hsucc i hi j hj
    · obtain ⟨k, rfl⟩ : ∃ k, i = k + 5 := ⟨i - 5, by omega⟩
      simp [loopDefs, FlowGraph.succ] at hj
  · intro hi
    by_cases hj : j < 5
    · exact hpred j hj i hi
    · obtain ⟨k, rfl⟩ : ∃ k, j = k + 5 := ⟨j - 5, by omega⟩
      simp [loopDefs, FlowGraph.pred] at hi

/-- The assignment reaches itself around the loop. -/
theorem loopDefs_reaches_itself :
    ofMethod loopGraph ⟨1⟩ = .ok loopDefs ∧ loopDefs.graph.Converse ∧ 3 < loopDefs.graph.size ∧
      loopDefs.definedAt? 3 = some "x" ∧
      (loopDefs.solve.before? ⟨5⟩).map FactSet.toList = some [1, 3] ∧
      ∃ k p, DefinitionPath loopDefs "x" 3 3 k p := by
  have hr : ofMethod loopGraph ⟨1⟩ = .ok loopDefs := by cbv
  have hconv := converse_loopDefs
  have hu : 3 < loopDefs.graph.size := by decide
  have hfacts : (loopDefs.solve.before? ⟨5⟩).map FactSet.toList = some [1, 3] := by cbv
  obtain ⟨_, id, facts, hid, hbefore, hpaths, _⟩ := mem_before_solve_iff_path hr hconv hu
  obtain rfl : ⟨5⟩ = id := Option.some.inj hid
  rw [hbefore, Option.map_some, Option.some.injEq] at hfacts
  refine ⟨hr, hconv, hu, rfl, by rw [hbefore, Option.map_some, hfacts], (hpaths 3 "x" rfl).mp ?_⟩
  change 3 ∈ facts.toList
  rw [hfacts]
  decide

end CodeGraph.DataFlow.ReachingDefs
