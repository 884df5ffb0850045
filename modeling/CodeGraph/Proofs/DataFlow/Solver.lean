import CodeGraph.DataFlow.Solver
import Mathlib.Data.List.Basic

/-!
# Fixpoints of the solver

A visit recomputes one position from the outputs of its drivers.  So a position
can only fall behind when the output of a driver changes, and then it is a
dependent of that driver and goes back on the worklist.  The invariant
`State.Settled` says that every position that is *not* on the worklist is up to
date.  An empty worklist then means that the equations of the problem hold at
every position.  Nothing is assumed about the transfer function and the meet.

`Problem.IsFixpoint` states the equations for tables that are indexed by
position, and `Problem.inputOf` and `Problem.outputOf` read these tables off a
solution.
-/

namespace CodeGraph.DataFlow

variable {V : Type}

/-! ## The worklist -/

namespace State

theorem mem_enqueue {w : List Nat} {i j : Nat} : j ∈ enqueue w i ↔ j ∈ w ∨ j = i := by
  unfold enqueue
  split
  · next hi =>
    constructor
    · exact Or.inl
    · rintro (hj | rfl)
      · exact hj
      · exact hi
  · simp

/-- The worklist after a change holds what it held before and the dependents. -/
theorem mem_foldl_enqueue {is w : List Nat} {j : Nat} :
    j ∈ is.foldl enqueue w ↔ j ∈ w ∨ j ∈ is := by
  induction is generalizing w with
  | nil => simp
  | cons i is ih => rw [List.foldl_cons, ih, mem_enqueue, List.mem_cons, or_assoc]

theorem length_enqueue_le (w : List Nat) (i : Nat) : (enqueue w i).length ≤ w.length + 1 := by
  unfold enqueue
  split
  · exact Nat.le_succ _
  · simp

theorem length_foldl_enqueue_le (is w : List Nat) :
    (is.foldl enqueue w).length ≤ w.length + is.length := by
  induction is generalizing w with
  | nil => simp
  | cons i is ih =>
    have htail := ih (enqueue w i)
    have hhead := length_enqueue_le w i
    simp only [List.foldl_cons, List.length_cons]
    omega

/-! ## One visit -/

variable {p : Problem V} {s t : State V} {i : Nat} {w : List Nat}

/-- What a position is given depends on the outputs of its drivers only. -/
theorem driven?_congr
    (h : ∀ d ∈ p.drivers i, s.output.getD d p.empty = t.output.getD d p.empty) :
    s.driven? p i = t.driven? p i := by
  unfold driven?
  split
  · rfl
  · cases hd : p.drivers i with
    | nil => rfl
    | cons d ds =>
      rw [hd] at h
      simp only [Option.some.injEq]
      rw [h d (List.mem_cons_self ..)]
      exact List.foldl_ext _ _ _ fun v e he => by rw [h e (List.mem_cons_of_mem _ he)]

/-- Whether a position is given anything does not depend on the state. -/
theorem driven?_eq_none_iff : s.driven? p i = none ↔ i = p.boundary ∨ p.drivers i = [] := by
  unfold driven?
  split
  · next hb => simp [hb]
  · next hb => cases p.drivers i <;> simp [hb]

/-- The inputs after a visit. -/
def refreshed (p : Problem V) (s : State V) (i : Nat) : Array V :=
  match s.driven? p i with
  | some v => s.input.setIfInBounds i v
  | none => s.input

@[simp] theorem size_refreshed : (s.refreshed p i).size = s.input.size := by
  unfold refreshed
  split <;> simp

theorem getD_of_size_le {t : Array V} (h : t.size ≤ i) (e : V) : t.getD i e = e := by
  simp [h]

theorem getD_refreshed_self (h : i < s.input.size) (e : V) :
    (s.refreshed p i).getD i e = (s.driven? p i).getD (s.input.getD i e) := by
  unfold refreshed
  split
  · next v hv => simp [hv, Array.getD_eq_getD_getElem?, h]
  · next hn => simp [hn]

theorem getD_refreshed_of_ne {j : Nat} (h : i ≠ j) (e : V) :
    (s.refreshed p i).getD j e = s.input.getD j e := by
  unfold refreshed
  split
  · simp [Array.getD_eq_getD_getElem?, Array.getElem?_setIfInBounds_ne h]
  · rfl

/-- An input after a visit is as it was, or is what the drivers give. -/
theorem getD_refreshed_cases (j : Nat) (e : V) :
    (s.refreshed p i).getD j e = s.input.getD j e ∨
      j = i ∧ s.driven? p i = some ((s.refreshed p i).getD j e) := by
  by_cases hij : i = j
  · subst hij
    by_cases hi : i < s.input.size
    · rw [getD_refreshed_self hi]
      cases s.driven? p i with
      | none => exact Or.inl rfl
      | some v => exact Or.inr ⟨rfl, rfl⟩
    · have hsize := Nat.not_lt.mp hi
      rw [getD_of_size_le hsize, getD_of_size_le (size_refreshed ▸ hsize)]
      exact Or.inl rfl
  · exact Or.inl (getD_refreshed_of_ne hij e)

variable [DecidableEq V]

theorem visit_eq : s.visit p i w =
    if p.transfer i ((s.refreshed p i).getD i p.empty) = s.output.getD i p.empty then
      { input := s.refreshed p i, output := s.output, worklist := w
        iterations := s.iterations + 1 }
    else
      { input := s.refreshed p i
        output := s.output.setIfInBounds i (p.transfer i ((s.refreshed p i).getD i p.empty))
        worklist := (p.dependents i).foldl enqueue w
        iterations := s.iterations + 1 } := rfl

@[simp] theorem visit_input : (s.visit p i w).input = s.refreshed p i := by
  rw [visit_eq]
  split <;> rfl

/-- The output of the visited position is what the transfer function makes of its
new input.  Where that is no news, writing it changes nothing. -/
theorem visit_output : (s.visit p i w).output =
    s.output.setIfInBounds i (p.transfer i ((s.refreshed p i).getD i p.empty)) := by
  rw [visit_eq]
  split
  · next hsame =>
    rw [hsame]
    apply Array.ext_getElem?
    intro k
    rw [Array.getElem?_setIfInBounds]
    split
    · next hik =>
      subst hik
      split
      · next hi => simp [hi]
      · next hi => simp [Nat.not_lt.mp hi]
    · rfl
  · rfl

theorem visit_worklist_of_eq
    (h : p.transfer i ((s.refreshed p i).getD i p.empty) = s.output.getD i p.empty) :
    (s.visit p i w).worklist = w := by
  rw [visit_eq, if_pos h]

theorem visit_worklist_of_ne
    (h : p.transfer i ((s.refreshed p i).getD i p.empty) ≠ s.output.getD i p.empty) :
    (s.visit p i w).worklist = (p.dependents i).foldl enqueue w := by
  rw [visit_eq, if_neg h]

@[simp] theorem size_visit_output : (s.visit p i w).output.size = s.output.size := by
  rw [visit_output, Array.size_setIfInBounds]

theorem getD_visit_output_self (h : i < s.output.size) (e : V) :
    (s.visit p i w).output.getD i e = p.transfer i ((s.refreshed p i).getD i p.empty) := by
  rw [visit_output, Array.getD_eq_getD_getElem?, Array.getElem?_setIfInBounds_self_of_lt h,
    Option.getD_some]

theorem getD_visit_output_of_ne {j : Nat} (h : i ≠ j) (e : V) :
    (s.visit p i w).output.getD j e = s.output.getD j e := by
  rw [visit_output]
  simp [Array.getD_eq_getD_getElem?, Array.getElem?_setIfInBounds_ne h]

/-- An output after a visit is as it was, or is made of the new input. -/
theorem getD_visit_output_cases (j : Nat) (e : V) :
    (s.visit p i w).output.getD j e = s.output.getD j e ∨
      j = i ∧ (s.visit p i w).output.getD j e =
        p.transfer i ((s.refreshed p i).getD i p.empty) := by
  by_cases hij : i = j
  · subst hij
    by_cases hi : i < s.output.size
    · exact Or.inr ⟨rfl, getD_visit_output_self hi e⟩
    · have hsize := Nat.not_lt.mp hi
      have hsize' : (s.visit p i w).output.size ≤ i := by rwa [size_visit_output]
      rw [getD_of_size_le hsize, getD_of_size_le hsize']
      exact Or.inl rfl
  · exact Or.inl (getD_visit_output_of_ne hij e)

theorem visit_output_of_eq
    (h : p.transfer i ((s.refreshed p i).getD i p.empty) = s.output.getD i p.empty) :
    (s.visit p i w).output = s.output := by
  rw [visit_eq, if_pos h]

/-! ## Runs -/

/-- What holds at first and is kept by every visit holds after any number of visits. -/
theorem run_induction {P : State V → Prop}
    (hvisit : ∀ s i w, s.worklist = i :: w → P s → P (s.visit p i w)) :
    ∀ (limit : Nat) (s : State V), P s → P (s.run p limit)
  | 0, _, h => h
  | limit + 1, s, h => by
    unfold run
    cases hw : s.worklist with
    | nil => exact h
    | cons i w =>
      have hstep : s.step p = s.visit p i w := by rw [step, hw]
      rw [if_neg (by simp), hstep]
      exact run_induction hvisit limit _ (hvisit s i w hw h)

/-- A measure that every visit lowers bounds the number of visits. -/
theorem worklist_run_eq_nil {P : State V → Prop} {μ : State V → Nat}
    (hvisit : ∀ s i w, s.worklist = i :: w → P s → P (s.visit p i w))
    (hlower : ∀ s i w, s.worklist = i :: w → P s → μ (s.visit p i w) < μ s) :
    ∀ (limit : Nat) (s : State V), P s → μ s ≤ limit → (s.run p limit).worklist = []
  | 0, s, h, hμ => by
    cases hw : s.worklist with
    | nil => exact hw
    | cons i w =>
      have hlt := hlower s i w hw h
      omega
  | limit + 1, s, h, hμ => by
    unfold run
    cases hw : s.worklist with
    | nil => exact hw
    | cons i w =>
      have hstep : s.step p = s.visit p i w := by rw [step, hw]
      have hlt := hlower s i w hw h
      rw [if_neg (by simp), hstep]
      exact worklist_run_eq_nil hvisit hlower limit _ (hvisit s i w hw h) (by omega)

/-! ## The first sweep -/

theorem exists_foldl_enqueue_eq (is w : List Nat) :
    ∃ later, is.foldl enqueue w = w ++ later := by
  induction is generalizing w with
  | nil => exact ⟨[], by simp⟩
  | cons i is ih =>
    obtain ⟨later, hlater⟩ := ih (enqueue w i)
    rw [List.foldl_cons, hlater]
    unfold enqueue
    split
    · exact ⟨later, rfl⟩
    · exact ⟨i :: later, by simp⟩

/-- The positions that were not visited yet wait in their order, and before all others. -/
def Sweeping (p : Problem V) (s : State V) : Prop :=
  ∃ later, s.worklist = List.range' s.iterations (p.graph.size - s.iterations) ++ later

omit [DecidableEq V] in
theorem sweeping_initial (p : Problem V) : Sweeping p (initial p) :=
  ⟨[], by simp [initial, List.range_eq_range']⟩

omit [DecidableEq V] in
/-- Until every position was visited, the next one is as many as were visited. -/
theorem Sweeping.eq_iterations (h : Sweeping p s) (hw : s.worklist = i :: w)
    (hlt : s.iterations < p.graph.size) : i = s.iterations := by
  obtain ⟨later, hlater⟩ := h
  obtain ⟨k, hk⟩ : ∃ k, p.graph.size - s.iterations = k + 1 :=
    ⟨p.graph.size - s.iterations - 1, by omega⟩
  rw [hw, hk, List.range'_succ, List.cons_append] at hlater
  exact (List.cons.inj hlater).1

omit [DecidableEq V] in
theorem Sweeping.size_le_iterations (h : Sweeping p s) (hdone : s.worklist = []) :
    p.graph.size ≤ s.iterations := by
  obtain ⟨later, hlater⟩ := h
  rw [hdone, eq_comm, List.append_eq_nil_iff, List.range'_eq_nil_iff] at hlater
  omega

@[simp] theorem visit_iterations : (s.visit p i w).iterations = s.iterations + 1 := by
  rw [visit_eq]
  split <;> rfl

theorem exists_visit_worklist_eq : ∃ later, (s.visit p i w).worklist = w ++ later := by
  by_cases hsame : p.transfer i ((s.refreshed p i).getD i p.empty) = s.output.getD i p.empty
  · exact ⟨[], by rw [visit_worklist_of_eq hsame, List.append_nil]⟩
  · rw [visit_worklist_of_ne hsame]
    exact exists_foldl_enqueue_eq _ _

theorem Sweeping.visit (h : Sweeping p s) (hw : s.worklist = i :: w) :
    Sweeping p (s.visit p i w) := by
  obtain ⟨more, hmore⟩ := exists_visit_worklist_eq (p := p) (s := s) (i := i) (w := w)
  obtain ⟨later, hlater⟩ := h
  rw [hw] at hlater
  unfold Sweeping
  rw [hmore, visit_iterations]
  cases hk : p.graph.size - s.iterations with
  | zero => exact ⟨w ++ more, by simp [show p.graph.size - (s.iterations + 1) = 0 by omega]⟩
  | succ k =>
    rw [hk, List.range'_succ, List.cons_append] at hlater
    obtain ⟨_, rfl⟩ := List.cons.inj hlater
    exact ⟨later ++ more, by
      rw [show p.graph.size - (s.iterations + 1) = k by omega, List.append_assoc]⟩

/-! ## Settled states -/

/-- Every position that is not on the worklist is up to date. -/
structure Settled (p : Problem V) (s : State V) : Prop where
  size_input : s.input.size = p.graph.size
  size_output : s.output.size = p.graph.size
  /-- A position that is given nothing keeps its first input. -/
  seeded : ∀ i < p.graph.size, s.driven? p i = none →
    s.input.getD i p.empty = p.seedInput i
  /-- A position that is not waiting has the input that its drivers give it. -/
  driven : ∀ i < p.graph.size, i ∉ s.worklist → ∀ v, s.driven? p i = some v →
    s.input.getD i p.empty = v
  /-- A position that is not waiting has the output that its input makes. -/
  made : ∀ i < p.graph.size, i ∉ s.worklist →
    s.output.getD i p.empty = p.transfer i (s.input.getD i p.empty)

omit [DecidableEq V] in
theorem settled_initial (p : Problem V) : Settled p (initial p) where
  size_input := by simp [initial]
  size_output := by simp [initial]
  seeded := by
    intro i hi _
    simp [initial, hi]
  driven := by
    intro i hi hw
    exact absurd (List.mem_range.mpr hi) hw
  made := by
    intro i hi hw
    exact absurd (List.mem_range.mpr hi) hw

/-- A position that is not waiting after a visit is given the same as before: had
the output of one of its drivers changed, it would be waiting. -/
theorem driven?_visit_of_not_mem {j : Nat} (hdep : ∀ i d, d ∈ p.drivers i → i ∈ p.dependents d)
    (hj : j ∉ (s.visit p i w).worklist) : (s.visit p i w).driven? p j = s.driven? p j := by
  by_cases hsame : p.transfer i ((s.refreshed p i).getD i p.empty) = s.output.getD i p.empty
  · exact driven?_congr fun d _ => by rw [visit_output_of_eq hsame]
  · apply driven?_congr
    intro d hd
    by_cases hid : i = d
    · subst hid
      rw [visit_worklist_of_ne hsame, mem_foldl_enqueue] at hj
      exact absurd (Or.inr (hdep j i hd)) hj
    · exact getD_visit_output_of_ne hid _

/-- A position other than the visited one does not stop waiting. -/
theorem not_mem_worklist_of_visit {j : Nat} (hw : s.worklist = i :: w) (hij : i ≠ j)
    (hj : j ∉ (s.visit p i w).worklist) : j ∉ s.worklist := by
  rw [hw, List.mem_cons]
  rintro (hji | hjw)
  · exact hij hji.symm
  · apply hj
    by_cases hsame : p.transfer i ((s.refreshed p i).getD i p.empty) = s.output.getD i p.empty
    · rw [visit_worklist_of_eq hsame]
      exact hjw
    · rw [visit_worklist_of_ne hsame]
      exact mem_foldl_enqueue.mpr (Or.inl hjw)

/-- A position that is given nothing keeps its input. -/
theorem getD_visit_input_of_none {j : Nat} (hnone : s.driven? p j = none) (e : V) :
    (s.visit p i w).input.getD j e = s.input.getD j e := by
  rw [visit_input]
  rcases s.getD_refreshed_cases (p := p) (i := i) j e with hsame | ⟨rfl, hsome⟩
  · exact hsame
  · rw [hnone] at hsome
    cases hsome

/-- A visit makes the output of its position, and leaves the others as they were. -/
theorem made_visit (hsize : s.output.size = p.graph.size) (hw : s.worklist = i :: w)
    (h : ∀ j < p.graph.size, j ∉ s.worklist →
      s.output.getD j p.empty = p.transfer j (s.input.getD j p.empty)) :
    ∀ j < p.graph.size, j ∉ (s.visit p i w).worklist →
      (s.visit p i w).output.getD j p.empty =
        p.transfer j ((s.visit p i w).input.getD j p.empty) := by
  intro j hj hwait
  rw [visit_input]
  by_cases hij : i = j
  · subst hij
    exact getD_visit_output_self (by rw [hsize]; exact hj) _
  · rw [getD_visit_output_of_ne hij, getD_refreshed_of_ne hij]
    exact h j hj (not_mem_worklist_of_visit hw hij hwait)

theorem Settled.visit (hdep : ∀ i d, d ∈ p.drivers i → i ∈ p.dependents d)
    (hw : s.worklist = i :: w) (h : Settled p s) : Settled p (s.visit p i w) where
  size_input := by rw [visit_input, size_refreshed, h.size_input]
  size_output := by rw [size_visit_output, h.size_output]
  seeded := by
    intro j hj hnone
    rw [driven?_eq_none_iff, ← driven?_eq_none_iff (s := s)] at hnone
    rw [getD_visit_input_of_none hnone]
    exact h.seeded j hj hnone
  driven := by
    intro j hj hwait v hv
    rw [driven?_visit_of_not_mem hdep hwait] at hv
    rw [visit_input]
    by_cases hij : i = j
    · subst hij
      rw [getD_refreshed_self (by rw [h.size_input]; exact hj), hv, Option.getD_some]
    · rw [getD_refreshed_of_ne hij]
      exact h.driven j hj (not_mem_worklist_of_visit hw hij hwait) v hv
  made := made_visit h.size_output hw h.made

end State

/-! ## Fixpoints -/

namespace Problem

/-- The equations of a problem hold at every position of two tables. -/
structure IsFixpoint (p : Problem V) (input output : Nat → V) : Prop where
  /-- An output is made of the input. -/
  output_eq : ∀ i < p.graph.size, output i = p.transfer i (input i)
  /-- An input is the meet of the outputs of the drivers, taken from the left. -/
  input_eq_meet : ∀ i < p.graph.size, i ≠ p.boundary → ∀ d ds, p.drivers i = d :: ds →
    input i = ds.foldl (fun v e => p.meet v (output e)) (output d)
  /-- An input at the boundary or without drivers is as given. -/
  input_eq_seed : ∀ i < p.graph.size, i = p.boundary ∨ p.drivers i = [] →
    input i = p.seedInput i

/-- The facts of a list of keyed facts, by position. -/
def factAt (p : Problem V) (facts : List (NodeId × V)) (i : Nat) : V :=
  (facts.map Prod.snd).getD i p.empty

/-- The inputs of a solution: the facts before positions, or after them backward. -/
def inputOf (p : Problem V) (sol : Solution V) : Nat → V :=
  match p.direction with
  | .forward => p.factAt sol.before
  | .backward => p.factAt sol.after

/-- The outputs of a solution: the facts after positions, or before them backward. -/
def outputOf (p : Problem V) (sol : Solution V) : Nat → V :=
  match p.direction with
  | .forward => p.factAt sol.after
  | .backward => p.factAt sol.before

theorem factAt_zip (p : Problem V) {facts : Array V} (h : facts.size = p.graph.size) (i : Nat) :
    p.factAt (p.graph.nodes.toList.zip facts.toList) i = facts.getD i p.empty := by
  have hlength : facts.toList.length ≤ p.graph.nodes.toList.length := by
    rw [Array.length_toList, Array.length_toList, h]
    exact Nat.le_refl _
  rw [factAt, List.map_snd_zip hlength]
  simp [List.getD_eq_getElem?_getD]

/-- Facts that are keyed by distinct nodes are found by their nodes. -/
theorem lookup_zip {ids : List NodeId} {facts : List V} {i : Nat} {id : NodeId} {v : V}
    (hnodup : ids.Nodup) (hid : ids[i]? = some id) (hv : facts[i]? = some v) :
    (ids.zip facts).lookup id = some v := by
  induction ids generalizing facts i with
  | nil => simp at hid
  | cons a ids ih =>
    obtain ⟨ha, hnodup⟩ := List.nodup_cons.mp hnodup
    cases facts with
    | nil => simp at hv
    | cons b facts =>
      cases i with
      | zero =>
        simp only [List.getElem?_cons_zero, Option.some.injEq] at hid hv
        simp [hid, hv]
      | succ i =>
        rw [List.getElem?_cons_succ] at hid hv
        have hne : id ≠ a := by
          rintro rfl
          exact ha (List.mem_of_getElem? hid)
        rw [List.zip_cons_cons, List.lookup_cons, beq_false_of_ne hne]
        exact ih hnodup hid hv

/-- A settled state with an empty worklist satisfies the equations. -/
theorem isFixpoint_of_settled {p : Problem V} {s : State V} (h : s.Settled p)
    (hw : s.worklist = []) :
    p.IsFixpoint (fun i => s.input.getD i p.empty) (fun i => s.output.getD i p.empty) where
  output_eq := by
    intro i hi
    exact h.made i hi (by simp [hw])
  input_eq_meet := by
    intro i hi hb d ds hd
    apply h.driven i hi (by simp [hw])
    rw [State.driven?, if_neg hb, hd]
  input_eq_seed := by
    intro i hi hb
    exact h.seeded i hi (State.driven?_eq_none_iff.mpr hb)

theorem inputOf_solution_of_size {p : Problem V} {s : State V}
    (h : s.input.size = p.graph.size) :
    p.inputOf (p.solution s) = fun i => s.input.getD i p.empty := by
  funext i
  unfold inputOf solution
  cases p.direction with
  | forward => exact p.factAt_zip h i
  | backward => exact p.factAt_zip h i

theorem outputOf_solution_of_size {p : Problem V} {s : State V}
    (h : s.output.size = p.graph.size) :
    p.outputOf (p.solution s) = fun i => s.output.getD i p.empty := by
  funext i
  unfold outputOf solution
  cases p.direction with
  | forward => exact p.factAt_zip h i
  | backward => exact p.factAt_zip h i

theorem inputOf_solution {p : Problem V} {s : State V} (h : s.Settled p) :
    p.inputOf (p.solution s) = fun i => s.input.getD i p.empty :=
  inputOf_solution_of_size h.size_input

theorem outputOf_solution {p : Problem V} {s : State V} (h : s.Settled p) :
    p.outputOf (p.solution s) = fun i => s.output.getD i p.empty :=
  outputOf_solution_of_size h.size_output

/-- Both tables of a solution have the nodes of the flow graph as their keys. -/
theorem keys_solution {p : Problem V} {s : State V} (h : s.Settled p) :
    (p.solution s).before.map Prod.fst = p.graph.nodes.toList ∧
      (p.solution s).after.map Prod.fst = p.graph.nodes.toList := by
  have hin : p.graph.nodes.toList.length ≤ s.input.toList.length := by
    simp [h.size_input, FlowGraph.size]
  have hout : p.graph.nodes.toList.length ≤ s.output.toList.length := by
    simp [h.size_output, FlowGraph.size]
  unfold solution
  cases p.direction with
  | forward => exact ⟨List.map_fst_zip hin, List.map_fst_zip hout⟩
  | backward => exact ⟨List.map_fst_zip hout, List.map_fst_zip hin⟩

variable [DecidableEq V]

theorem settled_run {p : Problem V} (hdep : ∀ i d, d ∈ p.drivers i → i ∈ p.dependents d)
    (limit : Nat) : (p.run limit).Settled p :=
  State.run_induction (fun _ _ _ hw h => h.visit hdep hw) limit _ (State.settled_initial p)

/-- Whatever the facts, the transfer function and the meet are: when the solver
comes to an end, its tables list every position and satisfy the equations. -/
theorem solve?_isFixpoint {p : Problem V} {limit : Nat} {sol : Solution V}
    (hdep : ∀ i d, d ∈ p.drivers i → i ∈ p.dependents d) (hsol : p.solve? limit = some sol) :
    sol.before.map Prod.fst = p.graph.nodes.toList ∧
      sol.after.map Prod.fst = p.graph.nodes.toList ∧
      p.IsFixpoint (p.inputOf sol) (p.outputOf sol) := by
  have hrun := p.settled_run hdep limit
  unfold solve? at hsol
  dsimp only at hsol
  split at hsol
  · next hdone =>
    obtain rfl := Option.some.inj hsol
    obtain ⟨hbefore, hafter⟩ := keys_solution hrun
    refine ⟨hbefore, hafter, ?_⟩
    rw [inputOf_solution hrun, outputOf_solution hrun]
    exact isFixpoint_of_settled hrun (List.isEmpty_iff.mp hdone)
  · cases hsol

/-- Saturating counting against control, around a loop between positions 1 and 2. -/
def countdown : Problem Nat where
  graph :=
    { method := ⟨1⟩
      nodes := #[⟨1⟩, ⟨2⟩, ⟨3⟩, ⟨4⟩]
      paramCount := 0
      succTable := #[[1], [2, 3], [1], []]
      predTable := #[[], [0, 2], [1], [1]] }
  direction := .backward
  empty := 0
  transfer := fun i n => min (n + i) 7
  meet := max
  initOut := fun i => if i = 3 then some 2 else none

def countdownSolution : Solution Nat where
  before := [(⟨1⟩, 7), (⟨2⟩, 7), (⟨3⟩, 7), (⟨4⟩, 5)]
  after := [(⟨1⟩, 7), (⟨2⟩, 7), (⟨3⟩, 7), (⟨4⟩, 2)]
  iterations := 11

theorem countdownSolution_isFixpoint :
    (∀ i d, d ∈ countdown.drivers i → i ∈ countdown.dependents d) ∧
      countdown.solve? 20 = some countdownSolution ∧
      countdown.IsFixpoint (countdown.inputOf countdownSolution)
        (countdown.outputOf countdownSolution) := by
  have hdep : ∀ i d, d ∈ countdown.drivers i → i ∈ countdown.dependents d := by
    intro i d hd
    match i with
    | 0 | 1 | 2 | 3 => revert d; decide
    | i + 4 => simp [countdown, drivers, FlowGraph.succ] at hd
  have hsol : countdown.solve? 20 = some countdownSolution := by cbv
  exact ⟨hdep, hsol, (solve?_isFixpoint hdep hsol).2.2⟩

end Problem

end CodeGraph.DataFlow
