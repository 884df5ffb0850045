import CodeGraph.Proofs.DataFlow.Solver
import Mathlib

/-!
# Least solutions

When facts are ordered, more facts before a position make for more facts after it, and the meet of
facts is their least upper bound, the equations of a problem may have many solutions.  The solver
finds the least.

Let two tables satisfy the equations.  Every output starts below theirs, with the least fact, and is
afterwards made of an input that is below theirs.  An input may start above theirs, where a fact is
given for a position that has drivers.  But every position is visited, and a visit computes its
input anew before it is used.  So the invariant `State.Below` speaks of all outputs, and of the
inputs of those positions only that are not waiting.
-/

namespace CodeGraph.DataFlow

variable {V : Type} [PartialOrder V]

namespace Problem

/-- There is a least fact, the meet of two facts is their least upper bound, and of a larger input a
larger output is made. -/
structure Ordered (p : Problem V) : Prop where
  empty_le : ∀ v, p.empty ≤ v
  isLUB_meet : ∀ a b, IsLUB {a, b} (p.meet a b)
  monotone_transfer : ∀ i < p.graph.size, Monotone (p.transfer i)

omit [PartialOrder V] in
/-- The fact given for the output of a position. -/
def outputSeed? (p : Problem V) (i : Nat) : Option V :=
  match p.direction with
  | .forward => p.initOut i
  | .backward => p.initIn i

variable {p : Problem V}

omit [PartialOrder V] in
theorem seedOutput_eq (p : Problem V) (i : Nat) :
    p.seedOutput i = (p.outputSeed? i).getD p.empty := by
  unfold seedOutput outputSeed?
  cases p.direction <;> rfl

theorem Ordered.meet_le_meet (hp : p.Ordered) {a a' b b' : V} (ha : a ≤ a') (hb : b ≤ b') :
    p.meet a b ≤ p.meet a' b' := by
  have hupper := (hp.isLUB_meet a' b').1
  refine (hp.isLUB_meet a b).2 ?_
  rintro c (rfl | rfl)
  · exact ha.trans (hupper (Or.inl rfl))
  · exact hb.trans (hupper (Or.inr rfl))

/-- The meet of smaller facts is smaller. -/
theorem Ordered.foldl_meet_le (hp : p.Ordered) {f f' : Nat → V} (hf : ∀ d, f d ≤ f' d)
    (ds : List Nat) {a a' : V} (ha : a ≤ a') :
    ds.foldl (fun v d => p.meet v (f d)) a ≤ ds.foldl (fun v d => p.meet v (f' d)) a' := by
  induction ds generalizing a a' with
  | nil => exact ha
  | cons d ds ih => exact ih (hp.meet_le_meet ha (hf d))

end Problem

namespace State

/-- A state is below two tables. -/
structure Below (p : Problem V) (input output : Nat → V) (s : State V) : Prop where
  size_input : s.input.size = p.graph.size
  size_output : s.output.size = p.graph.size
  /-- A position that is given nothing keeps its first input. -/
  seeded : ∀ i < p.graph.size, s.driven? p i = none → s.input.getD i p.empty = p.seedInput i
  output_le : ∀ i, s.output.getD i p.empty ≤ output i
  input_le : ∀ i < p.graph.size, i ∉ s.worklist → s.input.getD i p.empty ≤ input i

variable {p : Problem V} {input output : Nat → V} {s : State V} {i : Nat} {w : List Nat}

theorem below_initial (hp : p.Ordered) (hseed : ∀ i < p.graph.size, p.outputSeed? i = none) :
    Below p input output (initial p) where
  size_input := by simp [initial]
  size_output := by simp [initial]
  seeded := by
    intro i hi _
    simp [initial, hi]
  output_le := by
    intro i
    by_cases hi : i < p.graph.size
    · have hout : (initial p).output.getD i p.empty = p.empty := by
        simp [initial, hi, p.seedOutput_eq, hseed i hi]
      rw [hout]
      exact hp.empty_le _
    · rw [getD_of_size_le (by simpa [initial] using hi)]
      exact hp.empty_le _
  input_le := by
    intro i hi hw
    exact absurd (List.mem_range.mpr hi) hw

/-- What a position is given is below its input in the tables. -/
theorem Below.driven?_le (hp : p.Ordered) (hfix : p.IsFixpoint input output)
    (h : Below p input output s) (hi : i < p.graph.size) {v : V} (hv : s.driven? p i = some v) :
    v ≤ input i := by
  unfold driven? at hv
  split at hv
  · cases hv
  · next hb =>
    cases hd : p.drivers i with
    | nil =>
      rw [hd] at hv
      cases hv
    | cons d ds =>
      rw [hd, Option.some.injEq] at hv
      rw [hfix.input_eq_meet i hi hb d ds hd, ← hv]
      exact hp.foldl_meet_le h.output_le ds (h.output_le d)

/-- The input that a visit computes is below that of the tables, whatever it was before. -/
theorem Below.refreshed_le (hp : p.Ordered) (hfix : p.IsFixpoint input output)
    (h : Below p input output s) (hi : i < p.graph.size) :
    (s.refreshed p i).getD i p.empty ≤ input i := by
  rw [getD_refreshed_self (h.size_input ▸ hi)]
  cases hdriven : s.driven? p i with
  | none =>
    rw [Option.getD_none, h.seeded i hi hdriven,
      hfix.input_eq_seed i hi (driven?_eq_none_iff.mp hdriven)]
  | some v => exact h.driven?_le hp hfix hi hdriven

variable [DecidableEq V]

theorem Below.visit (hp : p.Ordered) (hfix : p.IsFixpoint input output)
    (h : Below p input output s) (hw : s.worklist = i :: w) :
    Below p input output (s.visit p i w) where
  size_input := by rw [visit_input, size_refreshed, h.size_input]
  size_output := by rw [size_visit_output, h.size_output]
  seeded := by
    intro j hj hnone
    rw [driven?_eq_none_iff, ← driven?_eq_none_iff (s := s)] at hnone
    rw [getD_visit_input_of_none hnone]
    exact h.seeded j hj hnone
  output_le := by
    intro j
    by_cases hij : i = j ∧ j < p.graph.size
    · obtain ⟨rfl, hi⟩ := hij
      rw [getD_visit_output_self (h.size_output ▸ hi), hfix.output_eq i hi]
      exact hp.monotone_transfer i hi (h.refreshed_le hp hfix hi)
    · -- a position out of range has no place where its output would be kept
      have hsame : (s.visit p i w).output.getD j p.empty = s.output.getD j p.empty := by
        rcases not_and_or.mp hij with hne | hj
        · exact getD_visit_output_of_ne hne _
        · have hsize := Nat.not_lt.mp hj
          rw [getD_of_size_le (size_visit_output.trans_le (h.size_output.trans_le hsize)),
            getD_of_size_le (h.size_output.trans_le hsize)]
      rw [hsame]
      exact h.output_le j
  input_le := by
    intro j hj hwait
    rw [visit_input]
    by_cases hij : i = j
    · subst hij
      exact h.refreshed_le hp hfix hj
    · rw [getD_refreshed_of_ne hij]
      exact h.input_le j hj (not_mem_worklist_of_visit hw hij hwait)

end State

namespace Problem

variable {p : Problem V} {limit : Nat} {sol : Solution V} [DecidableEq V]

theorem below_run (hp : p.Ordered) (hseed : ∀ i < p.graph.size, p.outputSeed? i = none)
    {input output : Nat → V} (hfix : p.IsFixpoint input output) (limit : Nat) :
    (p.run limit).Below p input output :=
  State.run_induction (fun _ _ _ hw h => h.visit hp hfix hw) limit _ (State.below_initial hp hseed)

omit [PartialOrder V] in
theorem eq_solution_of_solve? (hsol : p.solve? limit = some sol) :
    (p.run limit).worklist = [] ∧ sol = p.solution (p.run limit) := by
  unfold solve? at hsol
  dsimp only at hsol
  split at hsol
  · next hdone => exact ⟨List.isEmpty_iff.mp hdone, (Option.some.inj hsol).symm⟩
  · cases hsol

/-- When the solver comes to an end, its tables are below any two tables that satisfy the equations.
Where every position that is driven by another is visited again after that one changes, they satisfy
the equations themselves, so that they are the least solution. -/
theorem solve?_isLeast (hp : p.Ordered) (hseed : ∀ i < p.graph.size, p.outputSeed? i = none)
    (hsol : p.solve? limit = some sol) :
    (∀ input output, p.IsFixpoint input output → ∀ i < p.graph.size,
      p.inputOf sol i ≤ input i ∧ p.outputOf sol i ≤ output i) ∧
    ((∀ i d, d ∈ p.drivers i → i ∈ p.dependents d) →
      p.IsFixpoint (p.inputOf sol) (p.outputOf sol)) := by
  obtain ⟨hdone, rfl⟩ := eq_solution_of_solve? hsol
  constructor
  · intro input output hfix i hi
    have hbelow := below_run hp hseed hfix limit
    rw [inputOf_solution_of_size hbelow.size_input, outputOf_solution_of_size hbelow.size_output]
    exact ⟨hbelow.input_le i hi (by simp [hdone]), hbelow.output_le i⟩
  · intro hdep
    have hrun := p.settled_run hdep limit
    rw [inputOf_solution hrun, outputOf_solution hrun]
    exact isFixpoint_of_settled hrun hdone

/-- A loop between positions 1 and 2, in which facts may go round for ever.  A fact is given for
position 2, where it is not used. -/
def circuit : Problem Nat where
  graph :=
    { method := ⟨1⟩
      nodes := #[⟨1⟩, ⟨2⟩, ⟨3⟩, ⟨4⟩]
      paramCount := 0
      succTable := #[[1], [2, 3], [1], []]
      predTable := #[[], [0, 2], [1], [1]] }
  direction := .forward
  empty := 0
  transfer := fun i n => if i = 2 then max n 3 else n
  meet := max
  initIn := fun i => if i = 0 then some 1 else if i = 2 then some 9 else none

def circuitSolution : Solution Nat where
  before := [(⟨1⟩, 1), (⟨2⟩, 3), (⟨3⟩, 3), (⟨4⟩, 3)]
  after := [(⟨1⟩, 1), (⟨2⟩, 3), (⟨3⟩, 3), (⟨4⟩, 3)]
  iterations := 7

/-- Any fact from 3 on can go round in the loop, and the solver finds 3. -/
theorem circuitSolution_isLeast :
    circuit.Ordered ∧ (∀ i < circuit.graph.size, circuit.outputSeed? i = none) ∧
    circuit.solve? 20 = some circuitSolution ∧
    (∀ i d, d ∈ circuit.drivers i → i ∈ circuit.dependents d) ∧
    circuit.IsFixpoint (fun i => if i = 0 then 1 else 8) (fun i => if i = 0 then 1 else 8) ∧
    circuit.inputOf circuitSolution 1 ≤ 8 ∧
    circuit.IsFixpoint (circuit.inputOf circuitSolution) (circuit.outputOf circuitSolution) := by
  have hp : circuit.Ordered := by
    refine ⟨Nat.zero_le, fun a b => isLUB_pair, fun i _ => ?_⟩
    intro m n hmn
    simp only [circuit]
    split
    · exact max_le_max_right 3 hmn
    · exact hmn
  have hseed : ∀ i < circuit.graph.size, circuit.outputSeed? i = none := fun _ _ => rfl
  have hsol : circuit.solve? 20 = some circuitSolution := by cbv
  have hdep : ∀ i d, d ∈ circuit.drivers i → i ∈ circuit.dependents d := by
    have hinside : ∀ i < 4, ∀ d ∈ circuit.drivers i, i ∈ circuit.dependents d := by decide
    intro i d hd
    by_cases hi : i < 4
    · exact hinside i hi d hd
    · simp [circuit, drivers, FlowGraph.pred, Nat.not_lt.mp hi] at hd
  have hfix : circuit.IsFixpoint (fun i => if i = 0 then 1 else 8)
      (fun i => if i = 0 then 1 else 8) := by
    refine ⟨by decide, ?_, by decide⟩
    intro i hi hb d ds hd
    change i < 4 at hi
    interval_cases i
    · exact absurd rfl hb
    all_goals
      cases hd
      rfl
  obtain ⟨hleast, hself⟩ := solve?_isLeast hp hseed hsol
  exact ⟨hp, hseed, hsol, hdep, hfix, (hleast _ _ hfix 1 (by decide)).1, hself hdep⟩

end Problem

end CodeGraph.DataFlow
