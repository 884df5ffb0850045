import CodeGraph.DataFlow.FlowGraph

/-!
# Data-flow problems and their solutions

A problem gives every position of a flow graph a fact before it and a fact after
it.  Forward, the fact before a position is the meet of the facts after its
predecessors, and a transfer function makes the fact after it of the fact before
it.  Backward, both are the other way round.  To treat the two alike, the
*input* of a position is what the transfer function is given and the *output* is
what it makes.  The *drivers* of a position are where its input comes from, its
*dependents* are where its output goes, and the *boundary* is the position whose
input is fixed.

`State.step` takes the first position off a worklist, computes its input and
output, and puts its dependents on the worklist when the output is new.  Every
position is on the worklist at first.  Facts are of any type and the functions
are arbitrary, so the worklist need not run empty.  `Problem.run` makes at most
a given number of steps, and the state tells by its worklist whether it is done.
-/

namespace CodeGraph.DataFlow

/-- Which way facts flow. -/
inductive Direction where
  /-- With control. -/
  | forward
  /-- Against control. -/
  | backward
  deriving DecidableEq

/-- A data-flow problem with facts of type `V`. -/
structure Problem (V : Type) where
  /-- The flow graph. -/
  graph : FlowGraph
  /-- Which way facts flow. -/
  direction : Direction
  /-- The fact where nothing else is given. -/
  empty : V
  /-- The output of a position for an input. -/
  transfer : Nat → V → V
  /-- The meet of two facts. -/
  meet : V → V → V
  /-- The facts given before positions. -/
  initIn : Nat → Option V := fun _ => none
  /-- The facts given after positions. -/
  initOut : Nat → Option V := fun _ => none

namespace Problem

variable {V : Type}

/-- The position whose input is fixed. -/
def boundary (p : Problem V) : Nat :=
  match p.direction with
  | .forward => p.graph.entry
  | .backward => p.graph.exit

/-- Where the input of a position comes from. -/
def drivers (p : Problem V) (i : Nat) : List Nat :=
  match p.direction with
  | .forward => p.graph.pred i
  | .backward => p.graph.succ i

/-- Where the output of a position goes. -/
def dependents (p : Problem V) (i : Nat) : List Nat :=
  match p.direction with
  | .forward => p.graph.succ i
  | .backward => p.graph.pred i

/-- The input of a position at first. -/
def seedInput (p : Problem V) (i : Nat) : V :=
  match p.direction with
  | .forward => (p.initIn i).getD p.empty
  | .backward => (p.initOut i).getD p.empty

/-- The output of a position at first. -/
def seedOutput (p : Problem V) (i : Nat) : V :=
  match p.direction with
  | .forward => (p.initOut i).getD p.empty
  | .backward => (p.initIn i).getD p.empty

end Problem

/-- A state of the solver. -/
structure State (V : Type) where
  /-- The input of each position. -/
  input : Array V
  /-- The output of each position. -/
  output : Array V
  /-- The positions to be visited, without repetition. -/
  worklist : List Nat
  /-- The number of visits made. -/
  iterations : Nat

namespace State

variable {V : Type} [DecidableEq V]

/-- The state in which nothing was visited. -/
def initial (p : Problem V) : State V where
  input := (Array.range p.graph.size).map p.seedInput
  output := (Array.range p.graph.size).map p.seedOutput
  worklist := List.range p.graph.size
  iterations := 0

/-- A worklist with a position at its end, unless it is there. -/
def enqueue (worklist : List Nat) (i : Nat) : List Nat :=
  if i ∈ worklist then worklist else worklist ++ [i]

/-- The meet of the outputs of a position's drivers.  There is none at the
boundary and where there are no drivers. -/
def driven? (p : Problem V) (s : State V) (i : Nat) : Option V :=
  if i = p.boundary then none
  else
    match p.drivers i with
    | [] => none
    | d :: ds =>
      some (ds.foldl (fun v d => p.meet v (s.output.getD d p.empty)) (s.output.getD d p.empty))

/-- A visit of position `i`, with the other positions of the worklist given. -/
def visit (p : Problem V) (s : State V) (i : Nat) (worklist : List Nat) : State V :=
  let input := match s.driven? p i with
    | some v => s.input.setIfInBounds i v
    | none => s.input
  let made := p.transfer i (input.getD i p.empty)
  if made = s.output.getD i p.empty then
    { input, output := s.output, worklist, iterations := s.iterations + 1 }
  else
    { input
      output := s.output.setIfInBounds i made
      worklist := (p.dependents i).foldl enqueue worklist
      iterations := s.iterations + 1 }

/-- A visit of the first position of the worklist. -/
def step (p : Problem V) (s : State V) : State V :=
  match s.worklist with
  | [] => s
  | i :: worklist => s.visit p i worklist

/-- At most `limit` visits. -/
def run (p : Problem V) : Nat → State V → State V
  | 0, s => s
  | limit + 1, s => if s.worklist.isEmpty then s else run p limit (s.step p)

end State

/-- The facts of a problem. -/
structure Solution (V : Type) where
  /-- The facts before each node, in the order of positions. -/
  before : List (NodeId × V)
  /-- The facts after each node, in the order of positions. -/
  after : List (NodeId × V)
  /-- The number of visits made. -/
  iterations : Nat

namespace Solution

variable {V : Type}

/-- The fact before a node. -/
def before? (s : Solution V) (id : NodeId) : Option V := s.before.lookup id

/-- The fact after a node. -/
def after? (s : Solution V) (id : NodeId) : Option V := s.after.lookup id

end Solution

namespace Problem

variable {V : Type} [DecidableEq V]

/-- The facts of a state. -/
def solution (p : Problem V) (s : State V) : Solution V :=
  let keyed (facts : Array V) := p.graph.nodes.toList.zip facts.toList
  match p.direction with
  | .forward => ⟨keyed s.input, keyed s.output, s.iterations⟩
  | .backward => ⟨keyed s.output, keyed s.input, s.iterations⟩

/-- The state after at most `limit` visits. -/
def run (p : Problem V) (limit : Nat) : State V := (State.initial p).run p limit

/-- The solution of a problem, if it is reached within `limit` visits. -/
def solve? (p : Problem V) (limit : Nat) : Option (Solution V) :=
  let s := p.run limit
  if s.worklist.isEmpty then some (p.solution s) else none

end Problem

end CodeGraph.DataFlow
