import CodeGraph.MethodBuilder

/-!
# A sample graph

Two small methods: one with a branch, one with a loop.
-/

namespace CodeGraph.CommandLine

open MethodBuilder (Step)

/-- The larger of two numbers.  Both branches assign to `m` and meet at the return statement. -/
def maxSteps : List Step :=
  [.parameter "a", .parameter "b", .control "if (a > b)", .assignment "m" ["a"], .moveTo (.made 2),
    .assignment "m" ["b"], .ret (some "m"), .link (.made 3) (.made 6)]

/-- The sum of the numbers up to `n`.  The loop runs back to its header. -/
def sumSteps : List Step :=
  [.parameter "n", .assignment "s" [], .control "while (n > 0)", .assignment "s" ["s", "n"],
    .assignment "n" ["n"], .link (.made 4) (.made 2), .moveTo (.made 2), .ret (some "s")]

/-- A method added to a graph. -/
def withMethod (g : Graph) (name : String) (steps : List Step) : Graph :=
  (MethodBuilder.build g name steps).finished

/-- The sample graph. -/
def sampleGraph : Graph := withMethod (withMethod .empty "max" maxSteps) "sum" sumSteps

end CodeGraph.CommandLine
