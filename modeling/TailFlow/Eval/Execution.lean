import TailFlow.Eval.Value

/-!
# Executions

What a run of a program comes to: its results, how often each body was entered, and how many nodes
were run. Limits bound the calls that are open at once and the nodes that are run.
-/

namespace TailFlow

/-- How many calls may be open at once where nothing else is said. -/
def defaultDepth : Nat := 256

/-- How many nodes may be run where nothing else is said. -/
def defaultSteps : Nat := 1000000

structure RunLimits where
  /-- How many calls, or continuations, may be open at once. -/
  maxCallDepth : Nat := defaultDepth
  /-- How many nodes may be run. -/
  maxSteps : Nat := defaultSteps
  deriving DecidableEq, Repr, Inhabited

/-- What a run comes to. -/
structure Execution where
  outputs : List DenseArray
  /-- How often each body was entered. -/
  callCounts : IdMap Nat
  steps : Nat
  deriving DecidableEq

/-- What is counted during a run. -/
structure Counters where
  calls : IdMap Nat
  steps : Nat
  deriving DecidableEq

namespace Counters

def zero : Counters := ⟨.empty, 0⟩

/-- Counts the entry into a subgraph, if it is a body. -/
def enter (counters : Counters) (id : SubgraphId) (kind : SubgraphKind) : Counters :=
  if kind = .body then
    { counters with calls := counters.calls.alter id fun count => count.getD 0 + 1 }
  else counters

/-- Counts a node, if the limit allows one more. -/
def step (counters : Counters) (limits : RunLimits) : Evaluation Counters :=
  let counters := { counters with steps := counters.steps + 1 }
  if counters.steps ≤ limits.maxSteps then .ok counters
  else .refuse (.tooManySteps limits.maxSteps)

end Counters

end TailFlow
