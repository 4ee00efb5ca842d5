import TailFlow.Eval.Execution
import TailFlow.Eval.Kernel

/-!
# Running a program as written

Calls may stand anywhere in a subgraph. Each call runs its callee to the end, in an environment of
its own, before the next node is run. Where a subgraph ends in a linked call, the continuation goes
on in the same environment.

The recursion is bounded by the depth of calls that the limits allow. Within a call, a chain of
continuations is bounded by the steps, because every subgraph in the chain but the last runs at
least the call that is linked.
-/

namespace TailFlow.Recursive

/-- How the callee of a call is run. -/
abbrev Invoke := SubgraphId → List Value → Counters → Evaluation (List Value × Counters)

def runCall (invoke : Invoke) (program : Program) (node : Node) (env : Environment)
    (counters : Counters) : Evaluation (Environment × Counters) := do
  let handle ← Outcome.following node.inputs[0]?
  let (callee, arguments) ← env.closure program handle
  let (results, counters) ← invoke callee arguments counters
  return (← env.bindAll node.outputs results, counters)

def runNodes (invoke : Invoke) (program : Program) (limits : RunLimits) :
    List NodeId → Environment → Counters → Evaluation (Environment × Counters)
  | [], env, counters => .ok (env, counters)
  | id :: rest, env, counters => do
    let counters ← counters.step limits
    let node ← program.node id
    if node.isCall then
      let (env, counters) ← runCall invoke program node env counters
      runNodes invoke program limits rest env counters
    else
      runNodes invoke program limits rest (← env.runNode program id) counters

/-- Runs a subgraph and the continuations that links lead to from its end. -/
def runChain (invoke : Invoke) (program : Program) (limits : RunLimits) :
    Nat → Subgraph → Environment → Counters → Evaluation (List Value × Counters)
  | 0, _, _, _ => .refuse (.tooManySteps limits.maxSteps)
  | links + 1, subgraph, env, counters => do
    let (env, counters) ← runNodes invoke program limits subgraph.nodes env counters
    match subgraph.lastNode?.bind program.linkFor? with
    | some link =>
      runChain invoke program limits links (← program.subgraph link.continuation) env counters
    | none => return (← env.values program subgraph.outputs, counters)

/-- Runs a subgraph on arguments. The number is how many calls may still be opened. -/
def invoke (program : Program) (limits : RunLimits) : Nat → Invoke
  | 0, _, _, _ => .refuse (.tooDeep limits.maxCallDepth)
  | levels + 1, id, arguments, counters => do
    let subgraph ← program.subgraph id
    let env ← Environment.bindAll .empty subgraph.inputs arguments
    runChain (invoke program limits levels) program limits (limits.maxSteps + 1) subgraph env
      (counters.enter id subgraph.kind)

def resultArray : Value → Evaluation DenseArray
  | .array array => .ok array
  | .closure _ _ => .refuse .handleAsResult

def run (program : Program) (limits : RunLimits) (inputs : List DenseArray) :
    Evaluation Execution := do
  let arguments ← entryArguments program inputs
  let (results, counters) ←
    invoke program limits (limits.maxCallDepth + 1) program.entry arguments .zero
  let outputs ← results.mapM resultArray
  return ⟨outputs, counters.calls, counters.steps⟩

end TailFlow.Recursive
