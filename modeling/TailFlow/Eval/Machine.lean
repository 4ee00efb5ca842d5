import TailFlow.Eval.Execution
import TailFlow.Eval.Kernel
import TailFlow.Plan.Basic

/-!
# Running a plan

A plan is run with a single environment and a stack of continuations. No call comes back to the node
after it: a subgraph ends by returning to the continuation on top of the stack, by going to its
callee, or by going to its callee after a continuation has been put on the stack.
-/

namespace TailFlow.Machine

/-- Where the results of a subgraph that returns go, and what goes on with them. -/
structure Frame where
  continuation : Option SubgraphId
  destination : List TensorId
  deriving DecidableEq, Repr

/-- The state of a run, at the start of a subgraph. -/
structure State where
  current : SubgraphId
  env : Environment
  frames : List Frame
  counters : Counters

/-- What running one subgraph leads to. -/
inductive Progression where
  | goesOn (state : State)
  | ends (env : Environment) (counters : Counters)

def runNodes (program : Program) (limits : RunLimits) :
    List NodeId → Environment → Counters → Evaluation (Environment × Counters)
  | [], env, counters => .ok (env, counters)
  | id :: rest, env, counters => do
    let counters ← counters.step limits
    runNodes program limits rest (← env.runNode program id) counters

/-- The nodes of a subgraph less the call that it ends in. -/
def inlineNodes (lowered : LoweredSubgraph) : List NodeId :=
  match lowered.terminator with
  | .returns => lowered.nodes
  | .tailCall _ | .linkedCall _ _ => lowered.nodes.dropLast

def enterCallee (program : Program) (call : NodeId) (env : Environment) (frames : List Frame)
    (counters : Counters) : Evaluation State := do
  let node ← program.node call
  let handle ← Outcome.following node.inputs[0]?
  let (callee, arguments) ← env.closure program handle
  let subgraph ← program.subgraph callee
  let env ← env.bindAll subgraph.inputs arguments
  return ⟨callee, env, frames, counters.enter callee subgraph.kind⟩

def returnFrom (program : Program) (id : SubgraphId) (env : Environment) (frames : List Frame)
    (counters : Counters) : Evaluation Progression := do
  let subgraph ← program.subgraph id
  let results ← env.values program subgraph.outputs
  match frames with
  | [] => .refuse (.nowhereToReturn id)
  | frame :: frames =>
    let env ← env.bindAll frame.destination results
    match frame.continuation with
    | some next => return .goesOn ⟨next, env, frames, counters⟩
    | none => return .ends env counters

/-- Puts the continuation of a linked call on the stack. -/
def pushLink (plan : ExecutionPlan) (limits : RunLimits) (call : NodeId)
    (continuation : SubgraphId) (frames : List Frame) : Evaluation (List Frame) := do
  let link ← Outcome.orRefuse (.unlinkedCall call) (plan.linkFor? call)
  Outcome.ensure (frames.length < limits.maxCallDepth)
    (.tooManyContinuations frames.length limits.maxCallDepth)
  return ⟨some continuation, link.tensors⟩ :: frames

def step (plan : ExecutionPlan) (limits : RunLimits) (state : State) : Evaluation Progression := do
  let lowered ← Outcome.orRefuse (.notPlanned state.current) (plan.lowered? state.current)
  let (env, counters) ←
    runNodes plan.program limits (inlineNodes lowered) state.env state.counters
  match lowered.terminator with
  | .returns => returnFrom plan.program state.current env state.frames counters
  | .tailCall call => return .goesOn (← enterCallee plan.program call env state.frames counters)
  | .linkedCall call continuation =>
    let frames ← pushLink plan limits call continuation state.frames
    return .goesOn (← enterCallee plan.program call env frames counters)

/-- Runs subgraphs until the run ends, at most the given number of them. -/
def runFor (plan : ExecutionPlan) (limits : RunLimits) :
    Nat → State → Evaluation (Environment × Counters)
  | 0, _ => .abort .endless
  | subgraphs + 1, state => do
    match ← step plan limits state with
    | .goesOn state => runFor plan limits subgraphs state
    | .ends env counters => return (env, counters)

/-- How many subgraphs a run is followed through before it is broken off. Where every subgraph that
ends in a call has another node, the steps bound the entries by far less and no run is broken off. -/
def entryAllowance (limits : RunLimits) : Nat := 2 * limits.maxSteps + wordCount

def start (program : Program) (inputs : List DenseArray) : Evaluation State := do
  let formals ← program.entryInputs
  let arguments ← entryArguments program inputs
  let env ← Environment.bindAll .empty formals arguments
  let entry ← program.subgraph program.entry
  return ⟨program.entry, env, [⟨none, program.outputs⟩],
    Counters.zero.enter program.entry entry.kind⟩

def run (plan : ExecutionPlan) (limits : RunLimits) (inputs : List DenseArray) :
    Evaluation Execution := do
  let state ← start plan.program inputs
  let (env, counters) ← runFor plan limits (entryAllowance limits) state
  let outputs ← plan.program.outputs.mapM (env.array plan.program)
  return ⟨outputs, counters.calls, counters.steps⟩

end TailFlow.Machine
