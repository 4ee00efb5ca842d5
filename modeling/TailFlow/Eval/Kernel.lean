import TailFlow.Eval.Value

/-!
# Running a node

A kernel works element by element. A binder makes a handle, and a switch passes one of its handles
on. Calls are not run here: they move control from one subgraph to another.
-/

namespace TailFlow

namespace KernelOp

def combine (op : KernelOp) (f : Float32 → Float32 → Float32) (left right : DenseArray) :
    Evaluation (List DenseArray) :=
  if same : left.shape = right.shape then .ok [DenseArray.zipWith f left right same]
  else .refuse (.unequalShapes op left.shape right.shape)

/-- One if the left number is less than the right one, and zero if not. -/
def lessThan (x y : Float32) : Float32 := if x < y then 1 else 0

def apply (op : KernelOp) (operands : List DenseArray) : Evaluation (List DenseArray) :=
  match op, operands with
  | .copy, operands => .ok operands
  | .neg, [x] => .ok [x.map fun element => -element]
  | .add, [x, y] => combine .add (· + ·) x y
  | .sub, [x, y] => combine .sub (· - ·) x y
  | .mul, [x, y] => combine .mul (· * ·) x y
  | .less, [x, y] => combine .less lessThan x y
  | op, operands => .refuse (.wrongOperands op (op.arity.getD 0) operands.length)

end KernelOp

/-- A condition holds if its first element is there and is not zero. -/
def isTruthy (condition : DenseArray) : Bool :=
  match condition.elements with
  | [] => false
  | first :: _ => !(first == 0)

/-- The branch that the first element of an index picks. -/
def branchIndex (index : DenseArray) (branches : Nat) : Evaluation Nat :=
  match index.elements with
  | [] => .refuse .emptyIndex
  | first :: _ =>
    match Binary32.toNat? first with
    | none => .refuse (.indexOutside first branches)
    | some place =>
      if place < branches then .ok place else .refuse (.indexOutside first branches)

namespace Environment

def runKernel (env : Environment) (program : Program) (op : KernelOp) (node : Node) :
    Evaluation Environment := do
  let operands ← node.inputs.mapM (env.array program)
  let results ← op.apply operands
  env.bindAll node.outputs (results.map .array)

/-- Makes a handle. -/
def runBinder (env : Environment) (program : Program) (callee : SubgraphId) (node : Node) :
    Evaluation Environment := do
  let arguments ← env.values program node.inputs
  let handle ← Outcome.following node.outputs[0]?
  return env.insert handle (.closure callee arguments)

/-- Picks one of two handles by a condition. -/
def runSwitch (env : Environment) (program : Program) (node : Node) : Evaluation Environment := do
  let condition ← env.array program (← Outcome.following node.inputs[0]?)
  let taken ← Outcome.following (if isTruthy condition then node.inputs[1]? else node.inputs[2]?)
  let value ← env.value program taken
  let handle ← Outcome.following node.outputs[0]?
  return env.insert handle value

/-- Picks one of several handles by an index. -/
def runSwitchLayer (env : Environment) (program : Program) (node : Node) :
    Evaluation Environment := do
  let index ← env.array program (← Outcome.following node.inputs[0]?)
  let place ← branchIndex index node.branches.length
  let taken ← Outcome.following node.branches[place]?
  let value ← env.value program taken
  let handle ← Outcome.following node.outputs[0]?
  return env.insert handle value

/-- Runs a node that is not a call. -/
def runNode (env : Environment) (program : Program) (id : NodeId) : Evaluation Environment := do
  let node ← program.node id
  match node.kind with
  | .kernel op => env.runKernel program op node
  | .bind callee => env.runBinder program callee node
  | .switch => env.runSwitch program node
  | .switchLayer => env.runSwitchLayer program node
  | .call => .refuse (.inlineCall id node.name)

end Environment

end TailFlow
