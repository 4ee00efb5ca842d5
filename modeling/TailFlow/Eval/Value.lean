import TailFlow.Outcome
import TailFlow.Numeric.Decimal
import TailFlow.Program.Access

/-!
# Values and environments

A value is an array, or a subgraph together with the values that its formals are bound to. An
environment binds tensors to values. A constant has the value that it carries as long as nothing
else is bound to it.
-/

namespace TailFlow

inductive Value where
  | array (array : DenseArray)
  | closure (subgraph : SubgraphId) (arguments : List Value)
  deriving Inhabited

def Value.isArray : Value → Bool
  | .array _ => true
  | .closure _ _ => false

inductive EvalError where
  | wrongInputs (formals given : Nat)
  | wrongInputShape (name : String) (declared given : List Nat)
  | unwritten (tensor : TensorId) (name : String)
  | unfilledConstant (tensor : TensorId) (name : String) (fault : DenseArray.ShapeFault)
  | handleAsArray (tensor : TensorId)
  | arrayAsHandle (tensor : TensorId)
  | unevenBinding (values tensors : Nat)
  | wrongOperands (op : KernelOp) (arity given : Nat)
  | unequalShapes (op : KernelOp) (left right : List Nat)
  | emptyIndex
  | indexOutside (index : Float32) (branches : Nat)
  | inlineCall (node : NodeId) (name : String)
  | tooDeep (limit : Nat)
  | tooManySteps (limit : Nat)
  | handleAsResult
  | notPlanned (subgraph : SubgraphId)
  | nowhereToReturn (subgraph : SubgraphId)
  | unlinkedCall (call : NodeId)
  | tooManyContinuations (pending limit : Nat)
  deriving DecidableEq

def EvalError.message : EvalError → String
  | .wrongInputs formals given => s!"entry takes {formals} inputs but {given} were supplied"
  | .wrongInputShape name declared given =>
    s!"input {name} expects shape {DenseArray.shapeText declared}, got {DenseArray.shapeText given}"
  | .unwritten tensor name => s!"{tensor.label} ({name}) read before it was written"
  | .unfilledConstant tensor name fault => s!"constant {tensor.label} ({name}): {fault.message}"
  | .handleAsArray tensor => s!"{tensor.label} holds a subgraph handle, expected a tensor"
  | .arrayAsHandle tensor => s!"{tensor.label} holds a tensor, expected a subgraph handle"
  | .unevenBinding values tensors => s!"binding {values} values to {tensors} tensors"
  | .wrongOperands op arity given => s!"{op.name} takes {arity} operands, got {given}"
  | .unequalShapes op left right =>
    s!"{op.name} shape mismatch: {DenseArray.shapeText left} vs {DenseArray.shapeText right}"
  | .emptyIndex => "switch index tensor is empty"
  | .indexOutside index branches => s!"switch index {singleText index} outside 0..{branches}"
  | .inlineCall node name => s!"{node.label} ({name}) is a call and cannot run inline"
  | .tooDeep limit => s!"call depth {limit + 1} exceeds the limit of {limit}"
  | .tooManySteps limit => s!"step budget of {limit} exhausted"
  | .handleAsResult => "program result is a subgraph handle"
  | .notPlanned subgraph => s!"{subgraph.label} is missing from the execution plan"
  | .nowhereToReturn subgraph => s!"{subgraph.label} returned with no frame to return to"
  | .unlinkedCall call => s!"{call.label} has no recorded link"
  | .tooManyContinuations pending limit =>
    s!"{pending} pending continuations exceed the limit of {limit}"

abbrev Evaluation (α : Type) := Outcome EvalError α

/-- The values that tensors are bound to. -/
abbrev Environment := IdMap Value

namespace Environment

def bindAll (env : Environment) (ids : List TensorId) (values : List Value) :
    Evaluation Environment :=
  if ids.length = values.length then
    .ok ((ids.zip values).foldl (fun env binding => env.insert binding.1 binding.2) env)
  else .refuse (.unevenBinding values.length ids.length)

def value (env : Environment) (program : Program) (id : TensorId) : Evaluation Value :=
  match env.get? id with
  | some value => .ok value
  | none => do
    let tensor ← program.tensor id
    match tensor.constant with
    | none => .refuse (.unwritten id tensor.name)
    | some elements =>
      match DenseArray.ofElements tensor.shape elements with
      | .ok array => return .array array
      | .error fault => .refuse (.unfilledConstant id tensor.name fault)

def values (env : Environment) (program : Program) (ids : List TensorId) :
    Evaluation (List Value) :=
  ids.mapM (env.value program)

def array (env : Environment) (program : Program) (id : TensorId) : Evaluation DenseArray := do
  match ← env.value program id with
  | .array array => return array
  | .closure _ _ => .refuse (.handleAsArray id)

/-- The subgraph and the arguments that a handle is bound to. -/
def closure (env : Environment) (program : Program) (id : TensorId) :
    Evaluation (SubgraphId × List Value) := do
  match ← env.value program id with
  | .closure subgraph arguments => return (subgraph, arguments)
  | .array _ => .refuse (.arrayAsHandle id)

end Environment

/-- Checks an input against the formal of the entry that it is for. -/
def entryArgument (program : Program) (formal : TensorId) (input : DenseArray) :
    Evaluation Value := do
  let tensor ← program.tensor formal
  Outcome.ensure (input.shape == tensor.shape)
    (.wrongInputShape tensor.name tensor.shape input.shape)
  return .array input

def entryArguments (program : Program) (inputs : List DenseArray) : Evaluation (List Value) := do
  let formals ← program.entryInputs
  Outcome.ensure (formals.length == inputs.length) (.wrongInputs formals.length inputs.length)
  (formals.zip inputs).mapM fun (formal, input) => entryArgument program formal input

end TailFlow
