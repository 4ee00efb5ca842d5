import TailFlow.Program.Access

/-!
# Validity

A program is valid if every number in it names an entry of its arena, constants fill their shapes,
the order holds every subgraph once, no node is listed twice, nodes have the operands and results
that their kind asks for, and every link belongs to a call and is read by the first node of its
continuation. The checks are made in a fixed order, and the first that fails is reported.
-/

namespace TailFlow

/-- Where in a program a number stands. -/
inductive Place where
  | programOutputs
  | subgraph (id : SubgraphId) (name : String)
  | node (owner : SubgraphId) (ownerName : String) (id : NodeId) (name : String)
  | link
  deriving DecidableEq, Repr

def Place.describe : Place → String
  | .programOutputs => "program outputs"
  | .subgraph id name => s!"subgraph {id.label} ({name})"
  | .node owner ownerName id name => s!"subgraph {owner.label} ({ownerName}): {id.label} ({name})"
  | .link => "link"

/-- Why a program is not valid. -/
inductive Defect where
  | unknownEntry (entry : SubgraphId)
  | unknownTensor (place : Place) (tensor : TensorId)
  | unfilledConstant (tensor : TensorId) (name : String) (count : Nat) (shape : List Nat)
  | incompleteOrder (subgraphs : Nat)
  | unknownNode (place : Place) (node : NodeId)
  | sharedNode (node : NodeId) (first second : SubgraphId)
  | wrongOperands (place : Place) (arity : Nat)
  | unevenCopy (place : Place) (inputs outputs : Nat)
  | unknownCallee (place : Place) (callee : SubgraphId)
  | wrongArguments (place : Place) (given : Nat) (callee : SubgraphId) (formals : Nat)
  | notOneHandle (place : Place)
  | missingHandle (place : Place)
  | wrongSwitch (place : Place)
  | wrongSwitchLayer (place : Place)
  | misplacedLink (call : NodeId)
  | unknownContinuation (call : NodeId) (continuation : SubgraphId)
  | wrongConsumer (call consumer : NodeId) (continuation : SubgraphId)
  deriving DecidableEq, Repr

def Defect.message : Defect → String
  | .unknownEntry entry => s!"entry {entry.label} is not a subgraph"
  | .unknownTensor place tensor => s!"{place.describe} references unknown tensor {tensor.label}"
  | .unfilledConstant tensor name count shape =>
    s!"constant {tensor.label} ({name}) holds {count} values for shape {DenseArray.shapeText shape}"
  | .incompleteOrder subgraphs =>
    s!"subgraph order must list each of the {subgraphs} subgraphs exactly once"
  | .unknownNode place node => s!"{place.describe} lists unknown node {node.label}"
  | .sharedNode node first second =>
    s!"{node.label} is owned by both {first.label} and {second.label}"
  | .wrongOperands place arity => s!"{place.describe} expects {arity} inputs and one output"
  | .unevenCopy place inputs outputs =>
    s!"{place.describe} copies {inputs} inputs into {outputs} outputs"
  | .unknownCallee place callee => s!"{place.describe} binds unknown {callee.label}"
  | .wrongArguments place given callee formals =>
    s!"{place.describe} binds {given} arguments but {callee.label} takes {formals}"
  | .notOneHandle place => s!"{place.describe} must produce one handle"
  | .missingHandle place => s!"{place.describe} has no handle input"
  | .wrongSwitch place =>
    s!"{place.describe} expects [cond, on_true, on_false] and one output"
  | .wrongSwitchLayer place =>
    s!"{place.describe} expects an index, at least one branch and one output"
  | .misplacedLink call => s!"link keyed by {call.label} does not name that call"
  | .unknownContinuation call continuation =>
    s!"link for {call.label} resumes unknown {continuation.label}"
  | .wrongConsumer call consumer continuation =>
    s!"link for {call.label} names {consumer.label} which does not start {continuation.label}"

namespace Program

def require (condition : Bool) (defect : Defect) : Except Defect Unit :=
  if condition then .ok () else .error defect

def checkTensors (program : Program) (place : Place) (ids : List TensorId) : Except Defect Unit :=
  ids.forM fun id => require (id < program.tensors.size) (.unknownTensor place id)

def checkConstant (id : TensorId) (tensor : Tensor) : Except Defect Unit :=
  match tensor.constant with
  | none => .ok ()
  | some values => require (values.length == elementCount tensor.shape)
      (.unfilledConstant id tensor.name values.length tensor.shape)

/-- Checks that the order holds every subgraph once. -/
def checkOrder (program : Program) : Except Defect Unit :=
  require (program.order.length == program.subgraphs.size
      && program.subgraphIds.all program.order.contains)
    (.incompleteOrder program.subgraphs.size)

/-- Checks that a node has the inputs and outputs that its kind asks for. -/
def checkShape (program : Program) (place : Place) (node : Node) : Except Defect Unit :=
  match node.kind with
  | .kernel op =>
    match op.arity with
    | some arity => require (node.inputs.length == arity && node.outputs.length == 1)
        (.wrongOperands place arity)
    | none => require (node.inputs.length == node.outputs.length)
        (.unevenCopy place node.inputs.length node.outputs.length)
  | .bind callee =>
    match program.subgraphs[callee]? with
    | none => .error (.unknownCallee place callee)
    | some target => do
      require (node.inputs.length == target.inputs.length)
        (.wrongArguments place node.inputs.length callee target.inputs.length)
      require (node.outputs.length == 1) (.notOneHandle place)
  | .call => require (!node.inputs.isEmpty) (.missingHandle place)
  | .switch => require (node.inputs.length == 3 && node.outputs.length == 1) (.wrongSwitch place)
  | .switchLayer =>
    require (2 ≤ node.inputs.length && node.outputs.length == 1) (.wrongSwitchLayer place)

def checkNode (program : Program) (owner : SubgraphId) (ownerName : String) (id : NodeId)
    (node : Node) : Except Defect Unit := do
  let place := Place.node owner ownerName id node.name
  program.checkTensors place (node.inputs ++ node.outputs)
  program.checkShape place node

/-- Checks the nodes that a subgraph lists, and notes who lists them. -/
def checkList (program : Program) (owner : SubgraphId) (ownerName : String) :
    List NodeId → IdMap SubgraphId → Except Defect (IdMap SubgraphId)
  | [], owners => .ok owners
  | id :: rest, owners =>
    match program.nodes[id]? with
    | none => .error (.unknownNode (.subgraph owner ownerName) id)
    | some node =>
      match owners.get? id with
      | some first => .error (.sharedNode id first owner)
      | none => do
        program.checkNode owner ownerName id node
        program.checkList owner ownerName rest (owners.insert id owner)

/-- Checks the subgraphs from a number on, and notes who lists which node. -/
def checkSubgraphs (program : Program) :
    SubgraphId → List Subgraph → IdMap SubgraphId → Except Defect Unit
  | _, [], _ => .ok ()
  | id, subgraph :: rest, owners => do
    program.checkTensors (.subgraph id subgraph.name) (subgraph.inputs ++ subgraph.outputs)
    let owners ← program.checkList id subgraph.name subgraph.nodes owners
    program.checkSubgraphs (id + 1) rest owners

/-- Checks the link that stands under a call. -/
def checkLink (program : Program) (call : NodeId) (link : Link) : Except Defect Unit := do
  require (call == link.call && (program.nodes[call]?.map Node.isCall).getD false)
    (.misplacedLink call)
  match program.subgraphs[link.continuation]? with
  | none => .error (.unknownContinuation call link.continuation)
  | some continuation => do
    require (continuation.nodes.head? == some link.consumer)
      (.wrongConsumer call link.consumer link.continuation)
    program.checkTensors .link link.tensors

def validate (program : Program) : Except Defect Unit := do
  require (program.entry < program.subgraphs.size) (.unknownEntry program.entry)
  program.checkTensors .programOutputs program.outputs
  program.tensors.toList.zipIdx.forM fun (tensor, id) => checkConstant id tensor
  program.checkOrder
  program.checkSubgraphs 0 program.subgraphs.toList IdMap.empty
  program.links.entries.forM fun (call, link) => program.checkLink call link

end Program

end TailFlow
