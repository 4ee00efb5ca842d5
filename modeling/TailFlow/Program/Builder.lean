import TailFlow.Program.Validity

/-!
# Building a program

A builder collects tensors, and subgraphs that are declared first and defined later, so that their
bodies can name each other. The finished program runs its subgraphs in the order of declaration, and
its results are those of the entry.
-/

namespace TailFlow

structure ProgramBuilder where
  tensors : Array Tensor
  nodes : Array Node
  subgraphs : Array Subgraph
  deriving DecidableEq

structure SubgraphBody where
  inputs : List TensorId := []
  nodes : List Node := []
  outputs : List TensorId := []
  deriving DecidableEq

namespace Node

def ofKernel (name : String) (op : KernelOp) (inputs outputs : List TensorId) : Node :=
  ⟨name, .kernel op, inputs, outputs⟩

def ofBinding (name : String) (callee : SubgraphId) (arguments : List TensorId)
    (handle : TensorId) : Node :=
  ⟨name, .bind callee, arguments, [handle]⟩

def ofCall (name : String) (handle : TensorId) (results : List TensorId) : Node :=
  ⟨name, .call, [handle], results⟩

def ofSwitch (name : String) (condition ifTrue ifFalse handle : TensorId) : Node :=
  ⟨name, .switch, [condition, ifTrue, ifFalse], [handle]⟩

def ofSwitchLayer (name : String) (index : TensorId) (branches : List TensorId)
    (handle : TensorId) : Node :=
  ⟨name, .switchLayer, index :: branches, [handle]⟩

end Node

/-- Why a builder gives no program. -/
inductive BuildError where
  | undeclaredEntry (entry : SubgraphId)
  | invalid (defect : Defect)
  deriving DecidableEq, Repr

def BuildError.message : BuildError → String
  | .undeclaredEntry entry => s!"entry {entry.label} was never declared"
  | .invalid defect => defect.message

namespace ProgramBuilder

variable {ε : Type}

def empty : ProgramBuilder := ⟨#[], #[], #[]⟩

def addTensor (builder : ProgramBuilder) (tensor : Tensor) : TensorId × ProgramBuilder :=
  (builder.tensors.size, { builder with tensors := builder.tensors.push tensor })

def tensorOf (builder : ProgramBuilder) (name : String) (shape : List Nat)
    (elementType : ElementType) : TensorId × ProgramBuilder :=
  builder.addTensor ⟨name, shape, elementType, none⟩

/-- Adds a tensor of singles. -/
def tensor (builder : ProgramBuilder) (name : String) (shape : List Nat) :
    TensorId × ProgramBuilder :=
  builder.tensorOf name shape .f32

def constant (builder : ProgramBuilder) (name : String) (shape : List Nat)
    (values : List Float32) : TensorId × ProgramBuilder :=
  builder.addTensor ⟨name, shape, .f32, some values⟩

def declare (builder : ProgramBuilder) (name : String) : SubgraphId × ProgramBuilder :=
  (builder.subgraphs.size,
    { builder with subgraphs := builder.subgraphs.push ⟨name, .body, [], [], []⟩ })

/-- Defines a subgraph that has been declared. A second definition takes the place of the first,
whose nodes stay in the arena. -/
def define (builder : ProgramBuilder) (id : SubgraphId) (body : SubgraphBody) :
    Outcome ε ProgramBuilder := do
  let _ ← Outcome.following builder.subgraphs[id]?
  return { builder with
    nodes := builder.nodes ++ body.nodes.toArray
    subgraphs := builder.subgraphs.modify id fun subgraph =>
      { subgraph with
        inputs := body.inputs
        outputs := body.outputs
        nodes := List.range' builder.nodes.size body.nodes.length } }

def build (builder : ProgramBuilder) (entry : SubgraphId) : Except BuildError Program :=
  match builder.subgraphs[entry]? with
  | none => .error (.undeclaredEntry entry)
  | some subgraph =>
    let program : Program :=
      ⟨builder.tensors, builder.nodes, builder.subgraphs, List.range builder.subgraphs.size, entry,
        subgraph.outputs, .empty⟩
    match program.validate with
    | .error defect => .error (.invalid defect)
    | .ok () => .ok program

end ProgramBuilder

end TailFlow
