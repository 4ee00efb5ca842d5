import TailFlow.Outcome
import TailFlow.Program.Basic

/-!
# Looking up and changing the parts of a program

Following a number breaks off where it names nothing. New entries go to the end of their arena.
-/

namespace TailFlow.Program

variable {ε : Type}

def tensor (program : Program) (id : TensorId) : Outcome ε Tensor :=
  .following program.tensors[id]?

def node (program : Program) (id : NodeId) : Outcome ε Node :=
  .following program.nodes[id]?

def subgraph (program : Program) (id : SubgraphId) : Outcome ε Subgraph :=
  .following program.subgraphs[id]?

def subgraphIds (program : Program) : List SubgraphId := List.range program.subgraphs.size

/-- The formals of the entry. -/
def entryInputs (program : Program) : Outcome ε (List TensorId) := do
  return (← program.subgraph program.entry).inputs

/-- The number of calls in the arena. -/
def callCount (program : Program) : Nat := program.nodes.countP Node.isCall

def linkFor? (program : Program) (call : NodeId) : Option Link := program.links.get? call

def addTensor (program : Program) (tensor : Tensor) : TensorId × Program :=
  (program.tensors.size, { program with tensors := program.tensors.push tensor })

def addNode (program : Program) (node : Node) : NodeId × Program :=
  (program.nodes.size, { program with nodes := program.nodes.push node })

/-- Adds a subgraph, without a place in the order. -/
def addSubgraph (program : Program) (subgraph : Subgraph) : SubgraphId × Program :=
  (program.subgraphs.size, { program with subgraphs := program.subgraphs.push subgraph })

/-- Adds a tensor that has the type of another one and is not constant. -/
def addLike (program : Program) (template : TensorId) (name : String) :
    Outcome ε (TensorId × Program) := do
  let model ← program.tensor template
  return program.addTensor ⟨name, model.shape, model.elementType, none⟩

/-- Adds a tensor for each of several, in turn. -/
def addLikes : Program → List (TensorId × String) → Outcome ε (List TensorId × Program)
  | program, [] => .ok ([], program)
  | program, (template, name) :: rest => do
    let (id, program) ← program.addLike template name
    let (ids, program) ← program.addLikes rest
    return (id :: ids, program)

/-- Pairs tensors with names made of a stem and their place. -/
def numberedNames (stem : String) (ids : List TensorId) : List (TensorId × String) :=
  ids.zipIdx.map fun (id, place) => (id, s!"{stem}{place}")

def updateNode (program : Program) (id : NodeId) (change : Node → Node) : Program :=
  { program with nodes := program.nodes.modify id change }

def updateSubgraph (program : Program) (id : SubgraphId) (change : Subgraph → Subgraph) : Program :=
  { program with subgraphs := program.subgraphs.modify id change }

/-- Puts a number right after the first occurrence of an anchor, or last. -/
def insertAfter (anchor id : SubgraphId) : List SubgraphId → List SubgraphId
  | [] => [id]
  | other :: rest =>
    if other = anchor then other :: id :: rest else other :: insertAfter anchor id rest

def insertBefore (anchor id : SubgraphId) : List SubgraphId → List SubgraphId
  | [] => [id]
  | other :: rest =>
    if other = anchor then id :: other :: rest else other :: insertBefore anchor id rest

def placeAfter (program : Program) (anchor id : SubgraphId) : Program :=
  { program with order := insertAfter anchor id program.order }

def placeBefore (program : Program) (anchor id : SubgraphId) : Program :=
  { program with order := insertBefore anchor id program.order }

end TailFlow.Program
