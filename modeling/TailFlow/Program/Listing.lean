import TailFlow.Collection.IdSet
import TailFlow.Collection.Sum
import TailFlow.Program.Access

/-!
# The nodes that subgraphs list

Only nodes that a subgraph lists take part in a program; the arena may hold others. The listing is
the sequence of listed nodes by the order of the subgraphs, and who writes and who reads a tensor is
read off it.
-/

namespace TailFlow

/-- A node in the list of a subgraph. -/
structure ListedNode where
  owner : SubgraphId
  id : NodeId
  node : Node
  deriving DecidableEq, Repr

namespace Program

variable {ε : Type}

def listedIn (program : Program) (owner : SubgraphId) : Outcome ε (List ListedNode) := do
  let subgraph ← program.subgraph owner
  subgraph.nodes.mapM fun id => return ⟨owner, id, ← program.node id⟩

/-- The nodes that the subgraphs list, by the order of the subgraphs. -/
def listing (program : Program) : Outcome ε (List ListedNode) := do
  return (← program.order.mapM program.listedIn).flatten

/-- The subgraph that lists a node; of several, the one with the greatest number. -/
def owner? (program : Program) (node : NodeId) : Option SubgraphId :=
  program.subgraphIds.reverse.find? fun id =>
    (program.subgraphs[id]?.map fun subgraph => subgraph.nodes.contains node).getD false

def listedIds (program : Program) : List NodeId :=
  (IdSet.ofList (program.subgraphs.toList.flatMap Subgraph.nodes)).members

end Program

namespace ListedNode

/-- The first listed node that writes a tensor. -/
def producer? (listing : List ListedNode) (tensor : TensorId) : Option ListedNode :=
  listing.find? fun listed => listed.node.outputs.contains tensor

/-- The listed nodes that read a tensor, each once. -/
def readers (listing : List ListedNode) (tensor : TensorId) : List ListedNode :=
  (listing.filter fun listed => listed.node.inputs.contains tensor).foldl
    (fun sofar listed => if sofar.any fun other => other.id == listed.id then sofar
      else sofar ++ [listed]) []

/-- The number of times that the listed nodes name a tensor. -/
def mentions (listing : List ListedNode) : Nat :=
  sumOf (listing.map fun listed => listed.node.inputs.length + listed.node.outputs.length)

end ListedNode

namespace Program

variable {ε : Type}

/-- The subgraph of every listed node. -/
def owners (program : Program) : IdMap SubgraphId :=
  .ofList (program.listedIds.filterMap fun id => (program.owner? id).map fun owner => (id, owner))

/-- The listed node that writes a tensor, for every tensor that one writes. -/
def producers (program : Program) : Outcome ε (IdMap NodeId) := do
  let listing ← program.listing
  return .ofList (listing.reverse.flatMap fun listed =>
    listed.node.outputs.map fun tensor => (tensor, listed.id))

/-- The listed nodes that read a tensor, for every tensor that one reads. -/
def readers (program : Program) : Outcome ε (IdMap (List NodeId)) := do
  let listing ← program.listing
  return .ofList (listing.flatMap fun listed => listed.node.inputs.map fun tensor =>
    (tensor, (ListedNode.readers listing tensor).map ListedNode.id))

end Program

end TailFlow
