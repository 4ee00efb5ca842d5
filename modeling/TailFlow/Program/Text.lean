import TailFlow.Program.Access

/-!
# The text of a program

A program is shown subgraph by subgraph in its order, each node on a line with the types of what it
reads and writes.
-/

namespace TailFlow.Program

variable {ε : Type}

def tensorsText (program : Program) (ids : List TensorId) : Outcome ε String := do
  let texts ← ids.mapM fun id => return TensorId.label id ++ ":" ++ (← program.tensor id).typeText
  return ", ".intercalate texts

def nodeText (program : Program) (id : NodeId) : Outcome ε String := do
  let node ← program.node id
  let target ←
    match node.callee? with
    | some callee => do pure (" @" ++ (← program.subgraph callee).name)
    | none => pure ""
  let outputs ← program.tensorsText node.outputs
  let inputs ← program.tensorsText node.inputs
  return s!"    {outputs} = {node.kind.mnemonic}{target}({inputs})  // {id.label} {node.name}\n"

def subgraphText (program : Program) (id : SubgraphId) : Outcome ε String := do
  let subgraph ← program.subgraph id
  let inputs ← program.tensorsText subgraph.inputs
  let outputs ← program.tensorsText subgraph.outputs
  let nodes ← subgraph.nodes.mapM program.nodeText
  let kind := subgraph.kind.name
  return s!"  {id.label} @{subgraph.name} [{kind}]({inputs}) -> ({outputs}) \x7b\n"
    ++ String.join nodes ++ "  \x7d\n"

def text (program : Program) : Outcome ε String := do
  let subgraphs ← program.order.mapM program.subgraphText
  return s!"program \x7b\n  entry {SubgraphId.label program.entry}\n" ++ String.join subgraphs
    ++ "\x7d\n"

end TailFlow.Program
