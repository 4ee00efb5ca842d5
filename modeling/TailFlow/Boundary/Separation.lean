import TailFlow.CallGraph.Resolution

/-!
# Giving every call its own handle

When the handle of a binder reaches several calls, each of them but the first gets a copy of the
binder, and of the switches between the binder and itself, right in front of it. Handles that come
from another subgraph stay shared.
-/

namespace TailFlow

/-- A program to which copies of handles are being added, and the nodes added so far. -/
structure Copying where
  program : Program
  added : List NodeId

namespace Copying

variable {ε : Type}

def each (copy : TensorId → Copying → Outcome ε (TensorId × Copying)) :
    List TensorId → Copying → Outcome ε (List TensorId × Copying)
  | [], state => .ok ([], state)
  | handle :: rest, state => do
    let (fresh, state) ← copy handle state
    let (others, state) ← each copy rest state
    return (fresh :: others, state)

/-- Adds a copy of the node that writes a handle, with other inputs and a tensor of its own to write
to. -/
def addCopy (state : Copying) (handle : TensorId) (node : Node) (inputs : List TensorId)
    (tag : String) : Outcome ε (TensorId × Copying) := do
  let tensor ← state.program.tensor handle
  let (fresh, program) ← state.program.addLike handle (tensor.name ++ "_" ++ tag)
  let (id, program) := program.addNode ⟨node.name ++ "_" ++ tag, node.kind, inputs, [fresh]⟩
  return (fresh, ⟨program, state.added ++ [id]⟩)

/-- Copies a handle along with the binders and switches of one subgraph that it comes from. The
first number bounds how many nodes the handle may pass through; a handle that passes through more
than are listed goes round in a circle, and copying it has no end. -/
def copyHandle (initial : Program) (listing : List ListedNode) (owner : SubgraphId)
    (tag : String) : Nat → TensorId → Copying → Outcome ε (TensorId × Copying)
  | 0, _, _ => .abort .endless
  | depth + 1, handle, state =>
    match ListedNode.producer? listing handle with
    | none => .ok (handle, state)
    | some source =>
      if initial.owner? source.id != some owner then .ok (handle, state)
      else match source.node.kind with
        | .bind _ => state.addCopy handle source.node source.node.inputs tag
        | .switch | .switchLayer => do
          let (branches, state) ←
            each (copyHandle initial listing owner tag depth) source.node.branches state
          state.addCopy handle source.node (source.node.inputs.take 1 ++ branches) tag
        | _ => .ok (handle, state)

end Copying

namespace Program

variable {ε : Type}

/-- Puts nodes right before a node in a list, or last. -/
def insertNodes (anchor : NodeId) (added nodes : List NodeId) : List NodeId :=
  nodes.takeWhile (· != anchor) ++ added ++ nodes.dropWhile (· != anchor)

/-- Gives a call a handle of its own. The truth value tells whether it got one. -/
def rewireCall (program : Program) (call : NodeId) : Outcome ε (Bool × Program) := do
  match program.owner? call with
  | none => return (false, program)
  | some owner =>
    let listing ← program.listing
    let node ← program.node call
    let handle ← Outcome.following node.inputs.head?
    let (fresh, state) ←
      Copying.copyHandle program listing owner node.name (listing.length + 1) handle ⟨program, []⟩
    if fresh = handle then return (false, program)
    else
      let program := state.program.updateSubgraph owner fun subgraph =>
        { subgraph with nodes := insertNodes call state.added subgraph.nodes }
      let program := program.updateNode call fun node =>
        { node with inputs := fresh :: node.inputs.drop 1 }
      return (true, program)

/-- Gives each of several calls a handle of its own, and counts those that got one. -/
def rewireCalls : Nat × Program → List NodeId → Outcome ε (Nat × Program)
  | state, [] => .ok state
  | (count, program), call :: rest => do
    let (rewired, program) ← program.rewireCall call
    rewireCalls (if rewired then count + 1 else count, program) rest

/-- Gives every call but the first that a binder reaches a handle of its own. -/
def separateBinder (state : Nat × Program) (binder : NodeId) : Outcome ε (Nat × Program) := do
  let listing ← state.2.listing
  let calls ← state.2.callsReached listing binder
  rewireCalls state (calls.members.drop 1)

def listedBinders (program : Program) : Outcome ε (List NodeId) :=
  program.listedIds.filterM fun id => return (← program.node id).callee?.isSome

/-- Gives every call its own handle, and counts the calls that got one. -/
def separateHandles (program : Program) : Outcome ε (Nat × Program) := do
  let binders ← program.listedBinders
  binders.foldlM separateBinder (0, program)

end Program

end TailFlow
