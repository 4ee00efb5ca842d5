import TailFlow.Collection.Reach
import TailFlow.Program.Listing
import TailFlow.Schedule.Cause

/-!
# Where handles come from and where they go

A handle is written by a binder or picked by a switch. Followed backwards from a call through the
branches of switches, it leads to the binders that the call may run; followed forwards from a binder
through switches, it leads to the calls that may run it.
-/

namespace TailFlow

variable {ε : Type}

namespace Program

/-- Whether a call is the last node of a subgraph and returns exactly what the subgraph returns. -/
def isTailCall (program : Program) (subgraph : SubgraphId) (call : NodeId) : Outcome ε Bool := do
  let owner ← program.subgraph subgraph
  if owner.lastNode? = some call then
    return (← program.node call).outputs = owner.outputs
  else return false

def isNonTailCall (program : Program) (subgraph : SubgraphId) (id : NodeId) : Outcome ε Bool := do
  let node ← program.node id
  if node.isCall then return !(← program.isTailCall subgraph id) else return false

def nonTailCalls (program : Program) (subgraph : SubgraphId) : Outcome ε (List NodeId) := do
  let owner ← program.subgraph subgraph
  owner.nodes.filterM (program.isNonTailCall subgraph)

/-- The first call of a subgraph that is not a tail call. The nodes behind it are not looked at, so
it is found even where some of them name nothing. -/
def firstNonTailCall? (program : Program) (subgraph : SubgraphId) :
    Outcome ε (Option NodeId) := do
  let owner ← program.subgraph subgraph
  owner.nodes.findM? (program.isNonTailCall subgraph)

end Program

namespace ListedNode

/-- The handles that a handle may be a copy of. -/
def sources (listing : List ListedNode) (handle : TensorId) : List TensorId :=
  ((producer? listing handle).map fun listed => listed.node.branches).getD []

/-- A handle and all handles that it may be a copy of. -/
def origins (listing : List ListedNode) (handle : TensorId) : IdSet :=
  Reach.closure (sources listing) (mentions listing + 1) (IdSet.empty.insert handle)

/-- Whether a handle is written by a binder or picked by a switch. -/
def isHandle (listing : List ListedNode) (tensor : TensorId) : Bool :=
  ((producer? listing tensor).map fun listed =>
    listed.node.kind.isSwitch || listed.node.callee?.isSome).getD false

def binder? (listing : List ListedNode) (handle : TensorId) : Option NodeId :=
  (producer? listing handle).bind fun listed =>
    if listed.node.callee?.isSome then some listed.id else none

/-- The handles that switches pick a handle into. -/
def copies (listing : List ListedNode) (handle : TensorId) : List TensorId :=
  listing.flatMap fun listed =>
    if listed.node.branches.contains handle then listed.node.outputs else []

/-- Some handles and all handles that switches pick them into. -/
def destinations (listing : List ListedNode) (handles : List TensorId) : IdSet :=
  Reach.closure (copies listing) (mentions listing + 1) (IdSet.ofList handles)

/-- Whether a node is a call of one of the given handles. -/
def callsOneOf (handles : IdSet) (listed : ListedNode) : Bool :=
  listed.node.isCall && listed.node.inputs.head?.any fun handle => decide (handle ∈ handles)

def reachedCalls (listing : List ListedNode) (handles : List TensorId) : IdSet :=
  IdSet.ofList ((listing.filter (callsOneOf (destinations listing handles))).map ListedNode.id)

end ListedNode

namespace Program

/-- The binders that the handle of a call leads back to. Whatever else it leads back to, or nothing
but switches, makes the call unresolved. -/
def resolveCall (program : Program) (listing : List ListedNode) (subgraph : SubgraphId)
    (call : NodeId) : Outcome ScheduleError IdSet := do
  let node ← program.node call
  let handle ← Outcome.orRefuse (.unresolvedCall call subgraph) node.inputs.head?
  let handles := (ListedNode.origins listing handle).members
  Outcome.ensure (handles.all (ListedNode.isHandle listing)) (.unresolvedCall call subgraph)
  let binders := IdSet.ofList (handles.filterMap (ListedNode.binder? listing))
  Outcome.ensure (!binders.isEmpty) (.unresolvedCall call subgraph)
  return binders

/-- The calls that the handle of a binder reaches. -/
def callsReached (program : Program) (listing : List ListedNode) (binder : NodeId) :
    Outcome ε IdSet := do
  return ListedNode.reachedCalls listing (← program.node binder).outputs

end Program

end TailFlow
