import TailFlow.CallGraph.Catalog
import TailFlow.CallGraph.Resolution

/-!
# Detecting the call structure

Every call that is listed is resolved to the subgraphs it may run, which gives the call graph. A
call that is not a tail call waits for its callee, so a program in which such a call may lead back
to its own subgraph is refused: the subgraph would have to wait for itself.
-/

namespace TailFlow

/-- One subgraph that a call may run. -/
structure CallEdge where
  caller : SubgraphId
  call : NodeId
  binder : NodeId
  callee : SubgraphId
  tail : Bool
  deriving DecidableEq, Repr

/-- The call structure of a program. -/
structure Detection where
  /-- The calls that are not tail calls, by the subgraph that lists them. -/
  nonTailCalls : IdMap (List NodeId)
  /-- The reached subgraphs that more than one binder names. -/
  multiplyCalled : IdSet
  edges : List CallEdge
  deriving DecidableEq

namespace CallEdge

def calleesOf (edges : List CallEdge) (caller : SubgraphId) : List SubgraphId :=
  (edges.filter fun edge => edge.caller == caller).map CallEdge.callee

/-- Whether calls lead from one subgraph to another, in any number of steps. -/
def leads (edges : List CallEdge) (start goal : SubgraphId) : Bool :=
  goal ∈ Reach.closure (calleesOf edges) (edges.length + 1) (IdSet.empty.insert start)

/-- Refuses the first call that is not a tail call and leads back to its own subgraph. -/
def checkCycles (edges : List CallEdge) : Outcome ScheduleError Unit :=
  match edges.find? fun edge => !edge.tail && leads edges edge.callee edge.caller with
  | none => .ok ()
  | some edge => .refuse (.nonTailCycle edge.call edge.caller edge.callee)

end CallEdge

namespace Detection

def nonTailCount (detection : Detection) : Nat :=
  sumOf (detection.nonTailCalls.values.map List.length)

def edgesOf (program : Program) (listing : List ListedNode) (listed : ListedNode) :
    Outcome ScheduleError (List CallEdge) := do
  let tail ← program.isTailCall listed.owner listed.id
  let binders ← program.resolveCall listing listed.owner listed.id
  let callees ← binders.members.mapM fun binder => return (binder, (← program.node binder).callee?)
  return callees.filterMap fun (binder, callee?) =>
    callee?.map fun callee => ⟨listed.owner, listed.id, binder, callee, tail⟩

def noteNonTail (program : Program) (known : IdMap (List NodeId)) (listed : ListedNode) :
    Outcome ScheduleError (IdMap (List NodeId)) := do
  if ← program.isTailCall listed.owner listed.id then return known
  else return known.alter listed.owner fun calls => calls.getD [] ++ [listed.id]

def detect (program : Program) (catalog : Catalog) : Outcome ScheduleError Detection := do
  let listing ← program.listing
  let calls := listing.filter fun listed => listed.node.isCall
  let edges ← calls.mapM (edgesOf program listing)
  let nonTailCalls ← calls.foldlM (noteNonTail program) IdMap.empty
  CallEdge.checkCycles edges.flatten
  return ⟨nonTailCalls, IdSet.ofList catalog.multiplyCalled, edges.flatten⟩

end Detection

end TailFlow
