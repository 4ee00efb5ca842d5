import TailFlow.Collection.IdSet
import TailFlow.Program.Access
import TailFlow.Program.Listing

/-!
# Execution plans

A plan lists the subgraphs of a scheduled program in their order, each with the way in which it
ends: it returns, it ends in a call whose results are its own, or it ends in a call after which a
continuation goes on. A program in which a call stands anywhere but last, or ends a subgraph without
returning its results and without a link, has no plan. Nor has one with a segment or an exit that no
link leads to.
-/

namespace TailFlow

/-- How a subgraph ends. -/
inductive Terminator where
  | returns
  | tailCall (call : NodeId)
  | linkedCall (call : NodeId) (continuation : SubgraphId)
  deriving DecidableEq, Repr

structure LoweredSubgraph where
  id : SubgraphId
  name : String
  kind : SubgraphKind
  nodes : List NodeId
  terminator : Terminator
  deriving DecidableEq, Repr

/-- A program with the way in which each of its subgraphs ends. -/
structure ExecutionPlan where
  program : Program
  schedule : List LoweredSubgraph
  deriving DecidableEq

inductive LowerError where
  | linkWithoutCall (call : NodeId)
  | unknownContinuation (call : NodeId) (continuation : SubgraphId)
  | unresumed (id : SubgraphId) (name : String)
  | notScheduled (node : NodeId) (id : SubgraphId) (name : String)
  | unreturned (call : NodeId) (id : SubgraphId) (name : String)
  deriving DecidableEq, Repr

def LowerError.message : LowerError → String
  | .linkWithoutCall call => s!"link recorded for {call.label} which is not a call"
  | .unknownContinuation call continuation =>
    s!"link for {call.label} resumes unknown {continuation.label}"
  | .unresumed id name => s!"{id.label} ({name}) is a continuation that no link resumes"
  | .notScheduled node id name =>
    s!"{node.label} in {id.label} ({name}) is followed by further nodes; "
      ++ "the program was not scheduled"
  | .unreturned call id name =>
    s!"{call.label} ends {id.label} ({name}) without returning its results and has no link"

namespace ExecutionPlan

/-- Checks that a link belongs to a call and names a subgraph. -/
def checkLink (program : Program) (call : NodeId) (link : Link) : Outcome LowerError Unit := do
  Outcome.ensure ((program.nodes[call]?.map Node.isCall).getD false) (.linkWithoutCall call)
  Outcome.ensure (link.continuation < program.subgraphs.size)
    (.unknownContinuation call link.continuation)

/-- Whether a subgraph only runs when a link leads to it. -/
def needsLink : SubgraphKind → Bool
  | .segment _ | .exit _ => true
  | _ => false

/-- Checks that no node but the last is a call. -/
def checkNodes (program : Program) (id : SubgraphId) (name : String) :
    List NodeId → Outcome LowerError Unit
  | [] => .ok ()
  | node :: rest => do
    let isCall := (← program.node node).isCall
    Outcome.ensure (!isCall || rest.isEmpty) (.notScheduled node id name)
    checkNodes program id name rest

def terminatorOf (program : Program) (id : SubgraphId) (subgraph : Subgraph) :
    Outcome LowerError Terminator := do
  match subgraph.lastNode? with
  | none => return .returns
  | some last =>
    let node ← program.node last
    if !node.isCall then return .returns
    else match program.linkFor? last with
      | some link => return .linkedCall last link.continuation
      | none =>
        if node.outputs = subgraph.outputs then return .tailCall last
        else .refuse (.unreturned last id subgraph.name)

/-- The subgraphs that links lead to. -/
def resumed (program : Program) : List SubgraphId := program.links.values.map Link.continuation

def lowerSubgraph (program : Program) (id : SubgraphId) : Outcome LowerError LoweredSubgraph := do
  let subgraph ← program.subgraph id
  Outcome.ensure (!needsLink subgraph.kind || (resumed program).contains id)
    (.unresumed id subgraph.name)
  checkNodes program id subgraph.name subgraph.nodes
  let terminator ← terminatorOf program id subgraph
  return ⟨id, subgraph.name, subgraph.kind, subgraph.nodes, terminator⟩

def lower (program : Program) : Outcome LowerError ExecutionPlan := do
  program.links.entries.forM fun (call, link) => checkLink program call link
  return ⟨program, ← program.order.mapM (lowerSubgraph program)⟩

/-- The calls that a continuation goes on after. -/
def linkedCalls (plan : ExecutionPlan) : List NodeId := plan.program.links.keys

/-- The linked calls outside of entrances. -/
def nonTailCalls (plan : ExecutionPlan) : List NodeId :=
  plan.linkedCalls.filter fun call =>
    match (plan.program.owner? call).bind fun owner =>
        plan.program.subgraphs[owner]?.map Subgraph.kind with
    | some (.entrance _) => false
    | _ => true

def linkFor? (plan : ExecutionPlan) (call : NodeId) : Option Link := plan.program.linkFor? call

/-- The entry of a subgraph in the plan. -/
def lowered? (plan : ExecutionPlan) (id : SubgraphId) : Option LoweredSubgraph :=
  plan.schedule.find? fun entry => entry.id == id

end ExecutionPlan

end TailFlow
