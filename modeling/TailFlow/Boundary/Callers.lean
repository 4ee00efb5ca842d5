import TailFlow.CallGraph.Resolution

/-!
# Grouping the callers of a body

The binders that name a body are its callers. A caller whose handle reaches no call is dead. The
live ones are grouped by the tensors that the call they reach writes to, because callers with one
destination can go through one exit.
-/

namespace TailFlow

/-- When the callers of a body may share an exit. -/
inductive ExitSharing where
  /-- When their results go to the same tensors. -/
  | byDestination
  /-- Never. -/
  | perCaller
  deriving DecidableEq, Repr, Inhabited

def ExitSharing.name : ExitSharing → String
  | .byDestination => "ByDestination"
  | .perCaller => "PerCaller"

/-- Callers that go through one exit, and where their results go. -/
structure CallerGroup where
  destination : List TensorId
  callers : List NodeId
  deriving DecidableEq, Repr

namespace CallerGroup

/-- Adds a caller to the first group that has its destination, or to a new group. -/
def join (destination : List TensorId) (caller : NodeId) : List CallerGroup → List CallerGroup
  | [] => [⟨destination, [caller]⟩]
  | group :: rest =>
    if group.destination = destination then
      { group with callers := group.callers ++ [caller] } :: rest
    else group :: join destination caller rest

/-- Adds a caller in the way that the exits are shared. -/
def add (sharing : ExitSharing) (destination : List TensorId) (caller : NodeId)
    (groups : List CallerGroup) : List CallerGroup :=
  match sharing with
  | .byDestination => join destination caller groups
  | .perCaller => groups ++ [⟨destination, [caller]⟩]

end CallerGroup

namespace Program

/-- The one call that a binder reaches, if it reaches one. -/
def destinationCall (program : Program) (listing : List ListedNode) (binder : NodeId) :
    Outcome ScheduleError (Option NodeId) := do
  let calls ← program.callsReached listing binder
  match calls.members with
  | [] => return none
  | [call] => return some call
  | several => .refuse (.ambiguousBinder binder several.length)

/-- Puts a caller of a body into its group, or warns that it is dead. -/
def groupCaller (program : Program) (listing : List ListedNode) (sharing : ExitSharing)
    (body : SubgraphId) (state : List CallerGroup × List ScheduleWarning) (caller : NodeId) :
    Outcome ScheduleError (List CallerGroup × List ScheduleWarning) := do
  match ← program.destinationCall listing caller with
  | none => return (state.1, state.2 ++ [.deadCaller caller body])
  | some call =>
    let destination := (← program.node call).outputs
    return (CallerGroup.add sharing destination caller state.1, state.2)

/-- The groups of the live callers of a body, and a warning for every dead one. -/
def groupCallers (program : Program) (sharing : ExitSharing) (body : SubgraphId)
    (callers : IdSet) : Outcome ScheduleError (List CallerGroup × List ScheduleWarning) := do
  let listing ← program.listing
  callers.members.foldlM (program.groupCaller listing sharing body) ([], [])

/-- Whether there are live callers and all of them stand in entrances of the body. -/
def isBounded (program : Program) (body : SubgraphId) (groups : List CallerGroup) : Bool :=
  let live := groups.flatMap CallerGroup.callers
  !live.isEmpty && live.all fun caller =>
    ((program.owner? caller).bind fun owner => program.subgraphs[owner]?.map Subgraph.kind)
      == some (.entrance body)

end Program

end TailFlow
