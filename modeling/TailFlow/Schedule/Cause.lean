import TailFlow.Program.Basic
import TailFlow.Schedule.Progress

/-!
# Refusals and warnings of the scheduler

A refusal ends a scheduling run and leaves the program as it was. A warning is only reported.
-/

namespace TailFlow

/-- Why a program is not scheduled. -/
inductive ScheduleError where
  /-- The handle of a call does not come from binders alone. -/
  | unresolvedCall (call : NodeId) (subgraph : SubgraphId)
  /-- A binder names no subgraph. -/
  | unknownSubgraph (binder : NodeId) (target : SubgraphId)
  /-- A call that is not a tail call leads back to the subgraph it is in. -/
  | nonTailCycle (call : NodeId) (subgraph callee : SubgraphId)
  /-- The handle of a binder reaches more than one call. -/
  | ambiguousBinder (binder : NodeId) (calls : Nat)
  /-- Calls that are not tail calls are left when the last split has been made. -/
  | splitLimitExceeded (subgraph : SubgraphId) (limit : Nat)
  /-- A subgraph was to move between stages that do not follow each other. -/
  | illegalMove (subgraph : SubgraphId) (current next : Progress)
  deriving DecidableEq, Repr

def ScheduleError.message : ScheduleError → String
  | .unresolvedCall call subgraph =>
    s!"call {call.label} in {subgraph.label} does not resolve to a partial node"
  | .unknownSubgraph binder target => s!"partial {binder.label} references unknown {target.label}"
  | .nonTailCycle call subgraph callee =>
    s!"non-tail call {call.label} in {subgraph.label} reaches {callee.label}, "
      ++ s!"which calls back into {subgraph.label}"
  | .ambiguousBinder binder calls =>
    s!"partial {binder.label} feeds {calls} call sites; a caller must route to exactly one call"
  | .splitLimitExceeded subgraph limit =>
    s!"{subgraph.label} still holds non-tail calls after {limit} split iterations"
  | .illegalMove subgraph current next =>
    s!"illegal state transition for {subgraph.label}: {current.describe} -> {next.describe}"

inductive ScheduleWarning where
  | duplicateLink (call : NodeId)
  | deadCaller (binder : NodeId) (subgraph : SubgraphId)
  | unusedBoundary (subgraph : SubgraphId)
  deriving DecidableEq, Repr

def ScheduleWarning.message : ScheduleWarning → String
  | .duplicateLink call => s!"link for {call.label} recorded twice; keeping the latest"
  | .deadCaller binder subgraph =>
    s!"partial {binder.label} naming {subgraph.label} feeds no call"
  | .unusedBoundary subgraph => s!"{subgraph.label} is multiply called but kept no live callers"

end TailFlow
