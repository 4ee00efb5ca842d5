import TailFlow.Boundary.Separation
import TailFlow.CallGraph.Detection
import TailFlow.Schedule.ProgressTable
import TailFlow.Schedule.Report
import TailFlow.Schedule.Split

/-!
# Scheduling a program

Scheduling makes every call a tail call. Calls first get handles of their own and the call structure
is detected. Then subgraphs are split, first come first served, until no call is left that is not a
tail call, and every body that is named more than once is wrapped. The links that this takes are
added to those of the program. A run that is refused leaves the program as it was.
-/

namespace TailFlow

structure SchedulerOptions where
  /-- The greatest number of splits; if there is none, one more than the program has calls. -/
  maxSplits : Option Nat := none
  sharing : ExitSharing := .byDestination
  deriving DecidableEq, Repr, Inhabited

/-- The bookkeeping of a scheduling run. -/
structure ScheduleRun where
  states : ProgressTable
  /-- The subgraphs that wait to be split. -/
  queue : List SubgraphId
  recorder : LinkRecorder
  warnings : List ScheduleWarning
  nonTailCalls : List NodeId
  splits : Nat
  boundaries : List Boundary

namespace ScheduleRun

def start : ScheduleRun := ⟨.empty, [], .empty, [], [], 0, []⟩

/-- Takes in how many calls of a subgraph are not tail calls: it waits to be split, or is stable. -/
def settle (run : ScheduleRun) (id : SubgraphId) (pending : Nat) :
    Outcome ScheduleError ScheduleRun := do
  let states ← run.states.move id (.analyzed pending)
  if 0 < pending then
    return { run with states := ← states.move id .pendingSplit, queue := run.queue ++ [id] }
  else return { run with states := ← states.move id .stable }

def track (run : ScheduleRun) (id : SubgraphId) : ScheduleRun :=
  { run with states := run.states.track id }

def settleAll (run : ScheduleRun) (order : List SubgraphId) (detection : Detection) :
    Outcome ScheduleError ScheduleRun :=
  order.foldlM (fun run id =>
    (run.track id).settle id ((detection.nonTailCalls.get? id).map List.length |>.getD 0)) run

/-- Splits the subgraph that has waited longest. -/
def splitNext (run : ScheduleRun) (program : Program) (id : SubgraphId) :
    Outcome ScheduleError (ScheduleRun × Program) := do
  let run := { run with states := ← run.states.move id .split }
  match ← program.splitFirst id with
  | none => return (← run.settle id 0, program)
  | some (outcome, program) =>
    let run := { run with
      splits := run.splits + 1
      nonTailCalls := run.nonTailCalls ++ [outcome.call]
      recorder := run.recorder.record outcome.link }
    let run ← run.settle id (← program.nonTailCalls id).length
    let run ← (run.track outcome.continuation).settle outcome.continuation outcome.remaining
    return (run, program)

/-- Splits until no subgraph waits. The second number counts the splits that are left. -/
def splitAll (limit : Nat) : Nat → ScheduleRun → Program →
    Outcome ScheduleError (ScheduleRun × Program)
  | left, run, program =>
    match run.queue with
    | [] => .ok (run, program)
    | id :: waiting =>
      match left with
      | 0 => .refuse (.splitLimitExceeded id limit)
      | left + 1 => do
        let (run, program) ← { run with queue := waiting }.splitNext program id
        splitAll limit left run program

def trackWrappers (states : ProgressTable) (boundary : Boundary) : ProgressTable :=
  boundary.exits.foldl ProgressTable.trackFinal
    (boundary.entrances.foldl (fun states wrapper => states.trackFinal wrapper.entrance) states)

/-- Wraps a body that is named more than once, unless its callers are all dead or go through its
entrances already. -/
def wrapBody (sharing : ExitSharing) (catalog : Catalog) (state : ScheduleRun × Program)
    (body : SubgraphId) : Outcome ScheduleError (ScheduleRun × Program) := do
  let (run, program) := state
  let (groups, dead) ← program.groupCallers sharing body (catalog.callers body)
  let run := { run with warnings := run.warnings ++ dead }
  if groups.isEmpty then
    return ({ run with warnings := run.warnings ++ [.unusedBoundary body] }, program)
  else if program.isBounded body groups then return (run, program)
  else
    let states ← (run.states.track body).move body .pendingBoundary
    let wrapping ← program.wrap body groups run.recorder
    let states ← (trackWrappers states wrapping.boundary).move body .bounded
    return ({ run with
      states
      recorder := wrapping.recorder
      boundaries := run.boundaries ++ [wrapping.boundary] }, wrapping.program)

/-- Wraps every body that is named more than once. -/
def wrapAll (sharing : ExitSharing) (run : ScheduleRun) (program : Program) :
    Outcome ScheduleError (ScheduleRun × Program) := do
  let catalog ← Catalog.build program
  catalog.multiplyCalled.foldlM (wrapBody sharing catalog) (run, program)

def report (run : ScheduleRun) (rewired : Nat) : ScheduleReport where
  rewiredCalls := rewired
  nonTailCalls := run.nonTailCalls
  links := run.recorder.links
  splits := run.splits
  boundaries := run.boundaries
  states := run.states.stages
  warnings := run.recorder.warnings ++ run.warnings

end ScheduleRun

/-- Schedules a program: the report, and the program as it is afterwards. -/
def schedule (options : SchedulerOptions) (program : Program) :
    Outcome ScheduleError (ScheduleReport × Program) := do
  let (rewired, program) ← program.separateHandles
  let catalog ← Catalog.build program
  let detection ← Detection.detect program catalog
  let run ← ScheduleRun.start.settleAll program.order detection
  let limit := options.maxSplits.getD (program.callCount + 1)
  let (run, program) ← ScheduleRun.splitAll limit limit run program
  let (run, program) ← run.wrapAll options.sharing program
  let (states, finished) := run.states.finish
  finished
  let run := { run with states }
  return (run.report rewired, { program with links := program.links.union run.recorder.links })

end TailFlow
