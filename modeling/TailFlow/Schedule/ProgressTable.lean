import TailFlow.Outcome
import TailFlow.Schedule.Cause

/-!
# Stages of all subgraphs

The table holds a stage for every subgraph that is tracked. A subgraph that is not tracked counts as
unvisited.
-/

namespace TailFlow

/-- The stages of the subgraphs that are tracked. -/
structure ProgressTable where
  stages : IdMap Progress
  deriving DecidableEq, Repr

namespace ProgressTable

def empty : ProgressTable := ⟨.empty⟩

def track (table : ProgressTable) (id : SubgraphId) : ProgressTable :=
  if table.stages.contains id then table else ⟨table.stages.insert id .unvisited⟩

/-- Tracks a subgraph that is built in its final form. -/
def trackFinal (table : ProgressTable) (id : SubgraphId) : ProgressTable :=
  ⟨table.stages.insert id .final⟩

def get? (table : ProgressTable) (id : SubgraphId) : Option Progress := table.stages.get? id

def move (table : ProgressTable) (id : SubgraphId) (next : Progress) :
    Outcome ScheduleError ProgressTable :=
  let current := (table.get? id).getD .unvisited
  if current.canMoveTo next then .ok ⟨table.stages.insert id next⟩
  else .refuse (.illegalMove id current next)

/-- Moves the given subgraphs to the final stage, up to the first that cannot go there. The table as
it then is comes with the refusal, if there is one. -/
def finishEach (table : ProgressTable) :
    List SubgraphId → ProgressTable × Outcome ScheduleError Unit
  | [] => (table, .ok ())
  | id :: rest =>
    match table.move id .final with
    | .ok table => table.finishEach rest
    | .error stop => (table, .error stop)

/-- Moves every subgraph that is not final to the final stage, by ascending number. -/
def finish (table : ProgressTable) : ProgressTable × Outcome ScheduleError Unit :=
  table.finishEach ((table.stages.entries.filter fun entry => entry.2 != .final).map Prod.fst)

/-- Whether every tracked subgraph is final. -/
def allFinal (table : ProgressTable) : Bool := table.stages.values.all (· == .final)

end ProgressTable

end TailFlow
