import TailFlow.Compile.Comparison
import TailFlow.Compile.Config
import TailFlow.Eval.Machine
import TailFlow.Eval.Recursive
import TailFlow.Plan.Codec
import TailFlow.Program.Text
import TailFlow.Suite.Sample

/-!
# Compiling a program

Compiling checks a program, schedules it, checks it again and lowers it to a plan. Where the
configuration asks for it, the program as written and the plan are also run on inputs made from a
fixed seed, and the program is refused if the runs differ.
-/

namespace TailFlow

inductive CompileError where
  | invalid (defect : Defect)
  | notScheduled (cause : ScheduleError)
  | notLowered (cause : LowerError)
  | writtenRun (cause : EvalError)
  | plannedRun (cause : EvalError)
  | notEquivalent (difference : Divergence)
  deriving DecidableEq

/-- The text of a compile error: what failed, and before it what was being done. -/
def CompileError.chain : CompileError → List String
  | .invalid defect => [defect.message]
  | .notScheduled cause => [cause.message]
  | .notLowered cause => [cause.message]
  | .writtenRun cause => ["reference run", cause.message]
  | .plannedRun cause => ["scheduled run", cause.message]
  | .notEquivalent difference =>
    [s!"scheduled program is not equivalent to its source: {difference.message}"]

/-- What compiling a program gives. -/
structure Artifacts where
  written : Program
  plan : ExecutionPlan
  report : ScheduleReport
  /-- The text of the scheduled program. -/
  text : String
  deriving DecidableEq

/-- Checks a program, if it is to be checked. -/
def checkIf (wanted : Bool) (program : Program) : Outcome CompileError Unit :=
  if wanted then
    match program.validate with
    | .ok () => .ok ()
    | .error defect => .refuse (.invalid defect)
  else .ok ()

def runBoth (limits : RunLimits) (artifacts : Artifacts) (inputs : List DenseArray) :
    Outcome CompileError (Execution × Execution) := do
  let expected ← (Recursive.run artifacts.written limits inputs).mapCause .writtenRun
  let actual ← (Machine.run artifacts.plan limits inputs).mapCause .plannedRun
  return (expected, actual)

/-- The seed of the inputs that compiled programs are checked on. -/
def checkSeed : Nat := 0

/-- Checks that the program as written and the plan agree on inputs made from a fixed seed. -/
def checkEquivalence (limits : RunLimits) (artifacts : Artifacts) : Outcome CompileError Unit := do
  let inputs ← seededInputs artifacts.written checkSeed
  let (expected, actual) ← runBoth limits artifacts inputs
  let _ ← (expected.compare actual).mapCause .notEquivalent
  return ()

def compile (config : Config) (written : Program) : Outcome CompileError Artifacts := do
  checkIf config.validate written
  let (report, program) ← (schedule config.scheduler written).mapCause .notScheduled
  checkIf config.validate program
  let text ← program.text
  let plan ← (ExecutionPlan.lower program).mapCause .notLowered
  let artifacts : Artifacts := ⟨written, plan, report, text⟩
  if config.checkEquivalence then checkEquivalence config.limits artifacts
  return artifacts

end TailFlow
