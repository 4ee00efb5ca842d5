import TailFlow.Compile.Pipeline
import TailFlow.Suite.RandomProgram

/-!
# Evaluating samples

Every sample is compiled and run both as written and as planned. It passes if the runs agree or, if
it is to be refused, if it is refused.
-/

namespace TailFlow

/-- What became of a sample. -/
inductive CaseOutcome where
  | equivalent (bodyEntries : Nat)
  | diverged (difference : Divergence)
  | writtenRunFailed (cause : EvalError)
  | plannedRunFailed (cause : EvalError)
  | rejected (cause : CompileError)
  deriving DecidableEq

def CaseOutcome.ofComparison {ε : Type} (comparison : Outcome Divergence Nat) :
    Outcome ε CaseOutcome := do
  match ← comparison.attempt with
  | .ok bodyEntries => return .equivalent bodyEntries
  | .error difference => return .diverged difference

structure CaseResult where
  name : String
  splits : Nat
  links : Nat
  entrances : Nat
  expectRejection : Bool
  outcome : CaseOutcome
  deriving DecidableEq

/-- Whether a sample did what it was to do. -/
def CaseResult.passed (result : CaseResult) : Bool :=
  match result.outcome with
  | .equivalent _ => !result.expectRejection
  | .rejected _ => result.expectRejection
  | _ => false

structure EvaluationReport where
  sharing : ExitSharing
  cases : List CaseResult
  deriving DecidableEq

namespace EvaluationReport

def allPassed (report : EvaluationReport) : Bool := report.cases.all CaseResult.passed

def failures (report : EvaluationReport) : List CaseResult :=
  report.cases.filter fun result => !result.passed

/-- The names of the samples, sorted, each once. -/
def names (report : EvaluationReport) : List String :=
  ((report.cases.map CaseResult.name).mergeSort fun left right => decide (left ≤ right)).eraseDups

end EvaluationReport

namespace Sample

variable {ε : Type}

def runOutcome (config : Config) (artifacts : Artifacts) (inputs : List DenseArray) :
    Outcome ε CaseOutcome := do
  let expected ← (Recursive.run artifacts.written config.limits inputs).attempt
  let actual ← (Machine.run artifacts.plan config.limits inputs).attempt
  match expected, actual with
  | .ok expected, .ok actual => CaseOutcome.ofComparison (expected.compare actual)
  | .error cause, _ => return .writtenRunFailed cause
  | _, .error cause => return .plannedRunFailed cause

def evaluate (config : Config) (sample : Sample) : Outcome ε CaseResult := do
  match ← (compile config sample.program).attempt with
  | .error cause => return ⟨sample.name, 0, 0, 0, sample.expectRejection, .rejected cause⟩
  | .ok artifacts =>
    let outcome ← runOutcome config artifacts sample.inputs
    return ⟨sample.name, artifacts.report.splits, artifacts.report.links.size,
      sumOf (artifacts.report.boundaries.map fun boundary => boundary.entrances.length),
      sample.expectRejection, outcome⟩

def evaluateAll (config : Config) (samples : List Sample) : Outcome ε EvaluationReport := do
  return ⟨config.scheduler.sharing, ← samples.mapM (evaluate config)⟩

def randomSamples : Nat → Nat → Outcome BuildError (List Sample)
  | 0, _ => .ok []
  | count + 1, seed =>
    if seed < wordCount then do
      let sample ← RandomProgram.ofSeed seed
      return sample :: (← randomSamples count (seed + 1))
    else .abort .overflow

end Sample

def CaseOutcome.toJson : CaseOutcome → Json
  | .equivalent bodyEntries => .object [("status", .string "Equivalent"),
      ("max_abs_error", .ofSingle 0), ("body_entries", .ofNat bodyEntries)]
  | .diverged difference => diverged difference.message
  | .writtenRunFailed cause => diverged s!"reference run failed: {cause.message}"
  | .plannedRunFailed cause => diverged s!"scheduled run failed: {cause.message}"
  | .rejected cause => .object [("status", .string "Rejected"),
      ("error", .string (": ".intercalate cause.chain))]
where
  /-- The document of an outcome that is no agreement. -/
  diverged (reason : String) : Json :=
    .object [("status", .string "Diverged"), ("reason", .string reason)]

def CaseResult.toJson (result : CaseResult) : Json :=
  .object [("case", .string result.name), ("splits", .ofNat result.splits),
    ("links", .ofNat result.links), ("entrances", .ofNat result.entrances),
    ("expect_rejection", .bool result.expectRejection), ("outcome", result.outcome.toJson)]

/-- The document of the results of several samples, with the time they were made at. -/
def EvaluationReport.toJson (report : EvaluationReport) (milliseconds : Nat) : Json :=
  .object [("exit_sharing", .string report.sharing.name),
    ("generated_at_unix_ms", .ofNat milliseconds),
    ("cases", .array (report.cases.map CaseResult.toJson))]

end TailFlow
