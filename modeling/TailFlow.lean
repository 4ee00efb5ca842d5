import TailFlow.Boundary.Callers
import TailFlow.Boundary.Separation
import TailFlow.Boundary.Wrappers
import TailFlow.CallGraph.Catalog
import TailFlow.CallGraph.Detection
import TailFlow.CallGraph.Resolution
import TailFlow.Collection.IdMap
import TailFlow.Collection.IdSet
import TailFlow.Collection.Reach
import TailFlow.Collection.Sum
import TailFlow.CommandLine.Arguments
import TailFlow.CommandLine.Commands
import TailFlow.CommandLine.Directory
import TailFlow.CommandLine.Help
import TailFlow.CommandLine.Options
import TailFlow.CommandLine.PathFault
import TailFlow.Compile.Comparison
import TailFlow.Compile.Config
import TailFlow.Compile.Pipeline
import TailFlow.DenseArray.Basic
import TailFlow.DenseArray.Text
import TailFlow.Eval.Execution
import TailFlow.Eval.Kernel
import TailFlow.Eval.Machine
import TailFlow.Eval.Recursive
import TailFlow.Eval.Value
import TailFlow.Json.Basic
import TailFlow.Json.Decode
import TailFlow.Json.Draft
import TailFlow.Json.Numeral
import TailFlow.Json.Reader
import TailFlow.Main
import TailFlow.Numeric.Binary32
import TailFlow.Numeric.Decimal
import TailFlow.Numeric.Power
import TailFlow.Outcome
import TailFlow.Plan.Basic
import TailFlow.Plan.Codec
import TailFlow.Program.Access
import TailFlow.Program.Basic
import TailFlow.Program.Builder
import TailFlow.Program.Codec
import TailFlow.Program.Listing
import TailFlow.Program.Text
import TailFlow.Program.Validity
import TailFlow.Schedule.Cause
import TailFlow.Schedule.LinkRecorder
import TailFlow.Schedule.Progress
import TailFlow.Schedule.ProgressTable
import TailFlow.Schedule.Report
import TailFlow.Schedule.Run
import TailFlow.Schedule.Split
import TailFlow.Suite.Builtin
import TailFlow.Suite.Evaluation
import TailFlow.Suite.RandomProgram
import TailFlow.Suite.RandomStream
import TailFlow.Suite.Sample
import TailFlow.Proofs.Collection
import TailFlow.Proofs.Outcome
import TailFlow.Proofs.Program.Arena
import TailFlow.Proofs.Program.WellFormed
import TailFlow.Proofs.Handles.Flow
import TailFlow.Proofs.Handles.Cloning
import TailFlow.Proofs.Handles.Rewiring
import TailFlow.Proofs.Handles.Foreign
import TailFlow.Proofs.Boundary.Addition
import TailFlow.Proofs.Boundary.Building
import TailFlow.Proofs.Schedule.Cutting
import TailFlow.Proofs.Schedule.Settling
import TailFlow.Proofs.Schedule.Stages
import TailFlow.Proofs.Schedule.TailForm
import TailFlow.Proofs.Boundary.Callers
import TailFlow.Proofs.Schedule.Idempotence
import TailFlow.Proofs.Runs.Scheduled
import TailFlow.Proofs.Runs.Equivalence
import TailFlow.Proofs.Runs.Watching
import TailFlow.Proofs.Program.Order
import TailFlow.Proofs.Schedule.Chains
import TailFlow.Proofs.Schedule.Resuming
import TailFlow.Proofs.Boundary.Layout
import TailFlow.Proofs.Boundary.Gates
import TailFlow.Proofs.Handles.Keeping
import TailFlow.Proofs.Schedule.Origin
import TailFlow.Proofs.Schedule.Recording
import TailFlow.Proofs.Schedule.Links
import TailFlow.Proofs.Schedule.Boundaries
import TailFlow.Proofs.Handles.Tracing
import TailFlow.Proofs.Handles.Copying
import TailFlow.Proofs.Handles.Repeating
import TailFlow.Proofs.Handles.Dividing
import TailFlow.Proofs.CallGraph.Detection
import TailFlow.Proofs.CallGraph.Cycles
import TailFlow.Proofs.CallGraph.Resolution
import TailFlow.Proofs.CallGraph.Noting
import TailFlow.Proofs.CallGraph.Exactness
import TailFlow.Proofs.CallGraph.Reached
import TailFlow.Proofs.Schedule.Progress
import TailFlow.Proofs.Schedule.Splitting
import TailFlow.Proofs.Boundary.Completion
import TailFlow.Proofs.Schedule.Acceptance
import TailFlow.Proofs.Program.Checking
import TailFlow.Proofs.Schedule.Interleaving
import TailFlow.Proofs.Schedule.Relinking
import TailFlow.Proofs.Schedule.Ending
import TailFlow.Proofs.Schedule.Finishing
import TailFlow.Proofs.Schedule.Passage
import TailFlow.Proofs.Handles.Counting
import TailFlow.Proofs.Schedule.Framing
import TailFlow.Proofs.Schedule.Exhaustion
import TailFlow.Proofs.Program.Documents
import TailFlow.Proofs.Program.Text
import TailFlow.Proofs.Numeric.Difference
import TailFlow.Proofs.Runs.Agreement
import TailFlow.Proofs.Runs.Soundness
import TailFlow.Proofs.Runs.Budget
import TailFlow.Proofs.Schedule.Width
import TailFlow.Proofs.Suite.Drawing
import TailFlow.Proofs.Suite.LayeredPlans
import TailFlow.Proofs.Suite.Passing
import TailFlow.Proofs.Runs.Trampoline
import TailFlow.Proofs.Runs.Limits
import TailFlow.Proofs.Schedule.Untouched
import TailFlow.Proofs.Schedule.CallStructure
import TailFlow.Proofs.Boundary.Partition
