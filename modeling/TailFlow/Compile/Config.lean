import TailFlow.Eval.Execution
import TailFlow.Json.Decode
import TailFlow.Schedule.Run

/-!
# Configuration

How a program is compiled and run. Every part of a configuration may be left out of its document,
and then has its default.
-/

namespace TailFlow

open Json (Decoder Fault)
open Json.Decode

def ExitSharing.names : List (String × ExitSharing) :=
  [("by-destination", .byDestination), ("per-caller", .perCaller)]

def ExitSharing.toJson : ExitSharing → Json
  | .byDestination => .string "by-destination"
  | .perCaller => .string "per-caller"

def ExitSharing.decode : Decoder ExitSharing := alternative names []

def SchedulerOptions.decode : Decoder SchedulerOptions := object <|
  SchedulerOptions.mk <$> optional "max_split_iterations" none (nullable nat)
    <*> optional "exit_sharing" .byDestination ExitSharing.decode

def SchedulerOptions.toJson (options : SchedulerOptions) : Json :=
  .object [("max_split_iterations", (options.maxSplits.map .ofNat).getD .null),
    ("exit_sharing", options.sharing.toJson)]

def RunLimits.decode : Decoder RunLimits := object <|
  RunLimits.mk <$> optional "max_call_depth" defaultDepth nat
    <*> optional "max_steps" defaultSteps nat

def RunLimits.toJson (limits : RunLimits) : Json :=
  .object [("max_call_depth", .ofNat limits.maxCallDepth), ("max_steps", .ofNat limits.maxSteps)]

/-- How a program is compiled and run. -/
structure Config where
  /-- Whether the program is checked before and after scheduling. -/
  validate : Bool := true
  scheduler : SchedulerOptions := {}
  /-- Whether the program is run in both ways, and refused if they differ. -/
  checkEquivalence : Bool := false
  limits : RunLimits := {}
  deriving DecidableEq, Repr, Inhabited

namespace Config

def decode : Decoder Config := object <|
  Config.mk <$> optional "validate" true bool <*> optional "scheduler" {} SchedulerOptions.decode
    <*> optional "check_equivalence" false bool <*> optional "runtime" {} RunLimits.decode

def toJson (config : Config) : Json :=
  .object [("validate", .bool config.validate), ("scheduler", config.scheduler.toJson),
    ("check_equivalence", .bool config.checkEquivalence), ("runtime", config.limits.toJson)]

def read (source : String) : Except Fault Config := Json.Decode.text decode source

end Config

end TailFlow
