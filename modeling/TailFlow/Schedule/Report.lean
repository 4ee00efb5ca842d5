import TailFlow.Boundary.Wrappers
import TailFlow.Program.Codec

/-!
# The report of a scheduling run

The report tells what a run found and changed.
-/

namespace TailFlow

structure ScheduleReport where
  /-- The number of calls that got a handle of their own. -/
  rewiredCalls : Nat
  /-- The calls that were split off, in the order of the splits. -/
  nonTailCalls : List NodeId
  /-- The links that this run recorded. -/
  links : IdMap Link
  splits : Nat
  boundaries : List Boundary
  states : IdMap Progress
  warnings : List ScheduleWarning
  deriving DecidableEq

namespace ScheduleReport

/-- Whether the run left the program as it was. -/
def isNoop (report : ScheduleReport) : Bool :=
  report.rewiredCalls == 0 && report.splits == 0 && report.boundaries.isEmpty

def entranceCount (report : ScheduleReport) (body : SubgraphId) : Nat :=
  sumOf ((report.boundaries.filter fun boundary => boundary.body == body).map
    fun boundary => boundary.entrances.length)

/-- The number of exits that were built for a body. -/
def exitCount (report : ScheduleReport) (body : SubgraphId) : Nat :=
  sumOf ((report.boundaries.filter fun boundary => boundary.body == body).map
    fun boundary => boundary.exits.length)

def linkFor? (report : ScheduleReport) (call : NodeId) : Option Link := report.links.get? call

end ScheduleReport

open Json (Decoder)
open Json.Decode

def Progress.toJson (stage : Progress) : Json :=
  .object (("state", .string stage.name) ::
    match stage with
    | .analyzed pending => [("non_tail_calls", .ofNat pending)]
    | _ => [])

def Progress.decode : Decoder Progress := tagged "state"
  [("Unvisited", pure .unvisited), ("Analyzed", .analyzed <$> required "non_tail_calls" nat),
    ("Stable", pure .stable), ("PendingSplit", pure .pendingSplit), ("Split", pure .split),
    ("PendingBoundary", pure .pendingBoundary), ("Bounded", pure .bounded),
    ("Final", pure .final)]

def ScheduleWarning.toJson : ScheduleWarning → Json
  | .duplicateLink call => .object [("kind", .string "DuplicateLink"), ("call", .ofNat call)]
  | .deadCaller binder subgraph => .object
      [("kind", .string "DeadCaller"), ("partial", .ofNat binder), ("subgraph", .ofNat subgraph)]
  | .unusedBoundary subgraph => .object
      [("kind", .string "UnusedBoundary"), ("subgraph", .ofNat subgraph)]

def ScheduleWarning.decode : Decoder ScheduleWarning := tagged "kind"
  [("DuplicateLink", .duplicateLink <$> required "call" nat),
    ("DeadCaller", .deadCaller <$> required "partial" nat <*> required "subgraph" nat),
    ("UnusedBoundary", .unusedBoundary <$> required "subgraph" nat)]

def Boundary.toJson (boundary : Boundary) : Json :=
  let entrance (wrapper : EntranceWrapper) : Json := .object
    [("caller", .ofNat wrapper.caller), ("entrance", .ofNat wrapper.entrance),
      ("exit", .ofNat wrapper.exit)]
  .object [("body", .ofNat boundary.body), ("entrances", .array (boundary.entrances.map entrance)),
    ("exits", .ofNats boundary.exits)]

def Boundary.decode : Decoder Boundary :=
  let entrance : Decoder EntranceWrapper := object <|
    EntranceWrapper.mk <$> required "caller" nat <*> required "entrance" nat <*> required "exit" nat
  object <| Boundary.mk <$> required "body" nat <*> required "entrances" (list entrance)
    <*> required "exits" (list nat)

/-- The document of a report. Warnings are left out where there are none. -/
def ScheduleReport.toJson (report : ScheduleReport) : Json :=
  .object ([("rewired_calls", .ofNat report.rewiredCalls),
      ("non_tail_calls", .ofNats report.nonTailCalls), ("links", report.links.toJson Link.toJson),
      ("splits", .ofNat report.splits),
      ("boundaries", .array (report.boundaries.map Boundary.toJson)),
      ("states", report.states.toJson Progress.toJson)]
    ++ if report.warnings.isEmpty then []
      else [("warnings", .array (report.warnings.map ScheduleWarning.toJson))])

def ScheduleReport.decode : Decoder ScheduleReport := object <|
  ScheduleReport.mk <$> optional "rewired_calls" 0 nat <*> required "non_tail_calls" (list nat)
    <*> required "links" (table Link.decode) <*> required "splits" nat
    <*> required "boundaries" (list Boundary.decode) <*> required "states" (table Progress.decode)
    <*> optional "warnings" [] (list ScheduleWarning.decode)

end TailFlow
