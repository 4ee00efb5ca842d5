import TailFlow.Plan.Basic
import TailFlow.Program.Codec

/-!
# Plans as documents

A plan is written with its whole program, and read from a text only.
-/

namespace TailFlow

open Json (Decoder)
open Json.Decode

namespace Terminator

/-- The document of the way in which a subgraph ends. -/
def toJson : Terminator → Json
  | .returns => .string "Return"
  | .tailCall call => .object [("TailCall", .object [("call", .ofNat call)])]
  | .linkedCall call continuation => .object [("LinkedCall", .object
      [("call", .ofNat call), ("continuation", .ofNat continuation)])]

/-- Takes the way in which a subgraph ends out of a document. -/
def decode : Decoder Terminator :=
  alternative [("Return", .returns)]
    [("TailCall", contents .namedOrListed (.tailCall <$> required "call" nat)),
      ("LinkedCall", contents .namedOrListed (.linkedCall <$> required "call" nat
        <*> required "continuation" nat))]

end Terminator

namespace LoweredSubgraph

def toJson (lowered : LoweredSubgraph) : Json :=
  .object [("id", .ofNat lowered.id), ("name", .string lowered.name),
    ("kind", lowered.kind.toJson), ("nodes", .ofNats lowered.nodes),
    ("terminator", lowered.terminator.toJson)]

def decode : Decoder LoweredSubgraph := object <|
  LoweredSubgraph.mk <$> required "id" nat <*> required "name" string
    <*> required "kind" (SubgraphKind.decode .namedOrListed) <*> required "nodes" (list nat)
    <*> required "terminator" Terminator.decode

end LoweredSubgraph

namespace ExecutionPlan

def toJson (plan : ExecutionPlan) : Json :=
  .object [("program", plan.program.toJson),
    ("schedule", .array (plan.schedule.map LoweredSubgraph.toJson))]

def decode : Decoder ExecutionPlan := object <|
  ExecutionPlan.mk <$> required "program" (Program.decode .namedOrListed)
    <*> required "schedule" (list LoweredSubgraph.decode)

end ExecutionPlan

end TailFlow
