import TailFlow.Json.Decode
import TailFlow.Program.Validity

/-!
# Programs as documents

Every part of a program has its form in a document and a decoder that takes it back. A text may list
the fields of an alternative, a document that is handed over may only name them; the decoders of all
parts that hold alternatives are told which. A program that is read from a text is checked before it
is handed out.
-/

namespace TailFlow

open Json (Decoder Fault)
open Json.Decode

namespace ElementType

def names : List (String × ElementType) := [("F32", .f32), ("F16", .f16), ("BF16", .bf16)]

def toJson : ElementType → Json
  | .f32 => .string "F32"
  | .f16 => .string "F16"
  | .bf16 => .string "BF16"

def decode : Decoder ElementType := alternative names []

end ElementType

namespace Tensor

def toJson (tensor : Tensor) : Json :=
  .object ([("name", .string tensor.name), ("shape", .ofNats tensor.shape),
      ("dtype", tensor.elementType.toJson)]
    ++ match tensor.constant with
      | none => []
      | some values => [("constant", .array (values.map .ofSingle))])

def decode : Decoder Tensor := object <|
  Tensor.mk <$> required "name" string <*> required "shape" (list nat)
    <*> required "dtype" ElementType.decode <*> optional "constant" none (nullable (list single))

end Tensor

namespace KernelOp

def names : List (String × KernelOp) :=
  [("Add", .add), ("Sub", .sub), ("Mul", .mul), ("Neg", .neg), ("Copy", .copy), ("Less", .less)]

def toJson : KernelOp → Json
  | .add => .string "Add"
  | .sub => .string "Sub"
  | .mul => .string "Mul"
  | .neg => .string "Neg"
  | .copy => .string "Copy"
  | .less => .string "Less"

def decode : Decoder KernelOp := alternative names []

end KernelOp

namespace NodeKind

def toJson : NodeKind → Json
  | .kernel op => .object [("Kernel", op.toJson)]
  | .bind callee => .object [("Partial", .object [("subgraph", .ofNat callee)])]
  | .call => .string "Call"
  | .switch => .string "Switch"
  | .switchLayer => .string "SwitchLayer"

def decode (style : FieldStyle) : Decoder NodeKind :=
  alternative [("Call", .call), ("Switch", .switch), ("SwitchLayer", .switchLayer)]
    [("Kernel", fun draft => .kernel <$> KernelOp.decode draft),
      ("Partial", contents style (.bind <$> required "subgraph" nat))]

end NodeKind

namespace Node

def toJson (node : Node) : Json :=
  .object [("name", .string node.name), ("kind", node.kind.toJson),
    ("inputs", .ofNats node.inputs), ("outputs", .ofNats node.outputs)]

def decode (style : FieldStyle) : Decoder Node := object <|
  Node.mk <$> required "name" string <*> required "kind" (NodeKind.decode style)
    <*> required "inputs" (list nat) <*> required "outputs" (list nat)

end Node

namespace SubgraphKind

def toJson : SubgraphKind → Json
  | .body => .string "Body"
  | .segment origin => .object [("Segment", .object [("origin", .ofNat origin)])]
  | .entrance wrapped => .object [("Entrance", .object [("body", .ofNat wrapped)])]
  | .exit wrapped => .object [("Exit", .object [("body", .ofNat wrapped)])]

def decode (style : FieldStyle) : Decoder SubgraphKind :=
  alternative [("Body", .body)]
    [("Segment", contents style (.segment <$> required "origin" nat)),
      ("Entrance", contents style (.entrance <$> required "body" nat)),
      ("Exit", contents style (.exit <$> required "body" nat))]

end SubgraphKind

namespace Subgraph

def toJson (subgraph : Subgraph) : Json :=
  .object [("name", .string subgraph.name), ("kind", subgraph.kind.toJson),
    ("inputs", .ofNats subgraph.inputs), ("outputs", .ofNats subgraph.outputs),
    ("nodes", .ofNats subgraph.nodes)]

def decode (style : FieldStyle) : Decoder Subgraph := object <|
  Subgraph.mk <$> required "name" string <*> required "kind" (SubgraphKind.decode style)
    <*> required "inputs" (list nat) <*> required "outputs" (list nat)
    <*> required "nodes" (list nat)

end Subgraph

namespace Link

def toJson (link : Link) : Json :=
  .object [("call", .ofNat link.call), ("continuation", .ofNat link.continuation),
    ("consumer", .ofNat link.consumer), ("tensors", .ofNats link.tensors)]

def decode : Decoder Link := object <|
  Link.mk <$> required "call" nat <*> required "continuation" nat <*> required "consumer" nat
    <*> required "tensors" (list nat)

end Link

/-- The document of a table: its keys become names. -/
def IdMap.toJson {α : Type} (value : α → Json) (table : IdMap α) : Json :=
  .object (table.entries.map fun entry => (toString entry.1, value entry.2))

namespace Program

def toJson (program : Program) : Json :=
  .object [("tensors", .array (program.tensors.toList.map Tensor.toJson)),
    ("nodes", .array (program.nodes.toList.map Node.toJson)),
    ("subgraphs", .array (program.subgraphs.toList.map Subgraph.toJson)),
    ("order", .ofNats program.order), ("entry", .ofNat program.entry),
    ("outputs", .ofNats program.outputs), ("links", program.links.toJson Link.toJson)]

/-- Takes a program out of a document, without checking it. -/
def decode (style : FieldStyle) : Decoder Program := object <|
  (fun tensors nodes subgraphs order entry outputs links =>
      ⟨tensors.toArray, nodes.toArray, subgraphs.toArray, order, entry, outputs, links⟩)
    <$> required "tensors" (list Tensor.decode) <*> required "nodes" (list (Node.decode style))
    <*> required "subgraphs" (list (Subgraph.decode style)) <*> required "order" (list nat)
    <*> required "entry" nat <*> required "outputs" (list nat)
    <*> optional "links" .empty (table Link.decode)

/-- Why a text gives no program. -/
inductive ReadError where
  | document (fault : Fault)
  | invalid (defect : Defect)
  deriving DecidableEq, Repr

def read (source : String) : Except ReadError Program :=
  match Json.Decode.text (decode .namedOrListed) source with
  | .error fault => .error (.document fault)
  | .ok program =>
    match program.validate with
    | .error defect => .error (.invalid defect)
    | .ok () => .ok program

def write (program : Program) : String := program.toJson.text

end Program

end TailFlow
