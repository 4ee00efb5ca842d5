import TailFlow.Collection.IdMap
import TailFlow.DenseArray.Basic

/-!
# Programs

A program is three arenas, of tensors, of nodes and of subgraphs, whose entries name each other by
their position. A subgraph is a list of nodes with formals and results. A node runs a kernel, binds
arguments to a subgraph without running it, which gives a handle, picks one of several handles, or
calls what is behind a handle. A link says which subgraph goes on with the results of a call.

Arenas only ever grow, so a number that names an entry goes on naming it.
-/

namespace TailFlow

/-- The position of a tensor. -/
abbrev TensorId := Nat

/-- The position of a node. -/
abbrev NodeId := Nat

/-- The position of a subgraph. -/
abbrev SubgraphId := Nat

def TensorId.label (id : TensorId) : String := s!"%{id}"

def NodeId.label (id : NodeId) : String := s!"node#{id}"

def SubgraphId.label (id : SubgraphId) : String := s!"subgraph#{id}"

/-- The declared type of the elements of a tensor. -/
inductive ElementType where
  | f32
  | f16
  | bf16
  deriving DecidableEq, Repr, Inhabited

def ElementType.name : ElementType → String
  | .f32 => "f32"
  | .f16 => "f16"
  | .bf16 => "bf16"

/-- A tensor: a name, a type, and its elements if it is constant. -/
structure Tensor where
  name : String
  shape : List Nat
  elementType : ElementType
  constant : Option (List Float32)
  deriving DecidableEq, Inhabited

namespace Tensor

/-- Whether the tensor carries its elements. -/
def isConstant (tensor : Tensor) : Bool := tensor.constant.isSome

/-- The type of a tensor as texts show it: the lengths of the axes, then the element type. -/
def typeText (tensor : Tensor) : String :=
  "tensor<" ++ "x".intercalate (tensor.shape.map toString ++ [tensor.elementType.name]) ++ ">"

end Tensor

inductive KernelOp where
  | add
  | sub
  | mul
  | neg
  /-- Passes every operand on as the result of the same position. -/
  | copy
  /-- One where the left operand is less than the right one, and zero elsewhere. -/
  | less
  deriving DecidableEq, Repr, Inhabited

namespace KernelOp

def name : KernelOp → String
  | .add => "add"
  | .sub => "sub"
  | .mul => "mul"
  | .neg => "neg"
  | .copy => "copy"
  | .less => "less"

/-- The number of operands an operation takes, if it is fixed. -/
def arity : KernelOp → Option Nat
  | .add | .sub | .mul | .less => some 2
  | .neg => some 1
  | .copy => none

end KernelOp

/-- What a node does. -/
inductive NodeKind where
  | kernel (op : KernelOp)
  /-- Binds its inputs to the formals of a subgraph. Its one output is a handle. -/
  | bind (callee : SubgraphId)
  /-- Runs what is behind the handle that is its first input. -/
  | call
  /-- Picks its second input if the first one is true, and its third otherwise. -/
  | switch
  /-- Picks the input whose place, counted after the first one, the first one gives. -/
  | switchLayer
  deriving DecidableEq, Repr, Inhabited

namespace NodeKind

def mnemonic : NodeKind → String
  | .kernel op => op.name
  | .bind _ => "partial"
  | .call => "call"
  | .switch => "switch"
  | .switchLayer => "switch_layer"

def isSwitch : NodeKind → Bool
  | .switch | .switchLayer => true
  | _ => false

/-- The subgraph whose formals the node binds. -/
def callee? : NodeKind → Option SubgraphId
  | .bind callee => some callee
  | _ => none

end NodeKind

structure Node where
  name : String
  kind : NodeKind
  inputs : List TensorId
  outputs : List TensorId
  deriving DecidableEq, Repr, Inhabited

namespace Node

def isCall (node : Node) : Bool := node.kind = .call

/-- The subgraph whose formals the node binds. -/
def callee? (node : Node) : Option SubgraphId := node.kind.callee?

/-- The handles a switch picks from. -/
def branches (node : Node) : List TensorId :=
  if node.kind.isSwitch then node.inputs.drop 1 else []

end Node

/-- What a subgraph is for. -/
inductive SubgraphKind where
  | body
  /-- Goes on where a subgraph was cut off. -/
  | segment (origin : SubgraphId)
  /-- Takes the arguments of one caller to a body. -/
  | entrance (wrapped : SubgraphId)
  /-- Takes the results of a body to where callers want them. -/
  | exit (wrapped : SubgraphId)
  deriving DecidableEq, Repr, Inhabited

namespace SubgraphKind

def name : SubgraphKind → String
  | .body => "body"
  | .segment _ => "segment"
  | .entrance _ => "entrance"
  | .exit _ => "exit"

/-- Whether the subgraph stands around a body. -/
def isWrapper : SubgraphKind → Bool
  | .entrance _ | .exit _ => true
  | _ => false

/-- The subgraph that this one is entered after without being called. -/
def attachedTo? : SubgraphKind → Option SubgraphId
  | .segment origin => some origin
  | .exit wrapped => some wrapped
  | _ => none

end SubgraphKind

structure Subgraph where
  name : String
  kind : SubgraphKind
  inputs : List TensorId
  outputs : List TensorId
  nodes : List NodeId
  deriving DecidableEq, Repr, Inhabited

def Subgraph.lastNode? (subgraph : Subgraph) : Option NodeId := subgraph.nodes.getLast?

/-- Which subgraph goes on with the results of a call. The `consumer` is the node that reads the
`tensors` they are handed over in. -/
structure Link where
  call : NodeId
  continuation : SubgraphId
  consumer : NodeId
  tensors : List TensorId
  deriving DecidableEq, Repr, Inhabited

/-- A program. The `order` is the one in which its subgraphs are laid out for execution. -/
structure Program where
  tensors : Array Tensor
  nodes : Array Node
  subgraphs : Array Subgraph
  order : List SubgraphId
  entry : SubgraphId
  outputs : List TensorId
  links : IdMap Link
  deriving DecidableEq, Inhabited

end TailFlow
