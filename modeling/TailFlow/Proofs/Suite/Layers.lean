import TailFlow.Program.Builder
import TailFlow.Suite.RandomProgram

/-!
# Layered programs

In a layered program every subgraph is a row of steps, each of which is a kernel or a call of a
subgraph with a greater number. Every node writes the next tensor of the arena. Handles are read by
calls only, and a call stands right behind the binder whose handle it reads.
-/

namespace TailFlow

/-- The nodes of some steps of a subgraph, with the tensors that can be read before and after them, the
next tensor of the arena, and the number of steps. -/
inductive Steps (formals : List (List TensorId)) (index : SubgraphId) :
    List TensorId → TensorId → List Node → List TensorId → Nat → Prop where
  | done {live : List TensorId} {next : TensorId} : Steps formals index live next [] live 0
  | kernel {live live' : List TensorId} {next : TensorId} {nodes : List Node} {count : Nat}
      {name : String} {op : KernelOp} {operands : List TensorId}
      (harity : op.arity = some operands.length) (hlive : ∀ tensor ∈ operands, tensor ∈ live)
      (hrest : Steps formals index (live ++ [next]) (next + 1) nodes live' count) :
      Steps formals index live next (.ofKernel name op operands [next] :: nodes) live' (count + 1)
  | call {live live' : List TensorId} {next : TensorId} {nodes : List Node} {count : Nat}
      {bindName callName : String} {callee : SubgraphId} {inputs arguments : List TensorId}
      (hlater : index < callee) (hcallee : formals[callee]? = some inputs)
      (hlength : arguments.length = inputs.length) (hlive : ∀ tensor ∈ arguments, tensor ∈ live)
      (hrest : Steps formals index (live ++ [next + 1]) (next + 2) nodes live' count) :
      Steps formals index live next
        (.ofBinding bindName callee arguments next :: .ofCall callName next [next + 1] :: nodes)
        live' (count + 1)

/-- What the node at a place may read: a tensor that could be read from the start, or the result of a
node before it that makes no handle. -/
def ReadableAt (live : List TensorId) (next : TensorId) (nodes : List Node) (place : Nat)
    (tensor : TensorId) : Prop :=
  tensor ∈ live ∨ ∃ earlier < place, tensor = next + earlier
    ∧ ∃ writer, nodes[earlier]? = some writer ∧ writer.callee? = none

inductive StepNode (formals : List (List TensorId)) (index : SubgraphId) (live : List TensorId)
    (next : TensorId) (nodes : List Node) (place : Nat) : Node → Prop where
  | kernel {name : String} {op : KernelOp} {operands : List TensorId}
      (harity : op.arity = some operands.length)
      (hreads : ∀ tensor ∈ operands, ReadableAt live next nodes place tensor) :
      StepNode formals index live next nodes place (.ofKernel name op operands [next + place])
  | bind {name callName : String} {callee : SubgraphId} {inputs arguments : List TensorId}
      (hlater : index < callee) (hcallee : formals[callee]? = some inputs)
      (hlength : arguments.length = inputs.length)
      (hreads : ∀ tensor ∈ arguments, ReadableAt live next nodes place tensor)
      (hcall : nodes[place + 1]? = some (.ofCall callName (next + place) [next + (place + 1)])) :
      StepNode formals index live next nodes place
        (.ofBinding name callee arguments (next + place))
  | call {name bindName : String} {callee : SubgraphId} {arguments : List TensorId} {before : Nat}
      (hplace : place = before + 1)
      (hbinder : nodes[before]? = some (.ofBinding bindName callee arguments (next + before))) :
      StepNode formals index live next nodes place (.ofCall name (next + before) [next + place])

section Behind

variable {formals : List (List TensorId)} {index : SubgraphId} {live : List TensorId}
  {next : TensorId} (front : List Node) {nodes : List Node} {last node : Node} {place : Nat}

theorem getElem?_behind (last : Node) (nodes : List Node) (place : Nat) :
    (front ++ last :: nodes)[place + (front.length + 1)]? = nodes[place]? := by
  rw [← Nat.add_assoc, Nat.add_right_comm, List.getElem?_append_right (Nat.le_add_left _ _),
    Nat.add_sub_cancel, List.getElem?_cons_succ]

theorem ReadableAt.behind {tensor : TensorId} (hlast : last.callee? = none)
    (h : ReadableAt (live ++ [next + front.length]) (next + (front.length + 1)) nodes place tensor) :
    ReadableAt live next (front ++ last :: nodes) (place + (front.length + 1)) tensor := by
  rcases h with hlive | ⟨earlier, hlt, rfl, hwriter⟩
  · rcases List.mem_append.mp hlive with hlive | hsame
    · exact .inl hlive
    · refine .inr ⟨front.length, by omega, List.mem_singleton.mp hsame, last, ?_, hlast⟩
      rw [List.getElem?_append_right (Nat.le_refl _), Nat.sub_self, List.getElem?_cons_zero]
  · refine .inr ⟨earlier + (front.length + 1), by omega, ?_, ?_⟩
    · rw [Nat.add_assoc, Nat.add_comm earlier]
    · rwa [getElem?_behind]

/-- Some nodes and one that makes no handle go before the steps, which can read what the latter
writes. -/
theorem StepNode.behind (hlast : last.callee? = none)
    (h : StepNode formals index (live ++ [next + front.length]) (next + (front.length + 1)) nodes
      place node) :
    StepNode formals index live next (front ++ last :: nodes) (place + (front.length + 1)) node := by
  have hmove (place : Nat) : next + (front.length + 1) + place = next + (place + (front.length + 1)) := by
    rw [Nat.add_assoc, Nat.add_comm place]
  cases h with
  | kernel harity hreads =>
    rw [hmove]
    exact .kernel harity fun tensor hmem => (hreads tensor hmem).behind front hlast
  | bind hlater hcallee hlength hreads hcall =>
    rw [hmove, hmove, ← getElem?_behind front last, Nat.add_right_comm place 1] at hcall
    rw [hmove]
    exact .bind hlater hcallee hlength (fun tensor hmem => (hreads tensor hmem).behind front hlast) hcall
  | @call _ _ _ _ before hplace hbinder =>
    rw [hmove, ← getElem?_behind front last] at hbinder
    rw [hmove, hmove]
    exact .call (by rw [hplace, Nat.add_right_comm]) hbinder

end Behind

namespace Steps

variable {formals : List (List TensorId)} {index : SubgraphId} {live live' : List TensorId}
  {next : TensorId} {nodes : List Node} {count : Nat}

/-- Every node of some steps is one of a kernel, of a binder, or of the call of the binder before it. -/
theorem stepNode (h : Steps formals index live next nodes live' count) {place : Nat} {node : Node}
    (hnode : nodes[place]? = some node) : StepNode formals index live next nodes place node := by
  induction h generalizing place with
  | done => exact nomatch hnode
  | kernel harity hlive _ ih =>
    cases place with
    | zero =>
      rw [← Option.some.inj hnode]
      exact .kernel harity fun tensor hmem => .inl (hlive tensor hmem)
    | succ place => exact .behind [] rfl (ih hnode)
  | call hlater hcallee hlength hlive _ ih =>
    match place with
    | 0 =>
      rw [← Option.some.inj hnode]
      exact .bind hlater hcallee hlength (fun tensor hmem => .inl (hlive tensor hmem)) rfl
    | 1 =>
      rw [← Option.some.inj hnode]
      exact .call rfl rfl
    | place + 2 => exact .behind [_] rfl (ih hnode)

/-- What can be read in the end could be read from the start or is the result of a node. -/
theorem readable (h : Steps formals index live next nodes live' count) {tensor : TensorId}
    (hmem : tensor ∈ live') : ReadableAt live next nodes nodes.length tensor := by
  induction h with
  | done => exact .inl hmem
  | kernel _ _ _ ih => exact .behind [] rfl (ih hmem)
  | call _ _ _ _ _ ih => exact .behind [_] rfl (ih hmem)

theorem subset_live (h : Steps formals index live next nodes live' count) : live ⊆ live' := by
  induction h with
  | done => exact List.Subset.refl _
  | kernel _ _ _ ih => exact List.Subset.trans (List.subset_append_left _ _) ih
  | call _ _ _ _ _ ih => exact List.Subset.trans (List.subset_append_left _ _) ih

theorem length_nodes_le (h : Steps formals index live next nodes live' count) :
    nodes.length ≤ 2 * count := by
  induction h with
  | done => exact Nat.le_refl 0
  | kernel _ _ _ ih =>
    rw [List.length_cons]
    omega
  | call _ _ _ _ _ ih =>
    rw [List.length_cons, List.length_cons]
    omega

theorem trans (h : Steps formals index live next nodes live' count) {nodes' : List Node}
    {live'' : List TensorId} {count' : Nat}
    (h' : Steps formals index live' (next + nodes.length) nodes' live'' count') :
    Steps formals index live next (nodes ++ nodes') live'' (count' + count) := by
  induction h with
  | done => exact h'
  | @kernel _ _ next nodes _ _ _ _ harity hlive _ ih =>
    rw [List.length_cons, Nat.add_comm nodes.length, ← Nat.add_assoc] at h'
    exact .kernel harity hlive (ih h')
  | @call _ _ next nodes _ _ _ _ _ _ hlater hcallee hlength hlive _ ih =>
    rw [List.length_cons, List.length_cons, Nat.add_comm (nodes.length + 1),
      Nat.add_comm nodes.length, ← Nat.add_assoc, ← Nat.add_assoc] at h'
    exact .call hlater hcallee hlength hlive (ih h')

end Steps

/-! ### Layers -/

/-- A subgraph of a layered program. Its nodes stand in a row in the arena, and so do the tensors that
they write. -/
structure Layer where
  name : String
  inputs : List TensorId
  nodes : List Node
  /-- The tensors that can be read behind the last node. -/
  live : List TensorId
  steps : Nat
  firstNode : NodeId
  firstTensor : TensorId

namespace Layer

def subgraph (layer : Layer) : Subgraph :=
  ⟨layer.name, .body, layer.inputs, layer.live.getLast?.toList,
    List.range' layer.firstNode layer.nodes.length⟩

/-- What the layer adds to the arenas stands before what the other layer adds. -/
def Behind (other layer : Layer) : Prop :=
  layer.firstNode + layer.nodes.length ≤ other.firstNode
    ∧ layer.firstTensor + layer.nodes.length ≤ other.firstTensor

/-- The layer is a row of at most four steps, and it is in the arenas. -/
structure Stands (layer : Layer) (formals : List (List TensorId)) (index : SubgraphId)
    (builder : ProgramBuilder) : Prop where
  steps_eq : Steps formals index layer.inputs layer.firstTensor layer.nodes layer.live layer.steps
  steps_le : layer.steps ≤ 4
  formals_eq : formals[index]? = some layer.inputs
  subgraph_eq : builder.subgraphs[index]? = some layer.subgraph
  nodes_eq : ∀ place < layer.nodes.length,
    builder.nodes[layer.firstNode + place]? = layer.nodes[place]?
  nodes_le : layer.firstNode + layer.nodes.length ≤ builder.nodes.size
  tensors_ge : formals.flatten.length ≤ layer.firstTensor
  tensors_le : layer.firstTensor + layer.nodes.length ≤ builder.tensors.size

theorem Stands.grow {layer : Layer} {formals : List (List TensorId)}
    {index : SubgraphId} {builder after : ProgramBuilder}
    (h : layer.Stands formals index builder) (htensors : builder.tensors.size ≤ after.tensors.size)
    {more : List Node} (hnodes : after.nodes = builder.nodes ++ more.toArray)
    (hsubgraph : after.subgraphs[index]? = builder.subgraphs[index]?) :
    layer.Stands formals index after where
  steps_eq := h.steps_eq
  steps_le := h.steps_le
  formals_eq := h.formals_eq
  subgraph_eq := hsubgraph.trans h.subgraph_eq
  nodes_eq := by
    intro place hlt
    rw [hnodes, Array.getElem?_append_left (Nat.lt_of_lt_of_le (Nat.add_lt_add_left hlt _) h.nodes_le)]
    exact h.nodes_eq place hlt
  nodes_le := by
    rw [hnodes, Array.size_append]
    exact Nat.le_trans h.nodes_le (Nat.le_add_right _ _)
  tensors_ge := h.tensors_ge
  tensors_le := Nat.le_trans h.tensors_le htensors

theorem Stands.length_nodes_le {layer : Layer} {formals : List (List TensorId)} {index : SubgraphId}
    {builder : ProgramBuilder} (h : layer.Stands formals index builder) : layer.nodes.length ≤ 8 :=
  Nat.le_trans h.steps_eq.length_nodes_le (Nat.mul_le_mul_left 2 h.steps_le)

end Layer

/-- The builder holds the formals of all subgraphs and the last layers of a program. Layers are built
from the last one on. -/
structure Built (formals : List (List TensorId)) (layers : List Layer) (builder : ProgramBuilder) :
    Prop where
  formals_eq : formals.flatten = List.range formals.flatten.length
  formals_ne : ∀ inputs ∈ formals, inputs ≠ []
  shapes : ∀ id < formals.flatten.length, ∃ tensor, builder.tensors[id]? = some tensor
    ∧ tensor.shape = RandomProgram.shape
  plain : ∀ tensor ∈ builder.tensors, tensor.constant = none
  size_eq : builder.subgraphs.size = formals.length
  length_le : layers.length ≤ formals.length
  bodies : ∀ subgraph ∈ builder.subgraphs, subgraph.kind = .body
  stands : ∀ ⦃place : Nat⦄ ⦃layer : Layer⦄, layers[place]? = some layer →
    layer.Stands formals (formals.length - layers.length + place) builder
  apart : layers.Pairwise Layer.Behind

/-- The program consists of at most five layers and starts with the first one. -/
structure Layered (formals : List (List TensorId)) (layers : List Layer) (P : Program) : Prop where
  built : Built formals layers ⟨P.tensors, P.nodes, P.subgraphs⟩
  length_eq : layers.length = formals.length
  length_pos : 0 < layers.length
  length_le : layers.length ≤ 5
  order_eq : P.order = P.subgraphIds
  entry_eq : P.entry = 0
  outputs_eq : P.subgraphs[0]?.map Subgraph.outputs = some P.outputs
  links_eq : P.links = .empty

end TailFlow
