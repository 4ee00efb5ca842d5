import TailFlow.Proofs.Handles.Tracing
import TailFlow.Proofs.Program.Checking
import TailFlow.Proofs.Runs.Closed
import TailFlow.Proofs.Runs.Recursion
import TailFlow.Proofs.Suite.Layers

/-!
# What layered programs are like

A layered program is valid, in single assignment form and closed. Every binder has one call, which
stands right behind it, and leads to a subgraph with a greater number, so no call waits for its own
subgraph.
-/

namespace TailFlow

open Program

namespace StepNode

variable {formals : List (List TensorId)} {index : SubgraphId} {live : List TensorId}
  {next : TensorId} {nodes : List Node} {place : Nat} {node : Node}

theorem outputs_eq (h : StepNode formals index live next nodes place node) :
    node.outputs = [next + place] := by
  cases h <;> rfl

theorem kind_cases (h : StepNode formals index live next nodes place node) :
    node.kind.isSwitch = false := by
  cases h <;> rfl

end StepNode

theorem Layer.place_unique {start : Layer → Nat} {layers : List Layer}
    (hapart : layers.Pairwise fun first second => start second + second.nodes.length ≤ start first)
    {i j : Nat} {first second : Layer} (hfirst : layers[i]? = some first)
    (hsecond : layers[j]? = some second) {p q : Nat} (hp : p < first.nodes.length)
    (hq : q < second.nodes.length) (hsame : start first + p = start second + q) : i = j ∧ p = q := by
  obtain ⟨hi, rfl⟩ := List.getElem?_eq_some_iff.mp hfirst
  obtain ⟨hj, rfl⟩ := List.getElem?_eq_some_iff.mp hsecond
  rw [List.pairwise_iff_getElem] at hapart
  rcases Nat.lt_trichotomy i j with hlt | rfl | hlt
  · have := hapart i j hi hj hlt
    omega
  · exact ⟨rfl, by omega⟩
  · have := hapart j i hj hi hlt
    omega

namespace Layered

variable {formals : List (List TensorId)} {layers : List Layer} {P : Program}
  (h : Layered formals layers P)

include h

theorem stands {index : SubgraphId} {layer : Layer} (hlayer : layers[index]? = some layer) :
    layer.Stands formals index ⟨P.tensors, P.nodes, P.subgraphs⟩ := by
  have hstands := h.built.stands hlayer
  rwa [h.length_eq, Nat.sub_self, Nat.zero_add] at hstands

theorem exists_layer {index : SubgraphId} {inputs : List TensorId}
    (hinputs : formals[index]? = some inputs) :
    ∃ layer, layers[index]? = some layer ∧ layer.inputs = inputs := by
  obtain ⟨hlt, -⟩ := List.getElem?_eq_some_iff.mp hinputs
  have hlayer := List.getElem?_eq_getElem (h.length_eq.symm ▸ hlt)
  exact ⟨_, hlayer, Option.some.inj ((h.stands hlayer).formals_eq.symm.trans hinputs)⟩

theorem layer_of_subgraph {index : SubgraphId} {subgraph : Subgraph}
    (hsubgraph : P.subgraphs[index]? = some subgraph) :
    ∃ layer, layers[index]? = some layer ∧ subgraph = layer.subgraph := by
  obtain ⟨layer, hlayer, -⟩ := h.exists_layer
    (List.getElem?_eq_getElem (h.built.size_eq ▸ subgraph_lt hsubgraph))
  exact ⟨layer, hlayer, Option.some.inj (hsubgraph.symm.trans (h.stands hlayer).subgraph_eq)⟩

theorem layer_of_lists {owner : SubgraphId} {id : NodeId} {node : Node}
    (hlists : P.Lists ⟨owner, id, node⟩) : ∃ layer place, layers[owner]? = some layer
      ∧ layer.nodes[place]? = some node ∧ id = layer.firstNode + place
      ∧ StepNode formals owner layer.inputs layer.firstTensor layer.nodes place node := by
  obtain ⟨subgraph, hsubgraph, hmem, hnode⟩ := hlists
  obtain ⟨layer, hlayer, rfl⟩ := h.layer_of_subgraph hsubgraph
  obtain ⟨place, hlt, hid⟩ := List.mem_range'.mp hmem
  rw [Nat.one_mul] at hid
  obtain rfl : id = layer.firstNode + place := hid
  have hstands := h.stands hlayer
  have hat := (hstands.nodes_eq place hlt).symm.trans hnode
  exact ⟨layer, place, hlayer, hat, rfl, hstands.steps_eq.stepNode hat⟩

theorem lists_of_layer {index : SubgraphId} {layer : Layer} (hlayer : layers[index]? = some layer)
    {place : Nat} {node : Node} (hnode : layer.nodes[place]? = some node) :
    P.Lists ⟨index, layer.firstNode + place, node⟩ := by
  have hstands := h.stands hlayer
  obtain ⟨hlt, -⟩ := List.getElem?_eq_some_iff.mp hnode
  refine ⟨layer.subgraph, hstands.subgraph_eq, List.mem_range'.mpr ⟨place, hlt, by rw [Nat.one_mul]⟩, ?_⟩
  exact (hstands.nodes_eq place hlt).trans hnode

theorem input_lt {index : SubgraphId} {inputs : List TensorId} (hinputs : formals[index]? = some inputs)
    {tensor : TensorId} (hmem : tensor ∈ inputs) : tensor < formals.flatten.length := by
  have hflat : tensor ∈ formals.flatten := List.mem_flatten.mpr ⟨_, List.mem_of_getElem? hinputs, hmem⟩
  rw [h.built.formals_eq] at hflat
  exact List.mem_range.mp hflat

theorem tensor_lt {index : SubgraphId} {layer : Layer} (hlayer : layers[index]? = some layer)
    {place : Nat} {tensor : TensorId}
    (hreads : ReadableAt layer.inputs layer.firstTensor layer.nodes place tensor) :
    tensor < layer.firstTensor + place := by
  have hstands := h.stands hlayer
  rcases hreads with hinput | ⟨earlier, hlt, rfl, -⟩
  · exact Nat.lt_of_lt_of_le (h.input_lt hstands.formals_eq hinput)
      (Nat.le_trans hstands.tensors_ge (Nat.le_add_right _ _))
  · exact Nat.add_lt_add_left hlt _

theorem tensor_lt_size {index : SubgraphId} {layer : Layer} (hlayer : layers[index]? = some layer)
    {place : Nat} (hplace : place ≤ layer.nodes.length) {tensor : TensorId}
    (hreads : ReadableAt layer.inputs layer.firstTensor layer.nodes place tensor) :
    tensor < P.tensors.size :=
  Nat.lt_of_lt_of_le (h.tensor_lt hlayer hreads)
    (Nat.le_trans (Nat.add_le_add_left hplace _) (h.stands hlayer).tensors_le)

/-! ### Validity -/

theorem allBodies : P.AllBodies :=
  fun _ _ hsubgraph => h.built.bodies _ (Array.mem_of_getElem? hsubgraph)

theorem wellFormed : P.WellFormed where
  order := h.order_eq ▸ List.Perm.refl _
  entry := by
    rw [h.entry_eq, h.built.size_eq, ← h.length_eq]
    exact h.length_pos
  inArena := by
    intro owner subgraph hsubgraph id hmem
    obtain ⟨layer, hlayer, rfl⟩ := h.layer_of_subgraph hsubgraph
    exact Nat.lt_of_lt_of_le (List.mem_range'_1.mp hmem).2 (h.stands hlayer).nodes_le
  nodup := by
    intro owner subgraph hsubgraph
    obtain ⟨layer, -, rfl⟩ := h.layer_of_subgraph hsubgraph
    exact List.nodup_range'
  apart := by
    intro first second a b hfirst hsecond id hmem hmem'
    obtain ⟨layer, hlayer, rfl⟩ := h.layer_of_subgraph hfirst
    obtain ⟨layer', hlayer', rfl⟩ := h.layer_of_subgraph hsecond
    obtain ⟨place, hlt, rfl⟩ := List.mem_range'.mp hmem
    obtain ⟨place', hlt', hsame⟩ := List.mem_range'.mp hmem'
    rw [Nat.one_mul, Nat.one_mul] at hsame
    exact (Layer.place_unique (h.built.apart.imp And.left) hlayer hlayer' hlt hlt' hsame).1
  interface := by
    intro owner subgraph hsubgraph tensor hmem
    obtain ⟨layer, hlayer, rfl⟩ := h.layer_of_subgraph hsubgraph
    refine h.tensor_lt_size hlayer (Nat.le_refl _) ?_
    rcases List.mem_append.mp hmem with hinput | houtput
    · exact .inl hinput
    · exact (h.stands hlayer).steps_eq.readable
        (List.mem_of_getLast? (Option.mem_toList.mp houtput))
  operands := by
    intro ⟨owner, id, node⟩ hlists tensor hmem
    obtain ⟨layer, place, hlayer, hat, -, hnode⟩ := h.layer_of_lists hlists
    obtain ⟨hlt, -⟩ := List.getElem?_eq_some_iff.mp hat
    rcases List.mem_append.mp hmem with hinput | houtput
    · cases hnode with
      | kernel _ hreads => exact h.tensor_lt_size hlayer (Nat.le_of_lt hlt) (hreads tensor hinput)
      | bind _ _ _ hreads _ => exact h.tensor_lt_size hlayer (Nat.le_of_lt hlt) (hreads tensor hinput)
      | call hplace _ =>
        rw [List.mem_singleton.mp hinput]
        exact Nat.lt_of_lt_of_le (Nat.add_lt_add_left (by omega) _) (h.stands hlayer).tensors_le
    · rw [hnode.outputs_eq] at houtput
      rw [List.mem_singleton.mp houtput]
      exact Nat.lt_of_lt_of_le (Nat.add_lt_add_left hlt _) (h.stands hlayer).tensors_le
  fits := by
    intro ⟨owner, id, node⟩ hlists
    obtain ⟨layer, place, -, -, -, hnode⟩ := h.layer_of_lists hlists
    cases hnode with
    | kernel harity _ =>
      simp [Fits, Node.ofKernel, harity]
    | bind _ hcallee hlength _ _ =>
      obtain ⟨layer', hlayer', rfl⟩ := h.exists_layer hcallee
      exact ⟨layer'.subgraph, (h.stands hlayer').subgraph_eq, hlength, rfl⟩
    | call _ _ => exact List.cons_ne_nil _ _

theorem validate_eq_ok : P.validate = .ok () := by
  refine Program.validate_eq_ok.mpr ⟨h.wellFormed, ?_, ?_, ?_⟩
  · intro tensor hmem
    obtain ⟨subgraph, hsubgraph, houtputs⟩ := Option.map_eq_some_iff.mp h.outputs_eq
    exact h.wellFormed.interface hsubgraph tensor (List.mem_append_right _ (houtputs ▸ hmem))
  · intro id tensor values htensor hvalues
    rw [h.built.plain tensor (Array.mem_of_getElem? htensor)] at hvalues
    exact nomatch hvalues
  · intro call link hlink
    rw [h.links_eq] at hlink
    exact nomatch hlink

/-! ### What is written and read -/

theorem written_eq {index : SubgraphId} {layer : Layer} (hlayer : layers[index]? = some layer) :
    P.written layer.subgraph
      = layer.inputs ++ List.range' layer.firstTensor layer.nodes.length := by
  have hstands := h.stands hlayer
  refine congrArg (layer.inputs ++ ·) ?_
  show P.writes (List.range' _ _) = _
  rw [List.range'_eq_map_range, List.range'_eq_map_range, List.map_eq_flatMap, List.map_eq_flatMap,
    writes, List.flatMap_assoc]
  refine List.flatMap_congr fun place hmem => ?_
  have hlt := List.mem_range.mp hmem
  have hnode := List.getElem?_eq_getElem hlt
  rw [List.flatMap_singleton, (hstands.nodes_eq place hlt).trans hnode]
  exact (hstands.steps_eq.stepNode hnode).outputs_eq

theorem mem_written {index : SubgraphId} {layer : Layer} (hlayer : layers[index]? = some layer)
    {tensor : TensorId} (hmem : tensor ∈ P.written layer.subgraph) :
    tensor ∈ layer.inputs ∧ tensor < formals.flatten.length
      ∨ formals.flatten.length ≤ tensor
        ∧ ∃ place < layer.nodes.length, tensor = layer.firstTensor + place := by
  have hstands := h.stands hlayer
  rw [h.written_eq hlayer] at hmem
  rcases List.mem_append.mp hmem with hinput | hout
  · exact .inl ⟨hinput, h.input_lt hstands.formals_eq hinput⟩
  · obtain ⟨place, hlt, hsame⟩ := List.mem_range'.mp hout
    rw [Nat.one_mul] at hsame
    exact .inr ⟨hsame ▸ Nat.le_trans hstands.tensors_ge (Nat.le_add_right _ _), place, hlt, hsame⟩

theorem singleAssignment : P.SingleAssignment where
  nodup := by
    have hformals : formals.flatten.Nodup := h.built.formals_eq ▸ List.nodup_range
    obtain ⟨heach, hapart⟩ := List.nodup_flatten.mp hformals
    rw [List.nodup_flatMap]
    constructor
    · intro subgraph hmem
      obtain ⟨index, hsubgraph⟩ := Array.getElem?_of_mem (Array.mem_toList_iff.mp hmem)
      obtain ⟨layer, hlayer, rfl⟩ := h.layer_of_subgraph hsubgraph
      have hstands := h.stands hlayer
      rw [h.written_eq hlayer, List.nodup_append]
      refine ⟨heach _ (List.mem_of_getElem? hstands.formals_eq), List.nodup_range', ?_⟩
      rintro input hinput tensor hout rfl
      exact Nat.not_lt.mpr (Nat.le_trans hstands.tensors_ge (List.mem_range'_1.mp hout).1)
        (h.input_lt hstands.formals_eq hinput)
    · rw [List.pairwise_iff_getElem]
      intro first second hfirst hsecond hlt tensor hmem hmem'
      obtain ⟨layer, hlayer, hsame⟩ := h.layer_of_subgraph (Array.getElem?_eq_getElem hfirst)
      obtain ⟨layer', hlayer', hsame'⟩ := h.layer_of_subgraph (Array.getElem?_eq_getElem hsecond)
      rw [Array.getElem_toList, hsame] at hmem
      rw [Array.getElem_toList, hsame'] at hmem'
      rcases h.mem_written hlayer hmem with ⟨hinput, hless⟩ | ⟨hge, place, hplace, rfl⟩ <;>
        rcases h.mem_written hlayer' hmem' with ⟨hinput', hless'⟩ | ⟨hge', place', hplace', hsame''⟩
      · obtain ⟨hi, hat⟩ := List.getElem?_eq_some_iff.mp (h.stands hlayer).formals_eq
        obtain ⟨hj, hat'⟩ := List.getElem?_eq_some_iff.mp (h.stands hlayer').formals_eq
        rw [← hat] at hinput
        rw [← hat'] at hinput'
        exact List.pairwise_iff_getElem.mp hapart first second hi hj hlt hinput hinput'
      · exact Nat.not_lt.mpr hge' hless
      · exact Nat.not_lt.mpr hge hless'
      · obtain ⟨rfl, -⟩ := Layer.place_unique (h.built.apart.imp And.right) hlayer hlayer' hplace
          hplace' hsame''
        exact Nat.lt_irrefl _ hlt
  plain := by
    intro subgraph _ tensor _
    unfold Plain
    cases htensor : P.tensors[tensor]? with
    | none => rfl
    | some found =>
      show (!found.constant.isSome) = true
      rw [h.built.plain found (Array.mem_of_getElem? htensor)]
      rfl

theorem not_isHandle {owner : SubgraphId} {layer : Layer} (hlayer : layers[owner]? = some layer)
    {place : Nat} (hplace : place ≤ layer.nodes.length) {tensor : TensorId}
    (hreads : ReadableAt layer.inputs layer.firstTensor layer.nodes place tensor) :
    ¬ P.IsHandle tensor := by
  rintro ⟨⟨owner', id', node'⟩, hwriter, hgives, hout⟩
  obtain ⟨layer', place', hlayer', hat', -, hnode'⟩ := h.layer_of_lists hwriter
  obtain ⟨hlt', -⟩ := List.getElem?_eq_some_iff.mp hat'
  rw [hnode'.outputs_eq] at hout
  obtain rfl := List.mem_singleton.mp hout
  rcases hreads with hinput | ⟨earlier, hlt, hsame, writer, hwriter, hnone⟩
  · exact Nat.not_lt.mpr (Nat.le_trans (h.stands hlayer').tensors_ge (Nat.le_add_right _ _))
      (h.input_lt (h.stands hlayer).formals_eq hinput)
  · obtain ⟨rfl, rfl⟩ := Layer.place_unique (h.built.apart.imp And.right) hlayer' hlayer hlt'
      (Nat.lt_of_lt_of_le hlt hplace) hsame
    obtain rfl := Option.some.inj (hlayer'.symm.trans hlayer)
    obtain rfl := Option.some.inj (hat'.symm.trans hwriter)
    simp [Node.givesHandle, hnode'.kind_cases, hnone] at hgives

theorem precedes {index : SubgraphId} {layer : Layer} (hlayer : layers[index]? = some layer)
    {first second : Nat} (hlt : first < second) (hsecond : second < layer.nodes.length) :
    P.Precedes index (layer.firstNode + first) (layer.firstNode + second) := by
  refine ⟨layer.subgraph, (h.stands hlayer).subgraph_eq, ?_⟩
  have hsplit : layer.subgraph.nodes = List.range' layer.firstNode second
      ++ List.range' (layer.firstNode + second) (layer.nodes.length - second) := by
    rw [List.range'_append_1, Nat.add_sub_cancel' (Nat.le_of_lt hsecond)]
    rfl
  rw [hsplit]
  refine (List.singleton_sublist.mpr ?_).append (List.singleton_sublist.mpr ?_) <;>
    rw [List.mem_range'_1]
  · exact ⟨Nat.le_add_right _ _, Nat.add_lt_add_left hlt _⟩
  · omega

theorem closed : P.Closed := by
  intro ⟨owner, id, node⟩ hreader tensor hmem
  obtain ⟨layer, place, hlayer, hat, rfl, hnode⟩ := h.layer_of_lists (mem_allListed.mp hreader)
  obtain ⟨hlt, -⟩ := List.getElem?_eq_some_iff.mp hat
  have hearlier {before : Nat} (hbefore : before < place) {writer : Node}
      (hwriter : layer.nodes[before]? = some writer) :
      P.Readable ⟨owner, layer.firstNode + place, node⟩ (layer.firstTensor + before) := by
    refine .inr (.inr ⟨_, mem_allListed.mpr (h.lists_of_layer hlayer hwriter), rfl, ?_,
      h.precedes hlayer hbefore hlt⟩)
    rw [((h.stands hlayer).steps_eq.stepNode hwriter).outputs_eq]
    exact List.mem_singleton_self _
  have hall (hreads : ReadableAt layer.inputs layer.firstTensor layer.nodes place tensor) :
      P.Readable ⟨owner, layer.firstNode + place, node⟩ tensor := by
    rcases hreads with hinput | ⟨before, hbefore, rfl, writer, hwriter, -⟩
    · exact .inr (.inl ⟨layer.subgraph, (h.stands hlayer).subgraph_eq, hinput⟩)
    · exact hearlier hbefore hwriter
  cases hnode with
  | kernel _ hreads => exact hall (hreads tensor hmem)
  | bind _ _ _ hreads _ => exact hall (hreads tensor hmem)
  | call hplace hbinder =>
    rw [List.mem_singleton.mp hmem]
    exact hearlier (hplace ▸ Nat.lt_succ_self _) hbinder

theorem handlesConfined : P.HandlesConfined where
  read := by
    intro ⟨owner, id, node⟩ handle place hreader hhandle hat
    obtain ⟨layer, _, hlayer, hat', -, hnode⟩ := h.layer_of_lists hreader
    obtain ⟨hlt, -⟩ := List.getElem?_eq_some_iff.mp hat'
    have hmem := List.mem_of_getElem? hat
    cases hnode with
    | kernel _ hreads =>
      exact absurd hhandle (h.not_isHandle hlayer (Nat.le_of_lt hlt) (hreads handle hmem))
    | bind _ _ _ hreads _ =>
      exact absurd hhandle (h.not_isHandle hlayer (Nat.le_of_lt hlt) (hreads handle hmem))
    | call _ _ =>
      obtain ⟨hplace, -⟩ := List.getElem?_eq_some_iff.mp hat
      exact .inl ⟨rfl, Nat.lt_one_iff.mp hplace⟩
  returned := by
    intro id subgraph hsubgraph tensor hmem
    obtain ⟨layer, hlayer, rfl⟩ := h.layer_of_subgraph hsubgraph
    exact h.not_isHandle hlayer (Nat.le_refl _)
      ((h.stands hlayer).steps_eq.readable (List.mem_of_getLast? (Option.mem_toList.mp hmem)))

/-! ### Calls -/

theorem branches_eq_nil {listed : ListedNode} (hlists : P.Lists listed) : listed.node.branches = [] := by
  obtain ⟨_, _, _, _, _, hnode⟩ := h.layer_of_lists hlists
  exact if_neg (by simp [hnode.kind_cases])

theorem exists_binder {owner : SubgraphId} {call : NodeId} {node : Node}
    (hlists : P.Lists ⟨owner, call, node⟩) (hcall : node.isCall) {handle : TensorId}
    (hhead : node.inputs.head? = some handle) : ∃ binder writer callee, call = binder + 1
      ∧ P.Lists ⟨owner, binder, writer⟩ ∧ writer.kind = .bind callee ∧ handle ∈ writer.outputs := by
  obtain ⟨layer, place, hlayer, -, rfl, hnode⟩ := h.layer_of_lists hlists
  cases hnode with
  | kernel _ _ => exact nomatch hcall
  | bind _ _ _ _ _ => exact nomatch hcall
  | call hplace hbinder =>
    obtain rfl := Option.some.inj hhead
    exact ⟨_, _, _, hplace ▸ rfl, h.lists_of_layer hlayer hbinder, rfl, List.mem_singleton_self _⟩

/-- The handle of a call is that of the binder before it only. -/
theorem binder_of_flows {owner : SubgraphId} {call binder : NodeId} {node : Node}
    (hlists : P.Lists ⟨owner, call, node⟩) (hcall : node.isCall) {handle : TensorId}
    (hhead : node.inputs.head? = some handle) (hflows : P.Flows binder handle) :
    call = binder + 1 ∧ ∃ writer, P.Lists ⟨owner, binder, writer⟩ := by
  obtain ⟨before, writer, callee, rfl, hwriter, -, hout⟩ := h.exists_binder hlists hcall hhead
  cases hflows with
  | picked _ hlists' hreads _ =>
    rw [h.branches_eq_nil hlists'] at hreads
    exact nomatch hreads
  | made hlists' hid _ hout' =>
    obtain rfl := h.singleAssignment.writer_unique hwriter hlists' hout hout'
    obtain rfl := hid
    exact ⟨rfl, writer, hwriter⟩

theorem reachesOne (binder : NodeId) : P.ReachesOne binder := by
  have hnext {call : NodeId} (hreaches : P.Reaches binder call) : call = binder + 1 := by
    obtain ⟨handle, hflows, ⟨owner, id, node⟩, hlists, rfl, hcall, hhead⟩ := hreaches
    exact (h.binder_of_flows hlists hcall hhead hflows).1
  exact fun first second hfirst hsecond => (hnext hfirst).trans (hnext hsecond).symm

/-- A binder names a subgraph with a greater number, and the call behind it runs that subgraph. -/
theorem binder_spec {owner callee : SubgraphId} {binder : NodeId} {node : Node}
    (hlists : P.Lists ⟨owner, binder, node⟩) (hkind : node.kind = .bind callee) :
    owner < callee ∧ callee < P.subgraphs.size ∧ P.Reaches binder (binder + 1) := by
  obtain ⟨layer, place, hlayer, -, rfl, hnode⟩ := h.layer_of_lists hlists
  cases hnode with
  | kernel _ _ => exact nomatch hkind
  | call _ _ => exact nomatch hkind
  | bind hlater hcallee _ _ hcall =>
    obtain rfl := NodeKind.bind.inj hkind
    refine ⟨hlater, h.built.size_eq ▸ (List.getElem?_eq_some_iff.mp hcallee).1, _,
      .made hlists rfl rfl (List.mem_singleton_self _), _, h.lists_of_layer hlayer hcall, rfl, rfl, rfl⟩

theorem resolved : ¬ P.Unresolved := by
  rintro ⟨call, handle, source, ⟨⟨owner, id, node⟩, hlists, rfl, hcall, hhead⟩, hcomes, hnot⟩
  obtain ⟨binder, writer, callee, -, hwriter, hkind, hout⟩ := h.exists_binder hlists hcall hhead
  rcases Relation.ReflTransGen.cases_head hcomes with rfl | ⟨_, ⟨listed, hlists', -, hbranch⟩, -⟩
  · refine hnot ⟨_, hwriter, Node.givesHandle_of_callee? ?_, hout⟩
    rw [callee?_eq_some.mpr hkind]
    rfl
  · rw [h.branches_eq_nil hlists'] at hbranch
    exact nomatch hbranch

theorem lt_of_callsInto {caller callee : SubgraphId} (hcalls : P.CallsInto caller callee) :
    caller < callee := by
  obtain ⟨⟨_, call, node⟩, handle, binder, hlists, rfl, hcall, hhead, hflows, listed, hnamed, hid,
    hkind⟩ := hcalls
  obtain ⟨-, writer, hwriter⟩ := h.binder_of_flows hlists hcall hhead hflows
  obtain rfl := h.wellFormed.lists_unique hnamed hwriter hid
  exact (h.binder_spec hwriter hkind).1

theorem le_of_callsOnTo {caller callee : SubgraphId} (hcalls : P.CallsOnTo caller callee) :
    caller ≤ callee := by
  induction hcalls with
  | refl => exact Nat.le_refl _
  | tail _ hstep ih => exact Nat.le_trans ih (Nat.le_of_lt (h.lt_of_callsInto hstep))

/-- Calls lead to greater numbers, so none leads back. -/
theorem acyclic : ¬ P.HasNonTailCycle := by
  rintro ⟨owner, call, callee, hruns, -, honTo⟩
  exact Nat.not_lt.mpr (h.le_of_callsOnTo honTo)
    (h.lt_of_callsInto (callsInto_iff.mpr ⟨call, hruns⟩))

end Layered

end TailFlow
