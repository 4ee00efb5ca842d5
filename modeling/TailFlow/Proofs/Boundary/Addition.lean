import TailFlow.Proofs.Handles.Separation
import TailFlow.Proofs.Schedule.TailCalls

/-!
# Adding a wrapper

Both kinds of wrapper are added in one way: fresh tensors, a few fresh nodes, and a subgraph that
lists them; an entrance also becomes what its caller names. `Addition` collects what there is to say
about such a step. A binder stays a binder when it is made to name another subgraph, so handles flow
as before, and the wrapper adds no more than a handle for its own call.
-/

namespace TailFlow

open Program

/-- A subgraph that is added with nodes and tensors of its own, and the binder that is made to name
it, if there is one. -/
structure Addition where
  extra : List Tensor
  nodes : List Node
  name : String
  kind : SubgraphKind
  inputs : List TensorId
  outputs : List TensorId
  order : List SubgraphId
  caller? : Option NodeId

namespace Addition

variable (a : Addition) (P : Program)

def subgraph : Subgraph :=
  ⟨a.name, a.kind, a.inputs, a.outputs, List.range' P.nodes.size a.nodes.length⟩

/-- A node that was there before. -/
def retargeted (id : NodeId) (node : Node) : Node :=
  if a.caller? = some id then { node with kind := .bind P.subgraphs.size } else node

def after : Program where
  tensors := P.tensors ++ a.extra.toArray
  nodes :=
    match a.caller? with
    | none => P.nodes ++ a.nodes.toArray
    | some caller => (P.nodes ++ a.nodes.toArray).modify caller fun node =>
      { node with kind := .bind P.subgraphs.size }
  subgraphs := P.subgraphs.push (a.subgraph P)
  order := a.order
  entry := P.entry
  outputs := P.outputs
  links := P.links

/-- The wrapper fits the program: it runs nothing but a kernel or its own call, which stands last and
writes its results, and it takes what the caller gives. -/
structure Applies : Prop where
  order_perm : a.order.Perm (P.subgraphs.size :: P.order)
  interface : ∀ tensor ∈ a.inputs ++ a.outputs, tensor < P.tensors.size + a.extra.length
  operands : ∀ node ∈ a.nodes, ∀ tensor ∈ node.inputs ++ node.outputs,
    tensor < P.tensors.size + a.extra.length
  fits : ∀ node ∈ a.nodes, P.Fits node
  noSwitch : ∀ node ∈ a.nodes, node.kind.isSwitch = false
  freshHandle : ∀ node ∈ a.nodes, node.callee?.isSome → ∀ tensor ∈ node.outputs,
    P.tensors.size ≤ tensor
  freshCall : ∀ node ∈ a.nodes, node.isCall → ∀ tensor, node.inputs.head? = some tensor →
    P.tensors.size ≤ tensor
  callLast : ∀ place node, a.nodes[place]? = some node → node.isCall →
    place + 1 = a.nodes.length ∧ node.outputs = a.outputs
  caller : ∀ id, a.caller? = some id → ∃ listed body target, P.Lists listed ∧ listed.id = id
    ∧ listed.node.kind = .bind body ∧ P.subgraphs[body]? = some target
    ∧ a.inputs.length = target.inputs.length

variable {a P}

@[simp] theorem after_entry : (a.after P).entry = P.entry := rfl

@[simp] theorem after_outputs : (a.after P).outputs = P.outputs := rfl

@[simp] theorem after_links : (a.after P).links = P.links := rfl

@[simp] theorem after_tensors : (a.after P).tensors = P.tensors ++ a.extra.toArray := rfl

theorem size_tensors_after : (a.after P).tensors.size = P.tensors.size + a.extra.length := by
  simp

@[simp] theorem size_nodes_after : (a.after P).nodes.size = P.nodes.size + a.nodes.length := by
  unfold after
  cases a.caller? <;> simp

@[simp] theorem size_subgraphs_after : (a.after P).subgraphs.size = P.subgraphs.size + 1 := by
  simp [after]

theorem node_after_old {id : NodeId} (hlt : id < P.nodes.size) :
    (a.after P).nodes[id]? = (P.nodes[id]?).map (a.retargeted P id) := by
  unfold after
  cases hcaller : a.caller? with
  | none =>
    have hsame : a.retargeted P id = fun node => node := by
      funext node
      simp [retargeted, hcaller]
    simp only [hsame, Option.map_id']
    exact Array.getElem?_append_left hlt
  | some caller =>
    dsimp only
    rw [Array.getElem?_modify, Array.getElem?_append_left hlt]
    by_cases hid : caller = id
    · rw [if_pos hid]
      congr 1
      funext node
      simp [retargeted, hcaller, hid]
    · have hsame : a.retargeted P id = fun node => node := by
        funext node
        simp [retargeted, hcaller, hid]
      rw [if_neg hid, hsame, Option.map_id']

theorem Applies.caller_lt (ha : a.Applies P) {caller : NodeId} (hcaller : a.caller? = some caller) :
    caller < P.nodes.size := by
  obtain ⟨listed, -, -, ⟨subgraph, -, -, hnode⟩, rfl, -⟩ := ha.caller caller hcaller
  exact node_lt hnode

theorem node_after_new (ha : a.Applies P) (place : Nat) :
    (a.after P).nodes[P.nodes.size + place]? = a.nodes[place]? := by
  have hnew : (P.nodes ++ a.nodes.toArray)[P.nodes.size + place]? = a.nodes[place]? := by
    rw [Array.getElem?_append_right (Nat.le_add_right _ _), Nat.add_sub_cancel_left]
    simp
  unfold after
  cases hcaller : a.caller? with
  | none => exact hnew
  | some caller =>
    dsimp only
    have hne : caller ≠ P.nodes.size + place :=
      Nat.ne_of_lt (Nat.lt_add_right _ (ha.caller_lt hcaller))
    rw [Array.getElem?_modify, if_neg hne, hnew]

theorem subgraph_after_old {id : SubgraphId} (hlt : id < P.subgraphs.size) :
    (a.after P).subgraphs[id]? = P.subgraphs[id]? := by
  simp only [after, Array.getElem?_push, if_neg (Nat.ne_of_lt hlt)]

theorem subgraph_after_new : (a.after P).subgraphs[P.subgraphs.size]? = some (a.subgraph P) := by
  simp only [after, Array.getElem?_push, if_pos]

theorem subgraph_after_cases {id : SubgraphId} {subgraph : Subgraph}
    (hsubgraph : (a.after P).subgraphs[id]? = some subgraph) :
    P.subgraphs[id]? = some subgraph ∨ (id = P.subgraphs.size ∧ subgraph = a.subgraph P) := by
  have hlt := subgraph_lt hsubgraph
  rw [size_subgraphs_after] at hlt
  rcases Nat.lt_succ_iff_lt_or_eq.mp hlt with hold | rfl
  · rw [subgraph_after_old hold] at hsubgraph
    exact .inl hsubgraph
  · rw [subgraph_after_new] at hsubgraph
    exact .inr ⟨rfl, (Option.some.inj hsubgraph).symm⟩

theorem keepsFormals_after : P.KeepsFormals (a.after P) := fun _ subgraph hsubgraph =>
  ⟨subgraph, by rw [subgraph_after_old (subgraph_lt hsubgraph), hsubgraph], rfl, rfl⟩

/-! ### The listed nodes -/

theorem retargeted_cases (hP : P.WellFormed) (ha : a.Applies P) {listed : ListedNode}
    (hlists : P.Lists listed) : a.retargeted P listed.id listed.node = listed.node
      ∨ (a.caller? = some listed.id ∧ (∃ body target, listed.node.kind = .bind body
          ∧ P.subgraphs[body]? = some target ∧ a.inputs.length = target.inputs.length)
        ∧ a.retargeted P listed.id listed.node
          = { listed.node with kind := .bind P.subgraphs.size }) := by
  unfold retargeted
  split
  · rename_i hcaller
    obtain ⟨other, body, target, hother, hid, hkind, htarget, hlength⟩ := ha.caller _ hcaller
    obtain rfl := hP.lists_unique hother hlists hid
    exact .inr ⟨hcaller, ⟨body, target, hkind, htarget, hlength⟩, rfl⟩
  · exact .inl rfl

@[simp] theorem retargeted_inputs (id : NodeId) (node : Node) :
    (a.retargeted P id node).inputs = node.inputs := by
  unfold retargeted
  split <;> rfl

@[simp] theorem retargeted_outputs (id : NodeId) (node : Node) :
    (a.retargeted P id node).outputs = node.outputs := by
  unfold retargeted
  split <;> rfl

section Retargeted

variable (hP : P.WellFormed) (ha : a.Applies P) {listed : ListedNode} (hlists : P.Lists listed)

include hP ha hlists

theorem isCall_retargeted : (a.retargeted P listed.id listed.node).isCall = listed.node.isCall := by
  rcases retargeted_cases hP ha hlists with hsame | ⟨-, ⟨body, target, hkind, -⟩, hsame⟩
  · rw [hsame]
  · rw [hsame]
    simp [Node.isCall, hkind]

theorem callee?_retargeted :
    (a.retargeted P listed.id listed.node).callee?.isSome = listed.node.callee?.isSome := by
  rcases retargeted_cases hP ha hlists with hsame | ⟨-, ⟨body, target, hkind, -⟩, hsame⟩
  · rw [hsame]
  · rw [hsame]
    simp [Node.callee?, NodeKind.callee?, hkind]

theorem isSwitch_retargeted :
    (a.retargeted P listed.id listed.node).kind.isSwitch = listed.node.kind.isSwitch := by
  rcases retargeted_cases hP ha hlists with hsame | ⟨-, ⟨body, target, hkind, -⟩, hsame⟩
  · rw [hsame]
  · rw [hsame]
    simp [NodeKind.isSwitch, hkind]

theorem branches_retargeted :
    (a.retargeted P listed.id listed.node).branches = listed.node.branches := by
  unfold Node.branches
  rw [isSwitch_retargeted hP ha hlists, retargeted_inputs]

theorem givesHandle_retargeted :
    (a.retargeted P listed.id listed.node).givesHandle = listed.node.givesHandle := by
  unfold Node.givesHandle
  rw [isSwitch_retargeted hP ha hlists, callee?_retargeted hP ha hlists]

end Retargeted

theorem lists_after_old {listed : ListedNode} (hlists : P.Lists listed) :
    (a.after P).Lists { listed with node := a.retargeted P listed.id listed.node } := by
  obtain ⟨subgraph, hsubgraph, hid, hnode⟩ := hlists
  refine ⟨subgraph, by rw [subgraph_after_old (subgraph_lt hsubgraph), hsubgraph], hid, ?_⟩
  rw [node_after_old (node_lt hnode), hnode]
  rfl

theorem lists_after_cases (hP : P.WellFormed) (ha : a.Applies P) {listed : ListedNode}
    (hlists : (a.after P).Lists listed) :
    (∃ old, P.Lists old ∧ listed = { old with node := a.retargeted P old.id old.node })
      ∨ ∃ place node, a.nodes[place]? = some node
        ∧ listed = ⟨P.subgraphs.size, P.nodes.size + place, node⟩ := by
  obtain ⟨owner, id, node⟩ := listed
  obtain ⟨subgraph, hsubgraph, hid, hnode⟩ := hlists
  dsimp only at hsubgraph hid hnode
  rcases subgraph_after_cases hsubgraph with hbefore | ⟨rfl, rfl⟩
  · obtain ⟨old, hold, hlists⟩ := hP.exists_lists hbefore hid
    rw [node_after_old (node_lt hold), hold] at hnode
    obtain rfl := Option.some.inj hnode
    exact .inl ⟨⟨owner, id, old⟩, hlists, rfl⟩
  · obtain ⟨hle, hlt⟩ := List.mem_range'_1.mp hid
    obtain ⟨place, rfl⟩ := Nat.exists_eq_add_of_le hle
    rw [node_after_new ha] at hnode
    exact .inr ⟨place, node, hnode, rfl⟩

theorem wellFormed_after (hP : P.WellFormed) (ha : a.Applies P) : (a.after P).WellFormed where
  order := by
    show a.order.Perm (List.range _)
    rw [size_subgraphs_after, List.range_succ]
    refine ha.order_perm.trans ?_
    exact (hP.order.cons _).trans (List.perm_append_singleton _ _).symm
  entry := by
    rw [size_subgraphs_after]
    exact Nat.lt_succ_of_lt hP.entry
  inArena := by
    intro owner subgraph hsubgraph id hid
    rw [size_nodes_after]
    rcases subgraph_after_cases hsubgraph with hbefore | ⟨-, rfl⟩
    · exact Nat.lt_add_right _ (hP.inArena hbefore id hid)
    · exact (List.mem_range'_1.mp hid).2
  nodup := by
    intro owner subgraph hsubgraph
    rcases subgraph_after_cases hsubgraph with hbefore | ⟨-, rfl⟩
    · exact hP.nodup hbefore
    · exact List.nodup_range'
  apart := by
    intro first second b c hb hc id hidb hidc
    have hmixed {owner : SubgraphId} {before : Subgraph}
        (hbefore : P.subgraphs[owner]? = some before) (hmem : id ∈ before.nodes)
        (hnew : id ∈ (a.subgraph P).nodes) : False :=
      Nat.not_lt.mpr (List.mem_range'_1.mp hnew).1 (hP.inArena hbefore id hmem)
    rcases subgraph_after_cases hb with hbefore | ⟨hfirst, rfl⟩
    · rcases subgraph_after_cases hc with hbefore' | ⟨-, rfl⟩
      · exact hP.apart hbefore hbefore' id hidb hidc
      · exact (hmixed hbefore hidb hidc).elim
    · rcases subgraph_after_cases hc with hbefore' | ⟨hsecond, -⟩
      · exact (hmixed hbefore' hidc hidb).elim
      · exact hfirst.trans hsecond.symm
  interface := by
    intro owner subgraph hsubgraph tensor htensor
    rw [size_tensors_after]
    rcases subgraph_after_cases hsubgraph with hbefore | ⟨-, rfl⟩
    · exact Nat.lt_add_right _ (hP.interface hbefore tensor htensor)
    · exact ha.interface tensor htensor
  operands := by
    intro listed hlists tensor htensor
    rw [size_tensors_after]
    rcases lists_after_cases hP ha hlists with ⟨old, hold, rfl⟩ | ⟨place, node, hnode, rfl⟩
    · rw [retargeted_inputs, retargeted_outputs] at htensor
      exact Nat.lt_add_right _ (hP.operands hold tensor htensor)
    · exact ha.operands node (List.mem_of_getElem? hnode) tensor htensor
  fits := by
    intro listed hlists
    have hformals : P.KeepsFormals (a.after P) := keepsFormals_after
    rcases lists_after_cases hP ha hlists with ⟨old, hold, rfl⟩ | ⟨place, node, hnode, rfl⟩
    · rcases retargeted_cases hP ha hold with hsame | ⟨-, ⟨body, target, hkind, htarget, hlength⟩,
        hsame⟩
      · rw [hsame]
        exact hformals.fits (hP.fits hold) rfl rfl rfl
      · rw [hsame]
        have hfits := hP.fits hold
        unfold Fits at hfits
        rw [hkind] at hfits
        obtain ⟨target', htarget', hinputs, houtputs⟩ := hfits
        obtain rfl := Option.some.inj (htarget.symm.trans htarget')
        exact ⟨a.subgraph P, subgraph_after_new, hinputs.trans hlength.symm, houtputs⟩
    · exact hformals.fits (ha.fits node (List.mem_of_getElem? hnode)) rfl rfl rfl

theorem allTail_after (hP : P.WellFormed) (ha : a.Applies P)
    (hall : ∀ id < P.subgraphs.size, P.AllTail id) :
    ∀ id < (a.after P).subgraphs.size, (a.after P).AllTail id := by
  intro id _ call ⟨subgraph, node, hsubgraph, hmem, hnode, hcall, hnot⟩
  rcases subgraph_after_cases hsubgraph with hbefore | ⟨rfl, rfl⟩
  · obtain ⟨old, hold, hlists⟩ := hP.exists_lists hbefore hmem
    rw [node_after_old (node_lt hold), hold] at hnode
    obtain rfl := Option.some.inj hnode
    have hsame := isCall_retargeted hP ha hlists
    refine hall id (subgraph_lt hbefore) call ⟨subgraph, old, hbefore, hmem, hold, ?_, ?_⟩
    · exact hsame ▸ hcall
    · exact fun htail => hnot ⟨htail.1, by rw [retargeted_outputs, htail.2]⟩
  · obtain ⟨hle, hlt⟩ := List.mem_range'_1.mp hmem
    obtain ⟨place, rfl⟩ := Nat.exists_eq_add_of_le hle
    rw [node_after_new ha] at hnode
    obtain ⟨hlast, houtputs⟩ := ha.callLast place node hnode hcall
    refine hnot ⟨?_, houtputs⟩
    rw [Subgraph.lastNode?, subgraph, ← hlast, List.range'_concat, Nat.one_mul]
    simp

/-! ### How handles flow -/

theorem flows_after_old (hP : P.WellFormed) (ha : a.Applies P) {binder : NodeId}
    {tensor : TensorId} (hflows : P.Flows binder tensor) : (a.after P).Flows binder tensor := by
  induction hflows with
  | made hlists hid hbinder houtput =>
    exact .made (lists_after_old hlists) hid
      (by rw [callee?_retargeted hP ha hlists]; exact hbinder) (by rwa [retargeted_outputs])
  | picked _ hlists hreads houtput ih =>
    exact .picked ih (lists_after_old hlists)
      (by rw [branches_retargeted hP ha hlists]; exact hreads) (by rwa [retargeted_outputs])

/-- The handle of an old binder goes where it went before, and that of a new one goes nowhere else. -/
theorem flows_after_cases (hP : P.WellFormed) (ha : a.Applies P) {binder : NodeId}
    {tensor : TensorId} (hflows : (a.after P).Flows binder tensor) :
    (binder < P.nodes.size ∧ P.Flows binder tensor)
      ∨ (P.nodes.size ≤ binder ∧ P.tensors.size ≤ tensor) := by
  induction hflows with
  | made hlists hid hbinder houtput =>
    rcases lists_after_cases hP ha hlists with ⟨old, hold, rfl⟩ | ⟨place, node, hnode, rfl⟩
    · rw [callee?_retargeted hP ha hold] at hbinder
      rw [retargeted_outputs] at houtput
      exact .inl ⟨hid ▸ ListsBinder.lt ⟨old, hold, rfl, hbinder⟩, .made hold hid hbinder houtput⟩
    · refine .inr ⟨hid ▸ Nat.le_add_right _ _, ?_⟩
      exact ha.freshHandle node (List.mem_of_getElem? hnode) hbinder _ houtput
  | picked _ hlists hreads houtput ih =>
    rcases lists_after_cases hP ha hlists with ⟨old, hold, rfl⟩ | ⟨place, node, hnode, rfl⟩
    · rw [branches_retargeted hP ha hold] at hreads
      rw [retargeted_outputs] at houtput
      rcases ih with ⟨hlt, hbefore⟩ | ⟨-, hge⟩
      · exact .inl ⟨hlt, .picked hbefore hold hreads houtput⟩
      · have hread := hP.inputs_lt hold (Node.mem_inputs_of_mem_branches hreads)
        exact absurd hread (Nat.not_lt.mpr hge)
    · have hswitch := (Node.mem_branches.mp hreads).1
      rw [ha.noSwitch node (List.mem_of_getElem? hnode)] at hswitch
      exact nomatch hswitch

theorem callsHandle_after_old (hP : P.WellFormed) (ha : a.Applies P) {call : NodeId}
    {handle : TensorId} (hcalls : P.CallsHandle call handle) :
    (a.after P).CallsHandle call handle := by
  obtain ⟨listed, hlists, hid, hcall, hhead⟩ := hcalls
  exact ⟨_, lists_after_old hlists, hid, by rw [isCall_retargeted hP ha hlists]; exact hcall,
    by rwa [retargeted_inputs]⟩

theorem callsHandle_after_cases (hP : P.WellFormed) (ha : a.Applies P) {call : NodeId}
    {handle : TensorId} (hcalls : (a.after P).CallsHandle call handle) :
    P.CallsHandle call handle
      ∨ (call + 1 = P.nodes.size + a.nodes.length ∧ P.tensors.size ≤ handle) := by
  obtain ⟨listed, hlists, hid, hcall, hhead⟩ := hcalls
  rcases lists_after_cases hP ha hlists with ⟨old, hold, rfl⟩ | ⟨place, node, hnode, rfl⟩
  · rw [isCall_retargeted hP ha hold] at hcall
    rw [retargeted_inputs] at hhead
    exact .inl ⟨old, hold, hid, hcall, hhead⟩
  · have hlast := (ha.callLast place node hnode hcall).1
    refine .inr ⟨?_, ha.freshCall node (List.mem_of_getElem? hnode) hcall handle hhead⟩
    rw [← hid, ← hlast]
    rfl

theorem CallsHandle.lt (hP : P.WellFormed) {call : NodeId} {handle : TensorId}
    (hcalls : P.CallsHandle call handle) : handle < P.tensors.size := by
  obtain ⟨listed, hlists, -, -, hhead⟩ := hcalls
  exact hP.inputs_lt hlists (List.mem_of_mem_head? (Option.mem_def.mpr hhead))

theorem reaches_after_old (hP : P.WellFormed) (ha : a.Applies P) {binder call : NodeId}
    (hreaches : P.Reaches binder call) : (a.after P).Reaches binder call := by
  obtain ⟨handle, hflows, hcalls⟩ := hreaches
  exact ⟨handle, flows_after_old hP ha hflows, callsHandle_after_old hP ha hcalls⟩

/-- Old binders reach what they reached before, and a new one reaches the call of the wrapper. -/
theorem reaches_after_cases (hP : P.WellFormed) (ha : a.Applies P) {binder call : NodeId}
    (hreaches : (a.after P).Reaches binder call) :
    (binder < P.nodes.size ∧ P.Reaches binder call)
      ∨ (P.nodes.size ≤ binder ∧ call + 1 = P.nodes.size + a.nodes.length) := by
  obtain ⟨handle, hflows, hcalls⟩ := hreaches
  rcases callsHandle_after_cases hP ha hcalls with hold | ⟨hlast, hge⟩
  · rcases flows_after_cases hP ha hflows with ⟨hlt, hbefore⟩ | ⟨-, hge⟩
    · exact .inl ⟨hlt, handle, hbefore, hold⟩
    · exact absurd (CallsHandle.lt hP hold) (Nat.not_lt.mpr hge)
  · rcases flows_after_cases hP ha hflows with ⟨-, hbefore⟩ | ⟨hbinder, -⟩
    · obtain ⟨writer, hwriter, -, hout⟩ := hbefore.isHandle
      exact absurd (hP.outputs_lt hwriter hout) (Nat.not_lt.mpr hge)
    · exact .inr ⟨hbinder, hlast⟩

theorem reachesOne_after (hP : P.WellFormed) (ha : a.Applies P)
    (hone : ∀ binder, P.ReachesOne binder) (binder : NodeId) : (a.after P).ReachesOne binder := by
  intro first second hfirst hsecond
  rcases reaches_after_cases hP ha hfirst with ⟨hlt, hbefore⟩ | ⟨hge, hlast⟩
  · rcases reaches_after_cases hP ha hsecond with ⟨-, hbefore'⟩ | ⟨hge, -⟩
    · exact hone binder hbefore hbefore'
    · exact absurd hlt (Nat.not_lt.mpr hge)
  · rcases reaches_after_cases hP ha hsecond with ⟨hlt, -⟩ | ⟨-, hlast'⟩
    · exact absurd hlt (Nat.not_lt.mpr hge)
    · exact Nat.succ.inj (hlast.trans hlast'.symm)

theorem isHandle_after_old (hP : P.WellFormed) (ha : a.Applies P) {tensor : TensorId}
    (hhandle : P.IsHandle tensor) : (a.after P).IsHandle tensor := by
  obtain ⟨listed, hlists, hgives, hout⟩ := hhandle
  exact ⟨_, lists_after_old hlists, by rw [givesHandle_retargeted hP ha hlists]; exact hgives,
    by rwa [retargeted_outputs]⟩

theorem isHandle_after_cases (hP : P.WellFormed) (ha : a.Applies P) {tensor : TensorId}
    (hhandle : (a.after P).IsHandle tensor) :
    P.IsHandle tensor ∨ ∃ node ∈ a.nodes, node.callee?.isSome ∧ tensor ∈ node.outputs := by
  obtain ⟨listed, hlists, hgives, hout⟩ := hhandle
  rcases lists_after_cases hP ha hlists with ⟨old, hold, rfl⟩ | ⟨place, node, hnode, rfl⟩
  · rw [givesHandle_retargeted hP ha hold] at hgives
    rw [retargeted_outputs] at hout
    exact .inl ⟨old, hold, hgives, hout⟩
  · have hmem := List.mem_of_getElem? hnode
    have hbinder : node.callee?.isSome := by
      simpa [Node.givesHandle, ha.noSwitch node hmem] using hgives
    exact .inr ⟨node, hmem, hbinder, hout⟩

theorem comesFrom_after (hP : P.WellFormed) (ha : a.Applies P) :
    (a.after P).ComesFrom = P.ComesFrom := by
  funext handle source
  refine propext ⟨?_, ?_⟩
  · intro ⟨listed, hlists, hout, hbranch⟩
    rcases lists_after_cases hP ha hlists with ⟨old, hold, rfl⟩ | ⟨place, node, hnode, rfl⟩
    · rw [retargeted_outputs] at hout
      rw [branches_retargeted hP ha hold] at hbranch
      exact ⟨old, hold, hout, hbranch⟩
    · have hswitch := (Node.mem_branches.mp hbranch).1
      rw [ha.noSwitch node (List.mem_of_getElem? hnode)] at hswitch
      exact nomatch hswitch
  · intro ⟨listed, hlists, hout, hbranch⟩
    exact ⟨_, lists_after_old hlists, by rwa [retargeted_outputs],
      by rw [branches_retargeted hP ha hlists]; exact hbranch⟩

theorem resolves_after (hP : P.WellFormed) (ha : a.Applies P) {handle : TensorId}
    (hresolves : P.Resolves handle) : (a.after P).Resolves handle := by
  unfold Resolves at hresolves ⊢
  rw [comesFrom_after hP ha]
  obtain ⟨hall, source, listed, hsource, hlists, hbinder, hout⟩ := hresolves
  exact ⟨fun other hother => isHandle_after_old hP ha (hall other hother), source, _, hsource,
    lists_after_old hlists, by rw [callee?_retargeted hP ha hlists]; exact hbinder,
    by rwa [retargeted_outputs]⟩

theorem handlesUnique_after (hP : P.WellFormed) (ha : a.Applies P) (hunique : P.HandlesUnique)
    (hapart : ∀ node ∈ a.nodes, ∀ tensor ∈ node.outputs, ¬ P.IsHandle tensor)
    (honce : ∀ (first second : Nat) (b c : Node), a.nodes[first]? = some b →
      a.nodes[second]? = some c → b.callee?.isSome → ∀ tensor ∈ b.outputs, tensor ∈ c.outputs →
      first = second) :
    (a.after P).HandlesUnique := by
  intro writer other handle hwriter hgives hout hother hout'
  rcases lists_after_cases hP ha hwriter with ⟨old, hold, rfl⟩ | ⟨place, node, hnode, rfl⟩
  · rw [givesHandle_retargeted hP ha hold] at hgives
    rw [retargeted_outputs] at hout
    rcases lists_after_cases hP ha hother with ⟨old', hold', rfl⟩ | ⟨place, node, hnode, rfl⟩
    · rw [retargeted_outputs] at hout'
      rw [hunique hold hgives hout hold' hout']
    · exact absurd ⟨old, hold, hgives, hout⟩
        (hapart node (List.mem_of_getElem? hnode) handle hout')
  · have hmem := List.mem_of_getElem? hnode
    have hbinder : node.callee?.isSome := by
      simpa [Node.givesHandle, ha.noSwitch node hmem] using hgives
    rcases lists_after_cases hP ha hother with ⟨old', hold', rfl⟩ | ⟨place', node', hnode', rfl⟩
    · rw [retargeted_outputs] at hout'
      have hge := ha.freshHandle node hmem hbinder handle hout
      exact absurd (hP.outputs_lt hold' hout') (Nat.not_lt.mpr hge)
    · obtain rfl := honce place place' node node' hnode hnode' hbinder handle hout hout'
      obtain rfl := Option.some.inj (hnode.symm.trans hnode')
      rfl

end Addition

end TailFlow
