import TailFlow.Proofs.Boundary.Wrapping
import TailFlow.Proofs.CallGraph.Catalog

/-!
# What wrapping leaves behind

`Wraps` follows the exits and entrances that are added to a program. What it leaves behind is the old
program, in which some binders name an entrance instead of a body, and wrappers that stand complete:
an entrance with the call that it makes, the link of that call, and the exit that the link leads to.
-/

namespace TailFlow

open Program

/-- An exit, with the node that it consists of. -/
structure Exit where
  id : SubgraphId
  name : String
  nodeName : String
  body : SubgraphId
  consumer : NodeId
  handover : List TensorId
  destination : List TensorId

structure Exit.Stands (x : Exit) (P W : Program) : Prop where
  subgraph_eq : W.subgraphs[x.id]?
    = some ⟨x.name, .exit x.body, x.handover, x.destination, [x.consumer]⟩
  node_eq : W.nodes[x.consumer]? = some ⟨x.nodeName, .kernel .copy, x.handover, x.destination⟩
  id_ge : P.subgraphs.size ≤ x.id
  consumer_ge : P.nodes.size ≤ x.consumer
  handover_ge : ∀ tensor ∈ x.handover, P.tensors.size ≤ tensor
  nodup : x.handover.Nodup
  length_eq : x.handover.length = x.destination.length

/-- The one call that a binder reaches writes to these tensors. -/
def Program.Serves (P : Program) (binder : NodeId) (destination : List TensorId) : Prop :=
  ∃ call node, P.Reaches binder call ∧ (∀ other, P.Reaches binder other → other = call)
    ∧ P.nodes[call]? = some node ∧ node.outputs = destination

/-- An entrance, with its nodes and the exit that goes with it. -/
structure Entrance where
  caller : NodeId
  id : SubgraphId
  name : String
  binderName : String
  callName : String
  body : SubgraphId
  binder : NodeId
  call : NodeId
  arguments : List TensorId
  handle : TensorId
  exit : Exit

def Entrance.link (e : Entrance) : Link := ⟨e.call, e.exit.id, e.exit.consumer, e.exit.handover⟩

/-- The entrance has been added to the first program and is part of the second one, its call is
linked to its exit, and its caller names it where it used to name the body. -/
structure Entrance.Stands (e : Entrance) (P W : Program) (links : IdMap Link) : Prop where
  exit_stands : e.exit.Stands P W
  exit_body : e.exit.body = e.body
  subgraph_eq : W.subgraphs[e.id]?
    = some ⟨e.name, .entrance e.body, e.arguments, e.exit.handover, [e.binder, e.call]⟩
  binder_eq : W.nodes[e.binder]? = some ⟨e.binderName, .bind e.body, e.arguments, [e.handle]⟩
  call_eq : W.nodes[e.call]? = some ⟨e.callName, .call, [e.handle], e.exit.handover⟩
  link_eq : links.get? e.call = some e.link
  caller_eq : ∃ listed, P.Lists listed ∧ listed.id = e.caller ∧ listed.node.kind = .bind e.body
    ∧ W.nodes[e.caller]? = some { listed.node with kind := .bind e.id }
  serves : P.Serves e.caller e.exit.destination
  id_ge : P.subgraphs.size ≤ e.id
  binder_ge : P.nodes.size ≤ e.binder
  call_ge : P.nodes.size ≤ e.call
  fresh_ge : ∀ tensor ∈ e.arguments ++ [e.handle], P.tensors.size ≤ tensor
  nodup : (e.arguments ++ [e.handle]).Nodup
  length_eq : ∃ target, P.subgraphs[e.body]? = some target
    ∧ e.arguments.length = target.inputs.length

/-- The program and its links after some exits and entrances of the given bodies have been added. -/
inductive Wraps (P : Program) (links : IdMap Link) (bodies : List SubgraphId) :
    Program → IdMap Link → Prop where
  | none : Wraps P links bodies P links
  | exit {W : Program} {links' : IdMap Link} {x : Exit} {extra : List Tensor}
      {anchor : SubgraphId} (hwraps : Wraps P links bodies W links') (hbody : x.body ∈ bodies)
      (hid : x.id = W.subgraphs.size) (hconsumer : x.consumer = W.nodes.size)
      (hfresh : W.Fresh extra x.handover) (hlength : x.handover.length = x.destination.length)
      (hserves : ∃ caller, P.Serves caller x.destination) :
      Wraps P links bodies ((exitAddition W extra x.nodeName x.name x.body anchor x.handover
        x.destination).after W) links'
  | entrance {W : Program} {links' : IdMap Link} {e : Entrance} {extra : List Tensor}
      {listed : ListedNode} (hwraps : Wraps P links bodies W links') (hbody : e.body ∈ bodies)
      (hid : e.id = W.subgraphs.size) (hbinder : e.binder = W.nodes.size)
      (hcall : e.call = W.nodes.size + 1) (hexit : e.exit.Stands P W)
      (hsame : e.exit.body = e.body) (hfresh : W.Fresh extra (e.arguments ++ [e.handle]))
      (htarget : ∃ target, P.subgraphs[e.body]? = some target
        ∧ e.arguments.length = target.inputs.length)
      (hlists : P.Lists listed) (hcaller : listed.id = e.caller)
      (hkind : listed.node.kind = .bind e.body) (hnode : W.nodes[e.caller]? = some listed.node)
      (hserves : P.Serves e.caller e.exit.destination) :
      Wraps P links bodies ((entranceAddition W extra e.binderName e.callName e.name e.body
        listed.id e.arguments e.handle e.exit.handover).after W) (links'.insert e.call e.link)

namespace Program

variable {P W : Program}

/-- The old subgraphs are still there, and everything else is only added to. -/
structure Extends (P W : Program) : Prop where
  tensors_le : P.tensors.size ≤ W.tensors.size
  nodes_le : P.nodes.size ≤ W.nodes.size
  subgraphs_le : P.subgraphs.size ≤ W.subgraphs.size
  tensor_old : ∀ id < P.tensors.size, W.tensors[id]? = P.tensors[id]?
  subgraph_old : ∀ id < P.subgraphs.size, W.subgraphs[id]? = P.subgraphs[id]?

theorem Extends.refl (P : Program) : P.Extends P :=
  ⟨Nat.le_refl _, Nat.le_refl _, Nat.le_refl _, fun _ _ => rfl, fun _ _ => rfl⟩

theorem Extends.after (h : P.Extends W) (a : Addition) : P.Extends (a.after W) where
  tensors_le := by
    rw [Addition.size_tensors_after]
    exact Nat.le_add_right_of_le h.tensors_le
  nodes_le := by
    rw [Addition.size_nodes_after]
    exact Nat.le_add_right_of_le h.nodes_le
  subgraphs_le := by
    rw [Addition.size_subgraphs_after]
    exact Nat.le_add_right_of_le h.subgraphs_le
  tensor_old := by
    intro id hlt
    rw [← h.tensor_old id hlt]
    exact Array.getElem?_append_left (Nat.lt_of_lt_of_le hlt h.tensors_le)
  subgraph_old := by
    intro id hlt
    rw [Addition.subgraph_after_old (Nat.lt_of_lt_of_le hlt h.subgraphs_le), h.subgraph_old id hlt]

theorem Extends.lists (h : P.Extends W) {listed : ListedNode} (hlists : P.Lists listed)
    (hnode : W.nodes[listed.id]? = some listed.node) : W.Lists listed := by
  obtain ⟨subgraph, hsubgraph, hid, -⟩ := hlists
  exact ⟨subgraph, by rw [h.subgraph_old _ (subgraph_lt hsubgraph), hsubgraph], hid, hnode⟩

theorem Serves.unique {binder : NodeId} {first second : List TensorId}
    (hfirst : P.Serves binder first) (hsecond : P.Serves binder second) : first = second := by
  obtain ⟨call, node, hreaches, -, hnode, rfl⟩ := hfirst
  obtain ⟨call', node', -, hone, hnode', rfl⟩ := hsecond
  obtain rfl := hone call hreaches
  rw [Option.some.inj (hnode.symm.trans hnode')]

theorem Serves.lt (hP : P.WellFormed) {binder : NodeId} {destination : List TensorId}
    (hserves : P.Serves binder destination) {tensor : TensorId} (hmem : tensor ∈ destination) :
    tensor < P.tensors.size := by
  obtain ⟨call, node, hreaches, -, hnode, hout⟩ := hserves
  obtain ⟨listed, hlists, hid, -⟩ := hreaches.listsCall
  obtain ⟨-, -, -, hnode'⟩ := id hlists
  rw [hid, hnode] at hnode'
  obtain rfl := Option.some.inj hnode'
  exact hP.outputs_lt hlists (hout ▸ hmem)

end Program

namespace Wraps

variable {P W : Program} {links links' : IdMap Link} {bodies : List SubgraphId}

theorem exit_applies (hP : P.WellFormed) (hextends : P.Extends W) {x : Exit} {extra : List Tensor}
    (anchor : SubgraphId) (hfresh : W.Fresh extra x.handover)
    (hlength : x.handover.length = x.destination.length)
    (hserves : ∃ caller, P.Serves caller x.destination) :
    (exitAddition W extra x.nodeName x.name x.body anchor x.handover x.destination).Applies W := by
  obtain ⟨caller, hserves⟩ := hserves
  exact exitAddition_applies hfresh hlength fun tensor hmem =>
    Nat.lt_of_lt_of_le (hserves.lt hP hmem) hextends.tensors_le

theorem entrance_applies (hW : W.WellFormed) (hextends : P.Extends W) {e : Entrance}
    {extra : List Tensor} {listed : ListedNode} (hexit : e.exit.Stands P W)
    (hfresh : W.Fresh extra (e.arguments ++ [e.handle]))
    (htarget : ∃ target, P.subgraphs[e.body]? = some target
      ∧ e.arguments.length = target.inputs.length)
    (hlists : P.Lists listed) (hcaller : listed.id = e.caller)
    (hkind : listed.node.kind = .bind e.body) (hnode : W.nodes[e.caller]? = some listed.node) :
    (entranceAddition W extra e.binderName e.callName e.name e.body listed.id e.arguments e.handle
      e.exit.handover).Applies W := by
  obtain ⟨target, htarget, hlength⟩ := htarget
  have htarget' : W.subgraphs[e.body]? = some target := by
    rw [hextends.subgraph_old _ (subgraph_lt htarget), htarget]
  refine entranceAddition_applies hfresh htarget' hlength (fun tensor hmem => ?_)
    (hextends.lists hlists (hcaller ▸ hnode)) hkind
  exact hW.interface hexit.subgraph_eq tensor (List.mem_append_left _ hmem)

theorem keeps (hP : P.WellFormed) (kept : Program → Prop)
    (hstep : ∀ (W : Program) (a : Addition), W.WellFormed → P.Extends W → a.Applies W → kept W →
      kept (a.after W))
    (hstart : kept P) (hwraps : Wraps P links bodies W links') :
    W.WellFormed ∧ P.Extends W ∧ kept W := by
  induction hwraps with
  | none => exact ⟨hP, .refl P, hstart⟩
  | @exit _ _ _ _ anchor _ _ _ _ hfresh hlength hserves ih =>
    obtain ⟨hW, hextends, hkept⟩ := ih
    have ha := exit_applies hP hextends anchor hfresh hlength hserves
    exact ⟨Addition.wellFormed_after hW ha, hextends.after _, hstep _ _ hW hextends ha hkept⟩
  | entrance _ _ _ _ _ hexit _ hfresh htarget hlists hcaller hkind hnode _ ih =>
    obtain ⟨hW, hextends, hkept⟩ := ih
    have ha := entrance_applies hW hextends hexit hfresh htarget hlists hcaller hkind hnode
    exact ⟨Addition.wellFormed_after hW ha, hextends.after _, hstep _ _ hW hextends ha hkept⟩

theorem wellFormed (hP : P.WellFormed) (hwraps : Wraps P links bodies W links') : W.WellFormed :=
  (keeps hP (fun _ => True) (fun _ _ _ _ _ _ => trivial) trivial hwraps).1

theorem extends_program (hP : P.WellFormed) (hwraps : Wraps P links bodies W links') :
    P.Extends W :=
  (keeps hP (fun _ => True) (fun _ _ _ _ _ _ => trivial) trivial hwraps).2.1

theorem allTail (hP : P.WellFormed) (hall : ∀ id < P.subgraphs.size, P.AllTail id)
    (hwraps : Wraps P links bodies W links') : ∀ id < W.subgraphs.size, W.AllTail id :=
  (keeps hP (fun W => ∀ id < W.subgraphs.size, W.AllTail id)
    (fun _ _ hW _ ha hkept => Addition.allTail_after hW ha hkept) hall hwraps).2.2

theorem reaches_iff (hP : P.WellFormed) (hwraps : Wraps P links bodies W links')
    {binder call : NodeId} (hlt : binder < P.nodes.size) :
    W.Reaches binder call ↔ P.Reaches binder call := by
  refine (keeps hP (fun W => W.Reaches binder call ↔ P.Reaches binder call) ?_ Iff.rfl
    hwraps).2.2
  intro W a hW hextends ha hkept
  rw [← hkept]
  constructor
  · intro hreaches
    rcases Addition.reaches_after_cases hW ha hreaches with ⟨-, hbefore⟩ | ⟨hge, -⟩
    · exact hbefore
    · exact absurd (Nat.lt_of_lt_of_le hlt hextends.nodes_le) (Nat.not_lt.mpr hge)
  · exact Addition.reaches_after_old hW ha

theorem reachesOne (hP : P.WellFormed) (hone : ∀ binder, P.ReachesOne binder)
    (hwraps : Wraps P links bodies W links') : ∀ binder, W.ReachesOne binder :=
  (keeps hP (fun W => ∀ binder, W.ReachesOne binder)
    (fun _ _ hW _ ha hkept => Addition.reachesOne_after hW ha hkept) hone hwraps).2.2

theorem resolves (hP : P.WellFormed) {handle : TensorId} (hresolves : P.Resolves handle)
    (hwraps : Wraps P links bodies W links') : W.Resolves handle :=
  (keeps hP (fun W => W.Resolves handle)
    (fun _ _ hW _ ha hkept => Addition.resolves_after hW ha hkept) hresolves hwraps).2.2

/-! ### Wrappers go on standing -/

theorem node_after_of_ne {a : Addition} {id : NodeId}
    {node : Node} (hnode : W.nodes[id]? = some node) (hne : a.caller? ≠ some id) :
    (a.after W).nodes[id]? = some node := by
  rw [Addition.node_after_old (node_lt hnode), hnode, Option.map_some, Addition.retargeted,
    if_neg hne]

theorem exit_stands_after {a : Addition} {x : Exit} (hx : x.Stands P W)
    (hcaller : ∀ id, a.caller? = some id → id < P.nodes.size) : x.Stands P (a.after W) where
  subgraph_eq := by rw [Addition.subgraph_after_old (subgraph_lt hx.subgraph_eq), hx.subgraph_eq]
  node_eq := by
    refine node_after_of_ne hx.node_eq fun hsome => ?_
    exact Nat.not_lt.mpr hx.consumer_ge (hcaller _ hsome)
  id_ge := hx.id_ge
  consumer_ge := hx.consumer_ge
  handover_ge := hx.handover_ge
  nodup := hx.nodup
  length_eq := hx.length_eq

theorem entrance_stands_after {a : Addition} {e : Entrance} (he : e.Stands P W links)
    (hcaller : ∀ id, a.caller? = some id → id < P.nodes.size ∧ id ≠ e.caller)
    (hlink : links'.get? e.call = links.get? e.call) : e.Stands P (a.after W) links' where
  exit_stands := exit_stands_after he.exit_stands fun id hid => (hcaller id hid).1
  exit_body := he.exit_body
  subgraph_eq := by rw [Addition.subgraph_after_old (subgraph_lt he.subgraph_eq), he.subgraph_eq]
  binder_eq := by
    refine node_after_of_ne he.binder_eq fun hsome => ?_
    exact Nat.not_lt.mpr he.binder_ge (hcaller _ hsome).1
  call_eq := by
    refine node_after_of_ne he.call_eq fun hsome => ?_
    exact Nat.not_lt.mpr he.call_ge (hcaller _ hsome).1
  link_eq := hlink.trans he.link_eq
  caller_eq := by
    obtain ⟨listed, hlists, hid, hkind, hnode⟩ := he.caller_eq
    refine ⟨listed, hlists, hid, hkind, node_after_of_ne hnode fun hsome => ?_⟩
    exact (hcaller _ hsome).2 rfl
  serves := he.serves
  id_ge := he.id_ge
  binder_ge := he.binder_ge
  call_ge := he.call_ge
  fresh_ge := he.fresh_ge
  nodup := he.nodup
  length_eq := he.length_eq

theorem exit_stands_new (hextends : P.Extends W) {x : Exit}
    {extra : List Tensor} {anchor : SubgraphId} (hid : x.id = W.subgraphs.size)
    (hconsumer : x.consumer = W.nodes.size) (hfresh : W.Fresh extra x.handover)
    (hlength : x.handover.length = x.destination.length)
    (ha : (exitAddition W extra x.nodeName x.name x.body anchor x.handover x.destination).Applies
      W) :
    x.Stands P ((exitAddition W extra x.nodeName x.name x.body anchor x.handover
      x.destination).after W) where
  subgraph_eq := by
    rw [hid, Addition.subgraph_after_new, hconsumer]
    rfl
  node_eq := by
    have hnew := Addition.node_after_new ha 0
    rw [hconsumer]
    exact hnew
  id_ge := hid ▸ hextends.subgraphs_le
  consumer_ge := hconsumer ▸ hextends.nodes_le
  handover_ge := fun tensor hmem => Nat.le_trans hextends.tensors_le (hfresh.le_of_mem hmem)
  nodup := hfresh.nodup
  length_eq := hlength

theorem entrance_stands_new (hW : W.WellFormed) (hextends : P.Extends W) {e : Entrance}
    {extra : List Tensor} {listed : ListedNode} (hid : e.id = W.subgraphs.size)
    (hbinder : e.binder = W.nodes.size) (hcall : e.call = W.nodes.size + 1)
    (hexit : e.exit.Stands P W) (hsame : e.exit.body = e.body)
    (hfresh : W.Fresh extra (e.arguments ++ [e.handle]))
    (htarget : ∃ target, P.subgraphs[e.body]? = some target
      ∧ e.arguments.length = target.inputs.length)
    (hlists : P.Lists listed) (hcaller : listed.id = e.caller)
    (hkind : listed.node.kind = .bind e.body) (hnode : W.nodes[e.caller]? = some listed.node)
    (hserves : P.Serves e.caller e.exit.destination) :
    e.Stands P ((entranceAddition W extra e.binderName e.callName e.name e.body listed.id
      e.arguments e.handle e.exit.handover).after W) (links'.insert e.call e.link) := by
  have ha := entrance_applies hW hextends hexit hfresh htarget hlists hcaller hkind hnode
  have hlt : listed.id < P.nodes.size := by
    obtain ⟨-, -, -, hold⟩ := hlists
    exact node_lt hold
  refine ⟨exit_stands_after hexit ?_, hsame, ?_, ?_, ?_, ?_, ⟨listed, hlists, hcaller, hkind, ?_⟩,
    hserves, ?_, ?_, ?_, ?_, hfresh.nodup, htarget⟩
  · intro id hsome
    obtain rfl := Option.some.inj hsome
    exact hlt
  · rw [hid, Addition.subgraph_after_new, hbinder, hcall]
    rfl
  · rw [hbinder]
    exact Addition.node_after_new ha 0
  · rw [hcall]
    exact Addition.node_after_new ha 1
  · exact IdMap.get?_insert_self _ _ _
  · rw [Addition.node_after_old (node_lt hnode), hnode, Option.map_some, hid]
    simp [Addition.retargeted, entranceAddition, hcaller]
  · exact hid ▸ hextends.subgraphs_le
  · exact hbinder ▸ hextends.nodes_le
  · exact hcall ▸ Nat.le_succ_of_le hextends.nodes_le
  · exact fun tensor hmem => Nat.le_trans hextends.tensors_le (hfresh.le_of_mem hmem)

/-- What stands at one point of wrapping goes on standing until another one. -/
structure Keeps (P W : Program) (links : IdMap Link) (W' : Program) (links' : IdMap Link) :
    Prop where
  exit : ∀ ⦃x : Exit⦄, x.Stands P W → x.Stands P W'
  entrance : ∀ ⦃e : Entrance⦄, e.Stands P W links → e.Stands P W' links'

theorem Keeps.refl (P W : Program) (links : IdMap Link) : Keeps P W links W links :=
  ⟨fun _ hx => hx, fun _ he => he⟩

theorem Keeps.trans {W' W'' : Program} {links'' : IdMap Link} (h : Keeps P W links W' links')
    (h' : Keeps P W' links' W'' links'') : Keeps P W links W'' links'' :=
  ⟨fun _ hx => h'.exit (h.exit hx), fun _ he => h'.entrance (h.entrance he)⟩

theorem keeps_exit (extra : List Tensor) (nodeName name : String) (body anchor : SubgraphId)
    (handover destination : List TensorId) : Keeps P W links
      ((exitAddition W extra nodeName name body anchor handover destination).after W) links :=
  ⟨fun _ hx => exit_stands_after hx nofun, fun _ he => entrance_stands_after he nofun rfl⟩

/-- The caller of a standing entrance names the entrance, so it gets no other one. -/
theorem keeps_entrance {e : Entrance} {listed : ListedNode} (extra : List Tensor)
    (hcall : e.call = W.nodes.size + 1) (htarget : e.body < P.subgraphs.size)
    (hlists : P.Lists listed) (hcaller : listed.id = e.caller)
    (hkind : listed.node.kind = .bind e.body) (hnode : W.nodes[e.caller]? = some listed.node) :
    Keeps P W links ((entranceAddition W extra e.binderName e.callName e.name e.body listed.id
      e.arguments e.handle e.exit.handover).after W) (links.insert e.call e.link) := by
  have hlt : listed.id < P.nodes.size := by
    obtain ⟨-, -, -, hold⟩ := hlists
    exact node_lt hold
  refine ⟨fun _ hx => exit_stands_after hx fun id hsome => ?_,
    fun other hother => entrance_stands_after hother (fun id hsome => ?_) ?_⟩
  · obtain rfl := Option.some.inj hsome
    exact hlt
  · obtain rfl := Option.some.inj hsome
    refine ⟨hlt, fun h => ?_⟩
    obtain ⟨_, -, -, -, hnode'⟩ := hother.caller_eq
    rw [← h, hcaller, hnode] at hnode'
    have hkinds : listed.node.kind = .bind other.id := by rw [Option.some.inj hnode']
    have hids : e.body = other.id := NodeKind.bind.inj (hkind.symm.trans hkinds)
    exact Nat.not_lt.mpr hother.id_ge (hids ▸ htarget)
  · have hcalllt := node_lt hother.call_eq
    rw [IdMap.get?_insert, if_neg]
    intro h
    rw [← h, hcall] at hcalllt
    exact Nat.not_succ_lt_self hcalllt

/-- What the program consists of after wrapping. -/
structure Shape (P : Program) (links : IdMap Link) (bodies : List SubgraphId) (W : Program)
    (links' : IdMap Link) : Prop where
  node_old : ∀ ⦃id : NodeId⦄ ⦃node : Node⦄, P.nodes[id]? = some node → W.nodes[id]? = some node
    ∨ ∃ e : Entrance, e.Stands P W links' ∧ e.caller = id
  node_new : ∀ ⦃id : NodeId⦄ ⦃node : Node⦄, P.nodes.size ≤ id → W.nodes[id]? = some node →
    (∃ x : Exit, x.Stands P W ∧ x.consumer = id)
      ∨ ∃ e : Entrance, e.Stands P W links' ∧ (e.binder = id ∨ e.call = id) ∧ e.body ∈ bodies
  subgraph_cases : ∀ ⦃id : SubgraphId⦄ ⦃subgraph : Subgraph⦄, W.subgraphs[id]? = some subgraph →
    P.subgraphs[id]? = some subgraph ∨ (∃ x : Exit, x.Stands P W ∧ x.id = id)
      ∨ ∃ e : Entrance, e.Stands P W links' ∧ e.id = id ∧ e.body ∈ bodies
  link_old : ∀ ⦃id : NodeId⦄, id < P.nodes.size → links'.get? id = links.get? id
  link_new : ∀ ⦃id : NodeId⦄ ⦃link : Link⦄, links'.get? id = some link →
    links.get? id = some link ∨ ∃ e : Entrance, e.Stands P W links' ∧ e.call = id ∧ link = e.link

/-- The shape goes on holding when a wrapper is added to which no standing entrance gives way. -/
theorem Shape.after {links'' : IdMap Link} {a : Addition} (hshape : Shape P links bodies W links')
    (hcaller : ∀ id, a.caller? = some id → id < P.nodes.size
      ∧ ∃ e : Entrance, e.Stands P (a.after W) links'' ∧ e.caller = id)
    (hstands : ∀ e : Entrance, e.Stands P W links' → e.Stands P (a.after W) links'')
    (hnodes : ∀ id node, W.nodes.size ≤ id → (a.after W).nodes[id]? = some node →
      (∃ x : Exit, x.Stands P (a.after W) ∧ x.consumer = id) ∨ ∃ e : Entrance,
        e.Stands P (a.after W) links'' ∧ (e.binder = id ∨ e.call = id) ∧ e.body ∈ bodies)
    (hsubgraph : (∃ x : Exit, x.Stands P (a.after W) ∧ x.id = W.subgraphs.size)
      ∨ ∃ e : Entrance, e.Stands P (a.after W) links'' ∧ e.id = W.subgraphs.size ∧ e.body ∈ bodies)
    (hlinkOld : ∀ id < P.nodes.size, links''.get? id = links'.get? id)
    (hlinkNew : ∀ id link, links''.get? id = some link → links'.get? id = some link
      ∨ ∃ e : Entrance, e.Stands P (a.after W) links'' ∧ e.call = id ∧ link = e.link) :
    Shape P links bodies (a.after W) links'' where
  node_old := by
    intro id node hnode
    by_cases hsome : a.caller? = some id
    · exact .inr (hcaller id hsome).2
    · rcases hshape.node_old hnode with hsame | ⟨e, he, hid⟩
      · exact .inl (node_after_of_ne hsame hsome)
      · exact .inr ⟨e, hstands e he, hid⟩
  node_new := by
    intro id node hge hnode
    by_cases hlt : id < W.nodes.size
    · rw [Addition.node_after_old hlt, Option.map_eq_some_iff] at hnode
      obtain ⟨before, hbefore, -⟩ := hnode
      rcases hshape.node_new hge hbefore with ⟨x, hx, hid⟩ | ⟨e, he, hid⟩
      · exact .inl ⟨x, exit_stands_after hx fun id h => (hcaller id h).1, hid⟩
      · exact .inr ⟨e, hstands e he, hid⟩
    · exact hnodes id node (Nat.not_lt.mp hlt) hnode
  subgraph_cases := by
    intro id subgraph hafter
    rcases Addition.subgraph_after_cases hafter with hbefore | ⟨rfl, -⟩
    · rcases hshape.subgraph_cases hbefore with hold | ⟨x, hx, hid⟩ | ⟨e, he, hid⟩
      · exact .inl hold
      · exact .inr (.inl ⟨x, exit_stands_after hx fun id h => (hcaller id h).1, hid⟩)
      · exact .inr (.inr ⟨e, hstands e he, hid⟩)
    · exact .inr hsubgraph
  link_old := fun id hlt => (hlinkOld id hlt).trans (hshape.link_old hlt)
  link_new := by
    intro id link hlink
    rcases hlinkNew id link hlink with hbefore | hnew
    · rcases hshape.link_new hbefore with hold | ⟨e, he, hid⟩
      · exact .inl hold
      · exact .inr ⟨e, hstands e he, hid⟩
    · exact .inr hnew

theorem shape (hP : P.WellFormed) (hwraps : Wraps P links bodies W links') :
    Shape P links bodies W links' := by
  induction hwraps with
  | none =>
    refine ⟨fun _ _ hnode => .inl hnode, fun id node hge hnode => ?_, fun _ _ h => .inl h,
      fun _ _ => rfl, fun _ _ h => .inl h⟩
    exact absurd (node_lt hnode) (Nat.not_lt.mpr hge)
  | @exit W links' x extra anchor hwraps hbody hid hconsumer hfresh hlength hserves ih =>
    have hW := hwraps.wellFormed hP
    have hextends := hwraps.extends_program hP
    have ha := exit_applies hP hextends anchor hfresh hlength hserves
    have hx := exit_stands_new hextends hid hconsumer hfresh hlength ha
    refine ih.after nofun (fun e he => (keeps_exit _ _ _ _ _ _ _).entrance he) ?_
      (.inl ⟨x, hx, hid⟩) (fun _ _ => rfl) (fun _ _ h => .inl h)
    intro id node hge hnode
    have hlt := node_lt hnode
    rw [Addition.size_nodes_after] at hlt
    have hsame : x.consumer = id :=
      hconsumer.trans (Nat.le_antisymm hge (Nat.lt_succ_iff.mp hlt))
    exact .inl ⟨x, hx, hsame⟩
  | @entrance W links' e extra listed hwraps hbody hid hbinder hcall hexit hsame hfresh htarget
      hlists hcaller hkind hnode hserves ih =>
    have hW := hwraps.wellFormed hP
    have hextends := hwraps.extends_program hP
    have he : e.Stands P _ (links'.insert e.call e.link) := entrance_stands_new hW hextends hid
      hbinder hcall hexit hsame hfresh htarget hlists hcaller hkind hnode hserves
    have hlt : listed.id < P.nodes.size := by
      obtain ⟨-, -, -, hold⟩ := id hlists
      exact node_lt hold
    have hbody' : e.body < P.subgraphs.size := by
      obtain ⟨target, htarget, -⟩ := htarget
      exact subgraph_lt htarget
    have hkeeps : Keeps P W links' _ (links'.insert e.call e.link) :=
      keeps_entrance extra hcall hbody' hlists hcaller hkind hnode
    refine ih.after (fun id hsome => ?_) hkeeps.entrance ?_ (.inr ⟨e, he, hid, hbody⟩) ?_ ?_
    · obtain rfl := Option.some.inj hsome
      exact ⟨hlt, e, he, hcaller.symm⟩
    · intro id node hge hnode
      have hlt := node_lt hnode
      rw [Addition.size_nodes_after] at hlt
      refine .inr ⟨e, he, ?_, hbody⟩
      have hcases : id = W.nodes.size ∨ id = W.nodes.size + 1 := by
        have hlt' : (id : Nat) < W.nodes.size + 2 := hlt
        have hge' : W.nodes.size ≤ (id : Nat) := hge
        omega
      rcases hcases with rfl | rfl
      · exact .inl hbinder
      · exact .inr hcall
    · intro id hid
      rw [IdMap.get?_insert, if_neg]
      intro h
      rw [← h] at hid
      exact Nat.not_lt.mpr he.call_ge hid
    · intro id link hlink
      rw [IdMap.get?_insert] at hlink
      split at hlink
      · rename_i hsame
        exact .inr ⟨e, he, hsame, (Option.some.inj hlink).symm⟩
      · exact .inl hlink

theorem namedOnce_after (hW : W.WellFormed) {a : Addition} (ha : a.Applies W) {id : SubgraphId}
    (hnew : ∀ node ∈ a.nodes, node.kind ≠ .bind id) (hold : W.NamedOnce id) :
    (a.after W).NamedOnce id := by
  have hcases {binder : NodeId} (hnames : (a.after W).Names binder id) :
      W.Names binder id ∨ a.caller? = some binder ∧ id = W.subgraphs.size := by
    obtain ⟨listed, hlists, rfl, hkind⟩ := hnames
    rcases Addition.lists_after_cases hW ha hlists with ⟨old, hbefore, rfl⟩ | ⟨_, node, hnode, rfl⟩
    · rcases Addition.retargeted_cases hW ha hbefore with hsame | ⟨hcaller, -, hsame⟩
      · rw [hsame] at hkind
        exact .inl ⟨old, hbefore, rfl, hkind⟩
      · rw [hsame] at hkind
        exact .inr ⟨hcaller, (NodeKind.bind.inj hkind).symm⟩
    · exact absurd hkind (hnew node (List.mem_of_getElem? hnode))
  have hnone {binder : NodeId} (hsize : id = W.subgraphs.size) : ¬ W.Names binder id := by
    intro ⟨listed, hlists, _, hkind⟩
    exact absurd (callee_lt hW hlists hkind) (Nat.not_lt.mpr (Nat.le_of_eq hsize.symm))
  intro first second hfirst hsecond
  rcases hcases hfirst with hbefore | ⟨hcaller, hsize⟩
  · rcases hcases hsecond with hbefore' | ⟨-, hsize⟩
    · exact hold hbefore hbefore'
    · exact absurd hbefore (hnone hsize)
  · rcases hcases hsecond with hbefore' | ⟨hcaller', -⟩
    · exact absurd hbefore' (hnone hsize)
    · exact Option.some.inj (hcaller.symm.trans hcaller')

theorem namedOnce (hP : P.WellFormed) (hwraps : Wraps P links bodies W links') {id : SubgraphId}
    (hge : P.subgraphs.size ≤ id) : W.NamedOnce id := by
  induction hwraps with
  | none =>
    intro _ _ ⟨_, hlists, _, hkind⟩ _
    exact absurd (callee_lt hP hlists hkind) (Nat.not_lt.mpr hge)
  | @exit W links' x extra anchor hwraps _ _ _ hfresh hlength hserves ih =>
    have hW := hwraps.wellFormed hP
    have ha := exit_applies hP (hwraps.extends_program hP) anchor hfresh hlength hserves
    refine namedOnce_after hW ha (fun node hnode hkind => ?_) ih
    obtain rfl := List.mem_singleton.mp hnode
    exact nomatch hkind
  | entrance hwraps _ _ _ _ hexit _ hfresh htarget hlists hcaller hkind hnode _ ih =>
    have hW := hwraps.wellFormed hP
    have ha := entrance_applies hW (hwraps.extends_program hP) hexit hfresh htarget hlists hcaller
      hkind hnode
    refine namedOnce_after hW ha (fun node hmem hbinds => ?_) ih
    rcases List.mem_pair.mp hmem with rfl | rfl
    · obtain ⟨target, htarget, -⟩ := htarget
      have hlt := subgraph_lt htarget
      rw [NodeKind.bind.inj hbinds] at hlt
      exact absurd hlt (Nat.not_lt.mpr hge)
    · exact nomatch hbinds

end Wraps

end TailFlow
