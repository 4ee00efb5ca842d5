import TailFlow.Proofs.Runs.Invocation

/-!
# Comparing runs of nodes

Nodes that match come to related values where they read related values, so that one run of nodes can
be followed by another one, in a different program and in an environment that covers the first one.
What the nodes do not write stays as it was. If moreover every tensor is written once, then at the
end of a run each node still comes to what it has come to.
-/

namespace TailFlow

open Program

/-- Arrays are related to themselves alone, and handles to handles with the same arguments. -/
structure RelatesArrays (related : TensorId → Value → Value → Prop) : Prop where
  self : ∀ id array, related id (.array array) (.array array)
  array : ∀ ⦃id array value'⦄, related id (.array array) value' → value' = .array array
  closure : ∀ ⦃id callee arguments value'⦄, related id (.closure callee arguments) value' →
    ∃ callee', value' = .closure callee' arguments

/-- Two nodes do the same, apart from the subgraph that a binder names: its handle is related to the
one that the other binder makes, and switches pass on related handles. -/
structure Node.Matches (related : TensorId → Value → Value → Prop) (node node' : Node) : Prop where
  inputs_eq : node'.inputs = node.inputs
  outputs_eq : node'.outputs = node.outputs
  kind_eq : (∀ callee, node.kind ≠ .bind callee) → node'.kind = node.kind
  bind : ∀ ⦃callee⦄, node.kind = .bind callee → ∃ callee', node'.kind = .bind callee'
    ∧ ∀ out ∈ node.outputs, ∀ arguments,
      related out (.closure callee arguments) (.closure callee' arguments)
  pick : ∀ taken ∈ node.branches, ∀ out ∈ node.outputs, ∀ value value',
    related taken value value' → related out value value'

theorem Node.Matches.isCall {related : TensorId → Value → Value → Prop} {node node' : Node}
    (hmatches : node.Matches related node') (hcall : node.isCall) : node'.isCall := by
  have hkind : node.kind = .call := of_decide_eq_true hcall
  refine decide_eq_true ?_
  rw [hmatches.kind_eq (fun callee h => nomatch hkind.symm.trans h), hkind]

theorem Node.Matches.isCall_of {related : TensorId → Value → Value → Prop} {node node' : Node}
    (hmatches : node.Matches related node') (hcall : node'.isCall) : node.isCall := by
  have hkind : node'.kind = .call := of_decide_eq_true hcall
  refine decide_eq_true ?_
  rw [← hmatches.kind_eq fun callee hbind => ?_, hkind]
  obtain ⟨callee', hbind', -⟩ := hmatches.bind hbind
  exact nomatch hkind.symm.trans hbind'

/-- Values that are the same are related. -/
def Unchanged : TensorId → Value → Value → Prop := fun _ value value' => value' = value

theorem relatesArrays_unchanged : RelatesArrays Unchanged where
  self := fun _ _ => rfl
  array := fun _ _ _ h => h
  closure := fun _ callee _ _ h => ⟨callee, h⟩

theorem Node.matches_self (node : Node) : node.Matches Unchanged node where
  inputs_eq := rfl
  outputs_eq := rfl
  kind_eq := fun _ => rfl
  bind := fun callee hkind => ⟨callee, hkind, fun _ _ _ => rfl⟩
  pick := fun _ _ _ _ _ _ h => h

namespace Passes

variable {P P' : Program} {calls calls' : Calls} {related : TensorId → Value → Value → Prop}
  {nodes : List NodeId} {env env' : Environment} {entered : List SubgraphId}

theorem simulate_node (hrelates : RelatesArrays related) {node node' : Node}
    (hmatches : node.Matches related node') (hlt : ∀ id ∈ node.inputs, id < P.tensors.size)
    {other : Environment} (hcovers : Covers related P env P' other) {values : List Value}
    (hgives : node.kind.Gives (P.Reads env) node.inputs values)
    (hbind : env.bindAll node.outputs values = .ok env') :
    ∃ values' other', node'.kind.Gives (P'.Reads other) node'.inputs values'
      ∧ other.bindAll node'.outputs values' = .ok other' ∧ Covers related P env' P' other' := by
  have hread : ∀ id ∈ node.inputs, ∀ value, P.Reads env id value →
      ∃ value', P'.Reads other id value' ∧ related id value value' :=
    fun id hmem value hreads => hcovers (hlt id hmem) hreads
  rw [hmatches.inputs_eq, hmatches.outputs_eq]
  rcases hgives.related hread (fun _ _ _ h => hrelates.array h) with ⟨results, rfl, hgives'⟩
    | ⟨callee, arguments, hkind, rfl, hgives'⟩ | ⟨hswitch, taken, hmem, value, value', rfl, -, hvalue, hgives'⟩
  · obtain ⟨other', hbind', hcovers'⟩ := hcovers.bindAll (fun id _ value hvalue => by
      obtain ⟨array, -, rfl⟩ := List.mem_map.mp hvalue
      exact hrelates.self id array) hbind
    have hkind : ∀ callee, node.kind ≠ .bind callee := by
      intro callee hkind
      rw [hkind] at hgives
      generalize hvalues : results.map Value.array = values at hgives
      cases hgives with
      | bind _ =>
        obtain ⟨array, -, hsame⟩ := List.mem_map.mp (hvalues ▸ List.mem_cons_self)
        exact nomatch hsame
    rw [hmatches.kind_eq hkind]
    exact ⟨_, other', hgives', hbind', hcovers'⟩
  · obtain ⟨callee', hkind', hrelated⟩ := hmatches.bind hkind
    obtain ⟨handle, hone, rfl⟩ := Environment.bindAll_one hbind
    rw [hkind', hone]
    refine ⟨_, _, hgives' callee', Environment.bindAll_singleton, hcovers.insert ?_⟩
    exact hrelated handle (hone ▸ List.mem_cons_self) _
  · obtain ⟨handle, hone, rfl⟩ := Environment.bindAll_one hbind
    have hkind : ∀ callee, node.kind ≠ .bind callee := by
      intro callee hkind
      rw [hkind] at hswitch
      exact nomatch hswitch
    rw [hmatches.kind_eq hkind]
    refine ⟨_, _, hgives', by rw [hone, Environment.bindAll_singleton], hcovers.insert ?_⟩
    exact hmatches.pick taken (Node.mem_branches.mpr ⟨hswitch, hmem⟩) handle
      (hone ▸ List.mem_cons_self) value value' hvalue

theorem simulate (hrelates : RelatesArrays related)
    (hpasses : Passes P calls nodes env env' entered)
    (hnodes : ∀ id ∈ nodes, ∀ node, P.nodes[id]? = some node →
      (∀ tensor ∈ node.inputs, tensor < P.tensors.size)
        ∧ ∃ node', P'.nodes[id]? = some node' ∧ node.Matches related node')
    (hcalls : ∀ id ∈ nodes, ∀ node, P.nodes[id]? = some node → node.isCall →
      ∀ handle callee callee' arguments results inside, node.inputs.head? = some handle →
        related handle (.closure callee (arguments.map .array))
          (.closure callee' (arguments.map .array)) → node.outputs.length = results.length →
        calls id callee arguments results inside → calls' id callee' arguments results inside)
    {other : Environment} (hcovers : Covers related P env P' other) :
    ∃ other', Passes P' calls' nodes other other' entered ∧ Covers related P env' P' other' := by
  induction hpasses generalizing other with
  | nil => exact ⟨other, .nil, hcovers⟩
  | inline hnode hgives hbind _ ih =>
    obtain ⟨hlt, node', hnode', hmatches⟩ := hnodes _ List.mem_cons_self _ hnode
    obtain ⟨values', middle', hgives', hbind', hcovers'⟩ :=
      simulate_node hrelates hmatches hlt hcovers hgives hbind
    obtain ⟨other', hpasses, hcovers''⟩ := ih (fun id hmem => hnodes id (.tail _ hmem))
      (fun id hmem => hcalls id (.tail _ hmem)) hcovers'
    exact ⟨other', .inline hnode' hgives' hbind' hpasses, hcovers''⟩
  | call hnode hcall hhandle hreads hinside hbind _ ih =>
    obtain ⟨hlt, node', hnode', hmatches⟩ := hnodes _ List.mem_cons_self _ hnode
    have hmem := List.mem_of_mem_head? (Option.mem_def.mpr hhandle)
    obtain ⟨value', hreads', hrelated⟩ := hcovers (hlt _ hmem) hreads
    obtain ⟨callee', rfl⟩ := hrelates.closure hrelated
    obtain ⟨middle', hbind', hcovers'⟩ := hcovers.bindAll (fun id _ value hvalue => by
      obtain ⟨array, -, rfl⟩ := List.mem_map.mp hvalue
      exact hrelates.self id array) hbind
    obtain ⟨other', hpasses, hcovers''⟩ := ih (fun id hmem => hnodes id (.tail _ hmem))
      (fun id hmem => hcalls id (.tail _ hmem)) hcovers'
    refine ⟨other', .call hnode' (hmatches.isCall hcall) (hmatches.inputs_eq ▸ hhandle) hreads' ?_
      (hmatches.outputs_eq ▸ hbind') hpasses, hcovers''⟩
    have hlength := Environment.length_eq_of_bindAll hbind
    rw [List.length_map] at hlength
    exact hcalls _ List.mem_cons_self _ hnode hcall _ _ _ _ _ _ hhandle hrelated hlength hinside

theorem transfer (hpasses : Passes P calls nodes env env' entered)
    (hnodes : ∀ id ∈ nodes, ∀ node, P.nodes[id]? = some node →
      (∀ tensor ∈ node.inputs, tensor < P.tensors.size) ∧ P'.nodes[id]? = some node)
    (hcalls : ∀ id callee arguments results inside,
      calls id callee arguments results inside → calls' id callee arguments results inside)
    {other : Environment} (hcovers : Covers Unchanged P env P' other) :
    ∃ other', Passes P' calls' nodes other other' entered ∧ Covers Unchanged P env' P' other' := by
  refine hpasses.simulate relatesArrays_unchanged ?_ ?_ hcovers
  · intro id hmem node hnode
    obtain ⟨hlt, hnode'⟩ := hnodes id hmem node hnode
    exact ⟨hlt, node, hnode', node.matches_self⟩
  · intro id _ _ _ _ handle callee callee' arguments results inside _ hsame _ hinside
    obtain ⟨rfl, -⟩ := Value.closure.inj hsame
    exact hcalls id _ _ _ _ hinside

theorem transfer_kept (hpasses : Passes P calls nodes env env' entered) (hP : P.WellFormed)
    {owner : SubgraphId} {subgraph : Subgraph} (hsubgraph : P.subgraphs[owner]? = some subgraph)
    {call : NodeId} (hsub : ∀ id ∈ nodes, id ∈ subgraph.nodes ∧ id ≠ call)
    (hkept : ∀ id < P.nodes.size, id ≠ call → P'.nodes[id]? = P.nodes[id]?)
    (hcalls : ∀ id callee arguments results inside,
      calls id callee arguments results inside → calls' id callee arguments results inside)
    {other : Environment} (hcovers : Covers Unchanged P env P' other) :
    ∃ other', Passes P' calls' nodes other other' entered ∧ Covers Unchanged P env' P' other' := by
  refine hpasses.transfer (fun id hmem node hnode => ?_) hcalls hcovers
  obtain ⟨hid, hne⟩ := hsub id hmem
  have hlists : P.Lists ⟨owner, id, node⟩ := ⟨subgraph, hsubgraph, hid, hnode⟩
  exact ⟨fun tensor htensor => hP.inputs_lt hlists htensor,
    (hkept id (node_lt hnode) hne).trans hnode⟩

end Passes

theorem Covers.forall₂ {P P' : Program} {env other : Environment}
    (hcovers : Covers Unchanged P env P' other) {ids : List TensorId}
    (hlt : ∀ id ∈ ids, id < P.tensors.size) {values : List Value}
    (hreads : List.Forall₂ (P.Reads env) ids values) : List.Forall₂ (P'.Reads other) ids values := by
  induction hreads with
  | nil => exact .nil
  | cons hhead _ ih =>
    obtain ⟨hfirst, hrest⟩ := List.forall_mem_cons.mp hlt
    obtain ⟨_, hreads', rfl⟩ := hcovers hfirst hhead
    exact .cons hreads' (ih hrest)

theorem Covers.arrays {P P' : Program} {env other : Environment}
    {related : TensorId → Value → Value → Prop} (hrelates : RelatesArrays related)
    (hcovers : Covers related P env P' other) {ids : List TensorId}
    (hlt : ∀ id ∈ ids, id < P.tensors.size) {arrays : List DenseArray}
    (hreads : List.Forall₂ (P.Reads env) ids (arrays.map .array)) :
    List.Forall₂ (P'.Reads other) ids (arrays.map .array) := by
  have hone := Environment.forall₂_array.mpr hreads
  refine Environment.forall₂_array.mp ?_
  clear hreads
  induction hone with
  | nil => exact .nil
  | cons hhead _ ih =>
    obtain ⟨hfirst, hrest⟩ := List.forall_mem_cons.mp hlt
    obtain ⟨value', hreads', hrelated⟩ := hcovers hfirst hhead
    obtain rfl := hrelates.array hrelated
    exact .cons hreads' (ih hrest)

/-! ### What is written -/

def Program.writes (P : Program) (nodes : List NodeId) : List TensorId :=
  nodes.flatMap fun id => (P.nodes[id]?.map Node.outputs).getD []

namespace Program

variable {P P' : Program}

theorem writes_cons {id : NodeId} {node : Node} (hnode : P.nodes[id]? = some node)
    (rest : List NodeId) : P.writes (id :: rest) = node.outputs ++ P.writes rest := by
  rw [writes, List.flatMap_cons, hnode]
  rfl

theorem writes_append (first second : List NodeId) :
    P.writes (first ++ second) = P.writes first ++ P.writes second :=
  List.flatMap_append

theorem mem_writes {nodes : List NodeId} {tensor : TensorId} : tensor ∈ P.writes nodes
    ↔ ∃ id ∈ nodes, ∃ node, P.nodes[id]? = some node ∧ tensor ∈ node.outputs := by
  rw [writes, List.mem_flatMap]
  refine exists_congr fun id => and_congr_right fun _ => ?_
  cases hnode : P.nodes[id]? <;> simp

theorem writes_congr {nodes : List NodeId}
    (hsame : ∀ id ∈ nodes, P'.nodes[id]?.map Node.outputs = P.nodes[id]?.map Node.outputs) :
    P'.writes nodes = P.writes nodes := by
  induction nodes with
  | nil => rfl
  | cons id rest ih =>
    obtain ⟨hhead, hrest⟩ := List.forall_mem_cons.mp hsame
    have htail := ih hrest
    unfold writes at htail ⊢
    rw [List.flatMap_cons, List.flatMap_cons, hhead, htail]

end Program

namespace Passes

variable {P : Program} {calls : Calls} {nodes : List NodeId} {env env' : Environment}
  {entered : List SubgraphId}

theorem frame (hpasses : Passes P calls nodes env env' entered) {tensor : TensorId}
    (habsent : tensor ∉ P.writes nodes) : env'.get? tensor = env.get? tensor := by
  have hout {id : NodeId} {node : Node} (hmem : id ∈ nodes) (hnode : P.nodes[id]? = some node) :
      tensor ∉ node.outputs := fun hout => habsent (mem_writes.mpr ⟨id, hmem, node, hnode, hout⟩)
  refine hpasses.keeps (motive := fun middle => middle.get? tensor = env.get? tensor) ?_ ?_ rfl
  · intro id hmem node middle after values hnode hsame _ hbind
    rw [Environment.get?_bindAll_of_notMem hbind (hout hmem hnode), hsame]
  · intro id hmem node middle after results hnode _ hsame hbind
    rw [Environment.get?_bindAll_of_notMem hbind (hout hmem hnode), hsame]

/-- Whatever is bound at the end was bound before or is written by the nodes. -/
theorem bound_cases (hpasses : Passes P calls nodes env env' entered) {tensor : TensorId}
    {value : Value} (hbound : env'.get? tensor = some value) :
    env.get? tensor = some value ∨ tensor ∈ P.writes nodes := by
  by_cases hmem : tensor ∈ P.writes nodes
  · exact .inr hmem
  · exact .inl (hpasses.frame hmem ▸ hbound)

end Passes

/-- The tensors that nodes are going to write differ, and nothing is read from them yet. -/
structure Awaits (P : Program) (env : Environment) (nodes : List NodeId) : Prop where
  nodup : (P.writes nodes).Nodup
  unread : ∀ tensor ∈ P.writes nodes, ∀ value, ¬ P.Reads env tensor value

namespace Awaits

variable {P : Program} {calls : Calls} {nodes earlier later : List NodeId}
  {env env' : Environment} {entered : List SubgraphId}

theorem of_append (hawaits : Awaits P env (earlier ++ later)) : Awaits P env earlier where
  nodup := (List.nodup_append.mp (writes_append earlier later ▸ hawaits.nodup)).1
  unread := fun tensor hmem =>
    hawaits.unread tensor (writes_append earlier later ▸ List.mem_append_left _ hmem)

theorem reads_after (hawaits : Awaits P env nodes)
    (hpasses : Passes P calls nodes env env' entered) {tensor : TensorId} {value : Value}
    (hreads : P.Reads env tensor value) : P.Reads env' tensor value := by
  refine (reads_congr (hpasses.frame fun hmem => ?_) rfl).mpr hreads
  exact hawaits.unread tensor hmem value hreads

theorem after_append (hawaits : Awaits P env (earlier ++ later))
    (hpasses : Passes P calls earlier env env' entered) : Awaits P env' later := by
  obtain ⟨-, hlater, hapart⟩ := List.nodup_append.mp (writes_append earlier later ▸ hawaits.nodup)
  refine ⟨hlater, fun tensor hmem value hreads => ?_⟩
  refine hawaits.unread tensor (writes_append earlier later ▸ List.mem_append_right _ hmem) value ?_
  have habsent : tensor ∉ P.writes earlier := fun hmem' => hapart tensor hmem' tensor hmem rfl
  exact (reads_congr (hpasses.frame habsent) rfl).mp hreads

/-- At the end of a run, a node that is not a call comes to what is read from its outputs. -/
theorem gives_after (hawaits : Awaits P env nodes)
    (hpasses : Passes P calls nodes env env' entered) {id : NodeId} (hmem : id ∈ nodes)
    {node : Node} (hnode : P.nodes[id]? = some node) (hcall : ¬ node.isCall) :
    ∃ values, node.kind.Gives (P.Reads env') node.inputs values
      ∧ List.Forall₂ (P.Reads env') node.outputs values := by
  obtain ⟨earlier, later, rfl⟩ := List.append_of_mem hmem
  obtain ⟨before, inside, outside, hearlier, hpasses, -⟩ := hpasses.of_append
  have hbefore := hawaits.after_append hearlier
  have hall {tensor : TensorId} {value : Value} (hreads : P.Reads before tensor value) :
      P.Reads env' tensor value := hbefore.reads_after hpasses hreads
  cases hpasses with
  | @inline _ _ _ _ middle _ values _ hnode' hgives hbind hlater =>
    obtain rfl := Option.some.inj (hnode'.symm.trans hnode)
    refine ⟨values, hgives.mono fun _ _ _ hreads => hall hreads, ?_⟩
    have hnodup := hbefore.nodup
    rw [writes_cons hnode] at hnodup
    have hafter : Awaits P middle later := by
      have hsingle : Passes P calls [id] before middle [] := .inline hnode hgives hbind .nil
      exact hbefore.after_append hsingle
    have hbound := Environment.reads_bindAll (P := P) (List.nodup_append.mp hnodup).1 hbind
    exact hbound.imp fun _ _ hreads => hafter.reads_after hlater hreads
  | call hnode' hisCall _ _ _ _ _ =>
    obtain rfl := Option.some.inj (hnode'.symm.trans hnode)
    exact absurd hisCall hcall

end Awaits

end TailFlow
