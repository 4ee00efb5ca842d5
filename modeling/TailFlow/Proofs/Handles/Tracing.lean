import TailFlow.Proofs.CallGraph.Cycles
import TailFlow.Proofs.Handles.Keeping

/-!
# Where handles lead back to

A copy of a handle is written by a node of the same kind as the handle, from copies of what the
handle is picked from. Followed backwards, it leads to copies of what the handle leads to. So giving
calls handles of their own changes neither whether they are resolved nor which subgraphs they may
run, and a call that waits for its own subgraph does so before and after.
-/

namespace TailFlow

open Program Relation

namespace Program

variable {P : Program}

/-- The handle of some call leads back to a tensor that no binder and no switch writes. -/
def Unresolved (P : Program) : Prop :=
  ∃ call handle source, P.CallsHandle call handle ∧ ReflTransGen P.ComesFrom handle source
    ∧ ¬ P.IsHandle source

/-- A listed binder names the subgraph and binds these tensors to its formals. -/
def BindsTo (P : Program) (binder : NodeId) (callee : SubgraphId) (arguments : List TensorId) :
    Prop :=
  ∃ listed, P.Lists listed ∧ listed.id = binder ∧ listed.node.kind = .bind callee
    ∧ listed.node.inputs = arguments

theorem names_iff_bindsTo {binder : NodeId} {callee : SubgraphId} :
    P.Names binder callee ↔ ∃ arguments, P.BindsTo binder callee arguments := by
  constructor
  · intro ⟨listed, hlists, hid, hkind⟩
    exact ⟨_, listed, hlists, hid, hkind, rfl⟩
  · intro ⟨_, listed, hlists, hid, hkind, _⟩
    exact ⟨listed, hlists, hid, hkind⟩

theorem exists_bindsTo_iff (hP : P.WellFormed) {handle : TensorId} {callee : SubgraphId}
    {arguments : List TensorId} :
    (∃ binder, P.Flows binder handle ∧ P.BindsTo binder callee arguments) ↔ ∃ source writer,
      ReflTransGen P.ComesFrom handle source ∧ P.Lists writer ∧ writer.node.kind = .bind callee
        ∧ writer.node.inputs = arguments ∧ source ∈ writer.node.outputs := by
  constructor
  · intro ⟨binder, hflows, listed, hlists, hid, hkind, hinputs⟩
    obtain ⟨source, writer, hsource, hwriter, hid', -, houtput⟩ := hflows.exists_comesFrom
    obtain rfl := hP.lists_unique hlists hwriter (hid.trans hid'.symm)
    exact ⟨source, listed, hsource, hlists, hkind, hinputs, houtput⟩
  · intro ⟨source, writer, hsource, hwriter, hkind, hinputs, houtput⟩
    have hbinder : writer.node.callee?.isSome := by
      rw [callee?_eq_some.mpr hkind]
      rfl
    exact ⟨writer.id, flows_of_comesFrom hsource (.made hwriter rfl hbinder houtput), writer,
      hwriter, rfl, hkind, hinputs⟩

/-! ### Handles that stay in their subgraph -/

/-- Where a handle leads back to binders and switches alone, it leads back to a binder, because a
switch picks from something that is written further up. -/
theorem HandlesLocal.resolves_iff (hP : P.WellFormed) (hlocal : P.HandlesLocal)
    {handle : TensorId} :
    P.Resolves handle ↔ ∀ source, ReflTransGen P.ComesFrom handle source → P.IsHandle source := by
  refine and_iff_left_of_imp fun hall => ?_
  obtain ⟨writer, hwriter, hgives, houtput⟩ := hall handle .refl
  obtain ⟨subgraph, hsubgraph⟩ : ∃ subgraph, P.subgraphs[writer.owner]? = some subgraph :=
    hwriter.imp fun _ h => h.1
  -- Going back from a switch moves the writer to the front, so it ends at a binder.
  induction hplace : subgraph.nodes.idxOf writer.id using Nat.strongRecOn
    generalizing handle writer with
  | ind place ih =>
    by_cases hbinder : writer.node.callee?.isSome
    · exact ⟨handle, writer, .refl, hwriter, hbinder, houtput⟩
    · have hswitch : writer.node.kind.isSwitch := by
        simpa [Node.givesHandle, hbinder] using hgives
      obtain ⟨branch, hbranch⟩ : ∃ branch, branch ∈ writer.node.branches := by
        have htwo := Fits.two_le_inputs (hP.fits hwriter) hswitch
        refine List.exists_mem_of_ne_nil _ (List.ne_nil_of_length_pos ?_)
        rw [Node.branches, if_pos hswitch, List.length_drop]
        omega
      have hstep : P.ComesFrom handle branch := ⟨writer, hwriter, houtput, hbranch⟩
      obtain ⟨other, hother, hgives', houtput'⟩ := hall branch (.single hstep)
      obtain ⟨howner, hbefore⟩ := hlocal.behind hother hgives' houtput' hwriter
        (Node.mem_inputs_of_mem_branches hbranch)
      rw [← howner] at hbefore
      have hlt := idxOf_lt_of_precedes hP hsubgraph hbefore
      obtain ⟨source, binder, hsource, hrest⟩ := ih _ (hplace ▸ hlt)
        (fun source hsource => hall source (.head hstep hsource)) other hother hgives' houtput'
        (howner ▸ hsubgraph) rfl
      exact ⟨source, binder, .head hstep hsource, hrest⟩

theorem HandlesLocal.allResolve_iff (hP : P.WellFormed) (hlocal : P.HandlesLocal) :
    P.AllResolve ↔ ¬ P.Unresolved := by
  simp only [AllResolve, hlocal.resolves_iff hP, Unresolved, not_exists, not_and, not_not]
  exact ⟨fun h call handle source hcall => h hcall source,
    fun h call handle hcall source => h call handle source hcall⟩

end Program

namespace Rewiring

variable {r : Rewiring} {P : Program}

/-- The handle that a tensor of the changed program is, or is a copy of. -/
def origin (r : Rewiring) (P : Program) (tensor : TensorId) : TensorId :=
  if tensor < P.tensors.size then tensor
  else ((r.copies[tensor - P.tensors.size]?).map HandleCopy.handle).getD tensor

theorem origin_old {tensor : TensorId} (hlt : tensor < P.tensors.size) :
    r.origin P tensor = tensor :=
  if_pos hlt

theorem origin_copy {place : Nat} {copy : HandleCopy} (hcopy : r.copies[place]? = some copy) :
    r.origin P (P.tensors.size + place) = copy.handle := by
  rw [origin, if_neg (Nat.not_lt.mpr (Nat.le_add_right _ _)), Nat.add_sub_cancel_left, hcopy]
  rfl

theorem map_origin_old {tensors : List TensorId} (hlt : ∀ tensor ∈ tensors, tensor < P.tensors.size) :
    tensors.map (r.origin P) = tensors :=
  (List.map_congr_left fun tensor hmem => origin_old (hlt tensor hmem)).trans (List.map_id' tensors)

theorem map_origin_redirected {place : Nat} {handles fresh : List TensorId}
    (hlt : ∀ handle ∈ handles, handle < P.tensors.size)
    (hredirected : List.Forall₂ (HandleCopy.Redirected P r.listing r.owner (r.copies.take place))
      handles fresh) : fresh.map (r.origin P) = handles := by
  induction hredirected with
  | nil => rfl
  | cons hone _ ih =>
    obtain ⟨hhead, htail⟩ := List.forall_mem_cons.mp hlt
    rw [List.map_cons, ih htail]
    rcases hone with ⟨rfl, -⟩ | ⟨earlier, copy, hcopy, rfl, rfl⟩
    · rw [origin_old hhead]
    · rw [List.getElem?_take] at hcopy
      split at hcopy
      · rw [origin_copy hcopy]
      · exact nomatch hcopy

/-- A node of the changed program does with copies what a node of the program does. -/
structure Copies (r : Rewiring) (P : Program) (listed source : ListedNode) : Prop where
  lists : P.Lists source
  kind_eq : listed.node.kind = source.node.kind
  outputs_eq : listed.node.outputs.map (r.origin P) = source.node.outputs
  branches_eq : listed.node.branches.map (r.origin P) = source.node.branches

namespace Copies

variable {listed source : ListedNode} {tensor : TensorId}

theorem givesHandle (h : r.Copies P listed source) :
    listed.node.givesHandle = source.node.givesHandle := by
  rw [Node.givesHandle, Node.givesHandle, Node.callee?, Node.callee?, h.kind_eq]

theorem mem_outputs (h : r.Copies P listed source) (houtput : tensor ∈ listed.node.outputs) :
    r.origin P tensor ∈ source.node.outputs :=
  h.outputs_eq ▸ List.mem_map_of_mem houtput

theorem mem_branches (h : r.Copies P listed source) (hbranch : tensor ∈ listed.node.branches) :
    r.origin P tensor ∈ source.node.branches :=
  h.branches_eq ▸ List.mem_map_of_mem hbranch

theorem exists_branch (h : r.Copies P listed source) (hbranch : tensor ∈ source.node.branches) :
    ∃ branch ∈ listed.node.branches, r.origin P branch = tensor :=
  List.mem_map.mp (h.branches_eq ▸ hbranch)

end Copies

section Handles

variable (hP : P.WellFormed) (hr : r.Applies P)

include hP

theorem copies_old {listed : ListedNode} (hlists : P.Lists listed) : r.Copies P listed listed where
  lists := hlists
  kind_eq := rfl
  outputs_eq := map_origin_old fun _ hmem => hP.outputs_lt hlists hmem
  branches_eq := map_origin_old fun _ hmem =>
    hP.inputs_lt hlists (Node.mem_inputs_of_mem_branches hmem)

include hr

theorem copies_copy {place : Nat} {copy : HandleCopy} (hcopy : r.copies[place]? = some copy) :
    r.Copies P ⟨r.owner, P.nodes.size + place, copy.node⟩ copy.source := by
  obtain ⟨hlists, -, -, houtputs⟩ := hr.source hP hcopy
  refine ⟨hlists, (hr.copies_ok.added hcopy).kind_eq, ?_, ?_⟩
  · rw [hr.outputs_of_copy hcopy, List.map_singleton, origin_copy hcopy, houtputs]
  · exact map_origin_redirected
      (fun _ hmem => hP.inputs_lt hlists (Node.mem_inputs_of_mem_branches hmem))
      (hr.branches_of_copy hP hcopy)

theorem exists_copies {listed : ListedNode} (hlists : (r.after P).Lists listed) :
    ∃ source, r.Copies P listed source := by
  rcases (lists_after_iff hP hr).mp hlists with ⟨hold, -⟩ | rfl | ⟨place, copy, hcopy, rfl⟩
  · exact ⟨listed, copies_old hP hold⟩
  · have hcall : r.node.kind = .call := of_decide_eq_true hr.isCall
    refine ⟨⟨r.owner, r.call, r.node⟩, hr.lists_call, rfl, ?_, ?_⟩
    · exact map_origin_old fun _ hmem => hP.outputs_lt hr.lists_call hmem
    · simp [Node.branches, rewired, hcall, NodeKind.isSwitch]
  · exact ⟨copy.source, copies_copy hP hr hcopy⟩

/-- Whatever writes the handle that a tensor is a copy of has a copy that writes the tensor. -/
theorem exists_writer_after (hunique : P.HandlesUnique) {source : ListedNode}
    (hsource : P.Lists source) (hgives : source.node.givesHandle) {tensor : TensorId}
    (houtput : r.origin P tensor ∈ source.node.outputs) :
    ∃ writer, (r.after P).Lists writer ∧ r.Copies P writer source
      ∧ tensor ∈ writer.node.outputs := by
  by_cases hlt : tensor < P.tensors.size
  · rw [origin_old hlt] at houtput
    have hne : source.id ≠ r.call := by
      rintro hsame
      obtain rfl := hP.lists_unique hsource hr.lists_call hsame
      have hcall : r.node.isCall := hr.isCall
      rw [Node.givesHandle_ne_call hgives] at hcall
      exact nomatch hcall
    exact ⟨source, lists_after_old hP hr hsource hne, copies_old hP hsource, houtput⟩
  · obtain ⟨place, rfl⟩ := Nat.exists_eq_add_of_le (Nat.not_lt.mp hlt)
    cases hcopy : r.copies[place]? with
    | none =>
      -- A tensor that is neither old nor a copy is its own origin, and no listed node writes it.
      have hsame : r.origin P (P.tensors.size + place) = P.tensors.size + place := by
        rw [origin, if_neg hlt, Nat.add_sub_cancel_left, hcopy]
        rfl
      rw [hsame] at houtput
      exact absurd (hP.outputs_lt hsource houtput) hlt
    | some copy =>
      obtain ⟨hlists, -, hgives', houtputs⟩ := hr.source hP hcopy
      rw [origin_copy hcopy] at houtput
      obtain rfl : source = copy.source :=
        hunique hlists hgives' (houtputs ▸ List.mem_singleton_self _) hsource houtput
      exact ⟨_, lists_after_copy hP hr hcopy, copies_copy hP hr hcopy,
        hr.outputs_of_copy hcopy ▸ List.mem_singleton_self _⟩

/-! ### Following handles backwards -/

theorem comesFrom_origin {handle source : TensorId} (hcomes : (r.after P).ComesFrom handle source) :
    P.ComesFrom (r.origin P handle) (r.origin P source) := by
  obtain ⟨listed, hlists, houtput, hbranch⟩ := hcomes
  obtain ⟨old, hcopies⟩ := exists_copies hP hr hlists
  exact ⟨old, hcopies.lists, hcopies.mem_outputs houtput, hcopies.mem_branches hbranch⟩

theorem leadsBack_origin {handle source : TensorId}
    (hleads : ReflTransGen (r.after P).ComesFrom handle source) :
    ReflTransGen P.ComesFrom (r.origin P handle) (r.origin P source) :=
  ReflTransGen.lift (r.origin P) (fun _ _ => comesFrom_origin hP hr) _ _ hleads

variable (hunique : P.HandlesUnique)

include hunique

theorem exists_comesFrom_after {handle source : TensorId}
    (hcomes : P.ComesFrom (r.origin P handle) source) :
    ∃ fresh, (r.after P).ComesFrom handle fresh ∧ r.origin P fresh = source := by
  obtain ⟨listed, hlists, houtput, hbranch⟩ := hcomes
  obtain ⟨writer, hwriter, hcopies, houtput'⟩ := exists_writer_after hP hr hunique hlists
    (Node.givesHandle_of_mem_branches hbranch) houtput
  obtain ⟨fresh, hfresh, hsame⟩ := hcopies.exists_branch hbranch
  exact ⟨fresh, ⟨writer, hwriter, houtput', hfresh⟩, hsame⟩

theorem exists_leadsBack_after {handle source : TensorId}
    (hleads : ReflTransGen P.ComesFrom (r.origin P handle) source) :
    ∃ fresh, ReflTransGen (r.after P).ComesFrom handle fresh ∧ r.origin P fresh = source := by
  induction hleads with
  | refl => exact ⟨handle, .refl, rfl⟩
  | tail _ hstep ih =>
    obtain ⟨middle, hleads, rfl⟩ := ih
    obtain ⟨fresh, hcomes, hsame⟩ := exists_comesFrom_after hP hr hunique hstep
    exact ⟨fresh, hleads.tail hcomes, hsame⟩

theorem isHandle_after_iff {tensor : TensorId} :
    (r.after P).IsHandle tensor ↔ P.IsHandle (r.origin P tensor) := by
  constructor
  · intro ⟨listed, hlists, hgives, houtput⟩
    obtain ⟨source, hcopies⟩ := exists_copies hP hr hlists
    exact ⟨source, hcopies.lists, hcopies.givesHandle ▸ hgives, hcopies.mem_outputs houtput⟩
  · intro ⟨listed, hlists, hgives, houtput⟩
    obtain ⟨writer, hwriter, hcopies, houtput'⟩ :=
      exists_writer_after hP hr hunique hlists hgives houtput
    exact ⟨writer, hwriter, hcopies.givesHandle ▸ hgives, houtput'⟩

omit hP hr in
/-- A binder that does with copies what a binder does binds the same tensors. -/
theorem Copies.inputs_eq (hP : P.WellFormed) (hr : r.Applies P) {listed source : ListedNode}
    (h : r.Copies P listed source) (hlists : (r.after P).Lists listed) {callee : SubgraphId}
    (hkind : listed.node.kind = .bind callee) : listed.node.inputs = source.node.inputs := by
  have hbinder : listed.node.callee?.isSome := by
    rw [callee?_eq_some.mpr hkind]
    rfl
  have hgives : source.node.givesHandle :=
    h.givesHandle ▸ Node.givesHandle_of_callee? hbinder
  rcases writer_after hP hr hlists (Node.givesHandle_of_callee? hbinder) with
    ⟨hold, -⟩ | ⟨place, copy, hcopy, rfl, houtputs⟩
  · have hsame : listed.node.outputs = source.node.outputs := by
      rw [← h.outputs_eq, map_origin_old fun _ hmem => hP.outputs_lt hold hmem]
    obtain ⟨output, houtput⟩ := List.length_eq_one_iff.mp
      (Fits.length_outputs (hP.fits h.lists) hgives)
    have hwritten : output ∈ source.node.outputs := houtput ▸ List.mem_singleton_self _
    rw [hunique h.lists hgives hwritten hold (hsame ▸ hwritten)]
  · obtain ⟨hlists', -, hgives', houtputs'⟩ := hr.source hP hcopy
    have hsame : source.node.outputs = [copy.handle] := by
      rw [← h.outputs_eq, houtputs, List.map_singleton, origin_copy hcopy]
    obtain rfl := hunique hlists' hgives' (houtputs' ▸ List.mem_singleton_self _) h.lists
      (hsame ▸ List.mem_singleton_self _)
    obtain ⟨-, -, -, -, branches, hinputs, -⟩ := hr.copies_ok.added hcopy
    rw [hinputs, ← h.kind_eq, hkind]
    rfl

/-- A copy of a handle may run what the handle may run, with the same arguments. -/
theorem exists_bindsTo_after_iff {handle : TensorId} {callee : SubgraphId}
    {arguments : List TensorId} :
    (∃ binder, (r.after P).Flows binder handle ∧ (r.after P).BindsTo binder callee arguments)
      ↔ ∃ binder, P.Flows binder (r.origin P handle) ∧ P.BindsTo binder callee arguments := by
  rw [exists_bindsTo_iff (wellFormed_after hP hr), exists_bindsTo_iff hP]
  constructor
  · intro ⟨source, writer, hleads, hlists, hkind, hinputs, houtput⟩
    obtain ⟨old, hcopies⟩ := exists_copies hP hr hlists
    exact ⟨_, old, leadsBack_origin hP hr hleads, hcopies.lists, hcopies.kind_eq ▸ hkind,
      (hcopies.inputs_eq hunique hP hr hlists hkind).symm.trans hinputs, hcopies.mem_outputs houtput⟩
  · intro ⟨source, writer, hleads, hlists, hkind, hinputs, houtput⟩
    obtain ⟨fresh, hleads', rfl⟩ := exists_leadsBack_after hP hr hunique hleads
    have hgives : writer.node.givesHandle := Node.givesHandle_of_callee? (by
      rw [callee?_eq_some.mpr hkind]
      rfl)
    obtain ⟨copy, hcopy, hcopies, houtput'⟩ :=
      exists_writer_after hP hr hunique hlists hgives houtput
    have hkind' := hcopies.kind_eq.trans hkind
    exact ⟨fresh, copy, hleads', hcopy, hkind',
      (hcopies.inputs_eq hunique hP hr hcopy hkind').trans hinputs, houtput'⟩

theorem exists_flows_after_iff {handle : TensorId} {callee : SubgraphId} :
    (∃ binder, (r.after P).Flows binder handle ∧ (r.after P).Names binder callee)
      ↔ ∃ binder, P.Flows binder (r.origin P handle) ∧ P.Names binder callee := by
  have hbound (Q : Program) (handle : TensorId) :
      (∃ binder, Q.Flows binder handle ∧ Q.Names binder callee)
        ↔ ∃ arguments binder, Q.Flows binder handle ∧ Q.BindsTo binder callee arguments := by
    simp only [names_iff_bindsTo, ← exists_and_left]
    exact exists_comm
  rw [hbound, hbound]
  exact exists_congr fun arguments => exists_bindsTo_after_iff hP hr hunique

/-! ### The calls -/

omit hunique in
/-- A call is there before and after, and reads the same handle or a copy of it. -/
theorem exists_call_after {listed : ListedNode} (hlists : P.Lists listed) (hcall : listed.node.isCall)
    {handle : TensorId} (hhead : listed.node.inputs.head? = some handle) :
    ∃ node fresh, (r.after P).Lists ⟨listed.owner, listed.id, node⟩ ∧ node.isCall
      ∧ node.inputs.head? = some fresh ∧ r.origin P fresh = handle := by
  by_cases hsame : listed.id = r.call
  · obtain rfl := hP.lists_unique hlists hr.lists_call hsame
    obtain ⟨copy, hcopy, hroot⟩ := hr.place_eq
    refine ⟨_, _, lists_after_call hP hr, hr.isCall, rfl, ?_⟩
    rw [origin_copy hcopy, hroot]
    rw [hr.inputs_eq] at hhead
    exact Option.some.inj hhead
  · have hin := List.mem_of_mem_head? (Option.mem_def.mpr hhead)
    exact ⟨listed.node, handle, lists_after_old hP hr hlists hsame, hcall, hhead,
      origin_old (hP.inputs_lt hlists hin)⟩

omit hunique in
theorem exists_call_of_after {listed : ListedNode} (hlists : (r.after P).Lists listed)
    (hcall : listed.node.isCall) {handle : TensorId}
    (hhead : listed.node.inputs.head? = some handle) :
    ∃ node, P.Lists ⟨listed.owner, listed.id, node⟩ ∧ node.isCall
      ∧ node.inputs.head? = some (r.origin P handle) := by
  rcases (lists_after_iff hP hr).mp hlists with ⟨hold, -⟩ | rfl | ⟨place, copy, hcopy, rfl⟩
  · have hin := List.mem_of_mem_head? (Option.mem_def.mpr hhead)
    exact ⟨listed.node, hold, hcall, by rw [hhead, origin_old (hP.inputs_lt hold hin)]⟩
  · obtain ⟨copy, hcopy, hroot⟩ := hr.place_eq
    obtain rfl : P.tensors.size + r.place = handle := Option.some.inj hhead
    exact ⟨r.node, hr.lists_call, hr.isCall, by rw [origin_copy hcopy, hroot, hr.inputs_eq]; rfl⟩
  · rw [hr.isCall_of_copy hP hcopy] at hcall
    exact nomatch hcall

theorem mayRun_after_iff {owner callee : SubgraphId} {call : NodeId} :
    (r.after P).MayRun owner call callee ↔ P.MayRun owner call callee := by
  constructor
  · rintro ⟨listed, handle, binder, hlists, rfl, rfl, hcall, hhead, hruns⟩
    obtain ⟨node, hlists', hcall', hhead'⟩ := exists_call_of_after hP hr hlists hcall hhead
    obtain ⟨binder', hruns'⟩ := (exists_flows_after_iff hP hr hunique).mp ⟨binder, hruns⟩
    exact ⟨_, _, binder', hlists', rfl, rfl, hcall', hhead', hruns'⟩
  · rintro ⟨listed, handle, binder, hlists, rfl, rfl, hcall, hhead, hruns⟩
    obtain ⟨node, fresh, hlists', hcall', hhead', rfl⟩ := exists_call_after hP hr hlists hcall hhead
    obtain ⟨binder', hruns'⟩ := (exists_flows_after_iff hP hr hunique).mpr ⟨binder, hruns⟩
    exact ⟨_, _, binder', hlists', rfl, rfl, hcall', hhead', hruns'⟩

theorem hasNonTailCycle_after_iff : (r.after P).HasNonTailCycle ↔ P.HasNonTailCycle := by
  have hinto : (r.after P).CallsInto = P.CallsInto := by
    funext caller callee
    simp only [callsInto_iff, mayRun_after_iff hP hr hunique]
  simp only [HasNonTailCycle, CallsOnTo, hinto, mayRun_after_iff hP hr hunique,
    nonTail_after_iff hP hr]

theorem unresolved_after_iff : (r.after P).Unresolved ↔ P.Unresolved := by
  constructor
  · rintro ⟨call, handle, source, ⟨listed, hlists, rfl, hcall, hhead⟩, hleads, hnot⟩
    obtain ⟨node, hlists', hcall', hhead'⟩ := exists_call_of_after hP hr hlists hcall hhead
    exact ⟨_, _, _, ⟨_, hlists', rfl, hcall', hhead'⟩, leadsBack_origin hP hr hleads,
      fun hgives => hnot ((isHandle_after_iff hP hr hunique).mpr hgives)⟩
  · rintro ⟨call, handle, source, ⟨listed, hlists, rfl, hcall, hhead⟩, hleads, hnot⟩
    obtain ⟨node, fresh, hlists', hcall', hhead', rfl⟩ := exists_call_after hP hr hlists hcall hhead
    obtain ⟨fresh', hleads', rfl⟩ := exists_leadsBack_after hP hr hunique hleads
    exact ⟨_, _, _, ⟨_, hlists', rfl, hcall', hhead'⟩, hleads',
      fun hgives => hnot ((isHandle_after_iff hP hr hunique).mp hgives)⟩

end Handles

end Rewiring

namespace Program

variable {P P' : Program}

/-- Separation does not change whether calls are resolved and which of them wait for themselves. -/
theorem Separates.verdict_iff (hP : P.WellFormed) (hlocal : P.HandlesLocal)
    (hseparates : P.Separates P') : (P'.Unresolved ↔ P.Unresolved)
      ∧ (P'.HasNonTailCycle ↔ P.HasNonTailCycle) := by
  induction hseparates with
  | refl => exact ⟨Iff.rfl, Iff.rfl⟩
  | tail hbefore hstep ih =>
    obtain ⟨r, hr, rfl⟩ := hstep
    have hmiddle := Separates.wellFormed hP hbefore
    have hunique := (Separates.handlesLocal hP hlocal hbefore).unique
    exact ⟨(Rewiring.unresolved_after_iff hmiddle hr hunique).trans ih.1,
      (Rewiring.hasNonTailCycle_after_iff hmiddle hr hunique).trans ih.2⟩

end Program

end TailFlow
