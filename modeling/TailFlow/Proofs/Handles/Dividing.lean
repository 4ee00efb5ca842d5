import TailFlow.Proofs.Handles.Copying
import TailFlow.Proofs.Handles.Counting
import TailFlow.Proofs.Handles.Keeping

/-!
# One destination for every binder

Where handles stay in their subgraph, separation gives every binder one call at most and leaves every
call the bindings that it had. A call gets a handle of its own once, because no binder that was there
before reaches it afterwards, so the count tells how many calls read another handle. The nodes of a
subgraph stay in their order, and what a call or a switch reads from further up comes from further up.
-/

namespace TailFlow

open Program Relation

namespace Program

variable {P Q S : Program} {calls : List NodeId}

/-! ### Every call once -/

/-- The calls that have got handles of their own are different calls, and the binders of the first
program reach none of them any longer. -/
structure Divided (P : Program) (calls : List NodeId) (S : Program) : Prop where
  rehandled : P.Rehandled calls S
  handlesLocal : S.HandlesLocal
  nodup : calls.Nodup
  lost : ∀ binder < P.nodes.size, ∀ call ∈ calls, ¬ S.Reaches binder call

theorem Divided.refl (hlocal : P.HandlesLocal) : P.Divided [] P where
  rehandled := .refl P
  handlesLocal := hlocal
  nodup := List.nodup_nil
  lost := fun _ _ _ hmem => nomatch hmem

theorem Divided.after (hS : S.WellFormed) (h : P.Divided calls S) {r : Rewiring}
    (hr : r.Applies S) (hnew : r.call ∉ calls) : P.Divided (r.call :: calls) (r.after S) where
  rehandled := h.rehandled.after hS hr
  handlesLocal := Rewiring.handlesLocal_after hS h.handlesLocal hr
  nodup := List.nodup_cons.mpr ⟨hnew, h.nodup⟩
  lost := by
    intro binder hlt call hmem hreaches
    rcases Rewiring.reaches_after hS h.handlesLocal hr hreaches with ⟨-, hbefore, hne⟩ | ⟨hge, -⟩
    · exact h.lost binder hlt call ((List.mem_cons.mp hmem).resolve_left hne) hbefore
    · exact absurd (Nat.lt_of_lt_of_le hlt h.rehandled.nodes_le) (Nat.not_lt.mpr hge)

theorem rewireCalls_divided (hS : S.WellFormed) (h : P.Divided calls S) {todo : List NodeId}
    (hcalls : ∀ call ∈ todo, S.ListsCall call) (hnodup : todo.Nodup)
    (hapart : ∀ call ∈ todo, call ∉ calls) {count : Nat}
    (hrewire : (rewireCalls (calls.length, S) todo : Outcome ScheduleError (Nat × Program))
      = .ok (count, Q)) : ∃ calls', P.Divided calls' Q ∧ calls'.length = count := by
  induction todo generalizing S calls with
  | nil =>
    obtain ⟨rfl, rfl⟩ := Prod.mk.inj (Except.ok.inj hrewire)
    exact ⟨calls, h, rfl⟩
  | cons call rest ih =>
    obtain ⟨⟨rewired, middle⟩, hfirst, hrest⟩ := Outcome.bind_eq_ok.mp hrewire
    obtain ⟨⟨listed, hlists, rfl, hcall⟩, hlisted⟩ := List.forall_mem_cons.mp hcalls
    obtain ⟨hnew, hapart'⟩ := List.forall_mem_cons.mp hapart
    obtain ⟨habsent, hnodup'⟩ := List.nodup_cons.mp hnodup
    rcases rewireCall_eq_ok hS hlists hcall hfirst with ⟨r, hr, hsame, rfl, rfl⟩ | ⟨rfl, rfl, -⟩
    · have hmiddle := h.after hS hr (hsame ▸ hnew)
      refine ih (Rewiring.wellFormed_after hS hr) hmiddle
        (fun call hmem => listsCall_after hS hr (hlisted call hmem)) hnodup'
        (fun call hmem hcons => ?_) hrest
      rcases List.mem_cons.mp hcons with rfl | hbefore
      · exact habsent (hsame ▸ hmem)
      · exact hapart' call hmem hbefore
    · exact ih hS h hlisted hnodup' hapart' hrest

theorem separateBinder_divided (hS : S.WellFormed) (h : P.Divided calls S) {binder : NodeId}
    (hlt : binder < P.nodes.size) (hbinder : S.ListsBinder binder) {count : Nat}
    (hseparate : (separateBinder (calls.length, S) binder
      : Outcome ScheduleError (Nat × Program)) = .ok (count, Q)) :
    ∃ calls', P.Divided calls' Q ∧ calls'.length = count := by
  obtain ⟨listing, hlist, hseparate⟩ := Outcome.bind_eq_ok.mp hseparate
  obtain ⟨reached, hreached, hrewire⟩ := Outcome.bind_eq_ok.mp hseparate
  obtain ⟨reached', hreached', hmem⟩ := exists_callsReached hS hlist hbinder
  obtain rfl := Except.ok.inj (hreached.symm.trans hreached')
  have hreaches {call : NodeId} (hdrop : call ∈ reached.members.drop 1) : S.Reaches binder call :=
    (hmem call).mp (List.mem_of_mem_drop hdrop)
  have hnodup : (reached.members.drop 1).Nodup :=
    (reached.ascending.imp Nat.ne_of_lt).sublist (List.drop_sublist _ _)
  exact rewireCalls_divided hS h (fun call hdrop => (hreaches hdrop).listsCall) hnodup
    (fun call hdrop hcall => h.lost binder hlt call hcall (hreaches hdrop)) hrewire

theorem separateBinders_divided (hS : S.WellFormed) (h : P.Divided calls S)
    {binders : List NodeId} (hlt : ∀ binder ∈ binders, binder < P.nodes.size)
    (hbinders : ∀ binder ∈ binders, S.ListsBinder binder) {count : Nat}
    (hfold : (binders.foldlM separateBinder (calls.length, S)
      : Outcome ScheduleError (Nat × Program)) = .ok (count, Q)) :
    ∃ calls', P.Divided calls' Q ∧ calls'.length = count := by
  induction binders generalizing S calls with
  | nil =>
    obtain ⟨rfl, rfl⟩ := Prod.mk.inj (Outcome.foldlM_nil_eq_ok.mp hfold)
    exact ⟨calls, h, rfl⟩
  | cons binder rest ih =>
    obtain ⟨⟨middleCount, middle⟩, hfirst, hrest⟩ := Outcome.foldlM_cons_eq_ok.mp hfold
    obtain ⟨hlt, hlt'⟩ := List.forall_mem_cons.mp hlt
    obtain ⟨hbinder, hbinders'⟩ := List.forall_mem_cons.mp hbinders
    have hseparates := separateBinder_separates hS hbinder hfirst
    obtain ⟨calls', hdivided, rfl⟩ := separateBinder_divided hS h hlt hbinder hfirst
    exact ih (hseparates.wellFormed hS) hdivided hlt'
      (fun binder hmem => hseparates.listsBinder hS (hbinders' binder hmem)) hrest

theorem separateHandles_divided (hP : P.WellFormed) (hlocal : P.HandlesLocal) {count : Nat}
    (hseparate : (P.separateHandles : Outcome ScheduleError (Nat × Program)) = .ok (count, Q)) :
    ∃ calls, P.Divided calls Q ∧ calls.length = count := by
  obtain ⟨binders, hbinders, hfold⟩ := Outcome.bind_eq_ok.mp hseparate
  obtain ⟨binders', hbinders', hmem⟩ := exists_listedBinders hP
  obtain rfl := Except.ok.inj (hbinders.symm.trans hbinders')
  exact separateBinders_divided hP (.refl hlocal) (fun binder hin => ((hmem binder).mp hin).lt)
    (fun binder => (hmem binder).mp) hfold

def callsRehandled (P Q : Program) : List NodeId :=
  (List.range P.nodes.size).filter fun id => (P.nodes[id]?).any Node.isCall
    && Q.nodes[id]?.map (·.inputs.head?) != P.nodes[id]?.map (·.inputs.head?)

theorem mem_callsRehandled {id : NodeId} : id ∈ P.callsRehandled Q
    ↔ ∃ node, P.nodes[id]? = some node ∧ node.isCall
      ∧ Q.nodes[id]?.map (·.inputs.head?) ≠ some node.inputs.head? := by
  rw [callsRehandled, List.mem_filter, List.mem_range, Bool.and_eq_true, bne_iff_ne]
  constructor
  · rintro ⟨hlt, hcall, hne⟩
    rw [Array.getElem?_eq_getElem hlt] at hcall hne
    exact ⟨_, Array.getElem?_eq_getElem hlt, hcall, hne⟩
  · rintro ⟨node, hnode, hcall, hne⟩
    rw [hnode]
    exact ⟨node_lt hnode, hcall, hne⟩

theorem Divided.mem_callsRehandled_iff (h : P.Divided calls Q) {id : NodeId} :
    id ∈ P.callsRehandled Q ↔ id ∈ calls := by
  rw [mem_callsRehandled]
  constructor
  · rintro ⟨node, hnode, -, hne⟩
    rcases h.rehandled.node_cases hnode with ⟨-, hsame⟩ | ⟨-, -, -, hmem, -⟩
    · rw [hsame] at hne
      exact absurd rfl hne
    · exact hmem
  · intro hmem
    obtain ⟨node, handle, fresh, others, hat⟩ := h.rehandled.changed id hmem
    refine ⟨node, hat.node_eq, hat.isCall, ?_⟩
    rw [hat.after_eq, hat.inputs_eq]
    exact fun hsame => hat.fresh_ne (Option.some.inj (Option.some.inj hsame))

/-- The count of separation is the number of calls that read another handle. -/
theorem Divided.length_callsRehandled (h : P.Divided calls Q) :
    (P.callsRehandled Q).length = calls.length :=
  ((List.perm_ext_iff_of_nodup (List.nodup_range.filter _) h.nodup).mpr fun _ =>
    h.mem_callsRehandled_iff).length_eq

theorem eq_of_separateHandles_zero (hP : P.WellFormed)
    (hseparate : (P.separateHandles : Outcome ScheduleError (Nat × Program)) = .ok (0, Q)) :
    Q = P :=
  separateHandles_keeps (fun count S => count = 0 → S = P)
    (fun _ _ _ _ _ _ hzero => nomatch hzero) hP (fun _ => rfl) hseparate rfl

/-! ### What a call invokes -/

/-- The second handle resolves if the first one does, and leads to binders that bind the same
tensors to the formals of the same subgraphs. -/
structure HandleAlike (P : Program) (handle : TensorId) (Q : Program) (fresh : TensorId) : Prop where
  resolves : P.Resolves handle → Q.Resolves fresh
  binds_iff : ∀ {callee : SubgraphId} {arguments : List TensorId},
    (∃ binder, Q.Flows binder fresh ∧ Q.BindsTo binder callee arguments)
      ↔ ∃ binder, P.Flows binder handle ∧ P.BindsTo binder callee arguments

theorem handleAlike_after (hP : P.WellFormed) (hlocal : P.HandlesLocal) {r : Rewiring}
    (hr : r.Applies P) (handle : TensorId) :
    HandleAlike P (r.origin P handle) (r.after P) handle where
  resolves := by
    rw [hlocal.resolves_iff hP, (Rewiring.handlesLocal_after hP hlocal hr).resolves_iff
      (Rewiring.wellFormed_after hP hr)]
    exact fun hall source hleads => (Rewiring.isHandle_after_iff hP hr hlocal.unique).mpr
      (hall _ (Rewiring.leadsBack_origin hP hr hleads))
  binds_iff := Rewiring.exists_bindsTo_after_iff hP hr hlocal.unique

/-- A call is there after separation and reads a handle like the one that it read. -/
theorem Separates.exists_call (hP : P.WellFormed) (hlocal : P.HandlesLocal)
    (hseparates : P.Separates Q) {listed : ListedNode} (hlists : P.Lists listed)
    (hcall : listed.node.isCall) {handle : TensorId}
    (hhead : listed.node.inputs.head? = some handle) :
    ∃ node fresh, Q.Lists ⟨listed.owner, listed.id, node⟩ ∧ node.isCall
      ∧ node.inputs.head? = some fresh ∧ HandleAlike P handle Q fresh := by
  induction hseparates with
  | refl => exact ⟨_, _, hlists, hcall, hhead, fun hresolves => hresolves, Iff.rfl⟩
  | tail hbefore hstep ih =>
    obtain ⟨r, hr, rfl⟩ := hstep
    obtain ⟨node, middle, hlists', hcall', hhead', halike⟩ := ih
    have hmiddle := Separates.wellFormed hP hbefore
    obtain ⟨node', fresh, hlists'', hcall'', hhead'', rfl⟩ :=
      Rewiring.exists_call_after hmiddle hr hlists' hcall' hhead'
    have hnext := handleAlike_after hmiddle (Separates.handlesLocal hP hlocal hbefore) hr fresh
    exact ⟨node', fresh, hlists'', hcall'', hhead'',
      fun hresolves => hnext.resolves (halike.resolves hresolves),
      hnext.binds_iff.trans halike.binds_iff⟩

/-- A call that is resolved is resolved after separation, to binders that bind the same. -/
theorem Separates.exists_resolveCall (hP : P.WellFormed) (hlocal : P.HandlesLocal)
    (hseparates : P.Separates Q) {listing : List ListedNode}
    (hlist : (P.listing : Outcome ScheduleError (List ListedNode)) = .ok listing)
    {listed : ListedNode} (hlists : P.Lists listed) (hcall : listed.node.isCall) {binders : IdSet}
    (hresolve : P.resolveCall listing listed.owner listed.id = .ok binders) :
    ∃ listing' binders', (Q.listing : Outcome ScheduleError (List ListedNode)) = .ok listing'
      ∧ Q.resolveCall listing' listed.owner listed.id = .ok binders'
      ∧ ∀ callee arguments, (∃ binder ∈ binders', Q.BindsTo binder callee arguments)
        ↔ ∃ binder ∈ binders, P.BindsTo binder callee arguments := by
  obtain ⟨-, -, -, hnode⟩ := id hlists
  obtain ⟨handle, hhead⟩ := hP.exists_handle hlists hcall
  obtain ⟨node, fresh, ⟨-, -, -, hnode'⟩, -, hhead', halike⟩ :=
    hseparates.exists_call hP hlocal hlists hcall hhead
  have hQ := hseparates.wellFormed hP
  have hunique := (hseparates.handlesLocal hP hlocal).unique
  obtain ⟨listing', hlist'⟩ := hQ.exists_listing (ε := ScheduleError)
  have hresolves :=
    (exists_resolveCall_iff hP hlocal.unique hlist hnode hhead).mp ⟨binders, hresolve⟩
  obtain ⟨binders', hresolve'⟩ :=
    (exists_resolveCall_iff hQ hunique hlist' hnode' hhead').mpr (halike.resolves hresolves)
  refine ⟨listing', binders', hlist', hresolve', fun callee arguments => ?_⟩
  simp only [mem_resolveCall hQ hunique hlist' hresolve' hnode' hhead',
    mem_resolveCall hP hlocal.unique hlist hresolve hnode hhead]
  exact halike.binds_iff

/-! ### What is written further up -/

/-- A node further up in the list of the subgraph writes the tensor. -/
def WrittenBefore (P : Program) (owner : SubgraphId) (reader : NodeId) (tensor : TensorId) : Prop :=
  ∃ writer, P.Lists writer ∧ P.Precedes owner writer.id reader ∧ tensor ∈ writer.node.outputs

end Program

/-- The tensors that a node reads as handles: a call the first one, a switch what it picks from. -/
def Node.handlesRead (node : Node) : List TensorId :=
  if node.isCall then node.inputs.take 1 else node.branches

namespace Program

variable {P Q R : Program}

/-- A node of the second program, itself an old node or a copy of one, reads from further up what
the old node reads from further up. -/
structure StandsFor (P Q : Program) (reader source : ListedNode) : Prop where
  lists : P.Lists source
  owner_eq : reader.owner = source.owner
  kind_eq : reader.node.kind = source.node.kind
  id_eq : reader.id < P.nodes.size → reader.id = source.id
  reads : List.Forall₂ (fun old new => P.WrittenBefore source.owner source.id old →
    Q.WrittenBefore reader.owner reader.id new) source.node.handlesRead reader.node.handlesRead

theorem StandsFor.refl {reader : ListedNode} (hlists : P.Lists reader) :
    P.StandsFor P reader reader where
  lists := hlists
  owner_eq := rfl
  kind_eq := rfl
  id_eq := fun _ => rfl
  reads := List.forall₂_same.mpr fun _ _ hbefore => hbefore

theorem StandsFor.trans {reader middle source : ListedNode} (hsize : P.nodes.size ≤ Q.nodes.size)
    (hsecond : Q.StandsFor R reader middle) (hfirst : P.StandsFor Q middle source) :
    P.StandsFor R reader source where
  lists := hfirst.lists
  owner_eq := hsecond.owner_eq.trans hfirst.owner_eq
  kind_eq := hsecond.kind_eq.trans hfirst.kind_eq
  id_eq := by
    intro hlt
    have hsame := hsecond.id_eq (Nat.lt_of_lt_of_le hlt hsize)
    exact hsame.trans (hfirst.id_eq (hsame ▸ hlt))
  reads := Outcome.forall₂_trans (fun _ _ _ hone htwo hbefore => htwo (hone hbefore))
    hfirst.reads hsecond.reads

end Program

namespace Rewiring

variable {r : Rewiring} {P : Program} (hP : P.WellFormed) (hlocal : P.HandlesLocal)
  (hr : r.Applies P)

include hP hr

/-- What writes a tensor of the program writes it in the changed program. -/
theorem exists_writes_after {writer : ListedNode} (hwriter : P.Lists writer) :
    ∃ after, (r.after P).Lists after ∧ after.id = writer.id
      ∧ after.node.outputs = writer.node.outputs := by
  by_cases hsame : writer.id = r.call
  · obtain rfl := hP.lists_unique hwriter hr.lists_call hsame
    exact ⟨_, lists_after_call hP hr, rfl, rfl⟩
  · exact ⟨writer, lists_after_old hP hr hwriter hsame, rfl, rfl⟩

theorem writtenBefore_after_old {owner : SubgraphId} {reader : NodeId} {tensor : TensorId}
    (hbefore : P.WrittenBefore owner reader tensor) :
    (r.after P).WrittenBefore owner reader tensor := by
  obtain ⟨writer, hwriter, hprecedes, houtput⟩ := hbefore
  obtain ⟨after, hafter, hid, hout⟩ := exists_writes_after hP hr hwriter
  exact ⟨after, hafter, hid ▸ precedes_after_of_precedes hP hr hprecedes, hout ▸ houtput⟩

theorem writtenBefore_after_call : (r.after P).WrittenBefore r.owner r.call
    (P.tensors.size + r.place) := by
  obtain ⟨copy, hcopy, -⟩ := hr.place_eq
  exact ⟨_, lists_after_copy hP hr hcopy, copy_precedes_call hP hr hr.place_lt,
    hr.outputs_of_copy hcopy ▸ List.mem_singleton_self _⟩

include hlocal

/-- A copy stands where the call stands, so what is written above its source is written above it. -/
theorem writtenBefore_after_copy {place : Nat} {copy : HandleCopy}
    (hcopy : r.copies[place]? = some copy) {tensor : TensorId}
    (hbefore : P.WrittenBefore r.owner copy.source.id tensor) :
    (r.after P).WrittenBefore r.owner (P.nodes.size + place) tensor := by
  obtain ⟨writer, hwriter, ⟨subgraph, hsubgraph, hsublist⟩, houtput⟩ := hbefore
  obtain rfl := Option.some.inj (hr.subgraph_eq.symm.trans hsubgraph)
  rw [hr.nodes_eq] at hsublist
  have hearlier := mem_earlier_of_sublist (hr.nodup hP) hsublist
    (source_of_copy_mem_earlier hP hlocal hr hcopy)
  obtain ⟨after, hafter, hid, hout⟩ := exists_writes_after hP hr hwriter
  have hplace := (List.getElem?_eq_some_iff.mp hcopy).1
  exact ⟨after, hafter, hid ▸ precedes_after_copy hP hr hearlier hplace, hout ▸ houtput⟩

theorem reads_copy {place : Nat} {copy : HandleCopy} (hcopy : r.copies[place]? = some copy) :
    List.Forall₂ (fun old new => P.WrittenBefore r.owner copy.source.id old →
        (r.after P).WrittenBefore r.owner (P.nodes.size + place) new)
      copy.source.node.branches copy.node.branches := by
  refine (hr.branches_of_copy hP hcopy).imp fun old new hredirected hbefore => ?_
  rcases hredirected with ⟨rfl, -⟩ | ⟨earlier, other, hother, -, rfl⟩
  · exact writtenBefore_after_copy hP hlocal hr hcopy hbefore
  · have hplace := (List.getElem?_eq_some_iff.mp hcopy).1
    have hlt := (List.getElem?_eq_some_iff.mp hother).1
    rw [List.length_take, Nat.min_eq_left (Nat.le_of_lt hplace)] at hlt
    have hother' : r.copies[earlier]? = some other := by
      rwa [List.getElem?_take, if_pos hlt] at hother
    exact ⟨_, lists_after_copy hP hr hother', copy_precedes_copy hP hr hlt hplace,
      hr.outputs_of_copy hother' ▸ List.mem_singleton_self _⟩

theorem exists_standsFor_after {reader : ListedNode} (hreader : (r.after P).Lists reader) :
    ∃ source, P.StandsFor (r.after P) reader source := by
  rcases (lists_after_iff hP hr).mp hreader with ⟨hold, -⟩ | rfl | ⟨place, copy, hcopy, rfl⟩
  · exact ⟨reader, hold, rfl, rfl, fun _ => rfl,
      List.forall₂_same.mpr fun _ _ => writtenBefore_after_old hP hr⟩
  · refine ⟨_, hr.lists_call, rfl, rfl, fun _ => rfl, ?_⟩
    have hcall : (r.rewired P).isCall := hr.isCall
    rw [Node.handlesRead, Node.handlesRead, if_pos hr.isCall, if_pos hcall, hr.inputs_eq, rewired]
    exact .cons (fun _ => writtenBefore_after_call hP hr) .nil
  · obtain ⟨hlists, howner, hgives, -⟩ := hr.source hP hcopy
    have hkind := (hr.copies_ok.added hcopy).kind_eq
    refine ⟨copy.source, hlists, howner.symm, hkind, fun hlt => ?_, ?_⟩
    · exact absurd hlt (Nat.not_lt.mpr (Nat.le_add_right _ _))
    · rw [Node.handlesRead, Node.handlesRead, Node.givesHandle_ne_call hgives,
        hr.isCall_of_copy hP hcopy, howner]
      exact reads_copy hP hlocal hr hcopy

end Rewiring

namespace Program

variable {P Q : Program}

/-- Every node of the separated program is an old node or a copy of one, and reads from further up
what that reads from further up. -/
theorem Separates.exists_standsFor (hP : P.WellFormed) (hlocal : P.HandlesLocal)
    (hseparates : P.Separates Q) {reader : ListedNode} (hreader : Q.Lists reader) :
    ∃ source, P.StandsFor Q reader source := by
  induction hseparates generalizing reader with
  | refl => exact ⟨reader, .refl hreader⟩
  | tail hbefore hstep ih =>
    obtain ⟨r, hr, rfl⟩ := hstep
    have hmiddle := Separates.wellFormed hP hbefore
    obtain ⟨middle, hsecond⟩ := Rewiring.exists_standsFor_after hmiddle
      (Separates.handlesLocal hP hlocal hbefore) hr hreader
    obtain ⟨source, hfirst⟩ := ih hsecond.lists
    exact ⟨source, hsecond.trans (Separates.kept hP hbefore).nodes_le hfirst⟩

/-! ### All of it -/

/-- What separation, with its count, makes of a program. -/
structure Divides (P Q : Program) (count : Nat) : Prop where
  oneCall : ∀ binder, Q.ListsBinder binder → ∃ listing calls,
    (Q.listing : Outcome ScheduleError (List ListedNode)) = .ok listing
      ∧ (Q.callsReached listing binder : Outcome ScheduleError IdSet) = .ok calls ∧ calls.size ≤ 1
  invokes : ∀ listed listing binders, P.Lists listed → listed.node.isCall →
    (P.listing : Outcome ScheduleError (List ListedNode)) = .ok listing →
    P.resolveCall listing listed.owner listed.id = .ok binders →
    ∃ listing' binders', (Q.listing : Outcome ScheduleError (List ListedNode)) = .ok listing'
      ∧ Q.resolveCall listing' listed.owner listed.id = .ok binders'
      ∧ ∀ callee arguments, (∃ binder ∈ binders', Q.BindsTo binder callee arguments)
        ↔ ∃ binder ∈ binders, P.BindsTo binder callee arguments
  nodes : ∀ (id : SubgraphId) (subgraph : Subgraph), P.subgraphs[id]? = some subgraph →
    ∃ after, Q.subgraphs[id]? = some after
      ∧ after.nodes.filter (· < P.nodes.size) = subgraph.nodes
  reads : ∀ reader, Q.Lists reader → ∃ source, P.StandsFor Q reader source
  counted : (P.callsRehandled Q).length = count
  unchanged : count = 0 → Q = P

end Program

open Program

/-- Where every handle has one writer and is read only behind it in its subgraph, separation has an
answer. Then every binder reaches one call at most; every call that was resolved is resolved to
binders that bind the same; the old nodes are in their order, and the handles that were written
further up are; and the count is that of the calls that read another handle, so that nothing has been
done if it is zero. -/
theorem separateHandles_divides {P : Program} (hvalid : P.validate = .ok ())
    (hlocal : P.HandlesLocal) : ∃ count Q,
      (P.separateHandles : Outcome ScheduleError (Nat × Program)) = .ok (count, Q)
        ∧ P.Divides Q count := by
  have hP := wellFormed_of_validate hvalid
  obtain ⟨count, Q, hseparate⟩ := exists_separateHandles hP hlocal
  have hseparates := separateHandles_separates hP hseparate
  have hQ := hseparates.wellFormed hP
  obtain ⟨calls, hdivided, hlength⟩ := separateHandles_divided hP hlocal hseparate
  obtain ⟨-, hone⟩ := reachesOne_of_separateHandles hP hlocal hseparate
  refine ⟨count, Q, hseparate, ?_, ?_, ?_, ?_, ?_, ?_⟩
  · intro binder hbinder
    obtain ⟨listing, hlist⟩ := hQ.exists_listing (ε := ScheduleError)
    obtain ⟨reached, hreached, hmem⟩ := exists_callsReached hQ hlist hbinder
    refine ⟨listing, reached, hlist, hreached, IdSet.size_le_one_iff.mpr ?_⟩
    exact fun first hfirst second hsecond =>
      hone binder ((hmem first).mp hfirst) ((hmem second).mp hsecond)
  · intro listed listing binders hlists hcall hlist hresolve
    exact hseparates.exists_resolveCall hP hlocal hlist hlists hcall hresolve
  · intro id subgraph hsubgraph
    obtain ⟨after, hafter, -, hnodes⟩ := (hseparates.kept hP).subgraph hsubgraph
    exact ⟨after, hafter, hnodes⟩
  · exact fun reader hreader => hseparates.exists_standsFor hP hlocal hreader
  · exact hdivided.length_callsRehandled.trans hlength
  · rintro rfl
    exact eq_of_separateHandles_zero hP hseparate

/-- An entry that picks one of two binders for two calls, and calls the first of the binders once
more. -/
def forkedHandle : Program where
  tensors := #["x", "condition", "left", "right", "handle", "y", "z", "out", "given", "result"].map
    fun name => ⟨name, [], .f32, none⟩
  nodes := #[⟨"bind_left", .bind 1, [0], [2]⟩, ⟨"bind_right", .bind 1, [1], [3]⟩,
    ⟨"pick", .switch, [1, 2, 3], [4]⟩, ⟨"first", .call, [4], [5]⟩, ⟨"second", .call, [4], [6]⟩,
    ⟨"third", .call, [2], [7]⟩, ⟨"pass", .kernel .copy, [8], [9]⟩]
  subgraphs := #[⟨"main", .body, [0, 1], [7], [0, 1, 2, 3, 4, 5]⟩, ⟨"body", .body, [8], [9], [6]⟩]
  order := [0, 1]
  entry := 0
  outputs := [7]
  links := .empty

/-- The second and the third call get handles of their own, and the second one binds as before. -/
theorem forkedHandle_divided : forkedHandle.validate = .ok () ∧ forkedHandle.HandlesLocal
    ∧ ∃ Q, forkedHandle.separateHandles (ε := ScheduleError) = .ok (2, Q)
      ∧ forkedHandle.callsRehandled Q = [4, 5] ∧ forkedHandle.Divides Q 2 := by
  have hvalid : forkedHandle.validate = .ok () := by decide +kernel
  have hlocal : forkedHandle.HandlesLocal := by decide +kernel
  obtain ⟨count, Q, hseparate, hdivides⟩ := separateHandles_divides hvalid hlocal
  obtain ⟨answer, hanswer, hcount, hcalls⟩ := Outcome.exists_of_holds
    (fun answer : Nat × Program => answer.1 = 2 ∧ forkedHandle.callsRehandled answer.2 = [4, 5])
    (by decide +kernel : Outcome.holds ((forkedHandle.separateHandles (ε := ScheduleError)).map _)
      = true)
  obtain rfl := Except.ok.inj (hanswer.symm.trans hseparate)
  obtain rfl : count = 2 := hcount
  exact ⟨hvalid, hlocal, Q, hseparate, hcalls, hdivides⟩

end TailFlow
