import TailFlow.Proofs.Handles.Foreign
import TailFlow.Proofs.Program.Checking
import TailFlow.Proofs.Program.Order
import TailFlow.Proofs.Schedule.Splitting
import TailFlow.Proofs.Schedule.TailForm

/-!
# Splitting keeps who calls whom

A split moves binders, switches and calls into a segment that no binder names, and the segment
copies what the call used to write. The binders that name a subgraph are the same after it. A
segment is reached along with the body that it goes back to, so what it binds is reached as
before. A call is resolved through the first listed node that writes each tensor: the copy stands
in the listing right behind the call in whose place it writes, and neither of them makes a handle,
so every handle has the maker that it had. Whatever asks for the callers of a body after
splitting, as wrapping does, is told what detection was told.
-/

namespace TailFlow

open Program

/-! ### Resolving by makers -/

namespace ListedNode

def maker? (listing : List ListedNode) (tensor : TensorId) : Option ListedNode :=
  (producer? listing tensor).filter fun listed => listed.node.givesHandle

variable {listing : List ListedNode}

theorem maker?_eq_some {tensor : TensorId} {listed : ListedNode} :
    maker? listing tensor = some listed
      ↔ producer? listing tensor = some listed ∧ listed.node.givesHandle := by
  rw [maker?, Option.filter_eq_some_iff]

theorem sources_eq (listing : List ListedNode) (handle : TensorId) :
    sources listing handle = ((maker? listing handle).map fun listed => listed.node.branches).getD [] := by
  unfold sources maker?
  cases producer? listing handle with
  | none => rfl
  | some listed =>
    cases hgives : listed.node.givesHandle with
    | true => simp [Option.filter, hgives]
    | false =>
      -- Only a switch has branches, and a switch makes a handle.
      have hnone : listed.node.branches = [] := by
        apply List.eq_nil_iff_forall_not_mem.mpr
        intro branch hbranch
        exact Bool.false_ne_true (hgives.symm.trans (Node.givesHandle_of_mem_branches hbranch))
      simp [Option.filter, hgives, hnone]

theorem isHandle_eq (listing : List ListedNode) (tensor : TensorId) :
    isHandle listing tensor = (maker? listing tensor).isSome := by
  unfold isHandle maker?
  cases producer? listing tensor with
  | none => rfl
  | some listed =>
    show listed.node.givesHandle = _
    cases hgives : listed.node.givesHandle <;> simp [Option.filter, hgives]

theorem binder?_eq (listing : List ListedNode) (handle : TensorId) :
    binder? listing handle = (maker? listing handle).bind fun listed =>
      if listed.node.callee?.isSome then some listed.id else none := by
  unfold binder? maker?
  cases producer? listing handle with
  | none => rfl
  | some listed =>
    cases hgives : listed.node.givesHandle with
    | true => simp [Option.filter, hgives]
    | false =>
      have hnone : listed.node.callee?.isSome = false := by
        apply Bool.eq_false_iff.mpr
        intro hbinder
        exact Bool.false_ne_true (hgives.symm.trans (Node.givesHandle_of_callee? hbinder))
      simp [Option.filter, hgives, hnone]

section Moved

variable {listing listing' : List ListedNode} {move : ListedNode → ListedNode}
  (hid : ∀ listed, (move listed).id = listed.id) (hnode : ∀ listed, (move listed).node = listed.node)
  (hmakers : ∀ tensor, maker? listing' tensor = (maker? listing tensor).map move)

include hmakers

theorem isHandle_moved : isHandle listing' = isHandle listing := by
  funext tensor
  simp [isHandle_eq, hmakers]

include hnode

theorem sources_moved : sources listing' = sources listing := by
  funext handle
  simp [sources_eq, hmakers, Function.comp_def, hnode]

theorem origins_moved : origins listing' = origins listing := by
  funext handle
  apply IdSet.ext_mem
  intro source
  rw [mem_origins_iff_leads, mem_origins_iff_leads, sources_moved hnode hmakers]

include hid

theorem binder?_moved : binder? listing' = binder? listing := by
  funext handle
  rw [binder?_eq, binder?_eq, hmakers]
  cases maker? listing handle with
  | none => rfl
  | some listed => simp [hid, hnode]

end Moved

end ListedNode

/-- A call resolves to the same binders if it reads the same handle and every tensor has the same
maker, whoever lists it. -/
theorem resolveCall_moved {P P' : Program} {listing listing' : List ListedNode}
    {move : ListedNode → ListedNode} (hid : ∀ listed, (move listed).id = listed.id)
    (hnode : ∀ listed, (move listed).node = listed.node)
    (hmakers : ∀ tensor,
      ListedNode.maker? listing' tensor = (ListedNode.maker? listing tensor).map move)
    {call : NodeId} {node node' : Node} (hcall : P.nodes[call]? = some node)
    (hcall' : P'.nodes[call]? = some node') (hinputs : node'.inputs = node.inputs)
    (owner : SubgraphId) :
    P'.resolveCall listing' owner call = P.resolveCall listing owner call := by
  unfold resolveCall
  rw [node_eq_ok.mpr hcall, node_eq_ok.mpr hcall', Outcome.ok_bind, Outcome.ok_bind, hinputs,
    ListedNode.origins_moved hnode hmakers, ListedNode.isHandle_moved hmakers,
    ListedNode.binder?_moved hid hnode hmakers]

/-- What a call resolves to does not depend on the subgraph that is named when it does not resolve.
-/
theorem resolveCall_owner {P : Program} {listing : List ListedNode} {owner : SubgraphId}
    {call : NodeId} {binders : IdSet} (hresolve : P.resolveCall listing owner call = .ok binders)
    (other : SubgraphId) : P.resolveCall listing other call = .ok binders := by
  simp only [resolveCall, Outcome.bind_eq_ok, node_eq_ok, Outcome.orRefuse_eq_ok,
    Outcome.ensure_eq_ok, exists_const] at hresolve ⊢
  exact hresolve

/-! ### The makers after a cut -/

namespace Program

variable {P P' : Program} {tensor : TensorId}

/-- Whether a node is a binder or a switch. -/
def makesHandle (P : Program) (id : NodeId) : Bool := (P.nodes[id]?).any Node.givesHandle

/-- The first of some nodes that writes a tensor, if it is a binder or a switch. -/
def makerAmong (P : Program) (tensor : TensorId) (ids : List NodeId) : Option NodeId :=
  (ids.find? (P.isWrittenBy tensor)).filter P.makesHandle

theorem makerAmong_cons (P : Program) (tensor : TensorId) (id : NodeId) (rest : List NodeId) :
    P.makerAmong tensor (id :: rest) = if P.isWrittenBy tensor id then
      if P.makesHandle id then some id else none else P.makerAmong tensor rest := by
  unfold makerAmong
  rw [List.find?_cons]
  cases P.isWrittenBy tensor id <;> simp [Option.filter]

theorem makerAmong_eq_none {ids : List NodeId} (hids : ∀ id ∈ ids, P.isWrittenBy tensor id = false) :
    P.makerAmong tensor ids = none := by
  have hnone : ids.find? (P.isWrittenBy tensor) = none := by
    apply List.find?_eq_none.mpr
    simpa using hids
  rw [makerAmong, hnone, Option.filter_none]

/-- Nodes that are the same in two programs make the same, and so does what stands behind them. -/
theorem makerAmong_append {front back back' : List NodeId}
    (hsame : ∀ id ∈ front, P'.nodes[id]? = P.nodes[id]?)
    (hback : P'.makerAmong tensor back' = P.makerAmong tensor back) :
    P'.makerAmong tensor (front ++ back') = P.makerAmong tensor (front ++ back) := by
  induction front with
  | nil => exact hback
  | cons id rest ih =>
    obtain ⟨hhead, hrest⟩ := List.forall_mem_cons.mp hsame
    have hwrites : P'.isWrittenBy tensor id = P.isWrittenBy tensor id := by
      rw [isWrittenBy, isWrittenBy, hhead]
    have hmakes : P'.makesHandle id = P.makesHandle id := by
      rw [makesHandle, makesHandle, hhead]
    rw [List.cons_append, List.cons_append, makerAmong_cons, makerAmong_cons, ih hrest, hwrites, hmakes]

theorem makerAmong_congr {ids : List NodeId} (hsame : ∀ id ∈ ids, P'.nodes[id]? = P.nodes[id]?) :
    P'.makerAmong tensor ids = P.makerAmong tensor ids := by
  have happend : P'.makerAmong tensor (ids ++ []) = P.makerAmong tensor (ids ++ []) :=
    makerAmong_append hsame rfl
  rwa [List.append_nil] at happend

theorem exists_lists_of_mem_listingIds (hP : P.WellFormed) {id : NodeId} (hmem : id ∈ P.listingIds) :
    ∃ owner node, P.Lists ⟨owner, id, node⟩ := by
  obtain ⟨owner, howner, hid⟩ := List.mem_flatMap.mp hmem
  have hsubgraph := Array.getElem?_eq_getElem (hP.mem_order.mp howner)
  rw [hsubgraph] at hid
  obtain ⟨node, -, hlists⟩ := hP.exists_lists hsubgraph hid
  exact ⟨owner, node, hlists⟩

theorem makerAmong_eq_none_of_size_le (hP : P.WellFormed) (hnew : P.tensors.size ≤ tensor)
    {ids : List NodeId} (hlisted : ∀ id ∈ ids, id ∈ P.listingIds) :
    P.makerAmong tensor ids = none := by
  apply makerAmong_eq_none
  intro id hmem
  obtain ⟨owner, node, hlists⟩ := exists_lists_of_mem_listingIds hP (hlisted id hmem)
  have habsent : tensor ∉ node.outputs := fun hout =>
    Nat.not_lt.mpr hnew (hP.outputs_lt hlists hout)
  obtain ⟨-, -, -, hnode⟩ := hlists
  simp [isWrittenBy, hnode, habsent]

theorem nodup_listingIds (hP : P.WellFormed) : P.listingIds.Nodup := by
  unfold listingIds
  apply List.nodup_flatMap.mpr
  constructor
  · intro owner howner
    have hsubgraph := Array.getElem?_eq_getElem (hP.mem_order.mp howner)
    rw [hsubgraph]
    exact hP.nodup hsubgraph
  · apply hP.order_nodup.imp_of_mem
    intro first second hfirst hsecond hne id hid hid'
    have hsubgraph := Array.getElem?_eq_getElem (hP.mem_order.mp hfirst)
    have hsubgraph' := Array.getElem?_eq_getElem (hP.mem_order.mp hsecond)
    dsimp only at hid hid'
    rw [hsubgraph] at hid
    rw [hsubgraph'] at hid'
    exact hne (hP.apart hsubgraph hsubgraph' id hid hid')

theorem map_id_maker? (hP : P.WellFormed) {listing : List ListedNode}
    (hlist : (P.listing : Outcome ScheduleError (List ListedNode)) = .ok listing)
    (tensor : TensorId) :
    (ListedNode.maker? listing tensor).map ListedNode.id = P.makerAmong tensor P.listingIds := by
  unfold ListedNode.maker? makerAmong
  rw [← map_id_producer? hP hlist]
  cases hproducer : ListedNode.producer? listing tensor with
  | none => rfl
  | some listed =>
    obtain ⟨⟨-, -, -, hnode⟩, -⟩ := lists_of_producer? hP hlist hproducer
    cases hgives : listed.node.givesHandle <;> simp [Option.filter, makesHandle, hnode, hgives]

end Program

namespace Cut

variable {c : Cut} {P : Program}

/-- After a cut the copy stands in the listing right behind the call, and nothing else is changed.
-/
theorem exists_listingIds_after (hP : P.WellFormed) (hc : c.Applies P) :
    ∃ front back, P.listingIds = front ++ c.call :: back
      ∧ (c.after P).listingIds = front ++ c.call :: P.nodes.size :: back := by
  have howner : c.owner ∈ P.order := hP.mem_order.mpr (subgraph_lt hc.subgraph_eq)
  obtain ⟨before, behind, horder⟩ := List.append_of_mem howner
  have hnodup := hP.order_nodup
  rw [horder] at hnodup
  obtain ⟨-, hbehind, hapart⟩ := List.nodup_append.mp hnodup
  have habsent : c.owner ∉ before := fun hmem => hapart _ hmem _ List.mem_cons_self rfl
  -- The subgraphs other than the one that is cut list what they listed.
  have hothers (ids : List SubgraphId) (hsub : ∀ id ∈ ids, id ∈ P.order) (hne : c.owner ∉ ids) :
      (ids.flatMap fun id => (((c.after P).subgraphs[id]?).map Subgraph.nodes).getD [])
        = ids.flatMap fun id => ((P.subgraphs[id]?).map Subgraph.nodes).getD [] := by
    apply List.flatMap_congr
    intro id hmem
    have hother : id ≠ c.owner := fun hsame => hne (hsame ▸ hmem)
    rw [subgraph_after_other (hP.mem_order.mp (hsub id hmem)) hother]
  have hbefore := hothers before (fun id hmem => by simp [horder, hmem]) habsent
  have hlater := hothers behind (fun id hmem => by simp [horder, hmem])
    (List.nodup_cons.mp hbehind).1
  have hafter : (c.after P).order = before ++ c.owner :: P.subgraphs.size :: behind := by
    show insertAfter c.owner P.subgraphs.size P.order = _
    rw [horder, insertAfter_eq habsent]
  refine ⟨(before.flatMap fun id => ((P.subgraphs[id]?).map Subgraph.nodes).getD []) ++ c.earlier,
    c.later ++ behind.flatMap fun id => ((P.subgraphs[id]?).map Subgraph.nodes).getD [], ?_, ?_⟩
  · rw [listingIds, horder, List.flatMap_append, List.flatMap_cons, hc.subgraph_eq]
    simp [hc.nodes_eq]
  · rw [listingIds, hafter, List.flatMap_append, List.flatMap_cons, List.flatMap_cons, hbefore, hlater,
      subgraph_after_owner hP hc, subgraph_after_segment]
    simp [head, segment]

theorem givesHandle_of_applies (hc : c.Applies P) : c.node.givesHandle = false := by
  apply Bool.eq_false_iff.mpr
  intro hgives
  exact Bool.false_ne_true ((Node.givesHandle_ne_call hgives).symm.trans hc.isCall)

theorem makerAmong_call (hc : c.Applies P) (tensor : TensorId) (behind : List NodeId) :
    P.makerAmong tensor (c.call :: behind)
      = if tensor ∈ c.node.outputs then none else P.makerAmong tensor behind := by
  have hmakes : P.makesHandle c.call = false := by
    rw [makesHandle, hc.node_eq]
    exact givesHandle_of_applies hc
  have hwrites : P.isWrittenBy tensor c.call = c.node.outputs.contains tensor := by
    rw [isWrittenBy, hc.node_eq]
    rfl
  simp [makerAmong_cons, hmakes, hwrites]

theorem makerAmong_call_after (hc : c.Applies P) (tensor : TensorId) (behind : List NodeId) :
    (c.after P).makerAmong tensor (c.call :: P.nodes.size :: behind)
      = if tensor ∈ c.handover ∨ tensor ∈ c.node.outputs then none
        else (c.after P).makerAmong tensor behind := by
  have hmakes : (c.after P).makesHandle c.call = false := by
    rw [makesHandle, node_after_call hc]
    exact givesHandle_of_applies hc
  have hwrites : (c.after P).isWrittenBy tensor c.call = c.handover.contains tensor := by
    rw [isWrittenBy, node_after_call hc]
    rfl
  have hmakes' : (c.after P).makesHandle P.nodes.size = false := by
    rw [makesHandle, node_after_resume]
    rfl
  have hwrites' : (c.after P).isWrittenBy tensor P.nodes.size = c.node.outputs.contains tensor := by
    rw [isWrittenBy, node_after_resume]
    rfl
  by_cases hhandover : tensor ∈ c.handover <;>
    simp [makerAmong_cons, hmakes, hmakes', hwrites, hwrites', hhandover]

/-- The nodes of the listing before and behind the call are as they were. -/
theorem node_after_listed (hP : P.WellFormed) {front back : List NodeId}
    (hbefore : P.listingIds = front ++ c.call :: back) {id : NodeId} (hmem : id ∈ front ++ back) :
    (c.after P).nodes[id]? = P.nodes[id]? := by
  have hnodup := nodup_listingIds hP
  rw [hbefore, List.nodup_middle, List.nodup_cons] at hnodup
  have hne : id ≠ c.call := fun h => hnodup.1 (h ▸ hmem)
  have hlisted : id ∈ P.listingIds := by
    rw [hbefore]
    exact List.perm_middle.symm.subset (.tail _ hmem)
  obtain ⟨owner, node, -, -, -, hnode⟩ := exists_lists_of_mem_listingIds hP hlisted
  exact node_after_old (node_lt hnode) hne

/-- A tensor has the same maker after a cut: what the call wrote is copied in its place, and neither
the call nor the copy makes a handle. -/
theorem makerAmong_after (hP : P.WellFormed) (hc : c.Applies P) (tensor : TensorId) :
    (c.after P).makerAmong tensor (c.after P).listingIds = P.makerAmong tensor P.listingIds := by
  obtain ⟨front, back, hbefore, hafter⟩ := exists_listingIds_after hP hc
  have hback : (c.after P).makerAmong tensor back = P.makerAmong tensor back :=
    makerAmong_congr fun id hmem => node_after_listed hP hbefore (List.mem_append_right _ hmem)
  rw [hbefore, hafter]
  apply makerAmong_append
  · intro id hmem
    exact node_after_listed hP hbefore (List.mem_append_left _ hmem)
  rw [makerAmong_call hc, makerAmong_call_after hc, hback]
  by_cases hfresh : tensor ∈ c.handover
  · have hnone : P.makerAmong tensor back = none := by
      apply makerAmong_eq_none_of_size_le hP (hc.fresh.le_of_mem hfresh)
      intro id hmem
      rw [hbefore]
      exact List.mem_append_right _ (.tail _ hmem)
    simp [hfresh, hnone]
  · simp [hfresh]

section Resolved

variable {listing listing' : List ListedNode} (hP : P.WellFormed) (hc : c.Applies P)
  (hlist : (P.listing : Outcome ScheduleError (List ListedNode)) = .ok listing)
  (hlist' : ((c.after P).listing : Outcome ScheduleError (List ListedNode)) = .ok listing')

include hP hc hlist hlist'

theorem maker?_after (tensor : TensorId) :
    ListedNode.maker? listing' tensor = (ListedNode.maker? listing tensor).map (c.moved P) := by
  have hafter := wellFormed_after hP hc
  have hids : (ListedNode.maker? listing' tensor).map ListedNode.id
      = (ListedNode.maker? listing tensor).map ListedNode.id := by
    rw [map_id_maker? hP hlist, map_id_maker? hafter hlist', makerAmong_after hP hc]
  cases hmaker : ListedNode.maker? listing tensor with
  | none =>
    rw [hmaker, Option.map_none, Option.map_eq_none_iff] at hids
    rw [hids, Option.map_none]
  | some listed =>
    rw [hmaker, Option.map_some, Option.map_eq_some_iff] at hids
    obtain ⟨listed', hmaker', hid⟩ := hids
    obtain ⟨hproducer, hgives⟩ := ListedNode.maker?_eq_some.mp hmaker
    obtain ⟨hproducer', -⟩ := ListedNode.maker?_eq_some.mp hmaker'
    have hlists := (lists_of_producer? hP hlist hproducer).1
    have hlists' := (lists_of_producer? hafter hlist' hproducer').1
    have hmoved := lists_after_moved hP hc hlists (ne_call_of_givesHandle hP hc hlists hgives)
    rw [hmaker', Option.map_some, hafter.lists_unique hlists' hmoved (by rw [hid, moved_id])]

theorem resolveCall_after {call : NodeId} (hlt : call < P.nodes.size) (owner : SubgraphId) :
    (c.after P).resolveCall listing' owner call = P.resolveCall listing owner call := by
  have hnode := Array.getElem?_eq_getElem hlt
  have hmakers := maker?_after hP hc hlist hlist'
  by_cases hsame : call = c.call
  · subst hsame
    exact resolveCall_moved moved_id moved_node hmakers hc.node_eq (node_after_call hc) rfl owner
  · exact resolveCall_moved moved_id moved_node hmakers hnode ((node_after_old hlt hsame).trans hnode)
      rfl owner

end Resolved

end Cut

/-! ### What is reached after cuts -/

/-- A subgraph is reached after cuts just if the body that it goes back to was reached before them.
-/
theorem Cuts.leads_iff_origin {P P' : Program} {links : IdMap Link} {calls : List NodeId}
    (hP : P.WellFormed) (hbody : P.AllBodies) (hcuts : Cuts P P' links calls) {id : SubgraphId}
    {subgraph : Subgraph} (hsubgraph : P'.subgraphs[id]? = some subgraph) :
    Reach.Leads P'.leadsTo P'.entry id
      ↔ Reach.Leads P.leadsTo P.entry (segmentOrigin id subgraph.kind) := by
  constructor
  · intro hleads
    rw [hcuts.entry_eq] at hleads
    exact hcuts.leads_origin hP hbody hleads hsubgraph
  · intro hleads
    have hstart := (hcuts.leads_iff hP hbody (hcuts.origin_lt hP hbody hsubgraph)).mpr hleads
    rcases hcuts.resumed_of_segment hP hbody hsubgraph with hplain | ⟨⟨origin, hsegment⟩, -⟩
    · rwa [hplain] at hstart
    · rw [hsegment] at hstart
      apply hstart.tail
      apply List.mem_append_left
      exact mem_attachedTo.mpr ⟨subgraph, hsubgraph, by rw [hsegment]; rfl⟩

/-- A further cut leaves the subgraphs that are there reached as they were. -/
theorem Cuts.leads_after_iff {P P' : Program} {links : IdMap Link} {calls : List NodeId}
    (hP : P.WellFormed) (hbody : P.AllBodies) (hcuts : Cuts P P' links calls) {c : Cut}
    (hc : c.Applies P') {id : SubgraphId} (hlt : id < P'.subgraphs.size) :
    Reach.Leads (c.after P').leadsTo (c.after P').entry id ↔ Reach.Leads P'.leadsTo P'.entry id := by
  have hsubgraph := Array.getElem?_eq_getElem hlt
  obtain ⟨after, hafter, -, hkind⟩ := Cut.keepsFormals_after (hcuts.wellFormed hP) hc hsubgraph
  rw [(hcuts.cut hc).leads_iff_origin hP hbody hafter, hcuts.leads_iff_origin hP hbody hsubgraph, hkind]

/-! ### What the catalogs tell -/

namespace Catalog

theorem multiplyCalled_ascending (catalog : Catalog) :
    catalog.multiplyCalled.Pairwise (· < ·) := by
  unfold multiplyCalled
  rw [List.pairwise_map]
  exact catalog.callersOf.ascending.filter _

variable {P P' : Program} (hP : P.WellFormed) (hP' : P'.WellFormed)
  (hnames : ∀ binder body, P'.Names binder body ↔ P.Names binder body)

include hP hP' hnames

/-- The catalogs of two programs in which the same binders name the same subgraphs tell the same of
the callers. If they also tell the same of whether these subgraphs are reached, they tell the same
of which are called more than once. -/
theorem exists_build_both : ∃ before after, build P = .ok before ∧ build P' = .ok after
    ∧ (∀ id, id ∈ before.reachable ↔ Reach.Leads P.leadsTo P.entry id)
    ∧ (∀ id, id ∈ after.reachable ↔ Reach.Leads P'.leadsTo P'.entry id)
    ∧ (∀ body, after.callers body = before.callers body)
    ∧ ((∀ body < P.subgraphs.size, body ∈ after.reachable ↔ body ∈ before.reachable) →
      after.multiplyCalled = before.multiplyCalled) := by
  obtain ⟨before, hbuild, hreachable, hcallers⟩ := exists_build hP
  obtain ⟨after, hbuild', hreachable', hcallers'⟩ := exists_build hP'
  refine ⟨before, after, hbuild, hbuild', hreachable, hreachable', fun body => ?_, fun hreached => ?_⟩
  · apply IdSet.ext_mem
    intro binder
    rw [hcallers, hcallers', hnames]
  · have hmem (body : SubgraphId) : body ∈ after.multiplyCalled ↔ body ∈ before.multiplyCalled := by
      rw [mem_multiplyCalled hcallers', mem_multiplyCalled hcallers]
      simp only [not_namedOnce_iff, hnames]
      apply and_congr_right
      rintro ⟨binder, -, -, ⟨listed, hlists, -, hkind⟩, -⟩
      exact hreached body (callee_lt hP hlists hkind)
    apply List.Perm.eq_of_pairwise (fun _ _ _ _ hlt hgt => absurd hlt (Nat.lt_asymm hgt))
      after.multiplyCalled_ascending before.multiplyCalled_ascending
    exact (List.perm_ext_iff_of_nodup after.multiplyCalled_nodup before.multiplyCalled_nodup).mpr hmem

end Catalog

/-! ### Splits -/

/-- The second program comes of the first one by splitting some subgraph. -/
def Program.SplitsInto (P Q : Program) : Prop :=
  ∃ id outcome, (P.splitFirst id : Outcome ScheduleError (Option (SplitOutcome × Program)))
    = .ok (some (outcome, Q))

theorem exists_cuts_of_splits {P Q : Program} (hP : P.WellFormed)
    (hsplits : Relation.ReflTransGen SplitsInto P Q) : ∃ links calls, Cuts P Q links calls := by
  induction hsplits with
  | refl => exact ⟨_, _, .none⟩
  | tail _ hstep ih =>
    obtain ⟨links, calls, hcuts⟩ := ih
    obtain ⟨id, outcome, hsplit⟩ := hstep
    rcases Cut.splitFirst_eq_ok (hcuts.wellFormed hP) hsplit with ⟨hnone, -⟩ | ⟨c, hc, -, _, -, hsome⟩
    · exact nomatch hnone
    · obtain ⟨-, rfl⟩ := Prod.mk.inj (Option.some.inj hsome)
      exact ⟨_, _, .cut hcuts hc⟩

theorem ScheduleRun.splits_of_splitAll {limit left : Nat} {run run' : ScheduleRun} {P Q : Program}
    (hsplit : splitAll limit left run P = .ok (run', Q)) : Relation.ReflTransGen SplitsInto P Q := by
  refine (splitAll_keeps (fun _ => Relation.ReflTransGen SplitsInto P) ?_ .refl hsplit).1
  intro run run' Q Q' id hsplits hnext
  obtain ⟨states, -, hbody⟩ := Outcome.bind_eq_ok.mp hnext
  obtain ⟨answer, hanswer, hbody⟩ := Outcome.bind_eq_ok.mp hbody
  cases answer with
  | none =>
    obtain ⟨settled, -, hpure⟩ := Outcome.bind_eq_ok.mp hbody
    obtain ⟨-, rfl⟩ := Prod.mk.inj (Outcome.pure_eq_ok.mp hpure)
    exact hsplits
  | some made =>
    obtain ⟨pending, -, hbody⟩ := Outcome.bind_eq_ok.mp hbody
    obtain ⟨settled, -, hbody⟩ := Outcome.bind_eq_ok.mp hbody
    obtain ⟨resettled, -, hpure⟩ := Outcome.bind_eq_ok.mp hbody
    obtain ⟨-, rfl⟩ := Prod.mk.inj (Outcome.pure_eq_ok.mp hpure)
    exact hsplits.tail ⟨id, made.1, hanswer⟩

/-- A split keeps who calls whom, as the catalogs and the resolution of calls tell it before and
after. -/
structure KeepsCalls (P P' : Program) (continuation : SubgraphId) (before after : Catalog)
    (listing listing' : List ListedNode) : Prop where
  callers : ∀ body, after.callers body = before.callers body
  reached : ∀ id < P.subgraphs.size, after.isReachable id = before.isReachable id
  /-- The continuation is reached just if the body that it goes back to is. -/
  resumed : ∃ segment origin, P'.subgraphs[continuation]? = some segment
    ∧ segment.kind = .segment origin ∧ origin < P.subgraphs.size
    ∧ after.isReachable continuation = after.isReachable origin
  multiplyCalled : after.multiplyCalled = before.multiplyCalled
  /-- A call may be listed by another subgraph than before. -/
  resolves : ∀ owner owner', ∀ call < P.nodes.size, ∀ binders,
    P'.resolveCall listing' owner' call = .ok binders ↔ P.resolveCall listing owner call = .ok binders

theorem Cuts.keepsCalls {P Q : Program} {links : IdMap Link} {calls : List NodeId} (hP : P.WellFormed)
    (hbody : P.AllBodies) (hcuts : Cuts P Q links calls) {c : Cut} (hc : c.Applies Q) :
    ∃ before after listing listing', Catalog.build Q = .ok before ∧ Catalog.build (c.after Q) = .ok after
      ∧ (Q.listing : Outcome ScheduleError (List ListedNode)) = .ok listing
      ∧ ((c.after Q).listing : Outcome ScheduleError (List ListedNode)) = .ok listing'
      ∧ KeepsCalls Q (c.after Q) Q.subgraphs.size before after listing listing' := by
  have hQ := hcuts.wellFormed hP
  have hafter := Cut.wellFormed_after hQ hc
  have hcut := hcuts.cut hc
  have hnames (binder : NodeId) (body : SubgraphId) :
      (c.after Q).Names binder body ↔ Q.Names binder body := by
    rw [hcut.names_iff hP, hcuts.names_iff hP]
  obtain ⟨before, after, hbuild, hbuild', hreached, hreached', hcallers, hmultiply⟩ :=
    Catalog.exists_build_both hQ hafter hnames
  obtain ⟨listing, hlist⟩ := hQ.exists_listing (ε := ScheduleError)
  obtain ⟨listing', hlist'⟩ := hafter.exists_listing (ε := ScheduleError)
  have hsame : ∀ id < Q.subgraphs.size, id ∈ after.reachable ↔ id ∈ before.reachable := by
    intro id hlt
    rw [hreached, hreached', hcuts.leads_after_iff hP hbody hc hlt]
  have horigin := hcuts.origin_lt hP hbody hc.subgraph_eq
  refine ⟨before, after, listing, listing', hbuild, hbuild', hlist, hlist', hcallers, fun id hlt => ?_,
    ?_, hmultiply hsame, fun owner owner' call hlt binders => ?_⟩
  · exact decide_eq_decide.mpr (hsame id hlt)
  · refine ⟨c.segment Q, _, Cut.subgraph_after_segment, rfl,
      Nat.lt_of_lt_of_le horigin hcuts.size_subgraphs_le, ?_⟩
    have hsegment := hcut.leads_iff_origin hP hbody Cut.subgraph_after_segment
    have hstart := hcut.leads_iff hP hbody horigin
    apply decide_eq_decide.mpr
    rw [hreached', hreached', hsegment]
    exact hstart.symm
  · rw [Cut.resolveCall_after hQ hc hlist hlist' hlt]
    exact ⟨fun h => resolveCall_owner h owner, fun h => resolveCall_owner h owner'⟩

/-- Splitting does not change who calls whom. A checked program of bodies may be split any number of
times and each subgraph of it once more: the same binders name the same subgraphs, the subgraphs
that were there are reached as they were, the continuation is reached just if the body that it goes
back to is, and calls resolve to the same binders. So once a run has split until nothing waits, the
subgraphs that are called more than once are those that detection noted. -/
theorem splits_keep_calls {P Q : Program} (hvalid : P.validate = .ok ()) (hbody : P.AllBodies)
    (hsplits : Relation.ReflTransGen SplitsInto P Q) :
    (∀ id < Q.subgraphs.size, ∃ answer,
      (Q.splitFirst id : Outcome ScheduleError (Option (SplitOutcome × Program))) = .ok answer)
    ∧ (∀ id outcome Q',
      (Q.splitFirst id : Outcome ScheduleError (Option (SplitOutcome × Program)))
          = .ok (some (outcome, Q')) →
        ∃ before after listing listing', Catalog.build Q = .ok before ∧ Catalog.build Q' = .ok after
          ∧ (Q.listing : Outcome ScheduleError (List ListedNode)) = .ok listing
          ∧ (Q'.listing : Outcome ScheduleError (List ListedNode)) = .ok listing'
          ∧ KeepsCalls Q Q' outcome.continuation before after listing listing')
    ∧ ∀ count S catalog detection limit left run run' cut,
      (P.separateHandles : Outcome ScheduleError (Nat × Program)) = .ok (count, S) →
      Catalog.build S = .ok catalog → Detection.detect S catalog = .ok detection →
      ScheduleRun.splitAll limit left run S = .ok (run', cut) →
        ∃ after, Catalog.build cut = .ok after ∧ after.multiplyCalled = catalog.multiplyCalled
          ∧ IdSet.ofList after.multiplyCalled = detection.multiplyCalled := by
  have hP := wellFormed_of_validate hvalid
  obtain ⟨links, calls, hcuts⟩ := exists_cuts_of_splits hP hsplits
  have hQ := hcuts.wellFormed hP
  refine ⟨?_, ?_, ?_⟩
  · intro id hlt
    have hsubgraph := Array.getElem?_eq_getElem hlt
    have horigin := hcuts.origin_lt hP hbody hsubgraph
    exact exists_splitFirst hQ hsubgraph
      (Array.getElem?_eq_getElem (Nat.lt_of_lt_of_le horigin hcuts.size_subgraphs_le))
  · intro id outcome Q' hsplit
    rcases Cut.splitFirst_eq_ok hQ hsplit with ⟨hnone, -⟩ | ⟨c, hc, -, pending, -, hsome⟩
    · exact nomatch hnone
    · obtain ⟨rfl, rfl⟩ := Prod.mk.inj (Option.some.inj hsome)
      exact hcuts.keepsCalls hP hbody hc
  · intro count S catalog detection limit left run run' cut hseparate hcatalog hdetect hsplit
    have hseparates := separateHandles_separates hP hseparate
    have hS := hseparates.wellFormed hP
    obtain ⟨links, calls, hcuts⟩ := exists_cuts_of_splits hS (ScheduleRun.splits_of_splitAll hsplit)
    obtain ⟨before, after, hbuild, hbuild', hreached, hreached', -, hmultiply⟩ :=
      Catalog.exists_build_both hS (hcuts.wellFormed hS) fun _ _ => hcuts.names_iff hS
    obtain rfl := Except.ok.inj (hcatalog.symm.trans hbuild)
    have hsame := hmultiply fun body hlt => by
      rw [hreached, hreached', hcuts.leads_iff hS (hseparates.allBodies hP hbody) hlt]
    refine ⟨after, hbuild', hsame, ?_⟩
    obtain ⟨listing, -, hdetect⟩ := Outcome.bind_eq_ok.mp hdetect
    obtain ⟨edges, -, hdetect⟩ := Outcome.bind_eq_ok.mp hdetect
    obtain ⟨noted, -, hdetect⟩ := Outcome.bind_eq_ok.mp hdetect
    obtain ⟨-, hpure⟩ := Outcome.check_bind_eq_ok.mp hdetect
    rw [hsame, ← Outcome.pure_eq_ok.mp hpure]

/-- The entry of the relay is split twice. Its body goes on being called more than once, by the
binders that named it, one of which has moved. -/
theorem relay_splits_keep_calls : ∃ Q outcome Q' before after listing listing',
    relay.SplitsInto Q
      ∧ (Q.splitFirst 2 : Outcome ScheduleError (Option (SplitOutcome × Program)))
        = .ok (some (outcome, Q'))
      ∧ Catalog.build Q' = .ok after ∧ KeepsCalls Q Q' outcome.continuation before after listing listing'
      ∧ before.multiplyCalled = [1] := by
  obtain ⟨answer, hsplit, ⟨first, Q⟩, rfl, hagain, htold⟩ := Outcome.exists_of_holds
    (fun answer : Option (SplitOutcome × Program) => ∃ made ∈ answer,
      Outcome.holds ((made.2.splitFirst 2 : Outcome ScheduleError _).map fun answer =>
        decide (answer.isSome = true)) = true
      ∧ Outcome.holds ((Catalog.build made.2).map fun catalog =>
        decide (catalog.multiplyCalled = [1])) = true)
    (by decide +kernel : Outcome.holds ((relay.splitFirst 0 : Outcome ScheduleError _).map _) = true)
  obtain ⟨answer', hsplit', hsome⟩ := Outcome.exists_of_holds _ hagain
  obtain ⟨⟨outcome, Q'⟩, rfl⟩ := Option.isSome_iff_exists.mp hsome
  have hstep : relay.SplitsInto Q := ⟨0, first, hsplit⟩
  obtain ⟨-, hkeeps, -⟩ := splits_keep_calls (by decide +kernel) (by decide) (.single hstep)
  obtain ⟨before, after, listing, listing', hbuild, hbuild', -, -, hkept⟩ := hkeeps 2 outcome Q' hsplit'
  rw [hbuild] at htold
  exact ⟨Q, outcome, Q', before, after, listing, listing', hstep, hsplit', hbuild', hkept,
    of_decide_eq_true htold⟩

end TailFlow
