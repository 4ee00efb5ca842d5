import TailFlow.Proofs.CallGraph.Catalog
import TailFlow.Proofs.Schedule.Worklist

/-!
# Going back to the body

Every segment goes back to the body that it was cut from. The calls that bodies are cut after are
calls of the body that were not tail calls, links do not lead out of the body, and handles go on
naming bodies.
-/

namespace TailFlow

open Program

/-- A subgraph that goes back to a body lists a binder that names another one. -/
def Program.Binds (P : Program) (start : SubgraphId) (binder : NodeId) (callee : SubgraphId) : Prop :=
  ∃ listed subgraph, P.Lists listed ∧ listed.id = binder ∧ listed.node.kind = .bind callee
    ∧ P.subgraphs[listed.owner]? = some subgraph
    ∧ segmentOrigin listed.owner subgraph.kind = start

theorem Program.names_iff_binds {P : Program} {binder : NodeId} {callee : SubgraphId} :
    P.Names binder callee ↔ ∃ start, P.Binds start binder callee := by
  constructor
  · intro ⟨listed, hlists, hid, hkind⟩
    obtain ⟨subgraph, hsubgraph, -⟩ := id hlists
    exact ⟨_, listed, subgraph, hlists, hid, hkind, hsubgraph, rfl⟩
  · intro ⟨start, listed, subgraph, hlists, hid, hkind, hrest⟩
    exact ⟨listed, hlists, hid, hkind⟩

namespace Cut

variable {c : Cut} {P : Program}

/-- Calls that are not tail calls after a cut were none before it, in the same body. -/
theorem nonTail_of_after (hP : P.WellFormed) (hc : c.Applies P) {owner : SubgraphId}
    {subgraph : Subgraph} (hsubgraph : (c.after P).subgraphs[owner]? = some subgraph)
    {call : NodeId} (hnonTail : (c.after P).NonTail owner call) :
    ∃ before source, P.subgraphs[source]? = some before ∧ P.NonTail source call
      ∧ segmentOrigin source before.kind = segmentOrigin owner subgraph.kind := by
  rcases subgraph_after_cases hP hc hsubgraph with ⟨howner, hbefore⟩ | ⟨rfl, rfl⟩ | ⟨rfl, rfl⟩
  · refine ⟨subgraph, owner, hbefore, ?_, rfl⟩
    obtain ⟨subgraph', node, hsubgraph', hmem, hnode, hcall, hnot⟩ := hnonTail
    obtain rfl := Option.some.inj (hsubgraph.symm.trans hsubgraph')
    have hne : call ≠ c.call := fun h =>
      howner (hP.apart hbefore hc.subgraph_eq call hmem (hc.mem_nodes.mpr (.inr (.inl h))))
    rw [node_after_old (hP.inArena hbefore call hmem) hne] at hnode
    exact ⟨subgraph, node, hbefore, hmem, hnode, hcall, hnot⟩
  · exact absurd hnonTail (allTail_head hP hc call)
  · exact ⟨c.subgraph, c.owner, hc.subgraph_eq, nonTail_of_segment hP hc hnonTail, rfl⟩

theorem origin_moved (hP : P.WellFormed) (hc : c.Applies P) {listed : ListedNode}
    {subgraph : Subgraph} (hsubgraph : P.subgraphs[listed.owner]? = some subgraph) :
    ∃ after, (c.after P).subgraphs[(c.moved P listed).owner]? = some after
      ∧ segmentOrigin (c.moved P listed).owner after.kind
        = segmentOrigin listed.owner subgraph.kind := by
  unfold moved
  split
  · rename_i hlater
    rw [hlater.1, hc.subgraph_eq, Option.some.injEq] at hsubgraph
    exact ⟨c.segment P, subgraph_after_segment, by rw [hlater.1, ← hsubgraph]; rfl⟩
  · by_cases howner : listed.owner = c.owner
    · rw [howner, hc.subgraph_eq, Option.some.injEq] at hsubgraph
      exact ⟨c.head, howner ▸ subgraph_after_owner hP hc, by rw [← hsubgraph]; rfl⟩
    · exact ⟨subgraph, (subgraph_after_other (subgraph_lt hsubgraph) howner).trans hsubgraph, rfl⟩

theorem binds_after_iff (hP : P.WellFormed) (hc : c.Applies P) {start callee : SubgraphId}
    {binder : NodeId} : (c.after P).Binds start binder callee ↔ P.Binds start binder callee := by
  have hgives {listed : ListedNode} (hkind : listed.node.kind = .bind callee) :
      listed.node.givesHandle :=
    Node.givesHandle_of_callee? (by rw [callee?_eq_some.mpr hkind]; rfl)
  constructor
  · intro ⟨listed, after, hlists, hid, hkind, hafter, horigin⟩
    obtain ⟨old, hold, -, rfl⟩ := writer_after hP hc hlists (hgives hkind)
    rw [moved_id] at hid
    rw [moved_node] at hkind
    obtain ⟨subgraph, hsubgraph, -⟩ := id hold
    obtain ⟨after', hafter', horigin'⟩ := origin_moved hP hc hsubgraph
    obtain rfl := Option.some.inj (hafter.symm.trans hafter')
    exact ⟨old, subgraph, hold, hid, hkind, hsubgraph, horigin'.symm.trans horigin⟩
  · intro ⟨listed, subgraph, hlists, hid, hkind, hsubgraph, horigin⟩
    obtain ⟨after, hafter, hsame⟩ := origin_moved hP hc hsubgraph
    exact ⟨_, after, lists_after_moved hP hc hlists (ne_call_of_givesHandle hP hc hlists (hgives hkind)),
      by rw [moved_id, hid], by rw [moved_node, hkind], hafter, hsame.trans horigin⟩

end Cut

namespace Cuts

variable {P P' : Program} {links : IdMap Link} {calls : List NodeId}

variable (hP : P.WellFormed) (hbody : P.AllBodies)

include hP hbody

theorem nonTail_body (hcuts : Cuts P P' links calls) {owner : SubgraphId} {subgraph : Subgraph}
    (hsubgraph : P'.subgraphs[owner]? = some subgraph) {call : NodeId}
    (hnonTail : P'.NonTail owner call) : P.NonTail (segmentOrigin owner subgraph.kind) call := by
  induction hcuts generalizing owner subgraph with
  | none =>
    rw [hbody hsubgraph]
    exact hnonTail
  | cut hcuts hc ih =>
    obtain ⟨before, source, hbefore, hnonTail', hsame⟩ :=
      Cut.nonTail_of_after (hcuts.wellFormed hP) hc hsubgraph hnonTail
    exact hsame ▸ ih hbefore hnonTail'

/-- A link leads from one subgraph of a body to another one, and its call was not a tail call. -/
theorem link_body (hcuts : Cuts P P' links calls) {call : NodeId} {link : Link}
    (hlink : links.get? call = some link) {owner : SubgraphId} {subgraph : Subgraph}
    (hsubgraph : P'.subgraphs[owner]? = some subgraph) (hmem : call ∈ subgraph.nodes) :
    P.NonTail (segmentOrigin owner subgraph.kind) call
      ∧ ∃ next, P'.subgraphs[link.continuation]? = some next
        ∧ segmentOrigin link.continuation next.kind = segmentOrigin owner subgraph.kind := by
  induction hcuts generalizing owner subgraph with
  | none => exact nomatch hlink
  | @cut P' links calls c hcuts hc ih =>
    have hP' := hcuts.wellFormed hP
    rw [IdMap.get?_insert] at hlink
    by_cases hsame : c.call = call
    · rw [if_pos hsame, Option.some.injEq] at hlink
      subst hsame hlink
      have howner : owner = c.owner := (Cut.wellFormed_after hP' hc).apart hsubgraph
        (Cut.subgraph_after_owner hP' hc) c.call hmem (by simp [Cut.head])
      subst howner
      obtain rfl := Option.some.inj ((Cut.subgraph_after_owner hP' hc).symm.trans hsubgraph)
      exact ⟨hcuts.nonTail_body hP hbody hc.subgraph_eq hc.nonTail, c.segment P',
        Cut.subgraph_after_segment, rfl⟩
    · rw [if_neg hsame] at hlink
      -- The subgraph that lists the call goes back to where it went back to before the cut.
      obtain ⟨before, source, hbefore, hmem', horigin⟩ : ∃ before source,
          P'.subgraphs[source]? = some before ∧ call ∈ before.nodes
            ∧ segmentOrigin source before.kind = segmentOrigin owner subgraph.kind := by
        obtain ⟨-, -, old, listing, node, hlisting, hnode, -, htail, -⟩ :=
          hcuts.isTail_of_link hP hlink
        have hlast := List.mem_of_getLast? htail.1
        rcases Cut.subgraph_after_cases hP' hc hsubgraph with
          ⟨-, hbefore⟩ | ⟨rfl, rfl⟩ | ⟨rfl, rfl⟩
        · exact ⟨subgraph, owner, hbefore, hmem, rfl⟩
        · refine ⟨c.subgraph, c.owner, hc.subgraph_eq, ?_, rfl⟩
          rcases List.mem_append.mp hmem with hearlier | hcall
          · exact hc.mem_nodes.mpr (.inl hearlier)
          · exact absurd (List.mem_singleton.mp hcall).symm hsame
        · refine ⟨c.subgraph, c.owner, hc.subgraph_eq, ?_, rfl⟩
          rcases List.mem_cons.mp hmem with rfl | hlater
          · exact absurd (node_lt hnode) (Nat.lt_irrefl _)
          · exact hc.mem_nodes.mpr (.inr (.inr hlater))
      obtain ⟨hnonTail, next, hnext, hback⟩ := ih hlink hbefore hmem'
      rw [← horigin]
      refine ⟨hnonTail, ?_⟩
      by_cases howner : link.continuation = c.owner
      · rw [howner] at hnext hback ⊢
        obtain rfl := Option.some.inj (hc.subgraph_eq.symm.trans hnext)
        exact ⟨c.head, Cut.subgraph_after_owner hP' hc, hback⟩
      · exact ⟨next, (Cut.subgraph_after_other (subgraph_lt hnext) howner).trans hnext, hback⟩

/-- Handles name bodies. -/
theorem kind_of_names (hcuts : Cuts P P' links calls)
    {binder : NodeId} {callee : SubgraphId} (hnames : P'.Names binder callee) :
    ∃ subgraph, P'.subgraphs[callee]? = some subgraph ∧ subgraph.kind = .body := by
  induction hcuts with
  | none =>
    obtain ⟨listed, hlists, -, hkind⟩ := hnames
    have hfound := Array.getElem?_eq_getElem (callee_lt hP hlists hkind)
    exact ⟨_, hfound, hbody hfound⟩
  | @cut P' _ _ c hcuts hc ih =>
    have hP' := hcuts.wellFormed hP
    obtain ⟨listed, hlists, hid, hkind⟩ := hnames
    rcases Cut.lists_after_cases hP' hc hlists with ⟨old, hold, -, rfl⟩ | rfl | rfl
    · rw [Cut.moved_node] at hkind
      obtain ⟨before, hbefore, hplain⟩ := ih ⟨old, hold, by rw [← hid, Cut.moved_id], hkind⟩
      obtain ⟨after, hafter, -, hsame⟩ := Cut.keepsFormals_after hP' hc hbefore
      exact ⟨after, hafter, hsame.trans hplain⟩
    · have hcall : c.node.kind = .call := of_decide_eq_true hc.isCall
      exact nomatch hcall.symm.trans hkind
    · exact nomatch hkind

theorem origin_lt (hcuts : Cuts P P' links calls) {id : SubgraphId} {subgraph : Subgraph}
    (hsubgraph : P'.subgraphs[id]? = some subgraph) :
    segmentOrigin id subgraph.kind < P.subgraphs.size := by
  induction hcuts generalizing id subgraph with
  | none =>
    rw [hbody hsubgraph]
    exact subgraph_lt hsubgraph
  | cut hcuts hc ih =>
    rcases Cut.subgraph_after_cases (hcuts.wellFormed hP) hc hsubgraph with
      ⟨-, hbefore⟩ | ⟨rfl, rfl⟩ | ⟨-, rfl⟩
    · exact ih hbefore
    · have hsame := ih hc.subgraph_eq
      exact hsame
    · have hsame := ih hc.subgraph_eq
      exact hsame

omit hbody in
theorem binds_iff (hcuts : Cuts P P' links calls) {start callee : SubgraphId} {binder : NodeId} :
    P'.Binds start binder callee ↔ P.Binds start binder callee := by
  induction hcuts with
  | none => rfl
  | cut hcuts hc ih => exact (Cut.binds_after_iff (hcuts.wellFormed hP) hc).trans ih

omit hbody in
theorem names_iff (hcuts : Cuts P P' links calls) {binder : NodeId} {callee : SubgraphId} :
    P'.Names binder callee ↔ P.Names binder callee := by
  simp only [names_iff_binds, hcuts.binds_iff hP]

omit hbody in
theorem reaches_iff (hcuts : Cuts P P' links calls) {binder call : NodeId} :
    P'.Reaches binder call ↔ P.Reaches binder call := by
  induction hcuts with
  | none => rfl
  | cut hcuts hc ih => exact (Cut.reaches_after_iff (hcuts.wellFormed hP) hc).trans ih

omit hbody in
theorem keepsFormals (hcuts : Cuts P P' links calls) : P.KeepsFormals P' := by
  induction hcuts with
  | none => exact fun _ subgraph hsubgraph => ⟨subgraph, hsubgraph, rfl, rfl⟩
  | cut hcuts hc ih => exact ih.trans (Cut.keepsFormals_after (hcuts.wellFormed hP) hc)

/-- What is reached after the cuts goes back to what was reached before them. -/
theorem leads_origin (hcuts : Cuts P P' links calls) {id : SubgraphId} {subgraph : Subgraph}
    (hleads : Reach.Leads P'.leadsTo P.entry id) (hsubgraph : P'.subgraphs[id]? = some subgraph) :
    Reach.Leads P.leadsTo P.entry (segmentOrigin id subgraph.kind) := by
  have hkept {id : SubgraphId} (hlt : id < P.subgraphs.size) {subgraph : Subgraph}
      (hsubgraph : P'.subgraphs[id]? = some subgraph) : segmentOrigin id subgraph.kind = id := by
    have hbefore := Array.getElem?_eq_getElem hlt
    obtain ⟨after, hafter, -, hkind⟩ := hcuts.keepsFormals hP hbefore
    obtain rfl := Option.some.inj (hafter.symm.trans hsubgraph)
    rw [hkind, hbody hbefore]
    rfl
  induction hleads generalizing subgraph with
  | refl =>
    rw [hkept hP.entry hsubgraph]
    exact .refl
  | @tail middle next hbefore hnext ih =>
    rcases List.mem_append.mp hnext with hattached | hbound
    · -- A segment goes back to where its body goes back to.
      obtain ⟨segment, hsegment, hkind⟩ := mem_attachedTo.mp hattached
      obtain rfl := Option.some.inj (hsubgraph.symm.trans hsegment)
      rcases hcuts.resumed_of_segment hP hbody hsegment with hplain | ⟨⟨origin, hsame⟩, -⟩
      · rw [hplain] at hkind
        exact nomatch hkind
      · rw [hsame] at hkind
        obtain rfl : origin = middle := Option.some.inj hkind
        have horigin := hcuts.origin_lt hP hbody hsegment
        rw [hsame] at horigin ⊢
        change origin < P.subgraphs.size at horigin
        obtain ⟨after, hafter, -⟩ :=
          hcuts.keepsFormals hP (Array.getElem?_eq_getElem horigin)
        have hstart := ih hafter
        rwa [hkept horigin hafter] at hstart
    · obtain ⟨listed, hlists, rfl, hkind⟩ := mem_boundBy.mp hbound
      have ⟨before, hfound, _⟩ := hlists
      obtain ⟨listed', old, hlists', -, hkind', hold, horigin⟩ :=
        (hcuts.binds_iff hP).mp ⟨listed, before, hlists, rfl, hkind, hfound, rfl⟩
      rw [hkept (callee_lt hP hlists' hkind') hsubgraph]
      rw [hbody hold] at horigin
      refine (ih hfound).tail (List.mem_append_right _ (mem_boundBy.mpr ⟨listed', hlists', ?_, hkind'⟩))
      exact horigin

/-- The entry leads to the same bodies, as the segments of a body bind what the body did. -/
theorem leads_iff (hcuts : Cuts P P' links calls) {body : SubgraphId}
    (hlt : body < P.subgraphs.size) :
    Reach.Leads P'.leadsTo P'.entry body ↔ Reach.Leads P.leadsTo P.entry body := by
  have hkept {id : SubgraphId} (hlt : id < P.subgraphs.size) : ∃ after,
      P'.subgraphs[id]? = some after ∧ segmentOrigin id after.kind = id := by
    have hsubgraph := Array.getElem?_eq_getElem hlt
    obtain ⟨after, hafter, -, hkind⟩ := hcuts.keepsFormals hP hsubgraph
    exact ⟨after, hafter, by rw [hkind, hbody hsubgraph]; rfl⟩
  rw [hcuts.entry_eq]
  constructor
  · intro hleads
    obtain ⟨after, hafter, hsame⟩ := hkept hlt
    exact hsame ▸ hcuts.leads_origin hP hbody hleads hafter
  · intro hleads
    clear hlt
    induction hleads with
    | refl => exact .refl
    | @tail middle next _ hnext ih =>
      rcases List.mem_append.mp hnext with hattached | hbound
      · obtain ⟨subgraph, hsubgraph, hkind⟩ := mem_attachedTo.mp hattached
        rw [hbody hsubgraph] at hkind
        exact nomatch hkind
      · obtain ⟨listed, hlists, rfl, hkind⟩ := mem_boundBy.mp hbound
        obtain ⟨subgraph, hsubgraph, -⟩ := id hlists
        obtain ⟨listed', after, hlists', -, hkind', hafter, horigin⟩ := (hcuts.binds_iff hP).mpr
          ⟨listed, subgraph, hlists, rfl, hkind, hsubgraph, congrArg _ (hbody hsubgraph)⟩
        have hlast : next ∈ P'.leadsTo listed'.owner :=
          List.mem_append_right _ (mem_boundBy.mpr ⟨listed', hlists', rfl, hkind'⟩)
        rcases hcuts.resumed_of_segment hP hbody hafter with hplain | ⟨⟨origin, hsegment⟩, -⟩
        · rw [hplain] at horigin
          change listed'.owner = listed.owner at horigin
          exact ih.tail (horigin ▸ hlast)
        · rw [hsegment] at horigin
          change origin = listed.owner at horigin
          subst horigin
          have hfirst : listed'.owner ∈ P'.leadsTo listed.owner :=
            List.mem_append_left _ (mem_attachedTo.mpr ⟨after, hafter, by rw [hsegment]; rfl⟩)
          exact (ih.tail hfirst).tail hlast

end Cuts

end TailFlow
