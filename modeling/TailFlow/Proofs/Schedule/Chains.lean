import Mathlib.Data.List.Chain
import TailFlow.Proofs.Runs.Scheduled
import TailFlow.Proofs.Schedule.Framing

/-!
# What a body becomes

A body that is cut becomes a chain of subgraphs. Only the last of them may be cut again, and the cut
puts one more behind it, so the chain lists the nodes of the body in their order, with nodes that
resume in between, and it is as long as the body has calls that are not tail calls.
-/

namespace TailFlow

open Program

namespace Program

variable {P : Program} {links : IdMap Link}

def nodesOf (P : Program) (id : SubgraphId) : List NodeId :=
  (P.subgraphs[id]?.map Subgraph.nodes).getD []

/-- The subgraph that goes on with the results of the last node of a subgraph. -/
def continuation? (P : Program) (id : SubgraphId) : Option SubgraphId :=
  ((P.subgraphs[id]?.bind Subgraph.lastNode?).bind P.linkFor?).map Link.continuation

theorem nodesOf_eq {id : SubgraphId} {subgraph : Subgraph}
    (hsubgraph : P.subgraphs[id]? = some subgraph) : P.nodesOf id = subgraph.nodes := by
  rw [nodesOf, hsubgraph]
  rfl

theorem continuation?_eq {id : SubgraphId} {subgraph : Subgraph}
    (hsubgraph : P.subgraphs[id]? = some subgraph) :
    P.continuation? id = (subgraph.lastNode?.bind P.linkFor?).map Link.continuation := by
  rw [continuation?, hsubgraph]
  rfl

/-- Some subgraphs, each of which goes on with the next, and the last of which goes on with none. -/
structure Chain (P : Program) (ids : List SubgraphId) : Prop where
  linked : ids.IsChain fun id following => P.continuation? id = some following
  ends : ∀ last ∈ ids.getLast?, P.continuation? last = none

variable {P' : Program} {front : List SubgraphId} {last : SubgraphId}

theorem Chain.congr {ids : List SubgraphId} (h : P.Chain ids)
    (hsame : ∀ id ∈ ids, P'.continuation? id = P.continuation? id) : P'.Chain ids where
  linked := h.linked.imp_of_mem_imp fun id _ hid _ hnext => (hsame id hid).trans hnext
  ends := by
    intro last hlast
    rw [hsame last (List.mem_of_mem_getLast? hlast)]
    exact h.ends last hlast

theorem Chain.concat (h : P.Chain (front ++ [last]))
    (hsame : ∀ id ∈ front, P'.continuation? id = P.continuation? id) {added : SubgraphId}
    (hlast : P'.continuation? last = some added) (hadded : P'.continuation? added = none) :
    P'.Chain (front ++ [last] ++ [added]) where
  linked := by
    rw [List.append_assoc]
    refine List.isChain_append_cons_cons.mpr ⟨?_, hlast, List.isChain_singleton _⟩
    refine h.linked.imp_of_mem_imp fun id following hid _ hnext => ?_
    rcases List.mem_append.mp hid with hfront | hend
    · rw [hsame id hfront, hnext]
    · rw [List.mem_singleton.mp hend, h.ends last (by simp)] at hnext
      exact nomatch hnext
  ends := by
    simpa using hadded

end Program

/-! ### One cut -/

namespace Cut

variable {c : Cut} {P : Program} {links : IdMap Link}

/-- A segment that lists more than the node that resumes ends as the subgraph did. -/
theorem lastNode?_segment (hc : c.Applies P) (hlater : c.later ≠ []) :
    (c.segment P).lastNode? = c.subgraph.lastNode? := by
  rw [Subgraph.lastNode?, Subgraph.lastNode?, segment, hc.nodes_eq,
    List.getLast?_append_of_ne_nil _ (List.cons_ne_nil _ _), List.getLast?_cons_of_ne_nil hlater,
    List.getLast?_cons_of_ne_nil hlater]

/-- The calls that are not tail calls are the call of the cut and those of the segment. -/
theorem nonTail_owner_iff (hP : P.WellFormed) (hc : c.Applies P) {call : NodeId} :
    P.NonTail c.owner call ↔ call = c.call ∨ (c.after P).NonTail P.subgraphs.size call := by
  constructor
  · intro ⟨subgraph, node, hsubgraph, hmem, hnode, hcall, hnot⟩
    obtain rfl := Option.some.inj (hc.subgraph_eq.symm.trans hsubgraph)
    rcases hc.mem_nodes.mp hmem with hearlier | hsame | hlater
    · exact absurd hcall (by simp [hc.noneEarlier call hearlier node hnode])
    · exact .inl hsame
    · have hne : call ≠ c.call := fun h => hc.call_notMem_later hP (h ▸ hlater)
      refine .inr ⟨c.segment P, node, subgraph_after_segment, .tail _ hlater,
        (node_after_old (lt_of_mem_later hP hc hlater) hne).trans hnode, hcall, fun htail => ?_⟩
      rw [IsTail, lastNode?_segment hc (List.ne_nil_of_mem hlater)] at htail
      exact hnot htail
  · rintro (rfl | hsegment)
    · exact hc.nonTail
    · exact nonTail_of_segment hP hc hsegment

theorem not_nonTail_call (hP : P.WellFormed) (hc : c.Applies P) :
    ¬ (c.after P).NonTail P.subgraphs.size c.call := by
  rintro ⟨subgraph, _, hsubgraph, hmem, -⟩
  obtain rfl := Option.some.inj (subgraph_after_segment.symm.trans hsubgraph)
  rcases List.mem_cons.mp hmem with hsame | hlater
  · exact absurd (node_lt hc.node_eq) (hsame ▸ Nat.lt_irrefl _)
  · exact hc.call_notMem_later hP hlater

theorem length_nonTailCalls_segment (hP : P.WellFormed) (hc : c.Applies P) {calls : List NodeId}
    (hcalls : (P.nonTailCalls c.owner : Outcome ScheduleError (List NodeId)) = .ok calls) :
    ∃ rest, ((c.after P).nonTailCalls P.subgraphs.size : Outcome ScheduleError (List NodeId))
      = .ok rest ∧ calls.length = rest.length + 1 := by
  have hafter := wellFormed_after hP hc
  obtain ⟨rest, hrest, hmem⟩ := exists_nonTailCalls (ε := ScheduleError) hafter subgraph_after_segment
  obtain ⟨calls', hcalls', hmem'⟩ := exists_nonTailCalls hP hc.subgraph_eq
  obtain rfl := Except.ok.inj (hcalls.symm.trans hcalls')
  refine ⟨rest, hrest, ?_⟩
  have hnodup := nodup_nonTailCalls hafter hrest
  have hnodup' := nodup_nonTailCalls hP hcalls
  have habsent : c.call ∉ rest := fun h => not_nonTail_call hP hc ((hmem c.call).mp h)
  have hperm : calls.Perm (c.call :: rest) := by
    refine (List.perm_ext_iff_of_nodup hnodup' (List.nodup_cons.mpr ⟨habsent, hnodup⟩)).mpr ?_
    intro call
    rw [hmem', List.mem_cons, hmem]
    exact nonTail_owner_iff hP hc
  rw [hperm.length_eq, List.length_cons]

section Continuation

variable (hP : P.WellFormed) (hc : c.Applies P)

include hP hc

theorem continuation?_linked_other {id : SubgraphId} (hlt : id < P.subgraphs.size)
    (hne : id ≠ c.owner) :
    (c.linked P links).continuation? id = { P with links }.continuation? id := by
  have hsubgraph := Array.getElem?_eq_getElem hlt
  have hafter : (c.linked P links).subgraphs[id]? = some P.subgraphs[id] :=
    (subgraph_after_other hlt hne).trans hsubgraph
  rw [continuation?_eq hafter, continuation?_eq (P := { P with links }) hsubgraph]
  refine congrArg _ (Option.bind_congr fun call hcall => linkFor_old ?_)
  rintro rfl
  exact hne (hP.apart hsubgraph hc.subgraph_eq c.call (List.mem_of_getLast? hcall)
    (hc.mem_nodes.mpr (.inr (.inl rfl))))

theorem continuation?_linked_owner :
    (c.linked P links).continuation? c.owner = some P.subgraphs.size := by
  rw [continuation?_eq (P := c.linked P links) (subgraph_after_owner hP hc)]
  simp [Subgraph.lastNode?, head, link, linked, linkFor?]

theorem continuation?_linked_segment (hfree : links.get? c.call = none)
    (hkeys : ∀ call link, links.get? call = some link → call < P.nodes.size) :
    (c.linked P links).continuation? P.subgraphs.size
      = { P with links }.continuation? c.owner := by
  rw [continuation?_eq (P := c.linked P links) subgraph_after_segment,
    last_of_segment hP hc hfree hkeys, continuation?_eq (P := { P with links }) hc.subgraph_eq]

end Continuation

end Cut

/-! ### All cuts -/

namespace Program

variable {P W : Program} {links : IdMap Link}

/-- What has become of a subgraph: a chain that starts with it. -/
structure Becomes (P W : Program) (links : IdMap Link) (start : SubgraphId)
    (front : List SubgraphId) (last : SubgraphId) : Prop where
  head : (front ++ [last]).head? = some start
  chain : { W with links }.Chain (front ++ [last])
  mem_iff : ∀ ⦃id : SubgraphId⦄ ⦃subgraph : Subgraph⦄, W.subgraphs[id]? = some subgraph →
    (id ∈ front ++ [last] ↔ segmentOrigin id subgraph.kind = start)
  lt : ∀ id ∈ front ++ [last], id < W.subgraphs.size
  allTail : ∀ id ∈ front, W.AllTail id
  nodes : ((front ++ [last]).flatMap W.nodesOf).filter (· < P.nodes.size) = P.nodesOf start
  calls : ∀ ⦃calls : List NodeId⦄,
    (P.nonTailCalls start : Outcome ScheduleError (List NodeId)) = .ok calls →
      ∃ rest, (W.nonTailCalls last : Outcome ScheduleError (List NodeId)) = .ok rest
        ∧ front.length + rest.length = calls.length
  order : (front ++ [last]).Sublist W.order
  outputs : ∀ ⦃subgraph : Subgraph⦄, P.subgraphs[start]? = some subgraph →
    ∃ after, W.subgraphs[last]? = some after ∧ after.outputs = subgraph.outputs

theorem becomes_self (hP : P.WellFormed) (hbody : P.AllBodies) {start : SubgraphId}
    (hlt : start < P.subgraphs.size) : P.Becomes P .empty start [] start where
  head := rfl
  chain := by
    refine ⟨List.isChain_singleton _, fun last hlast => ?_⟩
    rw [continuation?]
    simp [linkFor?]
  mem_iff := by
    intro id subgraph hsubgraph
    rw [hbody hsubgraph, List.nil_append, List.mem_singleton]
    rfl
  lt := by simpa using hlt
  allTail := List.forall_mem_nil _
  nodes := by
    have hall : ∀ id ∈ P.nodesOf start, id < P.nodes.size := by
      have hsubgraph := Array.getElem?_eq_getElem hlt
      rw [nodesOf_eq hsubgraph]
      exact hP.inArena hsubgraph
    simpa using hall
  calls := fun calls hcalls => ⟨calls, hcalls, Nat.zero_add _⟩
  order := by simpa using hP.mem_order.mpr hlt
  outputs := fun subgraph hsubgraph => ⟨subgraph, hsubgraph, rfl⟩

variable {start : SubgraphId} {front : List SubgraphId} {last : SubgraphId}

theorem Becomes.exists_segments (h : P.Becomes W links start front last) :
    ∃ segments, front ++ [last] = start :: segments := by
  cases hchain : front ++ [last] with
  | nil => simp at hchain
  | cons first rest =>
    have hhead := h.head
    rw [hchain, List.head?_cons, Option.some.injEq] at hhead
    exact ⟨rest, by rw [hhead]⟩

/-- What has become of a subgraph after its handles were separated has become of it as it was before,
since separating only adds nodes that make handles. -/
theorem Becomes.of_kept {S : Program} (hP : P.WellFormed) (hS : S.WellFormed) (hkept : P.Kept S)
    {subgraph : Subgraph} (hsubgraph : P.subgraphs[start]? = some subgraph)
    (h : S.Becomes W links start front last) : P.Becomes W links start front last := by
  obtain ⟨before, hbefore, hout, hnodes⟩ := hkept.subgraph hsubgraph
  refine { h with nodes := ?_, calls := ?_, outputs := ?_ }
  · rw [nodesOf_eq hsubgraph, ← hnodes, ← nodesOf_eq hbefore, ← h.nodes,
      filter_lt_filter_lt hkept.nodes_le]
  · intro calls hcalls
    obtain ⟨calls', hcalls', hsame⟩ := exists_nonTailCalls_of_iff hS hbefore hP
      (fun _ => hkept.nonTail_iff) hcalls
    obtain ⟨rest, hrest, hlength⟩ := h.calls hcalls'
    exact ⟨rest, hrest, hlength.trans hsame⟩
  · intro found hfound
    obtain rfl := Option.some.inj (hsubgraph.symm.trans hfound)
    obtain ⟨after, hafter, hout'⟩ := h.outputs hbefore
    exact ⟨after, hafter, hout'.trans hout⟩

end Program

namespace Cut

variable {P W : Program} {links : IdMap Link} {c : Cut} {start : SubgraphId}
  {front : List SubgraphId} {last : SubgraphId}

section Becomes

variable (hW : W.WellFormed) (hc : c.Applies W)

include hW hc

omit hW hc in
theorem nodesOf_after_other {id : SubgraphId} (hlt : id < W.subgraphs.size) (hne : id ≠ c.owner) :
    (c.after W).nodesOf id = W.nodesOf id := by
  rw [nodesOf, nodesOf, subgraph_after_other hlt hne]

/-- A cut of another subgraph leaves a chain as it is. -/
theorem becomes_other (hbecomes : P.Becomes W links start front last)
    (hother : c.owner ∉ front ++ [last]) :
    P.Becomes (c.after W) (links.insert c.call (c.link W)) start front last := by
  have hne {id : SubgraphId} (hid : id ∈ front ++ [last]) : id ≠ c.owner :=
    fun h => hother (h ▸ hid)
  have hlast : last ∈ front ++ [last] := by simp
  refine ⟨hbecomes.head, ?_, ?_, ?_, ?_, ?_, ?_, ?_, ?_⟩
  · exact hbecomes.chain.congr fun id hid =>
      continuation?_linked_other hW hc (hbecomes.lt id hid) (hne hid)
  · intro id subgraph hsubgraph
    rcases subgraph_after_cases hW hc hsubgraph with ⟨-, hbefore⟩ | ⟨rfl, rfl⟩ | ⟨rfl, rfl⟩
    · exact hbecomes.mem_iff hbefore
    · rw [hbecomes.mem_iff hc.subgraph_eq]
      rfl
    · have howner := hbecomes.mem_iff hc.subgraph_eq
      have hnew : W.subgraphs.size ∉ front ++ [last] :=
        fun h => Nat.lt_irrefl _ (hbecomes.lt _ h)
      exact iff_of_false hnew (mt howner.mpr hother)
  · intro id hid
    rw [size_subgraphs_after]
    exact Nat.lt_succ_of_lt (hbecomes.lt id hid)
  · intro id hid
    have hmem : id ∈ front ++ [last] := List.mem_append_left _ hid
    exact allTail_other hW hc (hbecomes.lt id hmem) (hne hmem) (hbecomes.allTail id hid)
  · rw [← hbecomes.nodes]
    refine congrArg _ (List.flatMap_congr fun id hid => ?_)
    exact nodesOf_after_other (hbecomes.lt id hid) (hne hid)
  · intro calls hcalls
    obtain ⟨rest, hrest, hlength⟩ := hbecomes.calls hcalls
    obtain ⟨left, hleft, hsame⟩ := exists_nonTailCalls_of_iff (wellFormed_after hW hc)
      ((subgraph_after_other (hbecomes.lt last hlast) (hne hlast)).trans
        (Array.getElem?_eq_getElem (hbecomes.lt last hlast))) hW
      (fun call => nonTail_other_iff hW hc (hbecomes.lt last hlast) (hne hlast)) hrest
    exact ⟨left, hleft, hsame ▸ hlength⟩
  · exact hbecomes.order.trans sublist_insertAfter
  · intro subgraph hsubgraph
    obtain ⟨after, hafter, hout⟩ := hbecomes.outputs hsubgraph
    exact ⟨after, (subgraph_after_other (subgraph_lt hafter) (hne hlast)).trans hafter, hout⟩

theorem becomes_owner (hsize : P.nodes.size ≤ W.nodes.size) (hfree : links.get? c.call = none)
    (hkeys : ∀ call link, links.get? call = some link → call < W.nodes.size)
    (hbecomes : P.Becomes W links start front c.owner) :
    P.Becomes (c.after W) (links.insert c.call (c.link W)) start (front ++ [c.owner])
      W.subgraphs.size := by
  have hown {id : SubgraphId} (hid : id ∈ front) : id ≠ c.owner := by
    rintro rfl
    exact hbecomes.allTail _ hid _ hc.nonTail
  have hlt {id : SubgraphId} (hid : id ∈ front) : id < W.subgraphs.size :=
    hbecomes.lt id (List.mem_append_left _ hid)
  have hafter := wellFormed_after hW hc
  refine ⟨?_, ?_, ?_, ?_, ?_, ?_, ?_, ?_, ?_⟩
  · simpa [List.head?_append] using hbecomes.head
  · refine hbecomes.chain.concat (fun id hid => ?_) (continuation?_linked_owner hW hc) ?_
    · exact continuation?_linked_other hW hc (hlt hid) (hown hid)
    · exact (continuation?_linked_segment hW hc hfree hkeys).trans
        (hbecomes.chain.ends c.owner (by simp))
  · intro id subgraph hsubgraph
    rw [List.mem_append, List.mem_singleton]
    have howner := hbecomes.mem_iff hc.subgraph_eq
    rcases subgraph_after_cases hW hc hsubgraph with ⟨-, hbefore⟩ | ⟨rfl, rfl⟩ | ⟨rfl, rfl⟩
    · rw [hbecomes.mem_iff hbefore, or_iff_left (Nat.ne_of_lt (subgraph_lt hbefore))]
    · rw [howner, or_iff_left (Nat.ne_of_lt (subgraph_lt hc.subgraph_eq))]
      rfl
    · exact iff_of_true (.inr rfl) (howner.mp (by simp))
  · intro id hid
    rw [size_subgraphs_after]
    rcases List.mem_append.mp hid with hold | hnew
    · exact Nat.lt_succ_of_lt (hbecomes.lt id hold)
    · exact List.mem_singleton.mp hnew ▸ Nat.lt_succ_self _
  · intro id hid
    rcases List.mem_append.mp hid with hfront | hsame
    · exact allTail_other hW hc (hlt hfront) (hown hfront) (hbecomes.allTail id hfront)
    · exact List.mem_singleton.mp hsame ▸ allTail_head hW hc
  · have hfront : front.flatMap (c.after W).nodesOf = front.flatMap W.nodesOf :=
      List.flatMap_congr fun id hid => nodesOf_after_other (hlt hid) (hown hid)
    have hnew : ¬ W.nodes.size < P.nodes.size := Nat.not_lt.mpr hsize
    rw [← hbecomes.nodes]
    simp [hfront, nodesOf_eq hc.subgraph_eq, nodesOf_eq (subgraph_after_owner hW hc),
      nodesOf_eq (P := c.after W) subgraph_after_segment, hc.nodes_eq, Cut.head, segment,
      List.filter_cons, hnew]
  · intro calls hcalls
    obtain ⟨rest, hrest, hlength⟩ := hbecomes.calls hcalls
    obtain ⟨left, hleft, hone⟩ := length_nonTailCalls_segment hW hc hrest
    refine ⟨left, hleft, ?_⟩
    rw [List.length_append, List.length_singleton]
    omega
  · exact concat_sublist_insertAfter hW.order_nodup hbecomes.order
  · intro subgraph hsubgraph
    obtain ⟨after, hafter, hout⟩ := hbecomes.outputs hsubgraph
    obtain rfl := Option.some.inj (hc.subgraph_eq.symm.trans hafter)
    exact ⟨c.segment W, subgraph_after_segment, hout⟩

end Becomes

end Cut

/-- Every subgraph becomes a chain. -/
theorem Cuts.becomes {P W : Program} {links : IdMap Link} {calls : List NodeId}
    (hP : P.WellFormed) (hbody : P.AllBodies) (hcuts : Cuts P W links calls) {start : SubgraphId}
    (hlt : start < P.subgraphs.size) : ∃ front last, P.Becomes W links start front last := by
  induction hcuts with
  | none => exact ⟨[], start, becomes_self hP hbody hlt⟩
  | @cut W links calls c hcuts hc ih =>
    have hW := hcuts.wellFormed hP
    obtain ⟨front, last, hbecomes⟩ := ih
    by_cases hmem : c.owner ∈ front ++ [last]
    · rcases List.mem_append.mp hmem with hfront | hlast
      · exact absurd hc.nonTail (hbecomes.allTail _ hfront _)
      · obtain rfl := List.mem_singleton.mp hlast
        exact ⟨_, _, Cut.becomes_owner hW hc hcuts.size_nodes_le (hcuts.get?_eq_none hP hc)
          (hcuts.key_lt hP) hbecomes⟩
    · exact ⟨front, last, Cut.becomes_other hW hc hbecomes hmem⟩

/-! ### After the cuts -/

namespace Stages.Lead

variable {s : Stages} {P Q : Program} {report : ScheduleReport}

theorem continuation?_old (hP : P.WellFormed) (h : s.Lead P report Q) {id : SubgraphId}
    (hlt : id < s.cut.subgraphs.size) : { s.wrapped with links := report.links }.continuation? id
      = { s.cut with links := s.links }.continuation? id := by
  have hcut := h.cut_ok hP
  have hsubgraph := Array.getElem?_eq_getElem hlt
  have hafter : s.wrapped.subgraphs[id]? = some s.cut.subgraphs[id] :=
    ((h.wraps.extends_program hcut).subgraph_old id hlt).trans hsubgraph
  rw [continuation?_eq (P := { s.wrapped with links := report.links }) hafter,
    continuation?_eq (P := { s.cut with links := s.links }) hsubgraph]
  refine congrArg _ (Option.bind_congr fun call hcall => ?_)
  exact (h.wraps.shape hcut).link_old (hcut.inArena hsubgraph call (List.mem_of_getLast? hcall))

theorem segment_old (hP : P.WellFormed) (h : s.Lead P report Q) {id origin : SubgraphId}
    {subgraph : Subgraph} (hsubgraph : s.wrapped.subgraphs[id]? = some subgraph)
    (hkind : subgraph.kind = .segment origin) : s.cut.subgraphs[id]? = some subgraph := by
  rcases (h.wraps.shape (h.cut_ok hP)).subgraph_cases hsubgraph with hold | ⟨x, hx, rfl⟩
    | ⟨e, he, rfl, -⟩
  · exact hold
  · rw [Option.some.inj (hsubgraph.symm.trans hx.subgraph_eq)] at hkind
    exact nomatch hkind
  · rw [Option.some.inj (hsubgraph.symm.trans he.subgraph_eq)] at hkind
    exact nomatch hkind

theorem nodesOf_old (hP : P.WellFormed) (h : s.Lead P report Q) {id : SubgraphId}
    (hlt : id < s.cut.subgraphs.size) : s.wrapped.nodesOf id = s.cut.nodesOf id := by
  rw [nodesOf, nodesOf, (h.wraps.extends_program (h.cut_ok hP)).subgraph_old id hlt]

/-- Where a subgraph ends in a call with a link, the segment that goes on starts with a copy of what
the link names. -/
theorem starts_with_copy (hP : P.WellFormed) (h : s.Lead P report Q) {id : SubgraphId}
    (hlt : id < s.cut.subgraphs.size) {call : NodeId} {link : Link}
    (hcall : s.wrapped.subgraphs[id]?.bind Subgraph.lastNode? = some call)
    (hlink : report.links.get? call = some link) :
    (s.wrapped.nodesOf link.continuation).head? = some link.consumer
      ∧ ∃ name outputs, s.wrapped.nodes[link.consumer]?
        = some ⟨name, .kernel .copy, link.tensors, outputs⟩ := by
  have hcut := h.cut_ok hP
  have hfound := Array.getElem?_eq_getElem hlt
  rw [(h.wraps.extends_program hcut).subgraph_old id hlt, hfound, Option.bind_some] at hcall
  have hold : s.links.get? call = some link := by
    rwa [(h.wraps.shape hcut).link_old (hcut.inArena hfound call (List.mem_of_getLast? hcall))]
      at hlink
  obtain ⟨⟨segment, origin, hsegment, -, hhead⟩, ⟨name, node, -, hcopy⟩, -⟩ :=
    h.cuts.resumes (h.separated_ok hP) hold
  refine ⟨?_, name, node.outputs, h.node_old hP hcopy rfl⟩
  rw [h.nodesOf_old hP (subgraph_lt hsegment), nodesOf_eq hsegment, hhead]

section Segments

variable (hP : P.WellFormed) (h : s.Lead P report Q) {start : SubgraphId} {subgraph : Subgraph}
  (hsubgraph : P.subgraphs[start]? = some subgraph) {front : List SubgraphId} {last : SubgraphId}

include hP h hsubgraph

theorem becomes (hbody : P.AllBodies) : ∃ front last, P.Becomes s.cut s.links start front last := by
  obtain ⟨count, hseparate⟩ := h.separates
  have hseparates := separateHandles_separates hP hseparate
  have hkept := hseparates.kept hP
  obtain ⟨before, hbefore, -⟩ := hkept.subgraph hsubgraph
  obtain ⟨front, last, hbecomes⟩ :=
    h.cuts.becomes (h.separated_ok hP) (hseparates.allBodies hP hbody) (subgraph_lt hbefore)
  exact ⟨front, last, hbecomes.of_kept hP (h.separated_ok hP) hkept hsubgraph⟩

/-- There are as many segments as there were calls to cut, since none is left in the last of them. -/
theorem length_segments (hbecomes : P.Becomes s.cut s.links start front last)
    {segments : List SubgraphId} (hsegments : front ++ [last] = start :: segments) :
    ∃ calls, (P.nonTailCalls start : Outcome ScheduleError (List NodeId)) = .ok calls
      ∧ segments.length = calls.length := by
  obtain ⟨calls, hcalls, -⟩ := exists_nonTailCalls (ε := ScheduleError) hP hsubgraph
  obtain ⟨rest, hrest, hlength⟩ := hbecomes.calls hcalls
  have hlt := hbecomes.lt last (by simp)
  have hnone : (s.cut.nonTailCalls last : Outcome ScheduleError (List NodeId)) = .ok [] :=
    (nonTailCalls_eq_nil_iff (h.cut_ok hP) (Array.getElem?_eq_getElem hlt)).mpr (h.allTail last hlt)
  obtain rfl := Except.ok.inj (hnone.symm.trans hrest)
  have hcount := congrArg List.length hsegments
  rw [List.length_append, List.length_singleton, List.length_cons] at hcount
  rw [List.length_nil] at hlength
  exact ⟨calls, hcalls, by omega⟩

theorem kind_of_start (hbody : P.AllBodies) {after : Subgraph}
    (hafter : s.cut.subgraphs[start]? = some after) : after.kind = .body := by
  obtain ⟨count, hseparate⟩ := h.separates
  have hseparates := separateHandles_separates hP hseparate
  obtain ⟨before, hbefore, -⟩ := (hseparates.kept hP).subgraph hsubgraph
  obtain ⟨found, hfound, -, hkind⟩ := (h.cuts.keeps_interface (h.separated_ok hP)).2 hbefore
  obtain rfl := Option.some.inj (hafter.symm.trans hfound)
  rw [hkind, hseparates.allBodies hP hbody hbefore]

/-- The segments of a subgraph are the members of its chain apart from itself. -/
theorem mem_segments (hbody : P.AllBodies) (hbecomes : P.Becomes s.cut s.links start front last)
    {segments : List SubgraphId} (hsegments : front ++ [last] = start :: segments)
    (id : SubgraphId) : id ∈ segments ↔ ∃ segment, s.wrapped.subgraphs[id]? = some segment
      ∧ segment.kind = .segment start := by
  have hcut := h.cut_ok hP
  have hmem := hbecomes.mem_iff
  have hlt := hbecomes.lt
  have hnodup := hbecomes.order.nodup hcut.order_nodup
  rw [hsegments] at hmem hlt hnodup
  constructor
  · intro hid
    have hfound := Array.getElem?_eq_getElem (hlt id (.tail _ hid))
    refine ⟨_, ((h.wraps.extends_program hcut).subgraph_old id (subgraph_lt hfound)).trans hfound, ?_⟩
    have horigin := (hmem hfound).mp (.tail _ hid)
    rcases h.cut_kind hP hbody hfound with hkind | ⟨⟨origin, hkind⟩, -⟩
    · rw [hkind] at horigin
      obtain rfl : id = start := horigin
      exact absurd hid (List.nodup_cons.mp hnodup).1
    · rw [hkind] at horigin ⊢
      obtain rfl : origin = start := horigin
      rfl
  · intro ⟨segment, hsegment, hkind⟩
    have hold := h.segment_old hP hsegment hkind
    have hin : id ∈ start :: segments := (hmem hold).mpr (by rw [hkind]; rfl)
    refine (List.mem_cons.mp hin).resolve_left fun hsame => ?_
    have hstart := h.kind_of_start hP hsubgraph hbody (hsame ▸ hold)
    exact nomatch hkind.symm.trans hstart

end Segments

end Stages.Lead

/-- Every subgraph becomes a chain of itself and its segments, in the order in which they are laid
out. There are as many segments as the subgraph had calls that were not tail calls, each starts with
the copy that its link names, the last returns what the subgraph returned, and together they list the
nodes of the subgraph in their order. -/
theorem schedule_chains {P Q : Program} {options : SchedulerOptions} {report : ScheduleReport}
    (hvalid : P.validate = .ok ()) (hbody : P.AllBodies) (hlinks : P.links = .empty)
    (hschedule : schedule options P = .ok (report, Q)) {start : SubgraphId} {subgraph : Subgraph}
    (hsubgraph : P.subgraphs[start]? = some subgraph) :
    ∃ segments : List SubgraphId, Q.Chain (start :: segments) ∧ (start :: segments).Nodup
      ∧ (∀ id, id ∈ segments
        ↔ ∃ segment, Q.subgraphs[id]? = some segment ∧ segment.kind = .segment start)
      ∧ (∃ calls, (P.nonTailCalls start : Outcome ScheduleError (List NodeId)) = .ok calls
        ∧ segments.length = calls.length)
      ∧ (start :: segments).Sublist Q.order
      ∧ (∃ last, Q.subgraphs[(start :: segments).getLast (List.cons_ne_nil _ _)]? = some last
        ∧ last.outputs = subgraph.outputs)
      ∧ (∀ id ∈ start :: segments, ∀ call link,
        Q.subgraphs[id]?.bind Subgraph.lastNode? = some call → Q.linkFor? call = some link →
          (Q.nodesOf link.continuation).head? = some link.consumer
            ∧ ∃ name outputs, Q.nodes[link.consumer]?
              = some ⟨name, .kernel .copy, link.tensors, outputs⟩)
      ∧ ((start :: segments).flatMap Q.nodesOf).filter (· < P.nodes.size) = subgraph.nodes := by
  have hP := wellFormed_of_validate hvalid
  obtain ⟨s, h⟩ := exists_stages hP hbody hschedule
  have hcut := h.cut_ok hP
  obtain ⟨front, last, hbecomes⟩ := h.becomes hP hsubgraph hbody
  obtain ⟨segments, hsegments⟩ := hbecomes.exists_segments
  have hlast : (start :: segments).getLast (List.cons_ne_nil _ _) = last := by
    simp [← hsegments]
  have hlt : ∀ id ∈ start :: segments, id < s.cut.subgraphs.size := hsegments ▸ hbecomes.lt
  rw [h.result_eq hP hlinks]
  refine ⟨segments, ?_, hsegments ▸ hbecomes.order.nodup hcut.order_nodup,
    h.mem_segments hP hsubgraph hbody hbecomes hsegments,
    h.length_segments hP hsubgraph hbecomes hsegments,
    (hsegments ▸ hbecomes.order).trans h.wraps.retains.order, ?_,
    fun id hid _ _ => h.starts_with_copy hP (hlt id hid), ?_⟩
  · exact (hsegments ▸ hbecomes.chain).congr fun id hid => h.continuation?_old hP (hlt id hid)
  · obtain ⟨after, hafter, hout⟩ := hbecomes.outputs hsubgraph
    have hold := (h.wraps.extends_program hcut).subgraph_old last (subgraph_lt hafter)
    rw [hlast]
    exact ⟨after, hold.trans hafter, hout⟩
  · have hsame : (start :: segments).flatMap s.wrapped.nodesOf
        = (start :: segments).flatMap s.cut.nodesOf :=
      List.flatMap_congr fun id hid => h.nodesOf_old hP (hlt id hid)
    show ((start :: segments).flatMap s.wrapped.nodesOf).filter (· < P.nodes.size) = subgraph.nodes
    rw [hsame, ← hsegments, hbecomes.nodes, nodesOf_eq hsubgraph]

/-- A relay is cut after both of its calls. -/
theorem relay_chains : ∃ report Q segments, schedule {} relay = .ok (report, Q)
    ∧ Q.Chain (0 :: segments) ∧ segments.length = 2
    ∧ ((0 :: segments).flatMap Q.nodesOf).filter (· < 6) = [0, 1, 2, 3, 4] := by
  obtain ⟨⟨report, Q⟩, hschedule⟩ : ∃ answer, schedule {} relay = .ok answer :=
    Outcome.exists_of_isOk (by decide +kernel)
  obtain ⟨segments, hchain, -, -, ⟨calls, hcalls, hlength⟩, -, -, -, hnodes⟩ :=
    schedule_chains (by decide +kernel) (by decide) rfl hschedule
      (show relay.subgraphs[0]? = some _ from rfl)
  have hboth : (relay.nonTailCalls 0 : Outcome ScheduleError (List NodeId)) = .ok [1, 3] := by
    decide +kernel
  obtain rfl := Except.ok.inj (hcalls.symm.trans hboth)
  exact ⟨report, Q, segments, hschedule, hchain, hlength, hnodes⟩

end TailFlow
