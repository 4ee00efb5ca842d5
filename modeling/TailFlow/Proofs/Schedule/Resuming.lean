import TailFlow.Proofs.Schedule.Worklist

/-!
# Where cut calls go on

The link of a call that has been cut after leads to a segment of its own. The segment starts with a
copy, which takes the results of the call from tensors of their own to where the call wrote in the
program that was cut.
-/

namespace TailFlow

open Program

/-- The link leads from a call of the first program to a segment of the second one that starts with
a copy to where the call wrote. -/
structure Link.Resumes (link : Link) (P W : Program) : Prop where
  starts : ∃ segment origin, W.subgraphs[link.continuation]? = some segment
    ∧ segment.kind = .segment origin ∧ segment.nodes.head? = some link.consumer
  copies : ∃ name node, P.nodes[link.call]? = some node
    ∧ W.nodes[link.consumer]? = some ⟨name, .kernel .copy, link.tensors, node.outputs⟩
  fresh : ∀ tensor ∈ link.tensors, P.tensors.size ≤ tensor ∧ tensor < W.tensors.size

namespace Cuts

variable {P W : Program} {links : IdMap Link} {calls : List NodeId}

theorem size_tensors_le (hcuts : Cuts P W links calls) : P.tensors.size ≤ W.tensors.size := by
  induction hcuts with
  | none => exact Nat.le_refl _
  | cut _ _ ih =>
    rw [Cut.after_tensors, Array.size_append]
    exact Nat.le_add_right_of_le ih

theorem call_lt (hcuts : Cuts P W links calls) {id : NodeId} {node : Node}
    (hnode : W.nodes[id]? = some node) (hcall : node.isCall) : id < P.nodes.size := by
  induction hcuts generalizing id node with
  | none => exact node_lt hnode
  | @cut W links calls c hcuts hc ih =>
    by_cases hsame : id = c.call
    · exact hsame ▸ ih hc.node_eq hc.isCall
    · rcases Nat.lt_succ_iff_lt_or_eq.mp (Cut.size_nodes_after ▸ node_lt hnode) with hlt | rfl
      · rw [Cut.node_after_old hlt hsame] at hnode
        exact ih hnode hcall
      · obtain rfl := Option.some.inj (hnode.symm.trans Cut.node_after_resume)
        exact nomatch hcall

theorem node_old (hcuts : Cuts P W links calls) {id : NodeId} (hlt : id < P.nodes.size)
    (hnot : id ∉ calls) : W.nodes[id]? = P.nodes[id]? := by
  induction hcuts with
  | none => rfl
  | cut hcuts hc ih =>
    rw [List.mem_append, List.mem_singleton, not_or] at hnot
    rw [Cut.node_after_old (Nat.lt_of_lt_of_le hlt hcuts.size_nodes_le) hnot.2, ih hnot.1]

theorem calls_nodup (hP : P.WellFormed) (hcuts : Cuts P W links calls) : calls.Nodup := by
  induction hcuts with
  | none => exact .nil
  | @cut W links calls c hcuts hc ih =>
    have hnot : c.call ∉ calls := by
      rw [← hcuts.exists_link_iff, hcuts.get?_eq_none hP hc]
      exact nofun
    simpa [List.nodup_append, ih] using fun id hid => ne_of_mem_of_not_mem hid hnot

theorem resumes (hP : P.WellFormed) (hcuts : Cuts P W links calls) {call : NodeId} {link : Link}
    (hlink : links.get? call = some link) : link.Resumes P W := by
  induction hcuts with
  | none => exact nomatch hlink
  | @cut W links calls c hcuts hc ih =>
    have hW := hcuts.wellFormed hP
    rw [IdMap.get?_insert] at hlink
    split at hlink
    · obtain rfl := Option.some.inj hlink
      have hnot : c.call ∉ calls := by
        rw [← hcuts.exists_link_iff, hcuts.get?_eq_none hP hc]
        exact nofun
      refine ⟨⟨c.segment W, _, Cut.subgraph_after_segment, rfl, rfl⟩, ⟨c.resumeName, c.node, ?_, ?_⟩,
        fun tensor hmem => ⟨?_, hc.fresh.lt_of_mem hmem⟩⟩
      · rw [← hc.node_eq]
        exact (hcuts.node_old (hcuts.call_lt hc.node_eq hc.isCall) hnot).symm
      · exact Cut.node_after_resume
      · exact Nat.le_trans hcuts.size_tensors_le (hc.fresh.le_of_mem hmem)
    · obtain ⟨⟨segment, origin, hsegment, hkind, hhead⟩, ⟨name, node, hbefore, hcopy⟩, hfresh⟩ :=
        ih hlink
      have hne : link.consumer ≠ c.call := by
        intro hsame
        rw [hsame, hc.node_eq, Option.some.injEq] at hcopy
        have hcall := hc.isCall
        rw [hcopy] at hcall
        exact nomatch hcall
      refine ⟨?_, ⟨name, node, hbefore, ?_⟩, fun tensor hmem => ⟨(hfresh tensor hmem).1, ?_⟩⟩
      · by_cases howner : link.continuation = c.owner
        · rw [howner] at hsegment ⊢
          obtain rfl := Option.some.inj (hc.subgraph_eq.symm.trans hsegment)
          refine ⟨c.head, origin, Cut.subgraph_after_owner hW hc, hkind, ?_⟩
          rw [← hhead, hc.nodes_eq, Cut.head]
          cases c.earlier <;> rfl
        · exact ⟨segment, origin,
            (Cut.subgraph_after_other (subgraph_lt hsegment) howner).trans hsegment, hkind, hhead⟩
      · exact (Cut.node_after_old (node_lt hcopy) hne).trans hcopy
      · exact Cut.lt_tensors_after (hfresh tensor hmem).2

/-- No two calls go on in one segment, and none hands its results over in the tensors of another. -/
theorem links_apart (hP : P.WellFormed) (hcuts : Cuts P W links calls) {first second : NodeId}
    {a b : Link} (ha : links.get? first = some a) (hb : links.get? second = some b)
    (hshared : a.continuation = b.continuation ∨ ∃ tensor ∈ a.tensors, tensor ∈ b.tensors) :
    first = second := by
  induction hcuts with
  | none => exact nomatch ha
  | @cut W links calls c hcuts hc ih =>
    -- A new segment and new tensors are none of those that were there.
    have hnew {call : NodeId} {link : Link} (hlink : links.get? call = some link) :
        link.continuation ≠ (c.link W).continuation
          ∧ ∀ tensor ∈ link.tensors, tensor ∉ (c.link W).tensors := by
      obtain ⟨⟨segment, origin, hsegment, -⟩, -, hfresh⟩ := hcuts.resumes hP hlink
      refine ⟨Nat.ne_of_lt (subgraph_lt hsegment), fun tensor hmem hmem' => ?_⟩
      exact Nat.not_lt.mpr (hc.fresh.le_of_mem hmem') (hfresh tensor hmem).2
    rw [IdMap.get?_insert] at ha hb
    split at ha <;> split at hb
    · exact ‹c.call = first›.symm.trans ‹c.call = second›
    · obtain rfl := Option.some.inj ha
      obtain ⟨hne, hapart⟩ := hnew hb
      rcases hshared with hsame | ⟨tensor, hmem, hmem'⟩
      · exact absurd hsame.symm hne
      · exact absurd hmem (hapart tensor hmem')
    · obtain rfl := Option.some.inj hb
      obtain ⟨hne, hapart⟩ := hnew ha
      rcases hshared with hsame | ⟨tensor, hmem, hmem'⟩
      · exact absurd hsame hne
      · exact absurd hmem' (hapart tensor hmem)
    · exact ih ha hb

end Cuts

end TailFlow
