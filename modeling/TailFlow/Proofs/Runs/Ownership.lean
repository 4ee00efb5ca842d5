import TailFlow.Proofs.Handles.Separation
import TailFlow.Proofs.Runs.Assignment
import TailFlow.Proofs.Schedule.Origin

/-!
# Which body a tensor belongs to

A tensor belongs to the body that it is a formal or an output in, and what segments write belongs to
the body that they were cut from. If no two bodies write the same tensor to begin with, then they do
not do so after handles have been separated and after bodies have been cut: fresh tensors go to the
body that is worked on. The calls that bodies are cut after are calls that were not tail calls.
-/

namespace TailFlow

open Program

namespace Program

variable {P P' : Program}

/-- A subgraph that goes back to the body writes the tensor. -/
def Owns (P : Program) (body : SubgraphId) (tensor : TensorId) : Prop :=
  ∃ id subgraph, P.subgraphs[id]? = some subgraph ∧ segmentOrigin id subgraph.kind = body
    ∧ tensor ∈ P.written subgraph

/-- No tensor is written in two bodies, and none that is written is constant. -/
structure OwnsApart (P : Program) : Prop where
  plain : ∀ ⦃body tensor⦄, P.Owns body tensor → P.Plain tensor
  apart : ∀ ⦃first second tensor⦄, P.Owns first tensor → P.Owns second tensor → first = second

theorem written_lt (hP : P.WellFormed) {id : SubgraphId} {subgraph : Subgraph}
    (hsubgraph : P.subgraphs[id]? = some subgraph) {tensor : TensorId}
    (hmem : tensor ∈ P.written subgraph) : tensor < P.tensors.size := by
  rcases List.mem_append.mp hmem with hformal | hwrites
  · exact hP.interface hsubgraph tensor (List.mem_append_left _ hformal)
  · obtain ⟨node, hnode, found, hfound, hout⟩ := mem_writes.mp hwrites
    have hlists : P.Lists ⟨id, node, found⟩ := ⟨subgraph, hsubgraph, hnode, hfound⟩
    exact hP.outputs_lt hlists hout

/-- Whatever is written afterwards was written before in the same body, or it is fresh and belongs
to one body. -/
theorem OwnsApart.extend (hP : P.WellFormed) (hapart : P.OwnsApart) {body : SubgraphId}
    (hplain : ∀ tensor, P.Plain tensor → P'.Plain tensor)
    (howns : ∀ first tensor, P'.Owns first tensor →
      P.Owns first tensor ∨ P.tensors.size ≤ tensor ∧ first = body) : P'.OwnsApart where
  plain := by
    intro first tensor hfirst
    rcases howns first tensor hfirst with hold | ⟨hge, -⟩
    · exact hplain tensor (hapart.plain hold)
    · refine hplain tensor ?_
      rw [Plain, Array.getElem?_eq_none hge]
      rfl
  apart := by
    have hlt {first : SubgraphId} {tensor : TensorId} (hold : P.Owns first tensor) :
        ¬ P.tensors.size ≤ tensor := by
      obtain ⟨id, subgraph, hsubgraph, -, hmem⟩ := hold
      exact Nat.not_le.mpr (written_lt hP hsubgraph hmem)
    intro first second tensor hfirst hsecond
    rcases howns first tensor hfirst with hold | ⟨hge, rfl⟩ <;>
      rcases howns second tensor hsecond with hold' | ⟨hge', hsame⟩
    · exact hapart.apart hold hold'
    · exact absurd hge' (hlt hold)
    · exact absurd hge (hlt hold')
    · exact hsame.symm

end Program

/-! ### Separating handles -/

namespace Rewiring

variable {r : Rewiring} {P : Program}

theorem owns_of_after (hP : P.WellFormed) (hr : r.Applies P) {body : SubgraphId}
    {tensor : TensorId} (howns : (r.after P).Owns body tensor) : P.Owns body tensor
      ∨ P.tensors.size ≤ tensor ∧ body = segmentOrigin r.owner r.subgraph.kind := by
  obtain ⟨id, subgraph, hsubgraph, rfl, hmem⟩ := howns
  by_cases howner : id = r.owner
  · subst howner
    rw [subgraph_after_owner hP hr] at hsubgraph
    obtain rfl := Option.some.inj hsubgraph
    rcases List.mem_append.mp ((written_after_owner hP hr).mem_iff.mp hmem) with hold | hfresh
    · exact .inl ⟨r.owner, r.subgraph, hr.subgraph_eq, rfl, hold⟩
    · exact .inr ⟨(List.mem_range'_1.mp hfresh).1, rfl⟩
  · rw [subgraph_after_other howner] at hsubgraph
    rw [written_after_other hP hr hsubgraph] at hmem
    exact .inl ⟨id, subgraph, hsubgraph, rfl, hmem⟩

end Rewiring

theorem Program.Separates.ownsApart {P P' : Program} (hP : P.WellFormed) (hapart : P.OwnsApart)
    (hseparates : P.Separates P') : P'.OwnsApart := by
  refine hseparates.preserves hP hapart fun Q r hQ hr hbefore => ?_
  exact hbefore.extend hQ (fun _ => plain_append Rewiring.after_tensors hr.plain)
    fun _ _ => Rewiring.owns_of_after hQ hr

/-! ### Cutting -/

namespace Cut

variable {c : Cut} {P : Program}

/-- What a cut leaves of a subgraph, and the segment, go back to where the subgraph goes back to. -/
theorem owns_of_after (hP : P.WellFormed) (hc : c.Applies P) {body : SubgraphId}
    {tensor : TensorId} (howns : (c.after P).Owns body tensor) : P.Owns body tensor
      ∨ P.tensors.size ≤ tensor ∧ body = segmentOrigin c.owner c.subgraph.kind := by
  obtain ⟨id, subgraph, hsubgraph, rfl, hmem⟩ := howns
  have hold {owner : SubgraphId} {before : Subgraph} (hbefore : P.subgraphs[owner]? = some before)
      {node : NodeId} (hnode : node ∈ before.nodes) (hne : node ≠ c.call) {found : Node}
      (hfound : (c.after P).nodes[node]? = some found) (hout : tensor ∈ found.outputs) :
      P.Owns (segmentOrigin owner before.kind) tensor := by
    rw [node_after_old (hP.inArena hbefore node hnode) hne] at hfound
    exact ⟨owner, before, hbefore, rfl,
      List.mem_append_right _ (mem_writes.mpr ⟨node, hnode, found, hfound, hout⟩)⟩
  rcases subgraph_after_cases hP hc hsubgraph with ⟨howner, hbefore⟩ | ⟨rfl, rfl⟩ | ⟨rfl, rfl⟩
  · refine .inl ?_
    rcases List.mem_append.mp hmem with hformal | hwrites
    · exact ⟨id, subgraph, hbefore, rfl, List.mem_append_left _ hformal⟩
    · obtain ⟨node, hnode, found, hfound, hout⟩ := mem_writes.mp hwrites
      refine hold hbefore hnode (fun hcall => howner ?_) hfound hout
      exact hP.apart hbefore hc.subgraph_eq node hnode (hc.mem_nodes.mpr (.inr (.inl hcall)))
  · rcases List.mem_append.mp hmem with hformal | hwrites
    · exact .inl ⟨c.owner, c.subgraph, hc.subgraph_eq, rfl, List.mem_append_left _ hformal⟩
    · obtain ⟨node, hnode, found, hfound, hout⟩ := mem_writes.mp hwrites
      rcases List.mem_append.mp hnode with hearlier | hcall
      · have hbefore := hold hc.subgraph_eq (hc.mem_nodes.mpr (.inl hearlier))
          (hc.ne_of_mem_earlier hP hearlier).1 hfound hout
        exact .inl hbefore
      · obtain rfl := List.mem_singleton.mp hcall
        obtain rfl := Option.some.inj ((node_after_call hc).symm.trans hfound)
        exact .inr ⟨hc.fresh.le_of_mem hout, rfl⟩
  · rcases List.mem_append.mp hmem with hformal | hwrites
    · exact .inr ⟨hc.fresh.le_of_mem hformal, rfl⟩
    · obtain ⟨node, hnode, found, hfound, hout⟩ := mem_writes.mp hwrites
      refine .inl ?_
      rcases List.mem_cons.mp hnode with rfl | hlater
      · obtain rfl := Option.some.inj (node_after_resume.symm.trans hfound)
        refine ⟨c.owner, c.subgraph, hc.subgraph_eq, rfl, List.mem_append_right _ ?_⟩
        exact mem_writes.mpr ⟨c.call, hc.mem_nodes.mpr (.inr (.inl rfl)), c.node, hc.node_eq, hout⟩
      · have hne : node ≠ c.call := fun h => hc.call_notMem_later hP (h ▸ hlater)
        have hbefore := hold hc.subgraph_eq (hc.mem_nodes.mpr (.inr (.inr hlater))) hne hfound hout
        exact hbefore

end Cut

namespace Cuts

variable {P P' : Program} {links : IdMap Link} {calls : List NodeId}

theorem ownsApart (hP : P.WellFormed) (hapart : P.OwnsApart) (hcuts : Cuts P P' links calls) :
    P'.OwnsApart := by
  induction hcuts with
  | none => exact hapart
  | cut hcuts hc ih =>
    have hP' := hcuts.wellFormed hP
    exact ih.extend hP' (fun _ => plain_append Cut.after_tensors hc.fresh.plain)
      fun _ _ => Cut.owns_of_after hP' hc

end Cuts

end TailFlow
