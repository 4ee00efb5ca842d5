import TailFlow.Proofs.Handles.Separation
import TailFlow.Proofs.Schedule.TailCalls

/-!
# What separation keeps

A call that gets a handle of its own gets the copies in front of itself and another first input.
Everything else stays as it is: the nodes are listed in their order and write what they wrote, and a
call that was a tail call is one.
-/

namespace TailFlow

open Program

namespace Rewiring

variable {r : Rewiring} {P : Program}

theorem nonTail_after_iff (hP : P.WellFormed) (hr : r.Applies P) {owner : SubgraphId}
    {call : NodeId} : (r.after P).NonTail owner call ↔ P.NonTail owner call := by
  constructor
  · rintro ⟨subgraph, node, hsubgraph, hmem, hnode, hcall, hnot⟩
    have hlists : (r.after P).Lists ⟨owner, call, node⟩ := ⟨subgraph, hsubgraph, hmem, hnode⟩
    obtain ⟨before, hbefore, hbase, -⟩ := subgraph_of_after hP hr hsubgraph
    obtain ⟨after, hafter, hlast, -⟩ := exists_subgraph_after hP hr hbefore
    obtain rfl := Option.some.inj (hsubgraph.symm.trans hafter)
    have hout : subgraph.outputs = before.outputs := by rw [hbase]
    rw [IsTail, hlast, hout] at hnot
    have hold {node' : Node} (hlists : P.Lists ⟨owner, call, node'⟩) (hisCall : node'.isCall)
        (hsame : node.outputs = node'.outputs) : P.NonTail owner call := by
      obtain ⟨before', hbefore', hmem', hnode'⟩ := hlists
      obtain rfl := Option.some.inj (hbefore.symm.trans hbefore')
      refine ⟨before, node', hbefore, hmem', hnode', hisCall, fun htail => hnot ?_⟩
      exact ⟨htail.1, hsame.trans htail.2⟩
    rcases (lists_after_iff hP hr).mp hlists with ⟨hbefore, -⟩ | hsame | ⟨place, copy, hcopy, hsame⟩
    · exact hold hbefore hcall rfl
    · obtain ⟨rfl, rfl, rfl⟩ := ListedNode.mk.inj hsame
      exact hold hr.lists_call hr.isCall rfl
    · obtain ⟨-, -, rfl⟩ := ListedNode.mk.inj hsame
      rw [hr.isCall_of_copy hP hcopy] at hcall
      exact absurd hcall Bool.false_ne_true
  · rintro ⟨subgraph, node, hsubgraph, hmem, hnode, hcall, hnot⟩
    obtain ⟨after, hafter, hlast, -, hout, hnodes⟩ := exists_subgraph_after hP hr hsubgraph
    obtain ⟨node', hnode', hkind, hout'⟩ := exists_node_after hr hnode
    rw [← hnodes] at hmem
    refine ⟨after, node', hafter, (List.mem_filter.mp hmem).1, hnode', ?_, ?_⟩
    · rwa [Node.isCall, hkind]
    · rwa [IsTail, hlast, hout, hout']

end Rewiring

namespace Program

variable {P P' : Program}

/-- What separation leaves of a subgraph: its nodes are still there and in their order, it ends as
before, and its calls that are not tail calls are the same. -/
structure Kept (P P' : Program) : Prop where
  nodes_le : P.nodes.size ≤ P'.nodes.size
  tensors_le : P.tensors.size ≤ P'.tensors.size
  order_eq : P'.order = P.order
  node : ∀ ⦃id : NodeId⦄ ⦃node : Node⦄, P.nodes[id]? = some node →
    ∃ after, P'.nodes[id]? = some after ∧ after.kind = node.kind ∧ after.outputs = node.outputs
  subgraph : ∀ ⦃id : SubgraphId⦄ ⦃subgraph : Subgraph⦄, P.subgraphs[id]? = some subgraph →
    ∃ after, P'.subgraphs[id]? = some after ∧ after.outputs = subgraph.outputs
      ∧ after.nodes.filter (· < P.nodes.size) = subgraph.nodes
  nonTail_iff : ∀ {owner : SubgraphId} {call : NodeId},
    P'.NonTail owner call ↔ P.NonTail owner call

theorem filter_lt_filter_lt {small great : Nat} (hle : small ≤ great) (ids : List Nat) :
    (ids.filter (· < great)).filter (· < small) = ids.filter (· < small) := by
  rw [List.filter_filter]
  refine List.filter_congr fun id _ => ?_
  simp only [Bool.and_eq_left_iff_imp, decide_eq_true_iff]
  omega

theorem Separates.kept (hP : P.WellFormed) (hseparates : P.Separates P') : P.Kept P' := by
  induction hseparates with
  | refl =>
    refine ⟨Nat.le_refl _, Nat.le_refl _, rfl, fun id node hnode => ⟨node, hnode, rfl, rfl⟩,
      fun id subgraph hsubgraph => ⟨subgraph, hsubgraph, rfl, ?_⟩, Iff.rfl⟩
    exact List.filter_eq_self.mpr fun node hnode => decide_eq_true (hP.inArena hsubgraph node hnode)
  | @tail middle _ hbefore hstep ih =>
    obtain ⟨r, hr, rfl⟩ := hstep
    have hmiddle := Separates.wellFormed hP hbefore
    refine ⟨?_, ?_, ih.order_eq, fun id node hnode => ?_, fun id subgraph hsubgraph => ?_, ?_⟩
    · rw [Rewiring.size_nodes_after]
      exact Nat.le_add_right_of_le ih.nodes_le
    · rw [Rewiring.size_tensors_after hr]
      exact Nat.le_add_right_of_le ih.tensors_le
    · obtain ⟨between, hbetween, hkind, hout⟩ := ih.node hnode
      obtain ⟨after, hafter, hkind', hout'⟩ := Rewiring.exists_node_after hr hbetween
      exact ⟨after, hafter, hkind'.trans hkind, hout'.trans hout⟩
    · obtain ⟨between, hbetween, hout, hnodes⟩ := ih.subgraph hsubgraph
      obtain ⟨after, hafter, -, -, hout', hnodes'⟩ :=
        Rewiring.exists_subgraph_after hmiddle hr hbetween
      refine ⟨after, hafter, hout'.trans hout, ?_⟩
      rw [← hnodes, ← hnodes', filter_lt_filter_lt ih.nodes_le]
    · exact (Rewiring.nonTail_after_iff hmiddle hr).trans ih.nonTail_iff

end Program

end TailFlow
