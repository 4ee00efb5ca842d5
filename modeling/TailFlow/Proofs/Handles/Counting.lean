import TailFlow.Proofs.Handles.Separation

/-!
# Which calls get another handle

Separation counts how often it gives a call a handle of its own. A call may get one more than once,
so it is no more than that many calls that read something else in the end. Each handle is a new tensor,
so no call gets back the one that it had, and nothing else about an old node changes.
-/

namespace TailFlow

open Program

namespace Program

variable {P S : Program} {calls : List NodeId}

/-- The node is a call and reads a first tensor that it has not read in the first program. -/
structure Rehandled.At (P S : Program) (id : NodeId) (node : Node) (handle fresh : TensorId)
    (others : List TensorId) : Prop where
  node_eq : P.nodes[id]? = some node
  isCall : node.isCall
  inputs_eq : node.inputs = handle :: others
  handle_lt : handle < S.tensors.size
  fresh_ne : fresh ≠ handle
  after_eq : S.nodes[id]? = some { node with inputs := fresh :: others }

/-- The calls that have got handles of their own, each as often as it has got one. -/
structure Rehandled (P : Program) (calls : List NodeId) (S : Program) : Prop where
  nodes_le : P.nodes.size ≤ S.nodes.size
  same : ∀ id < P.nodes.size, id ∉ calls → S.nodes[id]? = P.nodes[id]?
  changed : ∀ id ∈ calls, ∃ node handle fresh others, Rehandled.At P S id node handle fresh others
  call_lt : ∀ ⦃id : NodeId⦄ ⦃node : Node⦄, S.nodes[id]? = some node → node.isCall →
    id < P.nodes.size

theorem Rehandled.refl (P : Program) : P.Rehandled [] P where
  nodes_le := Nat.le_refl _
  same := fun _ _ _ => rfl
  changed := List.forall_mem_nil _
  call_lt := fun _ _ hnode _ => node_lt hnode

theorem Rehandled.after (hS : S.WellFormed) (h : P.Rehandled calls S) {r : Rewiring}
    (hr : r.Applies S) : P.Rehandled (r.call :: calls) (r.after S) where
  nodes_le := by
    rw [Rewiring.size_nodes_after]
    exact Nat.le_add_right_of_le h.nodes_le
  same := by
    intro id hlt hnot
    rw [List.mem_cons, not_or] at hnot
    rw [Rewiring.node_after_old (Nat.lt_of_lt_of_le hlt h.nodes_le) hnot.1, h.same id hlt hnot.2]
  changed := by
    intro id hmem
    have hgrown : S.tensors.size ≤ (r.after S).tensors.size := by
      rw [Rewiring.size_tensors_after hr]
      exact Nat.le_add_right _ _
    have hhandle : r.handle < S.tensors.size :=
      hS.inputs_lt hr.lists_call (by simp [hr.inputs_eq])
    -- Whatever the call has read before has a number below the new handle.
    have hfresh {handle : TensorId} (hlt : handle < S.tensors.size) :
        S.tensors.size + r.place ≠ handle :=
      Nat.ne_of_gt (Nat.lt_add_right _ hlt)
    have hcall := Rewiring.node_after_call hr
    by_cases hsame : id = r.call
    · subst hsame
      by_cases hbefore : r.call ∈ calls
      · obtain ⟨node, handle, fresh, others, hat⟩ := h.changed _ hbefore
        have hnode := Option.some.inj (hr.node_eq.symm.trans hat.after_eq)
        have hothers : others = r.others := by
          have hinputs := hr.inputs_eq
          rw [hnode] at hinputs
          exact (List.cons.inj hinputs).2
        refine ⟨node, handle, _, others, hat.node_eq, hat.isCall, hat.inputs_eq,
          Nat.lt_of_lt_of_le hat.handle_lt hgrown, hfresh hat.handle_lt, ?_⟩
        rw [hcall, Rewiring.rewired, hnode, hothers]
      · have hold := h.same r.call (h.call_lt hr.node_eq hr.isCall) hbefore
        exact ⟨r.node, r.handle, _, r.others, hold.symm.trans hr.node_eq, hr.isCall, hr.inputs_eq,
          Nat.lt_of_lt_of_le hhandle hgrown, hfresh hhandle, hcall⟩
    · obtain ⟨node, handle, fresh, others, hat⟩ :=
        h.changed id ((List.mem_cons.mp hmem).resolve_left hsame)
      refine ⟨node, handle, fresh, others, hat.node_eq, hat.isCall, hat.inputs_eq,
        Nat.lt_of_lt_of_le hat.handle_lt hgrown, hat.fresh_ne, ?_⟩
      exact (Rewiring.node_after_old (node_lt hat.after_eq) hsame).trans hat.after_eq
  call_lt := by
    intro id node hnode hcall
    rcases Nat.lt_or_ge id S.nodes.size with hlt | hge
    · by_cases hsame : id = r.call
      · exact hsame ▸ h.call_lt hr.node_eq hr.isCall
      · exact h.call_lt ((Rewiring.node_after_old hlt hsame).symm.trans hnode) hcall
    · obtain ⟨place, rfl⟩ := Nat.exists_eq_add_of_le hge
      rw [Rewiring.node_after_copy hr, Option.map_eq_some_iff] at hnode
      obtain ⟨copy, hcopy, rfl⟩ := hnode
      exact absurd ((hr.isCall_of_copy hS hcopy).symm.trans hcall) Bool.false_ne_true

theorem separateHandles_rehandled (hP : P.WellFormed) {count : Nat}
    (hseparate : (P.separateHandles : Outcome ScheduleError (Nat × Program)) = .ok (count, S)) :
    ∃ calls, calls.length = count ∧ P.Rehandled calls S :=
  separateHandles_keeps (fun count S => ∃ calls, calls.length = count ∧ P.Rehandled calls S)
    (fun _ _ r hS hr ⟨calls, hlength, h⟩ => ⟨r.call :: calls, by simp [hlength], h.after hS hr⟩)
    hP ⟨[], rfl, .refl P⟩ hseparate

theorem Rehandled.node_cases (h : P.Rehandled calls S) {id : NodeId} {node : Node}
    (hnode : P.nodes[id]? = some node) : (id ∉ calls ∧ S.nodes[id]? = some node)
      ∨ ∃ handle fresh others, id ∈ calls ∧ Rehandled.At P S id node handle fresh others := by
  by_cases hmem : id ∈ calls
  · obtain ⟨node', handle, fresh, others, hat⟩ := h.changed id hmem
    obtain rfl := Option.some.inj (hnode.symm.trans hat.node_eq)
    exact .inr ⟨handle, fresh, others, hmem, hat⟩
  · exact .inl ⟨hmem, (h.same id (node_lt hnode) hmem).trans hnode⟩

/-! ### Counting them -/

def reread (P Q : Program) : List NodeId :=
  (List.range P.nodes.size).filter fun id =>
    Q.nodes[id]?.map Node.inputs != P.nodes[id]?.map Node.inputs

theorem mem_reread {Q : Program} {id : NodeId} {node : Node} (hnode : P.nodes[id]? = some node) :
    id ∈ P.reread Q ↔ Q.nodes[id]?.map Node.inputs ≠ some node.inputs := by
  rw [reread, List.mem_filter, List.mem_range, hnode, Option.map_some, bne_iff_ne,
    and_iff_right (node_lt hnode)]

namespace Rehandled

variable {Q : Program} (h : P.Rehandled calls S)
  (hinputs : ∀ ⦃id : NodeId⦄ ⦃node : Node⦄, S.nodes[id]? = some node →
    Q.nodes[id]?.map Node.inputs = some node.inputs)

include h hinputs

/-- As long as nothing else is given new inputs, it is these calls that read something else. -/
theorem mem_reread_iff {id : NodeId} : id ∈ P.reread Q ↔ id ∈ calls := by
  constructor
  · intro hmem
    have hnode := Array.getElem?_eq_getElem
      (List.mem_range.mp (List.mem_filter.mp hmem).1)
    by_contra hnot
    exact (mem_reread hnode).mp hmem (hinputs ((h.same id (node_lt hnode) hnot).trans hnode))
  · intro hmem
    obtain ⟨node, handle, fresh, others, hat⟩ := h.changed id hmem
    rw [mem_reread hat.node_eq, hinputs hat.after_eq, hat.inputs_eq]
    exact fun hsame => hat.fresh_ne (List.cons.inj (Option.some.inj hsame)).1

theorem length_reread_le : (P.reread Q).length ≤ calls.length :=
  (List.subperm_of_subset (List.nodup_range.filter _) fun _ hmem =>
    (h.mem_reread_iff hinputs).mp hmem).length_le

theorem reread_ne_nil (hsome : calls ≠ []) : P.reread Q ≠ [] := by
  obtain ⟨call, hmem⟩ := List.exists_mem_of_ne_nil _ hsome
  exact List.ne_nil_of_mem ((h.mem_reread_iff hinputs).mpr hmem)

end Rehandled

end Program

end TailFlow
