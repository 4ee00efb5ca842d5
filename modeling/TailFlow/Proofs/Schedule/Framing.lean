import TailFlow.Proofs.Handles.Counting
import TailFlow.Proofs.Handles.Keeping
import TailFlow.Proofs.Program.Order
import TailFlow.Proofs.Schedule.Passage
import TailFlow.Proofs.Schedule.Resuming

/-!
# Nothing changes that is not reported

All stages of scheduling write into the program that they are given. What they have in common is what
they never touch, and this holds along any number of steps: `Retains`. Apart from that each stage has
one field of a node that it may change: separation the first input of a call, splitting the outputs of a
call, and wrapping what a binder names. For every such change the report has an entry.
-/

namespace TailFlow

open Program

/-! ### What no stage touches -/

/-- The tensors come first and in their order, the subgraphs are there with their names, kinds and
formals, and what has been in the order stands in it as before. -/
structure Program.Retains (P Q : Program) : Prop where
  tensors : P.tensors.toList <+: Q.tensors.toList
  subgraph : ∀ ⦃id : SubgraphId⦄ ⦃subgraph : Subgraph⦄, P.subgraphs[id]? = some subgraph →
    ∃ after, Q.subgraphs[id]? = some after ∧ after.name = subgraph.name
      ∧ after.kind = subgraph.kind ∧ after.inputs = subgraph.inputs
  entry_eq : Q.entry = P.entry
  outputs_eq : Q.outputs = P.outputs
  order : P.order.Sublist Q.order

namespace Program.Retains

variable {P P' P'' : Program}

theorem refl (P : Program) : P.Retains P :=
  ⟨List.prefix_rfl, fun _ subgraph hsubgraph => ⟨subgraph, hsubgraph, rfl, rfl, rfl⟩, rfl, rfl,
    .refl _⟩

theorem trans (h : P.Retains P') (h' : P'.Retains P'') : P.Retains P'' where
  tensors := h.tensors.trans h'.tensors
  subgraph := by
    intro id subgraph hsubgraph
    obtain ⟨middle, hmiddle, hname, hkind, hinputs⟩ := h.subgraph hsubgraph
    obtain ⟨last, hlast, hname', hkind', hinputs'⟩ := h'.subgraph hmiddle
    exact ⟨last, hlast, hname'.trans hname, hkind'.trans hkind, hinputs'.trans hinputs⟩
  entry_eq := h'.entry_eq.trans h.entry_eq
  outputs_eq := h'.outputs_eq.trans h.outputs_eq
  order := h.order.trans h'.order

end Program.Retains

section Steps

variable {P : Program}

theorem Rewiring.retains_after {r : Rewiring} (hP : P.WellFormed) (hr : r.Applies P) :
    P.Retains (r.after P) where
  tensors := by simp
  subgraph := by
    intro id subgraph hsubgraph
    by_cases hid : id = r.owner
    · subst hid
      obtain rfl := Option.some.inj (hr.subgraph_eq.symm.trans hsubgraph)
      exact ⟨_, subgraph_after_owner hP hr, rfl, rfl, rfl⟩
    · exact ⟨subgraph, (subgraph_after_other hid).trans hsubgraph, rfl, rfl, rfl⟩
  entry_eq := rfl
  outputs_eq := rfl
  order := .refl _

theorem Cut.retains_after {c : Cut} (hP : P.WellFormed) (hc : c.Applies P) :
    P.Retains (c.after P) where
  tensors := by simp
  subgraph := by
    intro id subgraph hsubgraph
    by_cases hid : id = c.owner
    · subst hid
      obtain rfl := Option.some.inj (hc.subgraph_eq.symm.trans hsubgraph)
      exact ⟨_, subgraph_after_owner hP hc, rfl, rfl, rfl⟩
    · exact ⟨subgraph, (subgraph_after_other (subgraph_lt hsubgraph) hid).trans hsubgraph, rfl, rfl,
        rfl⟩
  entry_eq := rfl
  outputs_eq := rfl
  order := sublist_insertAfter

theorem Addition.retains_after {a : Addition} (horder : P.order.Sublist a.order) :
    P.Retains (a.after P) where
  tensors := by simp
  subgraph := fun _ subgraph hsubgraph =>
    ⟨subgraph, (subgraph_after_old (subgraph_lt hsubgraph)).trans hsubgraph, rfl, rfl, rfl⟩
  entry_eq := rfl
  outputs_eq := rfl
  order := horder

end Steps

theorem Program.Separates.retains {P P' : Program} (hP : P.WellFormed)
    (hseparates : P.Separates P') : P.Retains P' :=
  hseparates.preserves hP (.refl P) fun _ _ hQ hr hbefore =>
    hbefore.trans (Rewiring.retains_after hQ hr)

theorem Cuts.retains {P P' : Program} {links : IdMap Link} {calls : List NodeId}
    (hP : P.WellFormed) (hcuts : Cuts P P' links calls) : P.Retains P' := by
  induction hcuts with
  | none => exact .refl P
  | cut hcuts hc ih => exact ih.trans (Cut.retains_after (hcuts.wellFormed hP) hc)

theorem Wraps.retains {P W : Program} {links links' : IdMap Link} {bodies : List SubgraphId}
    (hwraps : Wraps P links bodies W links') : P.Retains W := by
  induction hwraps with
  | none => exact .refl P
  | exit _ _ _ _ _ _ _ ih => exact ih.trans (Addition.retains_after sublist_insertAfter)
  | entrance _ _ _ _ _ _ _ _ _ _ _ _ _ _ ih =>
    exact ih.trans (Addition.retains_after sublist_insertBefore)

/-! ### What splitting changes -/

namespace Cuts

variable {P P' : Program} {links : IdMap Link} {calls : List NodeId}

/-- A node is as it was, apart from the outputs of a call that is cut after. -/
theorem exists_node (hcuts : Cuts P P' links calls) {id : NodeId} {node : Node}
    (hnode : P.nodes[id]? = some node) : ∃ outputs, P'.nodes[id]? = some { node with outputs }
      ∧ (outputs = node.outputs ∨ node.isCall ∧ id ∈ calls) := by
  induction hcuts with
  | none => exact ⟨node.outputs, hnode, .inl rfl⟩
  | @cut P' links calls c hcuts hc ih =>
    obtain ⟨outputs, hbefore, hcases⟩ := ih
    by_cases hsame : id = c.call
    · subst hsame
      have hcalled := Option.some.inj (hc.node_eq.symm.trans hbefore)
      refine ⟨c.handover, ?_, .inr ⟨?_, by simp⟩⟩
      · rw [Cut.node_after_call hc, Cut.calling, hcalled]
      · have hcall := hc.isCall
        rwa [hcalled] at hcall
    · refine ⟨outputs, (Cut.node_after_old (node_lt hbefore) hsame).trans hbefore, ?_⟩
      exact hcases.imp_right (And.imp_right (List.mem_append_left _))

/-- In a subgraph that has been there before, no call stops being a tail call. -/
theorem nonTail_old (hP : P.WellFormed) (hcuts : Cuts P P' links calls) {owner : SubgraphId}
    (hlt : owner < P.subgraphs.size) {call : NodeId} (hnonTail : P'.NonTail owner call) :
    P.NonTail owner call := by
  induction hcuts with
  | none => exact hnonTail
  | @cut P' links calls c hcuts hc ih =>
    have hP' := hcuts.wellFormed hP
    by_cases hsame : owner = c.owner
    · exact absurd (hsame ▸ hnonTail) (Cut.allTail_head hP' hc call)
    · exact ih ((Cut.nonTail_other_iff hP' hc (Nat.lt_of_lt_of_le hlt hcuts.size_subgraphs_le)
        hsame).mp hnonTail)

/-- A subgraph whose outputs change has a call that is cut after and that was not a tail call. -/
theorem exists_subgraph (hP : P.WellFormed) (hcuts : Cuts P P' links calls) {id : SubgraphId}
    {subgraph : Subgraph} (hsubgraph : P.subgraphs[id]? = some subgraph) :
    ∃ after, P'.subgraphs[id]? = some after
      ∧ (after.outputs = subgraph.outputs ∨ ∃ call ∈ calls, P.NonTail id call) := by
  induction hcuts with
  | none => exact ⟨subgraph, hsubgraph, .inl rfl⟩
  | @cut P' links calls c hcuts hc ih =>
    have hP' := hcuts.wellFormed hP
    obtain ⟨before, hbefore, hcases⟩ := ih
    by_cases hsame : id = c.owner
    · subst hsame
      exact ⟨c.head, Cut.subgraph_after_owner hP' hc,
        .inr ⟨c.call, by simp, hcuts.nonTail_old hP (subgraph_lt hsubgraph) hc.nonTail⟩⟩
    · refine ⟨before, (Cut.subgraph_after_other (subgraph_lt hbefore) hsame).trans hbefore, ?_⟩
      exact hcases.imp_right fun ⟨call, hmem, hnonTail⟩ =>
        ⟨call, List.mem_append_left _ hmem, hnonTail⟩

end Cuts

/-! ### A run -/

namespace ScheduleReport

/-- How an old node may have changed, going by the report. -/
structure AllowsNode (report : ScheduleReport) (id : NodeId) (node after : Node) : Prop where
  name_eq : after.name = node.name
  outputs : after.outputs = node.outputs ∨ node.isCall ∧ id ∈ report.nonTailCalls
  kind : after.kind = node.kind ∨ ∃ b ∈ report.boundaries, ∃ w ∈ b.entrances, w.caller = id
    ∧ node.kind = .bind b.body ∧ after.kind = .bind w.entrance
  inputs : after.inputs = node.inputs ∨ node.isCall ∧ ∃ handle fresh others,
    node.inputs = handle :: others ∧ after.inputs = fresh :: others

/-- A program is what another one has become, and nothing has changed that is not reported. -/
structure Frames (report : ScheduleReport) (P Q : Program) : Prop where
  retains : P.Retains Q
  node : ∀ ⦃id : NodeId⦄ ⦃node : Node⦄, P.nodes[id]? = some node →
    ∃ after, Q.nodes[id]? = some after ∧ report.AllowsNode id node after
  reread_le : (P.reread Q).length ≤ report.rewiredCalls
  reread_ne_nil : report.rewiredCalls ≠ 0 → P.reread Q ≠ []
  /-- The outputs of a subgraph change only if one of its calls was split off. -/
  written : ∀ ⦃id : SubgraphId⦄ ⦃subgraph after : Subgraph⦄, P.subgraphs[id]? = some subgraph →
    Q.subgraphs[id]? = some after → after.outputs = subgraph.outputs
      ∨ ∃ call ∈ report.nonTailCalls, P.NonTail id call
  /-- A subgraph that has been added has one place in the order. -/
  placed : ∀ id ∈ Q.subgraphIds, P.subgraphs.size ≤ id → Q.order.count id = 1

end ScheduleReport

namespace Stages.Pass

variable {s : Stages} {P Q : Program} {report : ScheduleReport}

theorem separated_ok (hP : P.WellFormed) (h : s.Pass P report Q) : s.separated.WellFormed :=
  (separateHandles_separates hP h.separates).wellFormed hP

theorem cut_ok (hP : P.WellFormed) (h : s.Pass P report Q) : s.cut.WellFormed :=
  h.cuts.wellFormed (h.separated_ok hP)

theorem exists_node (h : s.Pass P report Q) {id : NodeId} {node : Node}
    (hnode : s.separated.nodes[id]? = some node) :
    ∃ kind outputs, s.wrapped.nodes[id]? = some { node with kind, outputs }
      ∧ (outputs = node.outputs ∨ node.isCall ∧ id ∈ report.nonTailCalls)
      ∧ (kind = node.kind ∨ ∃ b ∈ report.boundaries, ∃ w ∈ b.entrances, w.caller = id
        ∧ node.kind = .bind b.body ∧ kind = .bind w.entrance) := by
  obtain ⟨outputs, hcut, houtputs⟩ := h.cuts.exists_node hnode
  rcases h.told hcut with hsame | ⟨b, hb, w, hw, hcaller, hkind, hwrapped⟩
  · exact ⟨_, _, hsame, houtputs, .inl rfl⟩
  · exact ⟨_, _, hwrapped, houtputs, .inr ⟨b, hb, w, hw, hcaller, hkind, rfl⟩⟩

theorem frames (hP : P.WellFormed) (h : s.Pass P report Q) : report.Frames P Q := by
  obtain ⟨calls, hlength, hcalls⟩ := separateHandles_rehandled hP h.separates
  have hseparates := separateHandles_separates hP h.separates
  have hkept := hseparates.kept hP
  have hseparated := h.separated_ok hP
  have hextends := h.wraps.extends_program (h.cut_ok hP)
  have hretains : P.Retains s.wrapped :=
    ((hseparates.retains hP).trans (h.cuts.retains hseparated)).trans h.wraps.retains
  have hwrapped := h.wraps.wellFormed (h.cut_ok hP)
  have hinputs {id : NodeId} {node : Node} (hnode : s.separated.nodes[id]? = some node) :
      s.wrapped.nodes[id]?.map Node.inputs = some node.inputs := by
    obtain ⟨kind, outputs, hafter, -⟩ := h.exists_node hnode
    rw [hafter]
    rfl
  obtain rfl := h.result
  refine ⟨{ hretains with }, fun id node hnode => ?_, ?_, fun hsome => ?_,
    fun id subgraph after hsubgraph hafter => ?_, fun id hid _ => ?_⟩
  · rcases hcalls.node_cases hnode with ⟨-, hsame⟩ | ⟨handle, fresh, others, -, hat⟩
    · obtain ⟨kind, outputs, hafter, houtputs, hkind⟩ := h.exists_node hsame
      exact ⟨_, hafter, rfl, houtputs, hkind, .inl rfl⟩
    · obtain ⟨kind, outputs, hafter, houtputs, hkind⟩ := h.exists_node hat.after_eq
      exact ⟨_, hafter, rfl, houtputs, hkind,
        .inr ⟨hat.isCall, handle, fresh, others, hat.inputs_eq, rfl⟩⟩
  · exact hlength ▸ hcalls.length_reread_le fun _ _ => hinputs
  · refine hcalls.reread_ne_nil (fun _ _ => hinputs) fun hnil => hsome ?_
    rw [← hlength, hnil, List.length_nil]
  · obtain ⟨separated, hsame, houtputs, -⟩ := hkept.subgraph hsubgraph
    obtain ⟨cut, hcut, hcases⟩ := h.cuts.exists_subgraph hseparated hsame
    have hold := (hextends.subgraph_old id (subgraph_lt hcut)).trans hcut
    obtain rfl := Option.some.inj (hold.symm.trans hafter)
    rw [houtputs] at hcases
    exact hcases.imp_right fun ⟨call, hmem, hnonTail⟩ =>
      ⟨call, hmem, hkept.nonTail_iff.mp hnonTail⟩
  · exact List.count_eq_one_of_mem hwrapped.order_nodup
      (hwrapped.mem_order.mpr (mem_subgraphIds.mp hid))

end Stages.Pass

/-- Scheduling changes nothing about a checked program beyond what it reports. -/
theorem schedule_frames {P Q : Program} {options : SchedulerOptions} {report : ScheduleReport}
    (hvalid : P.validate = .ok ()) (hschedule : schedule options P = .ok (report, Q)) :
    report.Frames P Q := by
  have hP := wellFormed_of_validate hvalid
  obtain ⟨s, h⟩ : ∃ s : Stages, s.Pass P report Q := (schedule_passes hP options).of_eq_ok hschedule
  exact h.frames hP

/-- An entry that calls a body twice with one handle. -/
def sharedHandle : Program where
  tensors := #["x", "handle", "y", "z", "out", "given", "result"].map fun name =>
    ⟨name, [], .f32, none⟩
  nodes := #[⟨"bind", .bind 1, [0], [1]⟩, ⟨"first", .call, [1], [2]⟩, ⟨"second", .call, [1], [3]⟩,
    ⟨"end", .kernel .copy, [3], [4]⟩, ⟨"pass", .kernel .copy, [5], [6]⟩]
  subgraphs := #[⟨"main", .body, [0], [4], [0, 1, 2, 3]⟩, ⟨"body", .body, [5], [6], [4]⟩]
  order := [0, 1]
  entry := 0
  outputs := [4]
  links := .empty

/-- One call gets another handle, both are split off, and the binders name entrances. -/
theorem sharedHandle_framed : ∃ report Q, schedule {} sharedHandle = .ok (report, Q)
    ∧ report.rewiredCalls = 1 ∧ sharedHandle.reread Q = [2] ∧ report.nonTailCalls = [1, 2]
    ∧ report.boundaries.map (fun b => b.entrances.map EntranceWrapper.caller) = [[0, 5]]
    ∧ report.Frames sharedHandle Q := by
  obtain ⟨⟨report, Q⟩, hschedule, hcount, hreread, hcalls, hcallers⟩ := Outcome.exists_of_holds
    (fun answer : ScheduleReport × Program => answer.1.rewiredCalls = 1
      ∧ sharedHandle.reread answer.2 = [2] ∧ answer.1.nonTailCalls = [1, 2]
      ∧ answer.1.boundaries.map (fun b => b.entrances.map EntranceWrapper.caller) = [[0, 5]])
    (by decide +kernel : Outcome.holds ((schedule {} sharedHandle).map _) = true)
  exact ⟨report, Q, hschedule, hcount, hreread, hcalls, hcallers,
    schedule_frames (by decide +kernel) hschedule⟩

end TailFlow
