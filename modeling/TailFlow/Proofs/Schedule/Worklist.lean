import TailFlow.Proofs.Schedule.Cutting
import TailFlow.Schedule.Run

/-!
# Splitting until nothing waits

Whatever is not in the queue has tail calls only: this holds when the subgraphs have been settled as
they were detected, and every split keeps it, because it settles the two subgraphs that it makes and
leaves the others as they are. When the queue is empty, all calls are tail calls. `Cuts` tells what
has been cut on the way, and which links and calls have been noted.
-/

namespace TailFlow

open Program

/-- The program after some cuts, the links that they take, and the calls that they cut after. -/
inductive Cuts (P : Program) : Program → IdMap Link → List NodeId → Prop where
  | none : Cuts P P .empty []
  | cut {P' : Program} {links : IdMap Link} {calls : List NodeId} {c : Cut}
      (hcuts : Cuts P P' links calls) (hc : c.Applies P') :
      Cuts P (c.after P') (links.insert c.call (c.link P')) (calls ++ [c.call])

namespace Cuts

variable {P P' : Program} {links : IdMap Link} {calls : List NodeId}

theorem wellFormed (hP : P.WellFormed) (hcuts : Cuts P P' links calls) : P'.WellFormed := by
  induction hcuts with
  | none => exact hP
  | cut _ hc ih => exact Cut.wellFormed_after ih hc

theorem links_eq (hcuts : Cuts P P' links calls) : P'.links = P.links := by
  induction hcuts with
  | none => rfl
  | cut _ _ ih => exact ih

theorem entry_eq (hcuts : Cuts P P' links calls) : P'.entry = P.entry := by
  induction hcuts with
  | none => rfl
  | cut _ _ ih => exact ih

theorem size_subgraphs_le (hcuts : Cuts P P' links calls) :
    P.subgraphs.size ≤ P'.subgraphs.size := by
  induction hcuts with
  | none => exact Nat.le_refl _
  | cut _ _ ih =>
    rw [Cut.size_subgraphs_after]
    exact Nat.le_succ_of_le ih

theorem exists_link_iff (hcuts : Cuts P P' links calls) {call : NodeId} :
    (∃ link, links.get? call = some link) ↔ call ∈ calls := by
  induction hcuts with
  | none => simp
  | @cut _ links calls c _ _ ih =>
    rw [List.mem_append, List.mem_singleton, ← ih, IdMap.get?_insert]
    by_cases hsame : c.call = call
    · simp [hsame]
    · simp [hsame, Ne.symm hsame]

/-- A call that has been cut after stands last and hands its results over to where its link says. -/
theorem isTail_of_link (hP : P.WellFormed) (hcuts : Cuts P P' links calls) {call : NodeId}
    {link : Link} (hlink : links.get? call = some link) :
    link.call = call ∧ link.continuation < P'.subgraphs.size
      ∧ ∃ (owner : SubgraphId) (subgraph : Subgraph) (node : Node),
        P'.subgraphs[owner]? = some subgraph ∧ P'.nodes[call]? = some node ∧ node.isCall
          ∧ IsTail subgraph call node ∧ node.outputs = link.tensors := by
  induction hcuts with
  | none => simp at hlink
  | @cut P' links calls c hcuts hc ih =>
    have hP' := hcuts.wellFormed hP
    rw [IdMap.get?_insert] at hlink
    by_cases hsame : c.call = call
    · rw [if_pos hsame, Option.some.injEq] at hlink
      subst hsame hlink
      refine ⟨rfl, ?_, c.owner, c.head, c.calling, Cut.subgraph_after_owner hP' hc,
        Cut.node_after_call hc, hc.isCall, ⟨?_, rfl⟩, rfl⟩
      · rw [Cut.size_subgraphs_after]
        exact Nat.lt_succ_self _
      · simp [Subgraph.lastNode?, Cut.head]
    · rw [if_neg hsame] at hlink
      obtain ⟨hcall, hlt, owner, subgraph, node, hsubgraph, hnode, hisCall, htail, hout⟩ := ih hlink
      have hnode' := (Cut.node_after_old (c := c) (node_lt hnode) (Ne.symm hsame)).trans hnode
      refine ⟨hcall, ?_, ?_⟩
      · rw [Cut.size_subgraphs_after]
        exact Nat.lt_succ_of_lt hlt
      by_cases howner : owner = c.owner
      · -- The call is the last of the subgraph that is cut, so it goes to the segment.
        subst howner
        obtain rfl := Option.some.inj (hc.subgraph_eq.symm.trans hsubgraph)
        refine ⟨P'.subgraphs.size, c.segment P', node, Cut.subgraph_after_segment, hnode', hisCall,
          ⟨?_, htail.2⟩, hout⟩
        have hlast := htail.1
        rw [Subgraph.lastNode?, hc.nodes_eq,
          List.getLast?_append_of_ne_nil _ (List.cons_ne_nil _ _)] at hlast
        have hsome : c.later ≠ [] := by
          intro hnil
          rw [hnil, List.getLast?_singleton, Option.some.injEq] at hlast
          exact hsame hlast
        rw [List.getLast?_cons_of_ne_nil hsome] at hlast
        rw [Subgraph.lastNode?, Cut.segment, List.getLast?_cons_of_ne_nil hsome, hlast]
      · exact ⟨owner, subgraph, node,
          (Cut.subgraph_after_other (subgraph_lt hsubgraph) howner).trans hsubgraph, hnode',
          hisCall, htail, hout⟩

theorem not_nonTail_of_link (hP : P.WellFormed) (hcuts : Cuts P P' links calls) {call : NodeId}
    {link : Link} (hlink : links.get? call = some link) {owner : SubgraphId} :
    ¬ P'.NonTail owner call := by
  intro ⟨subgraph', node', hsubgraph', hmem, hnode', _, hnot⟩
  obtain ⟨-, -, owner', subgraph, node, hsubgraph, hnode, -, htail, -⟩ :=
    hcuts.isTail_of_link hP hlink
  have hlast := List.mem_of_getLast? htail.1
  obtain rfl := (hcuts.wellFormed hP).apart hsubgraph hsubgraph' call hlast hmem
  obtain rfl := Option.some.inj (hsubgraph.symm.trans hsubgraph')
  obtain rfl := Option.some.inj (hnode.symm.trans hnode')
  exact hnot htail

theorem get?_eq_none (hP : P.WellFormed) (hcuts : Cuts P P' links calls) {c : Cut}
    (hc : c.Applies P') : links.get? c.call = Option.none := by
  cases hlink : links.get? c.call with
  | none => rfl
  | some link => exact absurd hc.nonTail (hcuts.not_nonTail_of_link hP hlink)

theorem key_lt (hP : P.WellFormed) (hcuts : Cuts P P' links calls) (call : NodeId) (link : Link)
    (hlink : links.get? call = some link) : call < P'.nodes.size := by
  obtain ⟨-, -, -, -, node, -, hnode, -⟩ := hcuts.isTail_of_link hP hlink
  exact node_lt hnode

theorem size_nodes_le (hcuts : Cuts P P' links calls) : P.nodes.size ≤ P'.nodes.size := by
  induction hcuts with
  | none => exact Nat.le_refl _
  | cut _ _ ih =>
    rw [Cut.size_nodes_after]
    exact Nat.le_succ_of_le ih

theorem resumed_of_segment (hP : P.WellFormed) (hbody : P.AllBodies)
    (hcuts : Cuts P P' links calls) {id : SubgraphId} {subgraph : Subgraph}
    (hsubgraph : P'.subgraphs[id]? = some subgraph) : subgraph.kind = .body
      ∨ (∃ origin, subgraph.kind = .segment origin)
        ∧ ∃ call link, links.get? call = some link ∧ link.continuation = id := by
  induction hcuts generalizing id subgraph with
  | none => exact .inl (hbody hsubgraph)
  | @cut P' links calls c hcuts hc ih =>
    have hP' := hcuts.wellFormed hP
    have hkept {id : SubgraphId}
        (h : ∃ call link, links.get? call = some link ∧ link.continuation = id) :
        ∃ call link, (links.insert c.call (c.link P')).get? call = some link
          ∧ link.continuation = id := by
      obtain ⟨call, link, hlink, hid⟩ := h
      refine ⟨call, link, ?_, hid⟩
      have hne : c.call ≠ call := by
        rintro rfl
        exact hcuts.not_nonTail_of_link hP hlink hc.nonTail
      rw [IdMap.get?_insert, if_neg hne, hlink]
    rcases Cut.subgraph_after_cases hP' hc hsubgraph with ⟨-, hbefore⟩ | ⟨rfl, rfl⟩ | ⟨rfl, rfl⟩
    · exact (ih hbefore).imp_right fun h => ⟨h.1, hkept h.2⟩
    · exact (ih hc.subgraph_eq).imp_right fun h => ⟨h.1, hkept h.2⟩
    · exact .inr ⟨⟨_, rfl⟩, c.call, c.link P', IdMap.get?_insert_self _ _ _, rfl⟩

/-- Handles keep one writer each, calls stay resolved, and binders reach what they reached. -/
theorem keeps_handles (hP : P.WellFormed) (hunique : P.HandlesUnique) (hresolve : P.AllResolve)
    (hcuts : Cuts P P' links calls) : P'.HandlesUnique ∧ P'.AllResolve
      ∧ ∀ binder call, P'.Reaches binder call ↔ P.Reaches binder call := by
  induction hcuts with
  | none => exact ⟨hunique, hresolve, fun _ _ => Iff.rfl⟩
  | cut hcuts hc ih =>
    have hP' := hcuts.wellFormed hP
    obtain ⟨hunique', hresolve', hreaches⟩ := ih
    exact ⟨Cut.handlesUnique_after hP' hc hunique', Cut.allResolve_after hP' hc hresolve',
      fun binder call => (Cut.reaches_after_iff hP' hc).trans (hreaches binder call)⟩

end Cuts

/-! ### The loop -/

theorem LinkRecorder.warnings_record {recorder : LinkRecorder} {link : Link}
    (hnone : recorder.links.get? link.call = none) :
    (recorder.record link).warnings = recorder.warnings := by
  simp [record, IdMap.contains, hnone]

namespace ScheduleRun

theorem settle_eq_ok {run run' : ScheduleRun} {id : SubgraphId} {pending : Nat}
    (hsettle : run.settle id pending = .ok run') : ∃ states, run' =
      { run with states, queue := if 0 < pending then run.queue ++ [id] else run.queue } := by
  obtain ⟨states, -, hbody⟩ := Outcome.bind_eq_ok.mp hsettle
  split at hbody
  · rename_i hpending
    obtain ⟨states', -, hpure⟩ := Outcome.bind_eq_ok.mp hbody
    obtain rfl := Outcome.pure_eq_ok.mp hpure
    exact ⟨states', by rw [if_pos hpending]⟩
  · rename_i hpending
    obtain ⟨states', -, hpure⟩ := Outcome.bind_eq_ok.mp hbody
    obtain rfl := Outcome.pure_eq_ok.mp hpure
    exact ⟨states', by rw [if_neg hpending]⟩

/-- What waits to be split, and what has been done about the rest. -/
structure Splitting (P : Program) (run : ScheduleRun) (P' : Program) : Prop where
  cuts : Cuts P P' run.recorder.links run.nonTailCalls
  waits : ∀ id < P'.subgraphs.size, id ∉ run.queue → P'.AllTail id
  recorded : run.recorder.warnings = []
  silent : run.warnings = []
  unwrapped : run.boundaries = []

theorem splitNext_splitting {P P' P'' : Program} (hP : P.WellFormed) {run run' : ScheduleRun}
    {id : SubgraphId} (hsplitting : Splitting P { run with queue := id :: run.queue } P')
    (hnext : run.splitNext P' id = .ok (run', P'')) : Splitting P run' P'' := by
  obtain ⟨hcuts, hwaits, hrecorded, hsilent, hunwrapped⟩ := hsplitting
  have hP' := hcuts.wellFormed hP
  obtain ⟨states, -, hbody⟩ := Outcome.bind_eq_ok.mp hnext
  obtain ⟨answer, hsplit, hbody⟩ := Outcome.bind_eq_ok.mp hbody
  rcases Cut.splitFirst_eq_ok hP' hsplit with ⟨rfl, hall⟩ | ⟨c, hc, rfl, calls, hcalls, rfl⟩
  · obtain ⟨settled, hsettle, hpure⟩ := Outcome.bind_eq_ok.mp hbody
    obtain ⟨rfl, rfl⟩ := Prod.mk.inj (Outcome.pure_eq_ok.mp hpure)
    obtain ⟨states', rfl⟩ := settle_eq_ok hsettle
    refine ⟨hcuts, fun other hlt hother => ?_, hrecorded, hsilent, hunwrapped⟩
    by_cases hsame : other = id
    · exact hsame ▸ hall
    · refine hwaits other hlt fun hmem => ?_
      rcases List.mem_cons.mp hmem with h | h
      · exact hsame h
      · exact hother (by simpa using h)
  · obtain ⟨pending, hpending, hbody⟩ := Outcome.bind_eq_ok.mp hbody
    obtain ⟨settled, hsettle, hbody⟩ := Outcome.bind_eq_ok.mp hbody
    obtain ⟨resettled, hresettle, hpure⟩ := Outcome.bind_eq_ok.mp hbody
    obtain ⟨rfl, rfl⟩ := Prod.mk.inj (Outcome.pure_eq_ok.mp hpure)
    obtain ⟨states', rfl⟩ := settle_eq_ok hsettle
    obtain ⟨states'', rfl⟩ := settle_eq_ok hresettle
    refine ⟨.cut hcuts hc, fun other hlt hother => ?_,
      (LinkRecorder.warnings_record (hcuts.get?_eq_none hP hc)).trans hrecorded, hsilent,
      hunwrapped⟩
    rw [Cut.size_subgraphs_after] at hlt
    have hafter := Cut.wellFormed_after hP' hc
    by_cases howner : other = c.owner
    · exact howner ▸ Cut.allTail_head hP' hc
    rcases Nat.lt_succ_iff_lt_or_eq.mp hlt with hold | rfl
    · refine Cut.allTail_other hP' hc hold howner (hwaits other hold fun hmem => ?_)
      rcases List.mem_cons.mp hmem with h | h
      · exact howner h
      · refine hother ?_
        simp only [track]
        split <;> split <;> simp [h]
    · -- The segment is put into the queue unless all of its calls are tail calls.
      obtain ⟨calls', hcalls', hmem⟩ :=
        exists_nonTailCalls (ε := ScheduleError) hafter Cut.subgraph_after_segment
      obtain rfl := Except.ok.inj (hcalls.symm.trans hcalls')
      intro call hnonTail
      have hsome : 0 < calls.length := List.length_pos_of_mem ((hmem call).mpr hnonTail)
      refine hother ?_
      simp only [hsome, if_pos]
      simp

/-- Splitting ends in the way of its splits, or because there are too many. If it has an answer, the
queue is empty and what one split keeps still holds. -/
theorem splitAll_ends (kept : ScheduleRun → Program → Prop) {allowed : Stop ScheduleError → Prop}
    {limit left : Nat} (hlimit : ∀ id, allowed (.refused (.splitLimitExceeded id limit)))
    (hstep : ∀ (run : ScheduleRun) (P : Program) (id : SubgraphId),
      kept { run with queue := id :: run.queue } P →
      Outcome.Ends (fun next => kept next.1 next.2) allowed (run.splitNext P id))
    {run : ScheduleRun} {P : Program} (hstart : kept run P) :
    Outcome.Ends (fun next => kept next.1 next.2 ∧ next.1.queue = []) allowed
      (splitAll limit left run P) := by
  induction left generalizing run P with
  | zero =>
    unfold splitAll
    split
    · rename_i hempty
      exact ⟨hstart, hempty⟩
    · exact hlimit _
  | succ left ih =>
    unfold splitAll
    split
    · rename_i hempty
      exact ⟨hstart, hempty⟩
    · rename_i id waiting hqueue
      refine (hstep _ _ _ ?_).bind fun (next, program) _ hnext => ih hnext
      dsimp only
      rw [← hqueue]
      exact hstart

theorem splitAll_keeps (kept : ScheduleRun → Program → Prop)
    (hstep : ∀ (run run' : ScheduleRun) (P P' : Program) (id : SubgraphId),
      kept { run with queue := id :: run.queue } P → run.splitNext P id = .ok (run', P') →
      kept run' P') {limit left : Nat} {run run' : ScheduleRun} {P P' : Program}
    (hstart : kept run P) (hsplit : splitAll limit left run P = .ok (run', P')) :
    kept run' P' ∧ run'.queue = [] := by
  have hends : Outcome.Ends (fun next => kept next.1 next.2 ∧ next.1.queue = []) (fun _ => True)
      (splitAll limit left run P) := by
    refine splitAll_ends kept (fun _ => trivial) (fun run P id hkept => ?_) hstart
    cases hnext : run.splitNext P id with
    | ok next => exact hstep run next.1 P next.2 id hkept hnext
    | error stop => trivial
  exact hends.of_eq_ok hsplit

theorem splitAll_splitting {P P' P'' : Program} (hP : P.WellFormed) {run run' : ScheduleRun}
    {limit left : Nat} (hsplitting : Splitting P run P')
    (hsplit : splitAll limit left run P' = .ok (run', P'')) :
    Splitting P run' P'' ∧ ∀ id < P''.subgraphs.size, P''.AllTail id := by
  obtain ⟨hsplitting', hempty⟩ := splitAll_keeps (Splitting P)
    (fun _ _ _ _ _ h hnext => splitNext_splitting hP h hnext) hsplitting hsplit
  refine ⟨hsplitting', fun id hlt => hsplitting'.waits id hlt ?_⟩
  rw [hempty]
  exact List.not_mem_nil

end ScheduleRun

end TailFlow
