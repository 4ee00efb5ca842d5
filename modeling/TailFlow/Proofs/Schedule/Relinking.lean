import TailFlow.Eval.Machine
import TailFlow.Proofs.Handles.Keeping
import TailFlow.Proofs.Schedule.Passage

/-!
# Links that are there already

A program may come with links. Scheduling asks of a call only whether it is a tail call, and whether it
has a link plays no part in that. So a link stays as it is exactly when its call is a tail call wherever
it is listed. After any other call there is a cut, and the link of the cut takes the place of the one
that was there; what that one led to is not run any more.
-/

namespace TailFlow

open Program

/-- The calls that are not tail calls are those after a cut, and the one that it is made after. -/
theorem Cut.exists_nonTail_iff {c : Cut} {P : Program} (hP : P.WellFormed) (hc : c.Applies P)
    {call : NodeId} : (∃ owner, P.NonTail owner call)
      ↔ call = c.call ∨ ∃ owner, (c.after P).NonTail owner call := by
  constructor
  · rintro ⟨owner, hnonTail⟩
    by_cases howner : owner = c.owner
    swap
    · exact .inr ⟨owner, (nonTail_other_iff hP hc hnonTail.lt howner).mpr hnonTail⟩
    subst howner
    obtain ⟨subgraph, node, hsubgraph, hmem, hnode, hcall, hnot⟩ := hnonTail
    obtain rfl := Option.some.inj (hc.subgraph_eq.symm.trans hsubgraph)
    rcases hc.mem_nodes.mp hmem with hearlier | hsame | hlater
    · rw [hc.noneEarlier call hearlier node hnode] at hcall
      exact nomatch hcall
    · exact .inl hsame
    -- What is behind the call goes to the segment, which ends as the subgraph did.
    · have hne : call ≠ c.call := fun h => hc.call_notMem_later hP (h ▸ hlater)
      have hsome := List.ne_nil_of_mem hlater
      refine .inr ⟨P.subgraphs.size, c.segment P, node, subgraph_after_segment, .tail _ hlater,
        (node_after_old (node_lt hnode) hne).trans hnode, hcall, fun htail => hnot ⟨?_, htail.2⟩⟩
      have hlast := htail.1
      rw [Subgraph.lastNode?, segment, List.getLast?_cons_of_ne_nil hsome] at hlast
      rw [Subgraph.lastNode?, hc.nodes_eq, List.getLast?_append_of_ne_nil _ (List.cons_ne_nil _ _),
        List.getLast?_cons_of_ne_nil hsome, hlast]
  · rintro (rfl | ⟨owner, hnonTail⟩)
    · exact ⟨c.owner, hc.nonTail⟩
    · obtain ⟨subgraph, -, hsubgraph, -⟩ := id hnonTail
      rcases subgraph_after_cases hP hc hsubgraph with ⟨howner, hbefore⟩ | ⟨rfl, -⟩ | ⟨rfl, -⟩
      · exact ⟨owner, (nonTail_other_iff hP hc (subgraph_lt hbefore) howner).mp hnonTail⟩
      · exact absurd hnonTail (allTail_head hP hc call)
      · exact ⟨c.owner, nonTail_of_segment hP hc hnonTail⟩

namespace Cuts

variable {P P' : Program} {links : IdMap Link} {calls : List NodeId}

/-- A call is cut after if it is not a tail call, and otherwise it goes on being a tail call. -/
theorem exists_nonTail_iff (hP : P.WellFormed) (hcuts : Cuts P P' links calls) {call : NodeId} :
    (∃ owner, P.NonTail owner call) ↔ call ∈ calls ∨ ∃ owner, P'.NonTail owner call := by
  induction hcuts with
  | none => exact ⟨.inr, fun h => h.resolve_left List.not_mem_nil⟩
  | cut hcuts hc ih =>
    rw [ih, Cut.exists_nonTail_iff (hcuts.wellFormed hP) hc, List.mem_append, List.mem_singleton,
      or_assoc]

theorem continuation_ge (hcuts : Cuts P P' links calls) {call : NodeId} {link : Link}
    (hlink : links.get? call = some link) : P.subgraphs.size ≤ link.continuation := by
  induction hcuts with
  | none => exact nomatch hlink
  | cut hcuts _ ih =>
    rw [IdMap.get?_insert] at hlink
    split at hlink
    · obtain rfl := Option.some.inj hlink
      exact hcuts.size_subgraphs_le
    · exact ih hlink

end Cuts

/-- Whatever kinds of subgraphs there are, a run that is not refused has separated the handles, cut
until all calls were tail calls, and wrapped. -/
theorem exists_passage {P Q : Program} {options : SchedulerOptions} {report : ScheduleReport}
    (hP : P.WellFormed) (hschedule : schedule options P = .ok (report, Q)) :
    ∃ separated cut wrapped links calls bodies, P.Separates separated
      ∧ Cuts separated cut links calls ∧ (∀ id < cut.subgraphs.size, cut.AllTail id)
      ∧ Wraps cut links bodies wrapped report.links
      ∧ Q = { wrapped with links := wrapped.links.union report.links } := by
  obtain ⟨s, h⟩ : ∃ s : Stages, s.Pass P report Q := (schedule_passes hP options).of_eq_ok hschedule
  exact ⟨s.separated, s.cut, s.wrapped, s.links, report.nonTailCalls, s.bodies,
    separateHandles_separates hP h.separates, h.cuts, h.allTail, h.wraps, h.result⟩

/-- A link that a checked program comes with stays as it is if its call is a tail call wherever it is
listed, and in no other case. -/
theorem schedule_keeps_link {P Q : Program} {options : SchedulerOptions} {report : ScheduleReport}
    (hvalid : P.validate = .ok ()) (hschedule : schedule options P = .ok (report, Q))
    {call : NodeId} {link : Link} (hlink : P.links.get? call = some link) :
    Q.links.get? call = some link ↔ ∀ owner, ¬ P.NonTail owner call := by
  obtain ⟨hP, -, -, hfits⟩ := validate_eq_ok.mp hvalid
  obtain ⟨-, ⟨node, hnode, -⟩, ⟨continuation, hcontinuation, -⟩, -⟩ := hfits call link hlink
  obtain ⟨separated, cut, wrapped, links, calls, bodies, hseparates, hcuts, hall, hwraps, rfl⟩ :=
    exists_passage hP hschedule
  have hkept := hseparates.kept hP
  have hseparated := hseparates.wellFormed hP
  have hcut := hcuts.wellFormed hseparated
  have hlt : call < cut.nodes.size :=
    Nat.lt_of_lt_of_le (node_lt hnode) (Nat.le_trans hkept.nodes_le hcuts.size_nodes_le)
  have hown : wrapped.links = P.links := by
    rw [(hwraps.keeps_base hcut).1, hcuts.links_eq, (hseparates.keeps hP).1]
  -- The run records a link for the call if it makes a cut after it.
  have hcalls : call ∈ calls ↔ ∃ owner, P.NonTail owner call := by
    simp only [← hkept.nonTail_iff]
    rw [hcuts.exists_nonTail_iff hseparated]
    exact (or_iff_left fun ⟨owner, hnonTail⟩ => hall owner hnonTail.lt call hnonTail).symm
  show (wrapped.links.union report.links).get? call = some link ↔ _
  rw [IdMap.get?_union, (hwraps.shape hcut).link_old hlt, hown, hlink, ← not_exists, ← hcalls,
    ← hcuts.exists_link_iff]
  cases hrecorded : links.get? call with
  | none => simp
  | some made =>
    refine iff_of_false (fun hsame => ?_) fun hnone => hnone ⟨made, rfl⟩
    obtain rfl := Option.some.inj hsame
    obtain ⟨kept, hfound, -⟩ := hkept.subgraph hcontinuation
    exact Nat.not_lt.mpr (hcuts.continuation_ge hrecorded) (subgraph_lt hfound)

/-- A call whose results go on to a subgraph of their own by a link. -/
def handLinked : Program where
  tensors := #["x", "handle", "y", "z", "given", "result"].map fun name => ⟨name, [], .f32, none⟩
  nodes := #[⟨"bind", .bind 1, [0], [1]⟩, ⟨"call", .call, [1], [2]⟩, ⟨"end", .kernel .copy, [2], [3]⟩,
    ⟨"pass", .kernel .copy, [4], [5]⟩]
  subgraphs := #[⟨"main", .body, [0], [3], [0, 1]⟩, ⟨"body", .body, [4], [5], [3]⟩,
    ⟨"rest", .body, [2], [3], [2]⟩]
  order := [0, 1, 2]
  entry := 0
  outputs := [3]
  links := IdMap.empty.insert 1 ⟨1, 2, 2, [2]⟩

/-- The call is not a tail call, so its link is not kept. -/
theorem handLinked_relinked : handLinked.NonTail 0 1 ∧ ∃ report Q,
    schedule {} handLinked = .ok (report, Q) ∧ Q.links.get? 1 ≠ some ⟨1, 2, 2, [2]⟩ := by
  have hnonTail : handLinked.NonTail 0 1 :=
    ⟨_, _, rfl, by decide, rfl, rfl, by decide⟩
  obtain ⟨⟨report, Q⟩, hschedule, -⟩ := Outcome.exists_of_holds (fun _ => True)
    (by decide +kernel : Outcome.holds ((schedule {} handLinked).map _) = true)
  refine ⟨hnonTail, report, Q, hschedule, fun hlink => ?_⟩
  exact (schedule_keeps_link (by decide +kernel) hschedule rfl).mp hlink 0 hnonTail

/-- The program is checked and its plan runs to the result. Scheduling makes another link for the call,
and the plan of the scheduled program does not get to the result. -/
theorem handLinked_lost : handLinked.validate = .ok ()
    ∧ handLinked.links.get? 1 = some ⟨1, 2, 2, [2]⟩
    ∧ (∃ plan, ExecutionPlan.lower handLinked = .ok plan
      ∧ Machine.run plan ⟨8, 8⟩ [⟨[], [0], rfl⟩]
        = .ok ⟨[⟨[], [0], rfl⟩], (IdMap.empty.insert 0 1).insert 1 1, 3⟩)
    ∧ ∃ report Q plan, schedule {} handLinked = .ok (report, Q)
      ∧ Q.links.get? 1 = some ⟨1, 3, 4, [6]⟩ ∧ ExecutionPlan.lower Q = .ok plan
      ∧ Machine.run plan ⟨8, 8⟩ [⟨[], [0], rfl⟩] = .error (.refused (.unwritten 3 "z")) := by
  refine ⟨by decide +kernel, rfl, ?_, ?_⟩
  · exact Outcome.exists_of_holds (fun plan => Machine.run plan ⟨8, 8⟩ [⟨[], [0], rfl⟩]
        = .ok ⟨[⟨[], [0], rfl⟩], (IdMap.empty.insert 0 1).insert 1 1, 3⟩)
      (by decide +kernel : Outcome.holds ((ExecutionPlan.lower handLinked).map _) = true)
  · obtain ⟨⟨report, Q⟩, hschedule, hlink, hplan⟩ := Outcome.exists_of_holds
      (fun answer : ScheduleReport × Program => answer.2.links.get? 1 = some ⟨1, 3, 4, [6]⟩
        ∧ Outcome.holds ((ExecutionPlan.lower answer.2).map fun plan => decide
          (Machine.run plan ⟨8, 8⟩ [⟨[], [0], rfl⟩] = .error (.refused (.unwritten 3 "z")))) = true)
      (by decide +kernel : Outcome.holds ((schedule {} handLinked).map _) = true)
    obtain ⟨plan, hlower, hrun⟩ := Outcome.exists_of_holds _ hplan
    exact ⟨report, Q, plan, hschedule, hlink, hlower, hrun⟩

end TailFlow
