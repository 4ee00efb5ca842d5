import TailFlow.Proofs.Handles.Keeping
import TailFlow.Proofs.Schedule.Origin
import TailFlow.Proofs.Schedule.Resuming
import TailFlow.Proofs.Schedule.TailForm

/-!
# The links of a scheduled program

A link says where the results of a call go. The calls that have been split off go on in segments of
their own, and the calls that entrances make go on in exits of the same body. Each call hands its
results over in tensors that nothing else uses, and the copy that reads them takes them to where they
were wanted.
-/

namespace TailFlow

open Program

/-- The link leads from the call that its subgraph ends with to the copy that its continuation starts
with, which reads what the call hands over. -/
structure Link.Leads (link : Link) (Q : Program) : Prop where
  call : ∃ owner subgraph node, Q.owner? link.call = some owner
    ∧ Q.subgraphs[owner]? = some subgraph ∧ subgraph.lastNode? = some link.call
    ∧ Q.nodes[link.call]? = some node ∧ node.isCall ∧ node.outputs = link.tensors
  consumer : ∃ continuation node, Q.subgraphs[link.continuation]? = some continuation
    ∧ continuation.nodes.head? = some link.consumer ∧ Q.nodes[link.consumer]? = some node
    ∧ node.kind = .kernel .copy ∧ node.inputs = link.tensors

/-- An entrance that the report tells of makes the call of the body. -/
def ScheduleReport.EntranceCall (report : ScheduleReport) (Q : Program) (body : SubgraphId)
    (call : NodeId) : Prop :=
  ∃ b ∈ report.boundaries, b.body = body ∧ ∃ w ∈ b.entrances, ∃ entrance node,
    Q.subgraphs[w.entrance]? = some entrance ∧ call ∈ entrance.nodes ∧ Q.nodes[call]? = some node
      ∧ node.isCall

/-- The links of the program are those of the report, and they lead where they are to. -/
structure ScheduleReport.Linked (report : ScheduleReport) (P Q : Program) : Prop where
  links_eq : Q.links = report.links
  nodup : report.nonTailCalls.Nodup
  /-- The links are those of the calls that were split off and of the calls of entrances. -/
  key_iff : ∀ call, call ∈ Q.links.keys
    ↔ call ∈ report.nonTailCalls ∨ ∃ body, report.EntranceCall Q body call
  apart : ∀ call ∈ report.nonTailCalls, ∀ body, ¬ report.EntranceCall Q body call
  silent : ∀ call, .duplicateLink call ∉ report.warnings
  leads : ∀ call link, Q.linkFor? call = some link → link.call = call ∧ link.Leads Q
  /-- The copy writes to where the call wrote before it was split off. -/
  copies : ∀ call ∈ report.nonTailCalls, ∀ link, Q.linkFor? call = some link →
    ∃ before copy, P.nodes[call]? = some before ∧ Q.nodes[link.consumer]? = some copy
      ∧ copy.outputs = before.outputs
  segment : ∀ call ∈ report.nonTailCalls, ∀ link, Q.linkFor? call = some link →
    (∃ segment origin, Q.subgraphs[link.continuation]? = some segment
      ∧ segment.kind = .segment origin)
      ∧ ∀ other link', Q.linkFor? other = some link' → link'.continuation = link.continuation →
        other = call
  exit : ∀ body call, report.EntranceCall Q body call → ∀ link, Q.linkFor? call = some link →
    ∃ exit, Q.subgraphs[link.continuation]? = some exit ∧ exit.kind = .exit body
  resumed : ∀ (id : SubgraphId) (subgraph : Subgraph), Q.subgraphs[id]? = some subgraph →
    ExecutionPlan.needsLink subgraph.kind →
      ∃ call link, Q.linkFor? call = some link ∧ link.continuation = id
  fresh : ∀ call link, Q.linkFor? call = some link →
    ∀ tensor ∈ link.tensors, P.tensors.size ≤ tensor
  shared : ∀ first second a b, Q.linkFor? first = some a → Q.linkFor? second = some b →
    (∃ tensor ∈ a.tensors, tensor ∈ b.tensors) → a.consumer = b.consumer
  planned : ∃ plan, ExecutionPlan.lower Q = .ok plan
    ∧ ∀ call, call ∈ plan.nonTailCalls ↔ call ∈ report.nonTailCalls

namespace Stages.Lead

variable {s : Stages} {P Q : Program} {report : ScheduleReport} {sharing : ExitSharing}

/-! ### Two kinds of links -/

theorem link_cases (hP : P.WellFormed) (h : s.Lead P report Q) {call : NodeId} {link : Link}
    (hlink : report.links.get? call = some link) :
    (call ∈ report.nonTailCalls ∧ s.links.get? call = some link)
      ∨ ∃ e : Entrance, e.Stands s.cut s.wrapped report.links ∧ e.call = call ∧ e.link = link := by
  rcases (h.wraps.shape (h.cut_ok hP)).link_new hlink with hold | ⟨e, he, hcall, rfl⟩
  · exact .inl ⟨h.cuts.exists_link_iff.mp ⟨link, hold⟩, hold⟩
  · exact .inr ⟨e, he, hcall, rfl⟩

theorem nonTailCall_lt (hP : P.WellFormed) (h : s.Lead P report Q) {call : NodeId}
    (hmem : call ∈ report.nonTailCalls) : call < s.cut.nodes.size := by
  obtain ⟨link, hlink⟩ := h.cuts.exists_link_iff.mpr hmem
  exact h.cuts.key_lt (h.separated_ok hP) call link hlink

/-- The calls of the entrances that the report tells of are those of the entrances that stand. -/
theorem entranceCall_iff (hP : P.WellFormed) (h : s.Lead P report Q) (htell : s.Tell sharing report)
    {body : SubgraphId} {call : NodeId} : report.EntranceCall s.wrapped body call
      ↔ ∃ e : Entrance, e.Stands s.cut s.wrapped report.links ∧ e.body = body ∧ e.call = call := by
  constructor
  · rintro ⟨b, hb, rfl, w, hw, entrance, node, hentrance, hmem, hnode, hcall⟩
    obtain ⟨e, he, hbody, rfl⟩ := (htell.bounded.stands b hb).wrapper w hw
    obtain rfl := Option.some.inj (hentrance.symm.trans he.subgraph_eq)
    refine ⟨e, he, hbody, ?_⟩
    rcases List.mem_pair.mp hmem with rfl | rfl
    · obtain rfl := Option.some.inj (hnode.symm.trans he.binder_eq)
      exact nomatch hcall
    · rfl
  · rintro ⟨e, he, rfl, rfl⟩
    obtain ⟨b, hb, hbody, w, hw, -, hentrance⟩ :=
      htell.bounded.exists_wrapper (h.cut_ok hP) h.wraps he
    exact ⟨b, hb, hbody, w, hw, _, _, hentrance ▸ he.subgraph_eq, .tail _ List.mem_cons_self,
      he.call_eq, rfl⟩

/-! ### Where links lead -/

theorem leads (hP : P.WellFormed) (h : s.Lead P report Q) {call : NodeId} {link : Link}
    (hlink : report.links.get? call = some link) :
    link.call = call ∧ link.Leads { s.wrapped with links := report.links } := by
  have hW := (h.wrapped_ok hP).withLinks report.links
  have hextends := h.wraps.extends_program (h.cut_ok hP)
  have howner {owner : SubgraphId} {subgraph : Subgraph} {node : Node}
      (hsubgraph : s.wrapped.subgraphs[owner]? = some subgraph)
      (hlast : subgraph.lastNode? = some call) (hnode : s.wrapped.nodes[call]? = some node) :
      ({ s.wrapped with links := report.links } : Program).owner? call = some owner := by
    have hlists : s.wrapped.Lists ⟨owner, call, node⟩ :=
      ⟨subgraph, hsubgraph, List.mem_of_getLast? hlast, hnode⟩
    exact hW.owner?_eq hlists
  rcases h.link_cases hP hlink with ⟨-, hold⟩ | ⟨e, he, rfl, rfl⟩
  · obtain ⟨rfl, -, owner, subgraph, node, hsubgraph, hnode, hcall, htail, hout⟩ :=
      h.cuts.isTail_of_link (h.separated_ok hP) hold
    obtain ⟨⟨segment, origin, hsegment, -, hhead⟩, ⟨name, before, -, hcopy⟩, -⟩ :=
      h.cuts.resumes (h.separated_ok hP) hold
    have hsubgraph' := (hextends.subgraph_old owner (subgraph_lt hsubgraph)).trans hsubgraph
    have hsegment' := (hextends.subgraph_old _ (subgraph_lt hsegment)).trans hsegment
    have hnode' := h.wrapped_call hP hnode hcall
    exact ⟨rfl, ⟨owner, subgraph, node, howner hsubgraph' htail.1 hnode', hsubgraph', htail.1, hnode',
      hcall, hout⟩, segment, _, hsegment', hhead, h.node_old hP hcopy rfl, rfl, rfl⟩
  · exact ⟨rfl, ⟨e.id, _, _, howner he.subgraph_eq rfl he.call_eq, he.subgraph_eq, rfl, he.call_eq,
      rfl, rfl⟩, _, _, he.exit_stands.subgraph_eq, rfl, he.exit_stands.node_eq, rfl, rfl⟩

/-- What a call that has been split off wrote to is what it wrote to in the program that was
scheduled. -/
theorem copies (hP : P.WellFormed) (hbody : P.AllBodies) (h : s.Lead P report Q) {call : NodeId}
    {link : Link} (hlink : s.links.get? call = some link) :
    ∃ before copy, P.nodes[call]? = some before ∧ s.wrapped.nodes[link.consumer]? = some copy
      ∧ copy.outputs = before.outputs := by
  obtain ⟨count, hseparate⟩ := h.separates
  have hseparates := separateHandles_separates hP hseparate
  have hkept := hseparates.kept hP
  have hseparated := h.separated_ok hP
  obtain ⟨hcall, -, owner, subgraph, node, hsubgraph, -, -, htail, -⟩ :=
    h.cuts.isTail_of_link hseparated hlink
  obtain ⟨-, ⟨name, middle, hmiddle, hcopy⟩, -⟩ := h.cuts.resumes hseparated hlink
  obtain ⟨hnonTail, -⟩ := h.cuts.link_body hseparated (hseparates.allBodies hP hbody) hlink hsubgraph
    (List.mem_of_getLast? htail.1)
  obtain ⟨-, before, -, -, hbefore, -⟩ := hkept.nonTail_iff.mp hnonTail
  obtain ⟨after, hafter, -, hout⟩ := hkept.node hbefore
  rw [hcall, hafter, Option.some.injEq] at hmiddle
  exact ⟨before, _, hbefore, h.node_old hP hcopy rfl, by rw [← hmiddle, hout]⟩

theorem segment (hP : P.WellFormed) (h : s.Lead P report Q) {call : NodeId} {link : Link}
    (hlink : s.links.get? call = some link) :
    (∃ segment origin, s.wrapped.subgraphs[link.continuation]? = some segment
      ∧ segment.kind = .segment origin)
      ∧ ∀ other link', report.links.get? other = some link' →
        link'.continuation = link.continuation → other = call := by
  have hextends := h.wraps.extends_program (h.cut_ok hP)
  obtain ⟨⟨segment, origin, hsegment, hkind, -⟩, -⟩ := h.cuts.resumes (h.separated_ok hP) hlink
  refine ⟨⟨segment, origin, (hextends.subgraph_old _ (subgraph_lt hsegment)).trans hsegment, hkind⟩,
    fun other link' hother hsame => ?_⟩
  rcases h.link_cases hP hother with ⟨-, hold⟩ | ⟨e, he, -, rfl⟩
  · exact h.cuts.links_apart (h.separated_ok hP) hold hlink (.inl hsame)
  · exact absurd (subgraph_lt hsegment) (Nat.not_lt.mpr (hsame ▸ he.exit_stands.id_ge))

/-! ### What is handed over -/

theorem fresh (hP : P.WellFormed) (h : s.Lead P report Q) {call : NodeId} {link : Link}
    (hlink : report.links.get? call = some link) : ∀ tensor ∈ link.tensors, P.tensors.size ≤ tensor := by
  intro tensor hmem
  obtain ⟨count, hseparate⟩ := h.separates
  have hle := ((separateHandles_separates hP hseparate).kept hP).tensors_le
  rcases h.link_cases hP hlink with ⟨-, hold⟩ | ⟨e, he, -, rfl⟩
  · obtain ⟨-, -, hfresh⟩ := h.cuts.resumes (h.separated_ok hP) hold
    exact Nat.le_trans hle (hfresh tensor hmem).1
  · exact Nat.le_trans (Nat.le_trans hle h.cuts.size_tensors_le)
      (he.exit_stands.handover_ge tensor hmem)

theorem shared (hP : P.WellFormed) (h : s.Lead P report Q) {first second : NodeId} {a b : Link}
    (ha : report.links.get? first = some a) (hb : report.links.get? second = some b)
    {tensor : TensorId} (hmem : tensor ∈ a.tensors) (hmem' : tensor ∈ b.tensors) :
    a.consumer = b.consumer := by
  -- The tensors of the cuts were there when the first exit was built.
  have hmixed {call : NodeId} {link : Link} (hlink : s.links.get? call = some link)
      (hin : tensor ∈ link.tensors) {e : Entrance}
      (he : e.Stands s.cut s.wrapped report.links) : tensor ∉ e.link.tensors := by
    obtain ⟨-, -, hfresh⟩ := h.cuts.resumes (h.separated_ok hP) hlink
    intro hin'
    exact Nat.not_lt.mpr (he.exit_stands.handover_ge tensor hin') (hfresh tensor hin).2
  rcases h.link_cases hP ha with ⟨-, hold⟩ | ⟨e, he, -, rfl⟩
  · rcases h.link_cases hP hb with ⟨-, hold'⟩ | ⟨e', he', -, rfl⟩
    · obtain rfl := h.cuts.links_apart (h.separated_ok hP) hold hold' (.inr ⟨tensor, hmem, hmem'⟩)
      rw [Option.some.inj (hold.symm.trans hold')]
    · exact absurd hmem' (hmixed hold hmem he')
  · rcases h.link_cases hP hb with ⟨-, hold'⟩ | ⟨e', he', -, rfl⟩
    · exact absurd hmem (hmixed hold' hmem' he)
    · have hx := he.exit_stands
      have hx' := he'.exit_stands
      have hid : e.exit.id = e'.exit.id := h.wraps.exits_apart (h.cut_ok hP) hx.id_ge hx'.id_ge
        hx.subgraph_eq hx'.subgraph_eq rfl rfl hmem hmem'
      have hsame := hx.subgraph_eq
      rw [hid, hx'.subgraph_eq, Option.some.injEq, Subgraph.mk.injEq] at hsame
      exact (List.singleton_inj.mp hsame.2.2.2.2).symm

end Stages.Lead

/-- The plan of a program tells which calls have been split off: they are linked, and no entrance
makes them. -/
theorem ExecutionPlan.mem_nonTailCalls {plan : ExecutionPlan} {Q : Program}
    (hprogram : plan.program = Q) {call : NodeId} {link : Link}
    (hlink : Q.linkFor? call = some link) {owner : SubgraphId} {subgraph : Subgraph}
    (howner : Q.owner? call = some owner) (hsubgraph : Q.subgraphs[owner]? = some subgraph) :
    call ∈ plan.nonTailCalls ↔ ∀ body, subgraph.kind ≠ .entrance body := by
  have hkey : call ∈ plan.linkedCalls := by
    rw [linkedCalls, hprogram]
    exact IdMap.mem_keys.mpr ⟨link, hlink⟩
  rw [nonTailCalls, List.mem_filter, and_iff_right hkey, hprogram, howner, Option.bind_some,
    hsubgraph, Option.map_some]
  cases subgraph.kind <;> simp

namespace Stages.Lead

variable {s : Stages} {P Q : Program} {report : ScheduleReport} {sharing : ExitSharing}

section Plan

variable (hP : P.WellFormed) (h : s.Lead P report Q) (htell : s.Tell sharing report)

include hP h htell

theorem not_entranceCall {call : NodeId} (hmem : call ∈ report.nonTailCalls) {body : SubgraphId} :
    ¬ report.EntranceCall s.wrapped body call := by
  intro hcall
  obtain ⟨e, he, -, rfl⟩ := (h.entranceCall_iff hP htell).mp hcall
  exact Nat.not_lt.mpr he.call_ge (h.nonTailCall_lt hP hmem)

/-- The wrapped program has a plan, and the plan tells the calls that have been split off. -/
theorem planned (hbody : P.AllBodies) :
    ∃ plan, ExecutionPlan.lower { s.wrapped with links := report.links } = .ok plan
      ∧ ∀ call, call ∈ plan.nonTailCalls ↔ call ∈ report.nonTailCalls := by
  have hW := (h.wrapped_ok hP).withLinks report.links
  obtain ⟨plan, hplan, hprogram, -⟩ := ExecutionPlan.exists_lower hW (h.allTail_wrapped hP)
    (fun call link hlink => h.link_ok hP hlink)
    fun id subgraph hsubgraph hneeds => h.resumed hP hbody hsubgraph hneeds
  refine ⟨plan, hplan, fun call => ⟨fun hmem => ?_, fun hmem => ?_⟩⟩
  · obtain ⟨link, hlink⟩ : ∃ link, report.links.get? call = some link := by
      have hkey := (List.mem_filter.mp hmem).1
      rw [ExecutionPlan.linkedCalls, hprogram] at hkey
      exact IdMap.mem_keys.mp hkey
    rcases h.link_cases hP hlink with ⟨hsplit, -⟩ | ⟨e, he, rfl, -⟩
    · exact hsplit
    · have hlists : s.wrapped.Lists ⟨e.id, e.call, _⟩ :=
        ⟨_, he.subgraph_eq, .tail _ List.mem_cons_self, he.call_eq⟩
      have hnone := (ExecutionPlan.mem_nonTailCalls hprogram hlink (hW.owner?_eq hlists)
        he.subgraph_eq).mp hmem
      exact absurd rfl (hnone e.body)
  · obtain ⟨link, hlink⟩ := h.cuts.exists_link_iff.mpr hmem
    have hkept := h.link_of_cut hP hlink
    obtain ⟨rfl, ⟨owner, subgraph, node, howner, hsubgraph, hlast, -⟩, -⟩ := h.leads hP hkept
    refine (ExecutionPlan.mem_nonTailCalls hprogram hkept howner hsubgraph).mpr fun body hkind => ?_
    rcases (h.wraps.shape (h.cut_ok hP)).subgraph_cases hsubgraph with hcut | ⟨x, hx, rfl⟩
      | ⟨e, he, rfl, -⟩
    · have hplain := h.unwrapped hP hbody hcut
      rw [hkind] at hplain
      exact nomatch hplain
    · rw [Option.some.inj (hsubgraph.symm.trans hx.subgraph_eq)] at hkind
      exact nomatch hkind
    · rw [Option.some.inj (hsubgraph.symm.trans he.subgraph_eq)] at hlast
      exact h.not_entranceCall hP htell hmem
        ((h.entranceCall_iff hP htell).mpr ⟨e, he, rfl, Option.some.inj hlast⟩)

end Plan

end Stages.Lead

/-- The links of a run are those of the calls that it splits off and of the calls that the entrances
make. Each call ends its subgraph, and the copy that reads its results starts the continuation. -/
theorem schedule_links {P Q : Program} {options : SchedulerOptions} {report : ScheduleReport}
    (hvalid : P.validate = .ok ()) (hbody : P.AllBodies) (hlinks : P.links = .empty)
    (hschedule : schedule options P = .ok (report, Q)) : report.Linked P Q := by
  have hP := wellFormed_of_validate hvalid
  obtain ⟨s, h, htell⟩ := exists_toldStages hP hbody hschedule
  obtain rfl := h.result_eq hP hlinks
  have hold {call : NodeId} (hmem : call ∈ report.nonTailCalls) {link : Link}
      (hlink : report.links.get? call = some link) : s.links.get? call = some link := by
    rcases h.link_cases hP hlink with ⟨-, hold⟩ | ⟨e, he, rfl, -⟩
    · exact hold
    · exact absurd (h.nonTailCall_lt hP hmem) (Nat.not_lt.mpr he.call_ge)
  constructor
  case links_eq => rfl
  case nodup => exact h.cuts.calls_nodup (h.separated_ok hP)
  case key_iff =>
    intro call
    show call ∈ report.links.keys ↔ _ ∨ ∃ body, report.EntranceCall s.wrapped body call
    rw [IdMap.mem_keys]
    constructor
    · intro ⟨link, hlink⟩
      rcases h.link_cases hP hlink with ⟨hmem, -⟩ | ⟨e, he, rfl, -⟩
      · exact .inl hmem
      · exact .inr ⟨e.body, (h.entranceCall_iff hP htell).mpr ⟨e, he, rfl, rfl⟩⟩
    · rintro (hmem | ⟨body, hcall⟩)
      · obtain ⟨link, hlink⟩ := h.cuts.exists_link_iff.mpr hmem
        exact ⟨link, h.link_of_cut hP hlink⟩
      · obtain ⟨e, he, -, rfl⟩ := (h.entranceCall_iff hP htell).mp hcall
        exact ⟨e.link, he.link_eq⟩
  case apart => exact fun call hmem body => h.not_entranceCall hP htell hmem
  case silent => exact fun _ => htell.founded _
  case leads => exact fun call link hlink => h.leads hP hlink
  case copies => exact fun call hmem link hlink => h.copies hP hbody (hold hmem hlink)
  case segment => exact fun call hmem link hlink => h.segment hP (hold hmem hlink)
  case exit =>
    intro body call hcall link hlink
    obtain ⟨e, he, rfl, rfl⟩ := (h.entranceCall_iff hP htell).mp hcall
    obtain rfl := Option.some.inj (he.link_eq.symm.trans hlink)
    exact ⟨_, he.exit_stands.subgraph_eq, congrArg _ he.exit_body⟩
  case resumed => exact fun id subgraph hsubgraph hneeds => h.resumed hP hbody hsubgraph hneeds
  case fresh => exact fun call link hlink => h.fresh hP hlink
  case shared =>
    intro first second a b ha hb ⟨tensor, hmem, hmem'⟩
    exact h.shared hP ha hb hmem hmem'
  case planned => exact h.planned hP htell hbody

/-- A relay is cut after both of its calls, and its body gets two entrances. -/
theorem relay_links : ∃ report Q, schedule {} relay = .ok (report, Q)
    ∧ report.nonTailCalls = [1, 3] ∧ Q.links.keys.length = 4 ∧ report.Linked relay Q := by
  obtain ⟨⟨report, Q⟩, hschedule, hcalls, hkeys⟩ := Outcome.exists_of_holds
    (fun answer : ScheduleReport × Program => answer.1.nonTailCalls = [1, 3]
      ∧ answer.2.links.keys.length = 4)
    (by decide +kernel : Outcome.holds ((schedule {} relay).map _) = true)
  exact ⟨report, Q, hschedule, hcalls, hkeys,
    schedule_links (by decide +kernel) (by decide) rfl hschedule⟩

end TailFlow
