import TailFlow.Plan.Basic
import TailFlow.Proofs.Schedule.Stages

/-!
# Scheduled programs have plans

In a scheduled program every call is a tail call, and the links are those of the calls that were
split off and of the calls that entrances make. Nothing else is asked of a program that is to be
lowered, so a scheduled program has a plan, and the plan says of every call how it is gone on with.
-/

namespace TailFlow

open Program

/-! ### Lowering a program without calls that are not tail calls -/

namespace ExecutionPlan

variable {P : Program}

theorem checkLink_eq_ok {call : NodeId} {link : Link} {node : Node}
    (hnode : P.nodes[call]? = some node) (hcall : node.isCall)
    (hlt : link.continuation < P.subgraphs.size) : checkLink P call link = .ok () := by
  unfold checkLink
  rw [hnode, Option.map_some, Option.getD_some, hcall, decide_eq_true hlt]
  rfl

theorem checkNodes_eq_ok {id : SubgraphId} {name : String} {nodes : List NodeId}
    (hnodup : nodes.Nodup) (harena : ∀ call ∈ nodes, call < P.nodes.size)
    (hlast : ∀ call ∈ nodes, ∀ node, P.nodes[call]? = some node → node.isCall →
      nodes.getLast? = some call) : checkNodes P id name nodes = .ok () := by
  induction nodes with
  | nil => rfl
  | cons first rest ih =>
    obtain ⟨habsent, hnodup⟩ := List.nodup_cons.mp hnodup
    obtain ⟨hhead, htail⟩ := List.forall_mem_cons.mp harena
    have hnode := Array.getElem?_eq_getElem hhead
    have hshort : (!P.nodes[first].isCall || rest.isEmpty) = true := by
      cases hcall : P.nodes[first].isCall with
      | false => rfl
      | true =>
        have hlast := hlast first List.mem_cons_self _ hnode hcall
        cases rest with
        | nil => rfl
        | cons second others =>
          rw [List.getLast?_cons_cons] at hlast
          exact absurd (List.mem_of_getLast? hlast) habsent
    rw [checkNodes, node_eq_ok.mpr hnode, Outcome.ok_bind]
    dsimp only
    rw [hshort, Outcome.ensure_true, Outcome.ok_bind]
    refine ih hnodup htail fun call hmem node hcall hisCall => ?_
    have hlast := hlast call (.tail _ hmem) node hcall hisCall
    cases rest with
    | nil => exact nomatch hmem
    | cons second others => rwa [List.getLast?_cons_cons] at hlast

/-- How a subgraph ends whose last node, if it is a call, is a tail call. -/
theorem exists_terminatorOf (id : SubgraphId) {subgraph : Subgraph}
    (harena : ∀ call ∈ subgraph.nodes, call < P.nodes.size)
    (htail : ∀ call node, subgraph.lastNode? = some call → P.nodes[call]? = some node →
      node.isCall → node.outputs = subgraph.outputs) :
    ∃ terminator, terminatorOf P id subgraph = .ok terminator
      ∧ ∀ call node, subgraph.lastNode? = some call → P.nodes[call]? = some node → node.isCall →
        terminator = match P.linkFor? call with
          | some link => .linkedCall call link.continuation
          | none => .tailCall call := by
  unfold terminatorOf
  cases hlast : subgraph.lastNode? with
  | none => exact ⟨.returns, rfl, fun _ _ hsome => nomatch hsome⟩
  | some last =>
    have hlt := harena last (List.mem_of_getLast? hlast)
    have hnode := Array.getElem?_eq_getElem hlt
    dsimp only
    rw [node_eq_ok.mpr hnode, Outcome.ok_bind]
    cases hcall : P.nodes[last].isCall with
    | false =>
      refine ⟨.returns, rfl, fun call node hsame hfound hisCall => ?_⟩
      obtain rfl := Option.some.inj hsame
      obtain rfl := Option.some.inj (hnode.symm.trans hfound)
      rw [hcall] at hisCall
      exact nomatch hisCall
    | true =>
      cases hlink : P.linkFor? last with
      | some link =>
        refine ⟨.linkedCall last link.continuation, rfl, fun call node hsame _ _ => ?_⟩
        obtain rfl := Option.some.inj hsame
        rw [hlink]
      | none =>
        have houtputs := htail last _ hlast hnode hcall
        refine ⟨.tailCall last, ?_, fun call node hsame _ _ => ?_⟩
        · simp only [Bool.not_true, Bool.false_eq_true, if_false, if_pos houtputs]
          rfl
        · obtain rfl := Option.some.inj hsame
          rw [hlink]

theorem lowered?_of_lower (hP : P.WellFormed) {plan : ExecutionPlan} (hplan : lower P = .ok plan) :
    plan.program = P ∧ ∀ id < P.subgraphs.size, ∃ lowered,
      plan.lowered? id = some lowered ∧ lowerSubgraph P id = .ok lowered := by
  obtain ⟨-, hlower⟩ := Outcome.check_bind_eq_ok.mp hplan
  obtain ⟨entries, hentries, hpure⟩ := Outcome.bind_eq_ok.mp hlower
  obtain rfl := Outcome.pure_eq_ok.mp hpure
  have hid {id : SubgraphId} {lowered : LoweredSubgraph}
      (hlowered : lowerSubgraph P id = .ok lowered) : lowered.id = id := by
    obtain ⟨subgraph, -, hbody⟩ := Outcome.bind_eq_ok.mp hlowered
    obtain ⟨-, hbody⟩ := Outcome.check_bind_eq_ok.mp hbody
    obtain ⟨-, hbody⟩ := Outcome.check_bind_eq_ok.mp hbody
    obtain ⟨terminator, -, hpure⟩ := Outcome.bind_eq_ok.mp hbody
    rw [← Outcome.pure_eq_ok.mp hpure]
  refine ⟨rfl, fun id hlt => ?_⟩
  obtain ⟨entry, hentry, hlowered⟩ := Outcome.answer_of_mem_mapM hentries (hP.mem_order.mpr hlt)
  refine ⟨entry, ?_, hlowered⟩
  show entries.find? (fun entry => entry.id == id) = some entry
  cases hfind : entries.find? fun entry => entry.id == id with
  | none =>
    have hnone := List.find?_eq_none.mp hfind entry hentry
    simp [hid hlowered] at hnone
  | some found =>
    have hfound := List.find?_some hfind
    obtain ⟨other, -, hother⟩ := Outcome.item_of_mem_mapM hentries (List.mem_of_find?_eq_some hfind)
    have hsame : other = id := by
      rw [← hid hother]
      simpa using hfound
    rw [hsame] at hother
    rw [Except.ok.inj (hother.symm.trans hlowered)]

theorem exists_lowerSubgraph (hP : P.WellFormed) {id : SubgraphId} {subgraph : Subgraph}
    (hsubgraph : P.subgraphs[id]? = some subgraph) (hall : P.AllTail id)
    (hresumed : needsLink subgraph.kind →
      ∃ call link, P.linkFor? call = some link ∧ link.continuation = id) :
    ∃ lowered, lowerSubgraph P id = .ok lowered
      ∧ ∀ call node, subgraph.lastNode? = some call → P.nodes[call]? = some node →
        node.isCall → lowered.terminator = match P.linkFor? call with
          | some link => .linkedCall call link.continuation
          | none => .tailCall call := by
  have harena := hP.inArena hsubgraph
  have htail {call : NodeId} {node : Node} (hmem : call ∈ subgraph.nodes)
      (hnode : P.nodes[call]? = some node) (hisCall : node.isCall) : IsTail subgraph call node := by
    by_contra hnot
    exact hall call ⟨subgraph, node, hsubgraph, hmem, hnode, hisCall, hnot⟩
  have hneeds : (!needsLink subgraph.kind || (resumed P).contains id) = true := by
    cases hkind : needsLink subgraph.kind with
    | false => rfl
    | true =>
      obtain ⟨call, link, hlink, rfl⟩ := hresumed hkind
      rw [Bool.not_true, Bool.false_or, List.contains_iff_mem]
      exact List.mem_map.mpr ⟨link, IdMap.mem_values.mpr ⟨call, hlink⟩, rfl⟩
  have hchecked : checkNodes P id subgraph.name subgraph.nodes = .ok () :=
    checkNodes_eq_ok (hP.nodup hsubgraph) harena fun call hmem node hnode hisCall =>
      (htail hmem hnode hisCall).1
  obtain ⟨terminator, hterminator, hends⟩ := exists_terminatorOf id harena
    fun call node hlast hnode hisCall => (htail (List.mem_of_getLast? hlast) hnode hisCall).2
  refine ⟨⟨id, subgraph.name, subgraph.kind, subgraph.nodes, terminator⟩, ?_, hends⟩
  rw [lowerSubgraph, subgraph_eq_ok.mpr hsubgraph, Outcome.ok_bind, hneeds, Outcome.ensure_true,
    Outcome.ok_bind, hchecked, Outcome.ok_bind, hterminator, Outcome.ok_bind]
  rfl

/-- A program lowers if its calls are tail calls, its links lead from calls to subgraphs, and every
continuation is gone on with after some call. -/
theorem exists_lower (hP : P.WellFormed) (hall : ∀ id < P.subgraphs.size, P.AllTail id)
    (hcall : ∀ call link, P.linkFor? call = some link →
      (∃ node, P.nodes[call]? = some node ∧ node.isCall) ∧ link.continuation < P.subgraphs.size)
    (hresumed : ∀ (id : SubgraphId) (subgraph : Subgraph), P.subgraphs[id]? = some subgraph →
      needsLink subgraph.kind → ∃ call link, P.linkFor? call = some link ∧ link.continuation = id) :
    ∃ plan, lower P = .ok plan ∧ plan.program = P
      ∧ ∀ (id : SubgraphId) (subgraph : Subgraph), P.subgraphs[id]? = some subgraph →
        ∃ lowered, plan.lowered? id = some lowered
          ∧ ∀ call node, subgraph.lastNode? = some call → P.nodes[call]? = some node →
            node.isCall → lowered.terminator = match P.linkFor? call with
              | some link => .linkedCall call link.continuation
              | none => .tailCall call := by
  have hlower {id : SubgraphId} {subgraph : Subgraph}
      (hsubgraph : P.subgraphs[id]? = some subgraph) :=
    exists_lowerSubgraph hP hsubgraph (hall id (subgraph_lt hsubgraph)) (hresumed id subgraph hsubgraph)
  obtain ⟨entries, hentries⟩ : ∃ entries, P.order.mapM (lowerSubgraph P) = .ok entries := by
    refine Outcome.exists_mapM_eq_ok fun id hid => ?_
    obtain ⟨lowered, hlowered, -⟩ := hlower (Array.getElem?_eq_getElem (hP.mem_order.mp hid))
    exact ⟨lowered, hlowered⟩
  have hlinks : P.links.entries.forM (fun entry => checkLink P entry.1 entry.2) = .ok () := by
    refine Outcome.forM_eq_ok.mpr ?_
    rintro ⟨call, link⟩ hmem
    obtain ⟨⟨node, hnode, hisCall⟩, hlt⟩ := hcall call link (IdMap.get?_eq_some_iff.mpr hmem)
    exact checkLink_eq_ok hnode hisCall hlt
  have hplan : lower P = .ok ⟨P, entries⟩ := by
    rw [lower, hlinks, Outcome.ok_bind, hentries, Outcome.ok_bind]
    rfl
  refine ⟨⟨P, entries⟩, hplan, rfl, fun id subgraph hsubgraph => ?_⟩
  obtain ⟨found, hfound, hlowered⟩ := (lowered?_of_lower hP hplan).2 id (subgraph_lt hsubgraph)
  obtain ⟨lowered, hsame, hends⟩ := hlower hsubgraph
  obtain rfl := Except.ok.inj (hlowered.symm.trans hsame)
  exact ⟨found, hfound, hends⟩

end ExecutionPlan

/-! ### The links of a scheduled program -/

/-- The last call of a subgraph was split off, or an entrance makes it. -/
def ScheduleReport.GoesOn (report : ScheduleReport) (subgraph : Subgraph) (call : NodeId) : Prop :=
  call ∈ report.nonTailCalls ∨ ∃ body, subgraph.kind = .entrance body

namespace Stages.Lead

variable {s : Stages} {P Q : Program} {report : ScheduleReport}

theorem node_old (hP : P.WellFormed) (h : s.Lead P report Q) {id : NodeId} {node : Node}
    (hnode : s.cut.nodes[id]? = some node) (hplain : node.callee? = none) :
    s.wrapped.nodes[id]? = some node := by
  rcases (h.wraps.shape (h.cut_ok hP)).node_old hnode with hsame | ⟨e, he, hid⟩
  · exact hsame
  · obtain ⟨listed, ⟨-, -, -, hlisted⟩, hcaller, hkind, -⟩ := he.caller_eq
    rw [hcaller, hid, hnode, Option.some.injEq] at hlisted
    rw [hlisted, callee?_eq_some.mpr hkind] at hplain
    exact nomatch hplain

theorem wrapped_call (hP : P.WellFormed) (h : s.Lead P report Q) {call : NodeId} {node : Node}
    (hnode : s.cut.nodes[call]? = some node) (hcall : node.isCall) :
    s.wrapped.nodes[call]? = some node := by
  refine h.node_old hP hnode ?_
  rw [Node.callee?, show node.kind = .call from of_decide_eq_true hcall]
  rfl

theorem allTail_wrapped (hP : P.WellFormed) (h : s.Lead P report Q) :
    ∀ id < s.wrapped.subgraphs.size, s.wrapped.AllTail id :=
  h.wraps.allTail (h.cut_ok hP) h.allTail

theorem link_of_cut (hP : P.WellFormed) (h : s.Lead P report Q) {call : NodeId} {link : Link}
    (hlink : s.links.get? call = some link) : report.links.get? call = some link := by
  obtain ⟨-, -, owner, subgraph, node, -, hnode, -⟩ := h.cuts.isTail_of_link (h.separated_ok hP) hlink
  rw [(h.wraps.shape (h.cut_ok hP)).link_old (node_lt hnode), hlink]

theorem link_ok (hP : P.WellFormed) (h : s.Lead P report Q) {call : NodeId} {link : Link}
    (hlink : report.links.get? call = some link) :
    (∃ node, s.wrapped.nodes[call]? = some node ∧ node.isCall)
      ∧ link.continuation < s.wrapped.subgraphs.size := by
  have hextends := h.wraps.extends_program (h.cut_ok hP)
  rcases (h.wraps.shape (h.cut_ok hP)).link_new hlink with hold | ⟨e, he, rfl, rfl⟩
  · obtain ⟨-, hlt, owner, subgraph, node, -, hnode, hcall, -⟩ :=
      h.cuts.isTail_of_link (h.separated_ok hP) hold
    exact ⟨⟨node, h.wrapped_call hP hnode hcall, hcall⟩,
      Nat.lt_of_lt_of_le hlt hextends.subgraphs_le⟩
  · exact ⟨⟨_, he.call_eq, rfl⟩, subgraph_lt he.exit_stands.subgraph_eq⟩

theorem resumed (hP : P.WellFormed) (hbody : P.AllBodies) (h : s.Lead P report Q) {id : SubgraphId}
    {subgraph : Subgraph} (hsubgraph : s.wrapped.subgraphs[id]? = some subgraph)
    (hneeds : ExecutionPlan.needsLink subgraph.kind) :
    ∃ call link, report.links.get? call = some link ∧ link.continuation = id := by
  have hold {subgraph : Subgraph} (hcut : s.cut.subgraphs[id]? = some subgraph)
      (hneeds : ExecutionPlan.needsLink subgraph.kind) :
      ∃ call link, report.links.get? call = some link ∧ link.continuation = id := by
    rcases h.cut_kind hP hbody hcut with hkind | ⟨-, call, link, hlink, hid⟩
    · rw [hkind] at hneeds
      exact nomatch hneeds
    · exact ⟨call, link, h.link_of_cut hP hlink, hid⟩
  rcases (h.wraps.shape (h.cut_ok hP)).subgraph_cases hsubgraph with hcut | ⟨x, hx, rfl⟩ | ⟨e, he, rfl, -⟩
  · exact hold hcut hneeds
  · have hexit := Option.some.inj (hsubgraph.symm.trans hx.subgraph_eq)
    rcases h.served.exits x.id subgraph x.body hsubgraph (by rw [hexit]) with hcut | ⟨e, he, hid⟩
    · exact hold hcut hneeds
    · exact ⟨e.call, e.link, he.link_eq, hid⟩
  · rw [Option.some.inj (hsubgraph.symm.trans he.subgraph_eq)] at hneeds
    exact nomatch hneeds

/-- The calls that are linked are those that were split off and those that entrances make. -/
theorem exists_link_iff (hP : P.WellFormed) (hbody : P.AllBodies) (h : s.Lead P report Q)
    {id : SubgraphId} {subgraph : Subgraph} {call : NodeId}
    (hsubgraph : s.wrapped.subgraphs[id]? = some subgraph)
    (hlast : subgraph.lastNode? = some call) :
    (∃ link, report.links.get? call = some link) ↔ report.GoesOn subgraph call := by
  have hshape := h.wraps.shape (h.cut_ok hP)
  have hwrapped := h.wrapped_ok hP
  constructor
  · intro ⟨link, hlink⟩
    rcases hshape.link_new hlink with hold | ⟨e, he, rfl, -⟩
    · exact .inl (h.cuts.exists_link_iff.mp ⟨link, hold⟩)
    · have hid : id = e.id := hwrapped.apart hsubgraph he.subgraph_eq e.call
        (List.mem_of_getLast? hlast) (.tail _ List.mem_cons_self)
      rw [hid, he.subgraph_eq] at hsubgraph
      rw [← Option.some.inj hsubgraph]
      exact .inr ⟨e.body, rfl⟩
  · intro hgoes
    rcases hgoes with hsplit | ⟨body, hkind⟩
    · obtain ⟨link, hlink⟩ := h.cuts.exists_link_iff.mpr hsplit
      exact ⟨link, h.link_of_cut hP hlink⟩
    · rcases hshape.subgraph_cases hsubgraph with hcut | ⟨x, hx, rfl⟩ | ⟨e, he, rfl, -⟩
      · rcases h.cut_kind hP hbody hcut with hbefore | ⟨⟨origin, hbefore⟩, -⟩
        · exact nomatch hkind.symm.trans hbefore
        · exact nomatch hkind.symm.trans hbefore
      · rw [Option.some.inj (hsubgraph.symm.trans hx.subgraph_eq)] at hkind
        exact nomatch hkind
      · rw [Option.some.inj (hsubgraph.symm.trans he.subgraph_eq)] at hlast
        obtain rfl : e.call = call := Option.some.inj hlast
        exact ⟨e.link, he.link_eq⟩

theorem allTail_result (hP : P.WellFormed) (hlinks : P.links = .empty) (h : s.Lead P report Q) :
    ∀ id < Q.subgraphs.size, Q.AllTail id := by
  rw [h.result_eq hP hlinks]
  exact h.allTail_wrapped hP

theorem exists_plan (hP : P.WellFormed) (hbody : P.AllBodies) (hlinks : P.links = .empty)
    (h : s.Lead P report Q) : ∃ plan, ExecutionPlan.lower Q = .ok plan ∧ plan.program = Q
      ∧ ∀ (id : SubgraphId) (subgraph : Subgraph), Q.subgraphs[id]? = some subgraph →
        ∃ lowered, plan.lowered? id = some lowered
          ∧ ∀ call node, subgraph.lastNode? = some call → Q.nodes[call]? = some node →
            node.isCall → lowered.terminator = match Q.linkFor? call with
              | some link => .linkedCall call link.continuation
              | none => .tailCall call := by
  refine ExecutionPlan.exists_lower (h.result_ok hP) (h.allTail_result hP hlinks) ?_ ?_
  · rw [h.result_eq hP hlinks]
    exact fun call link hlink => h.link_ok hP hlink
  · rw [h.result_eq hP hlinks]
    exact fun id subgraph hsubgraph hneeds => h.resumed hP hbody hsubgraph hneeds

end Stages.Lead

/-- Scheduling leaves no call that is not a tail call, in any subgraph, and the scheduled program has
a plan. A subgraph that ends in a call goes on with a continuation exactly if the call was split off
or is made by an entrance, and otherwise it ends in a tail call. -/
theorem schedule_lowers {P Q : Program} {options : SchedulerOptions} {report : ScheduleReport}
    (hvalid : P.validate = .ok ()) (hbody : P.AllBodies) (hlinks : P.links = .empty)
    (hschedule : schedule options P = .ok (report, Q)) :
    (∀ id < Q.subgraphs.size,
        (Q.nonTailCalls id : Outcome ScheduleError (List NodeId)) = .ok [])
      ∧ ∃ plan, ExecutionPlan.lower Q = .ok plan ∧ plan.program = Q
        ∧ ∀ (id : SubgraphId) (subgraph : Subgraph), Q.subgraphs[id]? = some subgraph →
          ∃ lowered, plan.lowered? id = some lowered
            ∧ ∀ call node, subgraph.lastNode? = some call → Q.nodes[call]? = some node →
              node.isCall → (report.GoesOn subgraph call →
                  ∃ link, Q.linkFor? call = some link
                    ∧ lowered.terminator = .linkedCall call link.continuation)
                ∧ (¬ report.GoesOn subgraph call → lowered.terminator = .tailCall call) := by
  have hP := wellFormed_of_validate hvalid
  obtain ⟨s, h⟩ := exists_stages hP hbody hschedule
  have hQ := h.result_ok hP
  have hresult := h.result_eq hP hlinks
  refine ⟨fun id hlt => ?_, ?_⟩
  · exact (nonTailCalls_eq_nil_iff hQ (Array.getElem?_eq_getElem hlt)).mpr
      (h.allTail_result hP hlinks id hlt)
  obtain ⟨plan, hplan, hprogram, hends⟩ := h.exists_plan hP hbody hlinks
  refine ⟨plan, hplan, hprogram, fun id subgraph hsubgraph => ?_⟩
  obtain ⟨lowered, hlowered, hterminator⟩ := hends id subgraph hsubgraph
  refine ⟨lowered, hlowered, fun call node hlast hnode hcall => ?_⟩
  have hlinked : (∃ link, Q.linkFor? call = some link) ↔ report.GoesOn subgraph call := by
    rw [hresult] at hsubgraph ⊢
    exact h.exists_link_iff hP hbody hsubgraph hlast
  have hends := hterminator call node hlast hnode hcall
  constructor
  · intro hgoes
    obtain ⟨link, hlink⟩ := hlinked.mpr hgoes
    rw [hlink] at hends
    exact ⟨link, hlink, hends⟩
  · intro hnot
    cases hlink : Q.linkFor? call with
    | some link => exact absurd (hlinked.mp ⟨link, hlink⟩) hnot
    | none =>
      rw [hlink] at hends
      exact hends

/-- An entry that calls one body twice, each time handing on what it was given. -/
def relay : Program where
  tensors := #["x", "first", "y", "second", "z", "out", "given", "result"].map fun name =>
    ⟨name, [], .f32, none⟩
  nodes := #[⟨"bind_first", .bind 1, [0], [1]⟩, ⟨"call_first", .call, [1], [2]⟩,
    ⟨"bind_second", .bind 1, [2], [3]⟩, ⟨"call_second", .call, [3], [4]⟩,
    ⟨"end", .kernel .copy, [4], [5]⟩, ⟨"pass", .kernel .copy, [6], [7]⟩]
  subgraphs := #[⟨"main", .body, [0], [5], [0, 1, 2, 3, 4]⟩, ⟨"body", .body, [6], [7], [5]⟩]
  order := [0, 1]
  entry := 0
  outputs := [5]
  links := .empty

theorem relay_lowers : ∃ report Q, schedule {} relay = .ok (report, Q)
    ∧ report.nonTailCalls = [1, 3] ∧ Q.subgraphs.size = 8
    ∧ (∀ id < Q.subgraphs.size,
      (Q.nonTailCalls id : Outcome ScheduleError (List NodeId)) = .ok [])
    ∧ ∃ plan, ExecutionPlan.lower Q = .ok plan := by
  obtain ⟨⟨report, Q⟩, hschedule, hcalls, hsize⟩ := Outcome.exists_of_holds
    (fun answer : ScheduleReport × Program => answer.1.nonTailCalls = [1, 3]
      ∧ answer.2.subgraphs.size = 8)
    (by decide +kernel : Outcome.holds ((schedule {} relay).map _) = true)
  have hlowers := schedule_lowers (by decide +kernel) (by decide) rfl hschedule
  obtain ⟨plan, hplan, -⟩ := hlowers.2
  exact ⟨report, Q, hschedule, hcalls, hsize, hlowers.1, plan, hplan⟩

end TailFlow
