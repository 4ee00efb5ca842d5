import TailFlow.Proofs.Schedule.Idempotence
import TailFlow.Proofs.Schedule.Origin

/-!
# The boundaries of a scheduled program

A body that several binders name is wrapped: each binder that reaches a call gets an entrance of its
own, and nothing else names the body but binders whose handles reach no call. Which bodies these are,
and which binders, can be told from the program with separated handles, because cutting changes
neither what binders name and reach nor what the entry leads to.
-/

namespace TailFlow

open Program

/-- What the boundary of a body says is so in the scheduled program. The first program is the one with
separated handles. -/
structure Boundary.Holds (b : Boundary) (sharing : ExitSharing) (P Q : Program) : Prop where
  caller_iff : ∀ caller, caller ∈ b.entrances.map EntranceWrapper.caller
    ↔ P.Names caller b.body ∧ P.Live caller
  caller_nodup : (b.entrances.map EntranceWrapper.caller).Nodup
  entrance_nodup : (b.entrances.map EntranceWrapper.entrance).Nodup
  kinds : ∀ w ∈ b.entrances, ∃ entrance exit, Q.subgraphs[w.entrance]? = some entrance
    ∧ entrance.kind = .entrance b.body ∧ Q.subgraphs[w.exit]? = some exit
    ∧ exit.kind = .exit b.body
  named : ∀ w ∈ b.entrances, ∀ binder, Q.Names binder w.entrance ↔ binder = w.caller
  /-- Only the entrances and the dead callers name the body. -/
  names_iff : ∀ binder, Q.Names binder b.body
    ↔ (∃ w ∈ b.entrances, ∃ listed, Q.Lists listed ∧ listed.owner = w.entrance
        ∧ listed.id = binder ∧ listed.node.callee?.isSome)
      ∨ (P.Names binder b.body ∧ ¬ P.Live binder)
  exit_iff : ∀ exit, exit ∈ b.exits ↔ ∃ w ∈ b.entrances, w.exit = exit
  shared : ∀ w ∈ b.entrances, ∀ w' ∈ b.entrances, w.caller ≠ w'.caller →
    (w.exit = w'.exit ↔ sharing = .byDestination
      ∧ ∃ destination, Q.Serves w.caller destination ∧ Q.Serves w'.caller destination)
  block : b.entrances.map EntranceWrapper.entrance ++ b.body :: b.exits <:+: Q.order

theorem Program.serves_withLinks {P : Program} {links : IdMap Link} {binder : NodeId}
    {destination : List TensorId} :
    { P with links }.Serves binder destination ↔ P.Serves binder destination := by
  simp only [Serves, reaches_withLinks]

theorem Wraps.serves_iff {P W : Program} {links links' : IdMap Link} {bodies : List SubgraphId}
    (hP : P.WellFormed) (hwraps : Wraps P links bodies W links') {caller : NodeId}
    (hlt : caller < P.nodes.size) {destination : List TensorId} :
    W.Serves caller destination ↔ P.Serves caller destination := by
  refine ⟨hwraps.serves_old hP hlt, ?_⟩
  rintro ⟨call, node, hreaches, hone, hnode, rfl⟩
  have hafter := (hwraps.reaches_iff hP hlt).mpr hreaches
  have honly (other : NodeId) (hother : W.Reaches caller other) : other = call :=
    hone other ((hwraps.reaches_iff hP hlt).mp hother)
  rcases (hwraps.shape hP).node_old hnode with hsame | ⟨e, he, rfl⟩
  · exact ⟨call, node, hafter, honly, hsame, rfl⟩
  · obtain ⟨listed, ⟨-, -, -, hlisted⟩, hid, -, hnamed⟩ := he.caller_eq
    rw [hid, hnode, Option.some.injEq] at hlisted
    exact ⟨e.caller, _, hafter, honly, hnamed, by rw [hlisted]⟩

namespace Stages.Lead

variable {s : Stages} {P Q : Program} {report : ScheduleReport} {sharing : ExitSharing}

section Boundary

variable (hP : P.WellFormed) (h : s.Lead P report Q) (htell : s.Tell sharing report)
  {b : Boundary} (hb : b ∈ report.boundaries)

include hP h htell hb

theorem boundary_body_lt : b.body < s.cut.subgraphs.size := by
  obtain ⟨-, caller, ⟨listed, hlists, -, hkind⟩, -⟩ :=
    (htell.bounded.mem_iff b.body).mp (List.mem_map_of_mem hb)
  exact callee_lt (h.cut_ok hP) hlists hkind

theorem names_entrance {w : EntranceWrapper} (hw : w ∈ b.entrances) {binder : NodeId} :
    s.wrapped.Names binder w.entrance ↔ binder = w.caller := by
  have hcut := h.cut_ok hP
  obtain ⟨e, he, -, rfl⟩ := (htell.bounded.stands b hb).wrapper w hw
  have hnames : s.wrapped.Names e.caller e.id := by
    obtain ⟨listed, hlists, hid, -, hnode⟩ := he.caller_eq
    obtain ⟨subgraph, hsubgraph, hmem, -⟩ := hlists
    exact ⟨⟨listed.owner, e.caller, _⟩, ⟨subgraph, ((h.wraps.extends_program hcut).subgraph_old _
      (subgraph_lt hsubgraph)).trans hsubgraph, hid ▸ hmem, hnode⟩, rfl, rfl⟩
  exact ⟨fun hother => h.wraps.namedOnce hcut he.id_ge hother hnames, fun hsame => hsame ▸ hnames⟩

/-- A dead caller goes on naming the body, and entrances have come to name it. -/
theorem names_body {binder : NodeId} : s.wrapped.Names binder b.body
    ↔ (∃ w ∈ b.entrances, ∃ listed, s.wrapped.Lists listed ∧ listed.owner = w.entrance
        ∧ listed.id = binder ∧ listed.node.callee?.isSome)
      ∨ (s.cut.Names binder b.body ∧ ¬ s.cut.Live binder) := by
  have hcut := h.cut_ok hP
  have hlt := h.boundary_body_lt hP htell hb
  have hstands := htell.bounded.stands b hb
  have hold {e : Entrance} (he : e.Stands s.cut s.wrapped report.links) : e.id ≠ b.body := by
    rintro hsame
    exact Nat.not_lt.mpr he.id_ge (hsame ▸ hlt)
  constructor
  · intro hnames
    obtain ⟨listed, hlists, rfl, hkind⟩ := id hnames
    rcases h.wraps.lists_cases hcut hlists with ⟨old, hbefore, -, hid, hnode⟩ | ⟨x, -, -, -, hnode⟩
      | ⟨e, he, -, howner, hnode⟩
    · have hsame : listed.node = old.node := by
        refine hnode.resolve_right ?_
        rintro ⟨e, he, -, -, hnamed⟩
        rw [hnamed] at hkind
        exact hold he (NodeKind.bind.inj hkind)
      have hnamed : s.cut.Names listed.id b.body := ⟨old, hbefore, hid, hsame ▸ hkind⟩
      refine .inr ⟨hnamed, fun hlive => ?_⟩
      obtain ⟨w, hw, hcaller⟩ := List.mem_map.mp ((hstands.mem_iff listed.id).mpr ⟨hnamed, hlive⟩)
      obtain ⟨e, he, -, rfl⟩ := hstands.wrapper w hw
      have hentrance := (h.names_entrance hP htell hb hw).mpr hcaller.symm
      exact hold he (hentrance.unique (h.wrapped_ok hP) hnames)
    · rw [hnode] at hkind
      exact nomatch hkind
    · rcases hnode with ⟨-, hbinder⟩ | ⟨-, hcall⟩
      · rw [hbinder] at hkind
        obtain ⟨b', hb', hbody, w, hw, -, hentrance⟩ := htell.bounded.exists_wrapper hcut h.wraps he
        obtain rfl : b' = b := List.inj_on_of_nodup_map htell.bounded.nodup hb' hb
          (hbody.trans (NodeKind.bind.inj hkind))
        refine .inl ⟨w, hw, listed, hlists, howner.trans hentrance.symm, rfl, ?_⟩
        rw [hbinder]
        rfl
      · rw [hcall] at hkind
        exact nomatch hkind
  · rintro (⟨w, hw, listed, hlists, howner, rfl, hbinder⟩ | ⟨hnames, hdead⟩)
    · obtain ⟨e, he, hbody, rfl⟩ := hstands.wrapper w hw
      refine ⟨listed, hlists, rfl, ?_⟩
      obtain ⟨subgraph, hsubgraph, hmem, hnode⟩ := id hlists
      rw [howner] at hsubgraph
      obtain rfl := Option.some.inj (he.subgraph_eq.symm.trans hsubgraph)
      rcases List.mem_pair.mp hmem with hid | hid
      · rw [hid, he.binder_eq, Option.some.injEq] at hnode
        rw [← hnode, ← hbody]
      · rw [hid, he.call_eq, Option.some.injEq] at hnode
        rw [← hnode] at hbinder
        exact nomatch hbinder
    · obtain ⟨listed, hlists, rfl, hkind⟩ := hnames
      obtain ⟨subgraph, hsubgraph, hmem, hnode⟩ := id hlists
      refine ⟨listed, ⟨subgraph, ((h.wraps.extends_program hcut).subgraph_old _
        (subgraph_lt hsubgraph)).trans hsubgraph, hmem, ?_⟩, rfl, hkind⟩
      refine ((h.wraps.shape hcut).node_old hnode).resolve_right ?_
      rintro ⟨e, he, hcaller⟩
      exact hdead (hcaller ▸ he.serves.imp fun _ ⟨_, hreaches, _⟩ => hreaches)

end Boundary

end Stages.Lead

/-- A body gets a boundary if it is reached, several binders name it and one of them is live. What the
boundary says is so in the scheduled program. -/
theorem schedule_boundaries {P P₁ Q : Program} {options : SchedulerOptions}
    {report : ScheduleReport} {count : Nat} (hvalid : P.validate = .ok ()) (hbody : P.AllBodies)
    (hlinks : P.links = .empty)
    (hseparate : (P.separateHandles : Outcome ScheduleError (Nat × Program)) = .ok (count, P₁))
    (hschedule : schedule options P = .ok (report, Q)) :
    (report.boundaries.map Boundary.body).Nodup
      ∧ (∀ body, body ∈ report.boundaries.map Boundary.body
        ↔ Reach.Leads P₁.leadsTo P₁.entry body
          ∧ (∃ first second, first ≠ second ∧ P₁.Names first body ∧ P₁.Names second body)
          ∧ ∃ caller, P₁.Names caller body ∧ P₁.Live caller)
      ∧ ∀ b ∈ report.boundaries, b.Holds options.sharing P₁ Q := by
  have hP := wellFormed_of_validate hvalid
  obtain ⟨s, h, htell⟩ := exists_toldStages hP hbody hschedule
  obtain ⟨count', hseparate'⟩ := h.separates
  obtain ⟨-, rfl⟩ := Prod.mk.inj (Except.ok.inj (hseparate.symm.trans hseparate'))
  have hseparated := h.separated_ok hP
  have hbodies := (separateHandles_separates hP hseparate).allBodies hP hbody
  have hcut := h.cut_ok hP
  obtain rfl := h.result_eq hP hlinks
  have hnames (binder : NodeId) (body : SubgraphId) :
      s.cut.Names binder body ↔ s.separated.Names binder body := h.cuts.names_iff hseparated
  have hlive (binder : NodeId) : s.cut.Live binder ↔ s.separated.Live binder :=
    exists_congr fun _ => h.cuts.reaches_iff hseparated
  refine ⟨htell.bounded.nodup, fun body => ?_, fun b hb => ?_⟩
  · rw [htell.bounded.mem_iff, h.mem_bodies, not_namedOnce_iff]
    simp only [hnames, hlive]
    rw [and_comm (b := Reach.Leads _ _ _), and_assoc]
    refine and_congr_left fun ⟨_, caller, ⟨listed, hlists, _, hkind⟩, _⟩ => ?_
    exact h.cuts.leads_iff hseparated hbodies (callee_lt hseparated hlists hkind)
  · have hstands := htell.bounded.stands b hb
    constructor
    case caller_iff =>
      intro caller
      rw [hstands.mem_iff, hnames, hlive]
    case caller_nodup => exact hstands.nodup
    case entrance_nodup =>
      exact ((htell.bounded.block b hb).sublist.nodup (h.wrapped_ok hP).order_nodup).sublist
        (List.sublist_append_left _ _)
    case kinds =>
      intro w hw
      obtain ⟨e, he, hsame, rfl⟩ := hstands.wrapper w hw
      exact ⟨_, _, he.subgraph_eq, congrArg _ hsame, he.exit_stands.subgraph_eq,
        congrArg _ (he.exit_body.trans hsame)⟩
    case named => exact fun w hw binder => h.names_entrance hP htell hb hw
    case names_iff =>
      intro binder
      rw [← hnames, ← hlive]
      exact h.names_body hP htell hb
    case exit_iff => exact hstands.mem_exits
    case shared =>
      intro w hw w' hw' hne
      have hlt {w : EntranceWrapper} (hw : w ∈ b.entrances) : w.caller < s.cut.nodes.size :=
        ((hstands.mem_iff w.caller).mp (List.mem_map_of_mem hw)).1.lt
      simp only [hstands.shared w hw w' hw' hne, serves_withLinks, h.wraps.serves_iff hcut (hlt hw),
        h.wraps.serves_iff hcut (hlt hw')]
    case block => exact htell.bounded.block b hb

/-- The body of a relay has two live callers, and their calls write to different places. -/
theorem relay_boundaries : ∃ count P₁ report Q,
    (relay.separateHandles : Outcome ScheduleError (Nat × Program)) = .ok (count, P₁)
      ∧ schedule {} relay = .ok (report, Q)
      ∧ report.boundaries.map (fun b => (b.body, b.entrances.length, b.exits.length)) = [(1, 2, 2)]
      ∧ ∀ b ∈ report.boundaries, b.Holds .byDestination P₁ Q := by
  obtain ⟨⟨count, P₁⟩, hseparate, -⟩ := Outcome.exists_of_holds (fun _ => True)
    (by decide +kernel : Outcome.holds
      ((relay.separateHandles : Outcome ScheduleError (Nat × Program)).map _) = true)
  obtain ⟨⟨report, Q⟩, hschedule, hfound⟩ := Outcome.exists_of_holds
    (fun answer : ScheduleReport × Program => answer.1.boundaries.map
      (fun b => (b.body, b.entrances.length, b.exits.length)) = [(1, 2, 2)])
    (by decide +kernel : Outcome.holds ((schedule {} relay).map _) = true)
  exact ⟨count, P₁, report, Q, hseparate, hschedule, hfound,
    (schedule_boundaries (by decide +kernel) (by decide) rfl hseparate hschedule).2.2⟩

end TailFlow
