import TailFlow.Proofs.Schedule.Recording
import TailFlow.Proofs.Schedule.Settling

/-!
# The stages of a scheduling run

A run that is not refused has separated the handles, cut until all calls were tail calls, and wrapped
the bodies that are named more than once. `Stages` holds the programs in between, and
`exists_stages` is the one place where the run is taken apart.
-/

namespace TailFlow

open Program

/-- The programs that a scheduling run goes through. -/
structure Stages where
  separated : Program
  cut : Program
  /-- The links that the cuts take. -/
  links : IdMap Link
  /-- The bodies that are wrapped. -/
  bodies : List SubgraphId
  wrapped : Program

/-- A run goes through the stages and ends with the report and the program. -/
structure Stages.Lead (s : Stages) (P : Program) (report : ScheduleReport) (Q : Program) : Prop where
  separates : ∃ count,
    (P.separateHandles : Outcome ScheduleError (Nat × Program)) = .ok (count, s.separated)
  detects : ∃ catalog detection, Detection.detect s.separated catalog = .ok detection
  cuts : Cuts s.separated s.cut s.links report.nonTailCalls
  allTail : ∀ id < s.cut.subgraphs.size, s.cut.AllTail id
  mem_bodies : ∀ body, body ∈ s.bodies
    ↔ ¬ s.cut.NamedOnce body ∧ Reach.Leads s.cut.leadsTo s.cut.entry body
  wraps : Wraps s.cut s.links s.bodies s.wrapped report.links
  served : Wrapped s.cut (fun id => (∃ body ∈ s.bodies, s.cut.Names id body) ∧ s.cut.Live id)
    s.cut s.links s.wrapped report.links
  result : Q = { s.wrapped with links := s.wrapped.links.union report.links }

/-- The report of a run tells the boundaries that it has built, and what it warns of is true. -/
structure Stages.Tell (s : Stages) (sharing : ExitSharing) (report : ScheduleReport) : Prop where
  bounded : Bounded sharing s.cut s.bodies report.boundaries s.wrapped report.links
  founded : ∀ warning ∈ report.warnings, warning.Founded s.cut s.bodies

namespace Program

variable {P P' : Program}

/-- Separation changes nothing about a subgraph but the nodes that it lists. -/
theorem Separates.keeps (hP : P.WellFormed) (hseparates : P.Separates P') :
    P'.links = P.links ∧ P'.entry = P.entry ∧ P'.outputs = P.outputs
      ∧ ∀ ⦃id : SubgraphId⦄ ⦃subgraph : Subgraph⦄, P'.subgraphs[id]? = some subgraph →
        ∃ before, P.subgraphs[id]? = some before
          ∧ subgraph = { before with nodes := subgraph.nodes } := by
  induction hseparates with
  | refl => exact ⟨rfl, rfl, rfl, fun _ subgraph hsubgraph => ⟨subgraph, hsubgraph, rfl⟩⟩
  | tail hbefore hstep ih =>
    obtain ⟨r, hr, rfl⟩ := hstep
    obtain ⟨hlinks, hentry, houtputs, hsubgraphs⟩ := ih
    refine ⟨hlinks, hentry, houtputs, fun id subgraph hsubgraph => ?_⟩
    obtain ⟨middle, hmiddle, hsame, -⟩ :=
      Rewiring.subgraph_of_after (Separates.wellFormed hP hbefore) hr hsubgraph
    obtain ⟨before, hfound, hsame'⟩ := hsubgraphs hmiddle
    exact ⟨before, hfound, by rw [hsame, hsame']⟩

theorem Separates.allBodies (hP : P.WellFormed) (hbody : P.AllBodies)
    (hseparates : P.Separates P') : P'.AllBodies := by
  intro id subgraph hsubgraph
  obtain ⟨-, -, -, hsubgraphs⟩ := hseparates.keeps hP
  obtain ⟨before, hbefore, hsame⟩ := hsubgraphs hsubgraph
  have hkind : subgraph.kind = before.kind := by rw [hsame]
  exact hkind.trans (hbody hbefore)

end Program

theorem Wraps.keeps_base {P W : Program} {links links' : IdMap Link} {bodies : List SubgraphId}
    (hP : P.WellFormed) (hwraps : Wraps P links bodies W links') :
    W.links = P.links ∧ W.entry = P.entry ∧ W.outputs = P.outputs :=
  (keeps hP (fun W => W.links = P.links ∧ W.entry = P.entry ∧ W.outputs = P.outputs)
    (fun _ _ _ _ _ hkept => hkept) ⟨rfl, rfl, rfl⟩ hwraps).2.2

theorem Cuts.unwrapped {P P' : Program} {links : IdMap Link} {calls : List NodeId}
    (hP : P.WellFormed) (hbody : P.AllBodies) (hcuts : Cuts P P' links calls) : P'.Unwrapped := by
  intro id subgraph hsubgraph
  rcases hcuts.resumed_of_segment hP hbody hsubgraph with hkind | ⟨⟨origin, hkind⟩, -⟩
  · rw [hkind]
    rfl
  · rw [hkind]
    rfl

theorem exists_toldStages {P Q : Program} {options : SchedulerOptions} {report : ScheduleReport}
    (hP : P.WellFormed) (hbody : P.AllBodies)
    (hschedule : schedule options P = .ok (report, Q)) :
    ∃ s : Stages, s.Lead P report Q ∧ s.Tell options.sharing report := by
  obtain ⟨⟨count, separated⟩, hseparate, hrest⟩ := Outcome.bind_eq_ok.mp hschedule
  obtain ⟨catalog, -, hrest⟩ := Outcome.bind_eq_ok.mp hrest
  obtain ⟨detection, hdetect, hrest⟩ := Outcome.bind_eq_ok.mp hrest
  obtain ⟨settled, hsettle, hrest⟩ := Outcome.bind_eq_ok.mp hrest
  obtain ⟨⟨split, cut⟩, hsplit, hrest⟩ := Outcome.bind_eq_ok.mp hrest
  obtain ⟨⟨last, wrapped⟩, hwrap, hrest⟩ := Outcome.bind_eq_ok.mp hrest
  obtain ⟨-, hpure⟩ := Outcome.check_bind_eq_ok.mp hrest
  obtain ⟨rfl, rfl⟩ := Prod.mk.inj (Outcome.pure_eq_ok.mp hpure)
  have hseparates := separateHandles_separates hP hseparate
  have hseparated := hseparates.wellFormed hP
  have hbodies := hseparates.allBodies hP hbody
  obtain ⟨⟨hcuts, -, hrecorded, hsilent, hunwrapped⟩, hall⟩ := ScheduleRun.splitAll_splitting
    hseparated (ScheduleRun.settleAll_splitting hseparated hdetect hsettle) hsplit
  obtain ⟨bodies, hmem, hwraps, hserved, hcalls, hbounded, hwarned⟩ :=
    ScheduleRun.wrapAll_eq_ok (hcuts.wellFormed hseparated) (hcuts.unwrapped hseparated hbodies)
      hunwrapped hwrap
  have hclean : last.recorder.Clean wrapped :=
    ScheduleRun.wrapAll_clean ⟨hrecorded, hcuts.key_lt hseparated⟩ hwrap
  refine ⟨⟨separated, cut, split.recorder.links, bodies, wrapped⟩, ⟨⟨count, hseparate⟩,
    ⟨catalog, detection, hdetect⟩, ?_, hall, hmem, hwraps, hserved, rfl⟩, hbounded,
    fun warning hwarning => ?_⟩
  · rw [show _ = last.nonTailCalls from rfl, hcalls]
    exact hcuts
  · change warning ∈ last.recorder.warnings ++ last.warnings at hwarning
    rw [hclean.silent] at hwarning
    refine (hwarned warning hwarning).resolve_left ?_
    rw [hsilent]
    exact List.not_mem_nil

theorem exists_stages {P Q : Program} {options : SchedulerOptions} {report : ScheduleReport}
    (hP : P.WellFormed) (hbody : P.AllBodies)
    (hschedule : schedule options P = .ok (report, Q)) : ∃ s : Stages, s.Lead P report Q :=
  (exists_toldStages hP hbody hschedule).imp fun _ h => h.1

namespace Stages.Lead

variable {s : Stages} {P Q : Program} {report : ScheduleReport}

theorem separated_ok (hP : P.WellFormed) (h : s.Lead P report Q) : s.separated.WellFormed := by
  obtain ⟨count, hseparate⟩ := h.separates
  exact (separateHandles_separates hP hseparate).wellFormed hP

theorem cut_ok (hP : P.WellFormed) (h : s.Lead P report Q) : s.cut.WellFormed :=
  h.cuts.wellFormed (h.separated_ok hP)

theorem wrapped_ok (hP : P.WellFormed) (h : s.Lead P report Q) : s.wrapped.WellFormed :=
  h.wraps.wellFormed (h.cut_ok hP)

theorem result_ok (hP : P.WellFormed) (h : s.Lead P report Q) : Q.WellFormed :=
  h.result ▸ (h.wrapped_ok hP).withLinks _

/-- Before wrapping there are bodies and segments only, and every segment is gone on with after some
call. -/
theorem cut_kind (hP : P.WellFormed) (hbody : P.AllBodies) (h : s.Lead P report Q) {id : SubgraphId}
    {subgraph : Subgraph} (hsubgraph : s.cut.subgraphs[id]? = some subgraph) :
    subgraph.kind = .body ∨ (∃ origin, subgraph.kind = .segment origin)
      ∧ ∃ call link, s.links.get? call = some link ∧ link.continuation = id := by
  obtain ⟨count, hseparate⟩ := h.separates
  exact h.cuts.resumed_of_segment (h.separated_ok hP)
    ((separateHandles_separates hP hseparate).allBodies hP hbody) hsubgraph

theorem unwrapped (hP : P.WellFormed) (hbody : P.AllBodies) (h : s.Lead P report Q) :
    s.cut.Unwrapped := by
  obtain ⟨count, hseparate⟩ := h.separates
  exact h.cuts.unwrapped (h.separated_ok hP)
    ((separateHandles_separates hP hseparate).allBodies hP hbody)

theorem result_eq (hP : P.WellFormed) (hlinks : P.links = .empty) (h : s.Lead P report Q) :
    Q = { s.wrapped with links := report.links } := by
  obtain ⟨count, hseparate⟩ := h.separates
  have hnone : s.wrapped.links = .empty := by
    rw [(h.wraps.keeps_base (h.cut_ok hP)).1, h.cuts.links_eq,
      ((separateHandles_separates hP hseparate).keeps hP).1, hlinks]
  rw [h.result, hnone, IdMap.empty_union]

end Stages.Lead

end TailFlow
