import TailFlow.Proofs.Boundary.Callers
import TailFlow.Proofs.Handles.Repeating
import TailFlow.Proofs.Schedule.Origin
import TailFlow.Proofs.Schedule.TailForm

/-!
# Scheduling a scheduled program

Scheduling leaves a program as it is in which every binder reaches one call at most, every call is
resolved and is a tail call, and the live callers of bodies with several callers are entrances
already. A scheduled program is of this kind, provided that handles stay in their subgraph in the
program that it comes from.
-/

namespace TailFlow

open Program

/-- Scheduling has nothing to do: neither a call to rewire, nor one to split off, nor a body to
wrap. -/
structure Program.Settled (P : Program) : Prop where
  wellFormed : P.WellFormed
  unique : P.HandlesUnique
  resolve : P.AllResolve
  allTail : ∀ id < P.subgraphs.size, P.AllTail id
  reachesOne : ∀ binder, P.ReachesOne binder
  bounded : ∀ ⦃body : SubgraphId⦄ ⦃binder : NodeId⦄, ¬ P.NamedOnce body →
    Reach.Leads P.leadsTo P.entry body → P.Names binder body → P.Live binder →
    ∃ listed subgraph, P.Lists listed ∧ listed.id = binder
      ∧ P.subgraphs[listed.owner]? = some subgraph ∧ subgraph.kind = .entrance body

/-! ### A settled program stays as it is -/

namespace ScheduleRun

variable {P : Program} {sharing : ExitSharing} {catalog : Catalog}

/-- Callers that all stand in entrances of the body go through entrances. -/
theorem isBounded_eq_true (hP : P.WellFormed) {body : SubgraphId} {groups : List CallerGroup}
    (hsome : groups.flatMap CallerGroup.callers ≠ [])
    (hall : ∀ caller ∈ groups.flatMap CallerGroup.callers, ∃ listed subgraph, P.Lists listed
      ∧ listed.id = caller ∧ P.subgraphs[listed.owner]? = some subgraph
      ∧ subgraph.kind = .entrance body) : P.isBounded body groups = true := by
  unfold isBounded
  rw [Bool.and_eq_true]
  constructor
  · simpa using hsome
  · rw [List.all_eq_true]
    intro caller hmem
    obtain ⟨listed, subgraph, hlists, rfl, hsubgraph, hkind⟩ := hall caller hmem
    rw [hP.owner?_eq hlists, Option.bind_some, hsubgraph, Option.map_some, hkind]
    exact beq_self_eq_true _

/-- A body whose live callers stand in its entrances is not wrapped again. -/
theorem wrapBody_settled (hsettled : P.Settled)
    (hcallers : ∀ body binder, binder ∈ catalog.callers body ↔ P.Names binder body)
    {body : SubgraphId} (hmany : ¬ P.NamedOnce body) (hreached : Reach.Leads P.leadsTo P.entry body)
    (run : ScheduleRun) :
    ∃ warnings, wrapBody sharing catalog (run, P) body = .ok ({ run with warnings }, P) := by
  have hP := hsettled.wellFormed
  have hbinders : ∀ caller ∈ catalog.callers body, P.ListsBinder caller := by
    intro caller hmem
    obtain ⟨listed, hlists, hid, hkind⟩ := (hcallers body caller).mp hmem
    refine ⟨listed, hlists, hid, ?_⟩
    rw [callee?_eq_some.mpr hkind]
    rfl
  obtain ⟨⟨groups, dead⟩, hgroup⟩ : ∃ answer,
      P.groupCallers sharing body (catalog.callers body) = .ok answer :=
    exists_groupCallers hP fun caller hmem => ⟨hbinders caller hmem, hsettled.reachesOne caller⟩
  obtain ⟨hgrouped, -⟩ := groupCallers_eq_ok hP hbinders hgroup
  unfold wrapBody
  dsimp only
  rw [hgroup, Outcome.ok_bind]
  dsimp only
  split
  · exact ⟨_, rfl⟩
  · rename_i hnonempty
    have hbounded : P.isBounded body groups = true := by
      refine isBounded_eq_true hP ?_ fun caller hmem => ?_
      · obtain ⟨group, hfirst⟩ : ∃ group, group ∈ groups :=
          List.exists_mem_of_ne_nil _ (mt List.isEmpty_iff.mpr hnonempty)
        obtain ⟨caller, hcaller⟩ := List.exists_mem_of_ne_nil _ (hgrouped.nonempty group hfirst)
        exact List.ne_nil_of_mem (List.mem_flatMap.mpr ⟨group, hfirst, hcaller⟩)
      · obtain ⟨hmember, hlive⟩ := (hgrouped.mem_iff caller).mp hmem
        exact hsettled.bounded hmany hreached ((hcallers body caller).mp hmember) hlive
    rw [if_pos hbounded]
    exact ⟨_, rfl⟩

theorem wrapAll_settled (hsettled : P.Settled) (run : ScheduleRun) :
    ∃ warnings, run.wrapAll sharing P = .ok ({ run with warnings }, P) := by
  obtain ⟨catalog, hbuild, hreachable, hcallers⟩ := Catalog.exists_build hsettled.wellFormed
  have hbodies : ∀ body ∈ catalog.multiplyCalled,
      ¬ P.NamedOnce body ∧ Reach.Leads P.leadsTo P.entry body := by
    intro body hmem
    rwa [Catalog.mem_multiplyCalled hcallers, hreachable] at hmem
  have hfold (bodies : List SubgraphId) (hbodies : ∀ body ∈ bodies,
      ¬ P.NamedOnce body ∧ Reach.Leads P.leadsTo P.entry body) (run : ScheduleRun) :
      ∃ warnings, bodies.foldlM (wrapBody sharing catalog) (run, P)
        = .ok ({ run with warnings }, P) := by
    induction bodies generalizing run with
    | nil => exact ⟨run.warnings, rfl⟩
    | cons body rest ih =>
      obtain ⟨⟨hmany, hreached⟩, htail⟩ := List.forall_mem_cons.mp hbodies
      obtain ⟨warnings, hfirst⟩ := wrapBody_settled hsettled hcallers hmany hreached run
      obtain ⟨warnings', hrest⟩ := ih htail { run with warnings }
      exact ⟨warnings', Outcome.foldlM_cons_eq_ok.mpr ⟨_, hfirst, hrest⟩⟩
  obtain ⟨warnings, hwrap⟩ := hfold catalog.multiplyCalled hbodies run
  refine ⟨warnings, ?_⟩
  rw [wrapAll, hbuild, Outcome.ok_bind]
  exact hwrap

theorem splitAll_nil {limit left : Nat} {run : ScheduleRun} (hempty : run.queue = []) :
    splitAll limit left run P = .ok (run, P) := by
  cases left <;> simp [splitAll, hempty]

end ScheduleRun

theorem schedule_settled {P : Program} (hsettled : P.Settled) (options : SchedulerOptions) :
    ∃ report, schedule options P = .ok (report, P) ∧ report.isNoop = true
      ∧ report.links = .empty := by
  have hP := hsettled.wellFormed
  obtain ⟨catalog, hbuild, -⟩ := Catalog.exists_build hP
  obtain ⟨detection, hdetect⟩ : ∃ detection, Detection.detect P catalog = .ok detection := by
    rcases Detection.detect_cases hP hsettled.unique hsettled.resolve catalog with
      ⟨-, hdetect⟩ | ⟨hcycle, -⟩
    · exact hdetect
    · exact absurd hcycle (Detection.not_hasNonTailCycle_of_allTail hsettled.allTail)
  have hnone (id : SubgraphId) : ¬ 0 < Detection.pending detection.nonTailCalls id := by
    rw [Detection.pending_pos_iff hP hdetect]
    rintro ⟨call, hnonTail⟩
    exact hsettled.allTail id hnonTail.lt call hnonTail
  have hstart : ∀ id ∈ P.order, ScheduleRun.start.states.get? id = none := fun _ _ => rfl
  obtain ⟨states, hsettle, hstages⟩ := ScheduleRun.exists_settleAll detection hP.order_nodup hstart
  have hqueue : (P.order.filter fun id => 0 < Detection.pending detection.nonTailCalls id) = [] :=
    List.filter_eq_nil_iff.mpr fun id _ => by simpa using hnone id
  rw [hqueue, List.append_nil] at hsettle
  let settled : ScheduleRun := { ScheduleRun.start with states }
  obtain ⟨warnings, hwrap⟩ : ∃ warnings,
      settled.wrapAll options.sharing P = .ok ({ settled with warnings }, P) :=
    ScheduleRun.wrapAll_settled hsettled settled
  have hready : states.Ready := by
    intro id stage hstage
    rw [hstages, Progress.settled, if_neg (hnone id)] at hstage
    split at hstage
    · exact Option.some.inj hstage ▸ .inr rfl
    · exact absurd hstage.symm (Option.some_ne_none _)
  obtain ⟨table, hfinish, -⟩ := ProgressTable.finish_eq_ok hready
  refine ⟨ScheduleRun.report { settled with states := table, warnings } 0, ?_, rfl, rfl⟩
  rw [schedule, separateHandles_of_reachesOne hP hsettled.reachesOne, Outcome.ok_bind]
  dsimp only
  rw [hbuild, Outcome.ok_bind, hdetect, Outcome.ok_bind, hsettle, Outcome.ok_bind,
    ScheduleRun.splitAll_nil rfl, Outcome.ok_bind]
  dsimp only
  rw [hwrap, Outcome.ok_bind]
  dsimp only
  rw [hfinish]
  rfl

/-! ### A scheduled program is settled -/

namespace Program

variable {P : Program}

theorem flows_withLinks {links : IdMap Link} {binder : NodeId} {tensor : TensorId} :
    { P with links }.Flows binder tensor ↔ P.Flows binder tensor := by
  constructor
  · intro hflows
    induction hflows with
    | made hlists hid hbinder houtput => exact .made hlists hid hbinder houtput
    | picked _ hlists hreads houtput ih => exact .picked ih hlists hreads houtput
  · intro hflows
    induction hflows with
    | made hlists hid hbinder houtput => exact .made hlists hid hbinder houtput
    | picked _ hlists hreads houtput ih => exact .picked ih hlists hreads houtput

theorem reaches_withLinks {links : IdMap Link} {binder call : NodeId} :
    { P with links }.Reaches binder call ↔ P.Reaches binder call :=
  exists_congr fun _ => and_congr_left' flows_withLinks

theorem Settled.withLinks (hsettled : P.Settled) (links : IdMap Link) :
    { P with links }.Settled where
  wellFormed := hsettled.wellFormed.withLinks links
  unique := hsettled.unique
  resolve := hsettled.resolve
  allTail := hsettled.allTail
  reachesOne := fun binder first second hfirst hsecond =>
    hsettled.reachesOne binder (reaches_withLinks.mp hfirst) (reaches_withLinks.mp hsecond)
  bounded := fun body binder hmany hreached hnames hlive => by
    obtain ⟨call, hreaches⟩ := hlive
    exact hsettled.bounded hmany hreached hnames ⟨call, reaches_withLinks.mp hreaches⟩

end Program

namespace Stages.Lead

variable {s : Stages} {P Q : Program} {report : ScheduleReport}

theorem cut_handles (hP : P.WellFormed) (hlocal : P.HandlesLocal) (h : s.Lead P report Q) :
    s.cut.HandlesUnique ∧ s.cut.AllResolve ∧ ∀ binder, s.cut.ReachesOne binder := by
  obtain ⟨count, hseparate⟩ := h.separates
  obtain ⟨catalog, detection, hdetect⟩ := h.detects
  have hseparated := h.separated_ok hP
  obtain ⟨hlocal', hone⟩ := reachesOne_of_separateHandles hP hlocal hseparate
  obtain ⟨hunique, hresolve, hreaches⟩ := h.cuts.keeps_handles hseparated hlocal'.unique
    (Detection.allResolve_of_detect hseparated hlocal'.unique hdetect)
  refine ⟨hunique, hresolve, fun binder first second hfirst hsecond => ?_⟩
  exact hone binder ((hreaches binder first).mp hfirst) ((hreaches binder second).mp hsecond)

theorem attached (hP : P.WellFormed) (hbody : P.AllBodies) (h : s.Lead P report Q) :
    Wraps.Attached s.cut s.wrapped report.links := by
  have hplain := h.unwrapped hP hbody
  obtain ⟨count, hseparate⟩ := h.separates
  have hbodies := (separateHandles_separates hP hseparate).allBodies hP hbody
  refine ⟨hplain, ?_, fun x hx => ?_⟩
  · intro id origin subgraph hsubgraph hkind
    have hlt := h.cuts.origin_lt (h.separated_ok hP) hbodies hsubgraph
    rw [hkind] at hlt
    exact Nat.lt_of_lt_of_le hlt h.cuts.size_subgraphs_le
  · rcases h.served.exits x.id _ x.body hx.subgraph_eq rfl with hold | hnew
    · exact nomatch hplain hold
    · exact hnew

/-- A scheduled program is settled if handles are local where it comes from. -/
theorem settled (hP : P.WellFormed) (hbody : P.AllBodies) (hlocal : P.HandlesLocal)
    (h : s.Lead P report Q) : Q.Settled := by
  have hcut := h.cut_ok hP
  have hplain := h.unwrapped hP hbody
  obtain ⟨hunique, hresolve, hone⟩ := h.cut_handles hP hlocal
  have hwrapped : s.wrapped.Settled := by
    refine ⟨h.wrapped_ok hP, (h.wraps.handlesApart hcut hunique hplain).unique,
      h.wraps.allResolve hcut hunique hplain hresolve, h.allTail_wrapped hP,
      h.wraps.reachesOne hcut hone, ?_⟩
    intro body binder hmany hreached hnames hlive
    obtain ⟨e, he, hbinder, rfl⟩ := h.wraps.entrance_of_live hcut (h.attached hP hbody)
      h.mem_bodies h.served hmany hreached hnames hlive
    refine ⟨⟨e.id, e.binder, _⟩, _, ⟨_, he.subgraph_eq, List.mem_cons_self, he.binder_eq⟩, hbinder,
      he.subgraph_eq, rfl⟩
  rw [h.result]
  exact hwrapped.withLinks _

end Stages.Lead

/-- Scheduling a scheduled program changes nothing, whatever the options of the two runs are, if in
the program that was scheduled first every handle has one writer and only nodes behind the writer in
its subgraph read it. -/
theorem schedule_idempotent {P Q : Program} {first : SchedulerOptions} {report : ScheduleReport}
    (hvalid : P.validate = .ok ()) (hbody : P.AllBodies)
    (hlocal : P.HandlesLocal) (hschedule : schedule first P = .ok (report, Q))
    (second : SchedulerOptions) :
    ∃ again, schedule second Q = .ok (again, Q) ∧ again.isNoop = true ∧ again.links = .empty := by
  have hP := wellFormed_of_validate hvalid
  obtain ⟨s, h⟩ := exists_stages hP hbody hschedule
  exact schedule_settled (h.settled hP hbody hlocal) second

/-- A second run may allow no splits and keep the exits of callers apart. -/
theorem relay_stays : relay.HandlesLocal ∧ ∃ report Q, schedule {} relay = .ok (report, Q)
    ∧ report.isNoop = false ∧ ∃ again, schedule ⟨some 0, .perCaller⟩ Q = .ok (again, Q)
      ∧ again.isNoop = true := by
  have hlocal : relay.HandlesLocal := by decide +kernel
  obtain ⟨⟨report, Q⟩, hschedule, hnoop⟩ := Outcome.exists_of_holds
    (fun answer : ScheduleReport × Program => answer.1.isNoop = false)
    (by decide +kernel : Outcome.holds ((schedule {} relay).map _) = true)
  obtain ⟨again, hagain, hnothing, -⟩ := schedule_idempotent (by decide +kernel) (by decide) hlocal
    hschedule ⟨some 0, .perCaller⟩
  exact ⟨hlocal, report, Q, hschedule, hnoop, again, hagain, hnothing⟩

end TailFlow
