import TailFlow.Compile.Pipeline
import TailFlow.Proofs.Program.Text
import TailFlow.Proofs.Runs.Equivalence
import TailFlow.Proofs.Schedule.Acceptance
import TailFlow.Proofs.Schedule.Passage
import TailFlow.Proofs.Schedule.Width
import TailFlow.Proofs.Suite.LayeredPrograms
import TailFlow.Proofs.Suite.LayeredRuns

/-!
# Layered programs are compiled, and their plans run

Calls in a layered program are resolved and lead to greater numbers, so it is scheduled, whichever way
exits are shared. No handle reaches several calls, and each reaches one, so no handle has to be copied
and there is nothing to warn of. The layers are short and few, which bounds the bodies that a run
enters and the steps of the plan, so the default limits are never met.
-/

namespace TailFlow

open Program

namespace Layered

variable {formals : List (List TensorId)} {layers : List Layer} {P : Program}
  (h : Layered formals layers P)

include h

theorem listsAtMost : P.ListsAtMost 8 := by
  intro id subgraph hsubgraph
  obtain ⟨layer, hlayer, rfl⟩ := h.layer_of_subgraph hsubgraph
  have hlength := (h.stands hlayer).length_nodes_le
  simpa [Layer.subgraph] using hlength

/-! ### Scheduling -/

theorem live {binder : NodeId} {body : SubgraphId} (hnames : P.Names binder body) :
    P.Live binder := by
  obtain ⟨⟨owner, id, node⟩, hlists, rfl, hkind⟩ := hnames
  exact ⟨_, (h.binder_spec hlists hkind).2.2⟩

theorem exists_schedule (sharing : ExitSharing) :
    ∃ report Q, schedule ⟨none, sharing⟩ P = .ok (report, Q) := by
  have hlocal := h.singleAssignment.handlesLocal h.closed
  rcases schedule_cases h.wellFormed h.allBodies hlocal sharing with
    ⟨hopen, -⟩ | ⟨-, hcycle, -⟩ | ⟨-, -, hscheduled⟩
  · exact absurd hopen h.resolved
  · exact absurd hcycle h.acyclic
  · exact hscheduled

theorem separated_eq {s : Stages} {report : ScheduleReport} {Q : Program}
    (hlead : s.Lead P report Q) : s.separated = P := by
  obtain ⟨count, hseparate⟩ := hlead.separates
  have hsame := hseparate.symm.trans (separateHandles_of_reachesOne h.wellFormed h.reachesOne)
  exact (Prod.mk.inj (Except.ok.inj hsame)).2

variable {options : SchedulerOptions} {report : ScheduleReport} {Q : Program}
  (hschedule : schedule options P = .ok (report, Q))

include hschedule

theorem rewiredCalls_eq : report.rewiredCalls = 0 := by
  obtain ⟨s, hpass⟩ : ∃ s : Stages, s.Pass P report Q :=
    (schedule_passes h.wellFormed options).of_eq_ok hschedule
  have hsame := hpass.separates.symm.trans (separateHandles_of_reachesOne h.wellFormed h.reachesOne)
  exact (Prod.mk.inj (Except.ok.inj hsame)).1

theorem warnings_eq_nil : report.warnings = [] := by
  obtain ⟨s, hlead, htell⟩ := exists_toldStages h.wellFormed h.allBodies hschedule
  have hcuts := h.separated_eq hlead ▸ hlead.cuts
  have hlive {binder : NodeId} {body : SubgraphId} (hnames : s.cut.Names binder body) :
      s.cut.Live binder := by
    obtain ⟨call, hreaches⟩ := h.live ((hcuts.names_iff h.wellFormed).mp hnames)
    exact ⟨call, (hcuts.reaches_iff h.wellFormed).mpr hreaches⟩
  refine List.eq_nil_iff_forall_not_mem.mpr fun warning hmem => ?_
  have hfounded := htell.founded warning hmem
  cases warning with
  | duplicateLink call => exact hfounded
  | deadCaller binder body => exact hfounded.2 (hlive hfounded.1)
  | unusedBoundary body =>
    obtain ⟨first, -, -, hnames, -⟩ :=
      not_namedOnce_iff.mp ((hlead.mem_bodies body).mp hfounded.1).1
    exact hfounded.2 first hnames (hlive hnames)

/-! ### Running -/

/-- The scheduled program has a plan, and under the default limits both runs come to the same. -/
theorem exists_runs : ∃ plan, ExecutionPlan.lower Q = .ok plan
    ∧ ∀ inputs : List DenseArray, entryArguments P inputs = .ok (inputs.map .array) →
      ∃ expected actual, Recursive.run P {} inputs = .ok expected
        ∧ Machine.run plan {} inputs = .ok actual ∧ expected.outputs = actual.outputs
        ∧ expected.callCounts = actual.callCounts
        ∧ sumOf actual.callCounts.values ≤ mostEntries 5 := by
  obtain ⟨s, hlead⟩ := exists_stages h.wellFormed h.allBodies hschedule
  obtain ⟨plan, hplan, -⟩ := hlead.exists_plan h.wellFormed h.allBodies h.links_eq
  refine ⟨plan, hplan, fun inputs hinputs => ?_⟩
  obtain ⟨result, bodies, steps, hrun, hbodies⟩ : ∃ result bodies steps, Recursive.run P {} inputs
      = .ok ⟨[result], countAll .empty bodies, steps⟩ ∧ bodies.length ≤ mostEntries 5 :=
    h.exists_run hinputs (by decide) (by decide)
  -- Four calls are open at once at most, so the plan has nine continuations open at most.
  obtain ⟨result', bodies', steps', hshallow, -⟩ : ∃ result' bodies' steps',
      Recursive.run P ⟨4, defaultSteps⟩ inputs
        = .ok ⟨[result'], countAll .empty bodies', steps'⟩ ∧ bodies'.length ≤ mostEntries 5 :=
    h.exists_run hinputs (by decide) (by decide)
  obtain ⟨houtputs, hcounts⟩ := Recursive.run_unique h.wellFormed h.handlesConfined hrun hshallow
  obtain ⟨entered, hexecutes, hsame⟩ :=
    Recursive.executes_of_run h.wellFormed h.handlesConfined hshallow
  have hentered : sumOf (countAll .empty entered).values ≤ mostEntries 5 := by
    rw [← hsame, ← hcounts, sumOf_countAll]
    exact Nat.le_trans (Nat.le_of_eq (Nat.zero_add _)) hbodies
  have hwidth : plan.width ≤ 8 :=
    hlead.width_le h.wellFormed (by decide) (h.separated_eq hlead ▸ h.listsAtMost) hplan
  have houtputsEq : P.subgraphs[P.entry]?.map Subgraph.outputs = some P.outputs := by
    rw [h.entry_eq]
    exact h.outputs_eq
  obtain ⟨more, hmachine⟩ : ∃ more, Machine.run plan {} inputs
      = .ok ⟨[result'], countAll .empty entered, more⟩ := by
    refine hlead.runs_plan h.wellFormed h.allBodies h.links_eq houtputsEq h.singleAssignment h.closed
      hplan hexecutes (by decide) ?_
    rw [sumOf_countAll] at hentered
    have hlength : entered.length ≤ 341 := Nat.le_trans (Nat.le_add_left _ _) hentered
    calc (plan.width + 1) * (4 * entered.length + 3)
        ≤ 9 * (4 * 341 + 3) := Nat.mul_le_mul (by omega) (by omega)
      _ ≤ defaultSteps := by decide
  exact ⟨_, _, hrun, hmachine, houtputs, hcounts.trans hsame, hentered⟩

end Layered

end TailFlow
