import TailFlow.Proofs.Runs.Closed
import TailFlow.Proofs.Runs.Scheduled
import TailFlow.Proofs.Runs.Stack
import TailFlow.Proofs.Schedule.Idempotence

/-!
# Control equivalence

A run of the plan of a scheduled program comes to the outputs and to the counts that a recursive run
of the program comes to. The recursive run is carried through the stages of the scheduling run up to
the cuts, together with the fact that no body is entered while it waits, and from there on the run of
the plan follows it.
-/

namespace TailFlow

open Program

theorem Cuts.outputs_eq {P P' : Program} {links : IdMap Link} {calls : List NodeId}
    (hcuts : Cuts P P' links calls) : P'.outputs = P.outputs := by
  induction hcuts with
  | none => rfl
  | cut _ _ ih => exact ih

namespace Stages.Lead

variable {s : Stages} {P Q : Program} {report : ScheduleReport}

/-- What is invoked before scheduling is invoked after the cuts, and no body is entered while it
waits. -/
theorem invokes_cut (hP : P.WellFormed) (hlocal : P.HandlesLocal) (honce : P.WritesOnce)
    (hlinks : P.links = .empty) (h : s.Lead P report Q) {levels : Nat} {id : SubgraphId}
    {arguments results : List DenseArray} {entered : List SubgraphId}
    (hinvokes : Invokes P (fun _ _ => True) levels id arguments results entered) :
    Invokes { s.cut with links := s.links } s.separated.StaysOut levels id arguments results
      entered := by
  obtain ⟨count, hseparate⟩ := h.separates
  obtain ⟨catalog, detection, hdetect⟩ := h.detects
  obtain ⟨hlocal', -, hlinks', hkept⟩ :=
    (separateHandles_separates hP hseparate).keeps_runs hP hlocal honce hlinks
  have hseparated := h.separated_ok hP
  have hstays := Invokes.staysOut hseparated hlocal'.unique hdetect hlinks' (hkept _ _ _ _ _ _ hinvokes)
  exact h.cuts.invokes_after hseparated hlinks' hstays.1

theorem cut_ownsApart (hP : P.WellFormed) (hapart : P.OwnsApart) (h : s.Lead P report Q) :
    s.cut.OwnsApart := by
  obtain ⟨count, hseparate⟩ := h.separates
  exact h.cuts.ownsApart (h.separated_ok hP)
    ((separateHandles_separates hP hseparate).ownsApart hP hapart)

theorem outputs_eq (hP : P.WellFormed) (h : s.Lead P report Q) : Q.outputs = P.outputs := by
  obtain ⟨count, hseparate⟩ := h.separates
  rw [h.result]
  show s.wrapped.outputs = P.outputs
  rw [(h.wraps.keeps_base (h.cut_ok hP)).2.2, h.cuts.outputs_eq,
    ((separateHandles_separates hP hseparate).keeps hP).2.2.1]

theorem answers (hP : P.WellFormed) (hbody : P.AllBodies) (hlinks : P.links = .empty)
    (hlocal : P.HandlesLocal) (honce : P.WritesOnce) (hapart : P.OwnsApart)
    (h : s.Lead P report Q) {plan : ExecutionPlan} (hplan : ExecutionPlan.lower Q = .ok plan)
    {levels : Nat} (depth : Nat) {id : SubgraphId} {arguments results : List DenseArray}
    {entered : List SubgraphId}
    (hinvokes : Invokes P (fun _ _ => True) levels id arguments results entered) :
    Machine.Answers plan depth s.cut (2 * levels - 1) [] id arguments results entered := by
  obtain ⟨count, hseparate⟩ := h.separates
  have hseparates := separateHandles_separates hP hseparate
  have hbodies := hseparates.allBodies hP hbody
  have hseparated := h.separated_ok hP
  have hlowers := ExecutionPlan.lowers_of_lower (h.result_ok hP) hplan
  rw [h.result_eq hP hlinks] at hlowers
  have hcut := h.invokes_cut hP hlocal honce hlinks hinvokes
  obtain ⟨subgraph, hsubgraph, hkind⟩ : ∃ subgraph, s.cut.subgraphs[id]? = some subgraph
      ∧ subgraph.kind = .body := by
    cases levels with
    | zero => exact hinvokes.elim
    | succ levels =>
      obtain ⟨before, env, inside, hbefore, -⟩ := invokes_succ.mp hinvokes
      obtain ⟨middle, hmiddle, -, hkind⟩ := (hseparates.keeps_interface hP).2 hbefore
      obtain ⟨after, hafter, -, hkind'⟩ := (h.cuts.keeps_interface hseparated).2 hmiddle
      exact ⟨after, hafter, hkind'.trans (hkind.trans (hbody hbefore))⟩
  exact h.wraps.answers_body (h.cut_ok hP) (h.cut_ownsApart hP hapart)
    (h.outputs_nodup hP honce hlocal hlinks) (h.cuts.suspends hseparated hbodies) hlowers
    (h.unwrapped hP hbody)
    (fun _ _ hnames => h.cuts.kind_of_names hseparated hbodies hnames) hsubgraph hkind hcut

end Stages.Lead

namespace Machine

/-- A run of a plan ends with the results that the entry hands over, where these have been read from
the outputs of the program. It enters four subgraphs for every body that is counted, and three more,
at most. -/
theorem run_of_answers {P R : Program} {plan : ExecutionPlan} {depth room : Nat}
    {inputs outputs : List DenseArray} {entered : List SubgraphId} {env : Environment}
    (harguments : entryArguments plan.program inputs = .ok (inputs.map .array))
    (hanswers : Answers plan depth P room [] plan.program.entry inputs outputs entered)
    (hroom : room ≤ depth)
    (hreads : List.Forall₂ (R.Reads env) plan.program.outputs (outputs.map .array))
    {limits : RunLimits} (hdepth : depth ≤ limits.maxCallDepth)
    (hsteps : (plan.width + 1) * (4 * entered.length + 3) ≤ limits.maxSteps) :
    ∃ steps, run plan limits inputs = .ok ⟨outputs, countAll .empty entered, steps⟩ := by
  have hlength := hreads.length_eq
  rw [List.length_map] at hlength
  obtain @⟨target, started, left, after, rest, htarget, -, hstart, -, hreturn, rfl, entries, cost, hdue,
    hcost, hgoes⟩ :=
    hanswers .empty ⟨none, plan.program.outputs⟩ [] (fun _ _ => rfl) (by simpa using hroom) hlength
  have hentries : entries ≤ 4 * (target.kind.entering plan.program.entry ++ rest).length + 3 := by
    have hpaid := Place.due_le plan.program
      ⟨some plan.program.entry, started, [⟨none, plan.program.outputs⟩]⟩
    rw [List.length_singleton] at hpaid
    rw [List.length_append]
    omega
  have hwidth := Nat.mul_le_mul_left plan.width hentries
  rw [Nat.add_mul, Nat.one_mul] at hsteps
  have hzero : (0 : Nat) + cost ≤ limits.maxSteps := by omega
  obtain ⟨more, hmore⟩ : ∃ more, entryAllowance limits = entries + more := by
    refine ⟨entryAllowance limits - entries, ?_⟩
    unfold entryAllowance
    omega
  have hruns := hgoes limits ⟨countAll .empty (target.kind.entering plan.program.entry), 0⟩ more
    hdepth hzero
  rw [← hmore, ← countAll_append] at hruns
  have hbound : List.Forall₂ (plan.program.Reads after) plan.program.outputs (outputs.map .array) :=
    Environment.reads_bindAll_of_reads hreads hreturn
  exact ⟨_, run_eq_ok (start_eq_ok htarget harguments hstart) hruns hbound⟩

end Machine

/-- Whatever is executed before scheduling, the plan runs to, in a number of steps that is bounded by
the number of bodies that are entered. -/
theorem Stages.Lead.runs_plan {s : Stages} {P Q : Program} {report : ScheduleReport}
    (hP : P.WellFormed) (hbody : P.AllBodies) (hlinks : P.links = .empty)
    (houtputs : P.subgraphs[P.entry]?.map Subgraph.outputs = some P.outputs)
    (honce : P.SingleAssignment) (hclosed : P.Closed) (h : s.Lead P report Q)
    {plan : ExecutionPlan} (hplan : ExecutionPlan.lower Q = .ok plan) {depth : Nat}
    {inputs outputs : List DenseArray} {entered : List SubgraphId}
    (hexecutes : Executes P (fun _ _ => True) (depth + 1) inputs outputs entered)
    {limits : RunLimits} (hdepth : 2 * depth + 1 ≤ limits.maxCallDepth)
    (hsteps : (plan.width + 1) * (4 * entered.length + 3) ≤ limits.maxSteps) :
    ∃ steps, Machine.run plan limits inputs = .ok ⟨outputs, countAll .empty entered, steps⟩ := by
  obtain ⟨harguments, hinvokes⟩ := hexecutes
  obtain ⟨hprogram, -⟩ := ExecutionPlan.lowered?_of_lower (h.result_ok hP) hplan
  obtain ⟨htensors, hformals, hentry⟩ := h.keeps_interface hP
  -- The results are read from the outputs of the program, which are those of its entry.
  obtain ⟨env, hreads⟩ : ∃ env, List.Forall₂ (P.Reads env) Q.outputs (outputs.map .array) := by
    obtain ⟨_, _, _, _, _, hfollows, _⟩ := invokes_succ.mp hinvokes
    obtain ⟨found, env, hfound, -, hreads⟩ := hfollows.without_links hlinks
    rw [hfound, Option.map_some, Option.some.injEq] at houtputs
    rw [h.outputs_eq hP, ← houtputs]
    exact ⟨env, hreads⟩
  have hanswers := h.answers hP hbody hlinks (honce.handlesLocal hclosed) honce.writesOnce
    (honce.ownsApart hbody) hplan (2 * depth + 1) hinvokes
  rw [← hentry, ← hprogram] at hanswers
  have harguments' := entryArguments_after hP htensors hformals hentry harguments
  rw [← hprogram] at harguments' hreads
  exact Machine.run_of_answers harguments' hanswers (by omega) hreads hdepth hsteps

/-- Whatever a recursive run of a program comes to, its plan comes to after scheduling, with the same
outputs and the same counts, if twice as many continuations and one more may be open as calls were
and enough steps are allowed. The program is in single assignment form and closed, and handles are
read by calls and switches only. -/
theorem schedule_equivalent {P Q : Program} {options : SchedulerOptions} {report : ScheduleReport}
    (hvalid : P.validate = .ok ()) (hbody : P.AllBodies) (hlinks : P.links = .empty)
    (houtputs : P.subgraphs[P.entry]?.map Subgraph.outputs = some P.outputs)
    (honce : P.SingleAssignment) (hclosed : P.Closed) (hconfined : P.HandlesConfined)
    (hschedule : schedule options P = .ok (report, Q)) {limits : RunLimits}
    {inputs : List DenseArray} {execution : Execution}
    (hrun : Recursive.run P limits inputs = .ok execution) :
    ∃ plan, ExecutionPlan.lower Q = .ok plan
      ∧ ∃ enough, ∀ limits' : RunLimits, 2 * limits.maxCallDepth + 1 ≤ limits'.maxCallDepth →
        enough ≤ limits'.maxSteps →
          ∃ steps, Machine.run plan limits' inputs = .ok { execution with steps } := by
  have hP := wellFormed_of_validate hvalid
  obtain ⟨s, h⟩ := exists_stages hP hbody hschedule
  obtain ⟨plan, hplan, -⟩ := h.exists_plan hP hbody hlinks
  obtain ⟨entered, hexecutes, hcounts⟩ := Recursive.executes_of_run hP hconfined hrun
  refine ⟨plan, hplan, (plan.width + 1) * (4 * entered.length + 3), fun limits' hdepth hsteps => ?_⟩
  rw [hcounts]
  exact h.runs_plan hP hbody hlinks houtputs honce hclosed hplan hexecutes hdepth hsteps

/-- The relay is run by its plan after scheduling, if three continuations may be open. -/
theorem relay_equivalent : relay.SingleAssignment ∧ relay.Closed ∧ relay.HandlesConfined
    ∧ ∃ execution report Q plan, Recursive.run relay ⟨1, 7⟩ [⟨[], [0], rfl⟩] = .ok execution
      ∧ execution.outputs = [⟨[], [0], rfl⟩] ∧ execution.callCounts.get? 1 = some 2
      ∧ schedule {} relay = .ok (report, Q) ∧ ExecutionPlan.lower Q = .ok plan
      ∧ ∃ enough, ∀ limits : RunLimits, 3 ≤ limits.maxCallDepth → enough ≤ limits.maxSteps →
        ∃ steps, Machine.run plan limits [⟨[], [0], rfl⟩] = .ok { execution with steps } := by
  have honce : relay.SingleAssignment := by decide +kernel
  have hclosed : relay.Closed := by decide +kernel
  have hconfined : relay.HandlesConfined := by decide +kernel
  have hrun : Recursive.run relay ⟨1, 7⟩ [⟨[], [0], rfl⟩]
      = .ok ⟨[⟨[], [0], rfl⟩], countAll .empty [0, 1, 1], 7⟩ := by decide +kernel
  obtain ⟨⟨report, Q⟩, hschedule⟩ : ∃ answer, schedule {} relay = .ok answer :=
    Outcome.exists_of_isOk (by decide +kernel)
  obtain ⟨plan, hplan, hruns⟩ := schedule_equivalent (by decide +kernel) (by decide) rfl
    (by decide +kernel) honce hclosed hconfined hschedule hrun
  exact ⟨honce, hclosed, hconfined, _, report, Q, plan, hrun, rfl, rfl, hschedule, hplan, hruns⟩

end TailFlow
