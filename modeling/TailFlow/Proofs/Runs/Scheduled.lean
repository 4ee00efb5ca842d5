import TailFlow.Proofs.Runs.Cutting
import TailFlow.Proofs.Runs.Recursion
import TailFlow.Proofs.Runs.Separating
import TailFlow.Proofs.Runs.Wrapping
import TailFlow.Proofs.Schedule.Origin
import TailFlow.Proofs.Schedule.TailForm

/-!
# Scheduled programs run as before

Every stage of a scheduling run keeps what invocations come to, so a recursive run of the scheduled
program has the outputs and the counts of a recursive run of the program. Handles have to be local
and confined for this, and no subgraph may write a tensor twice.
-/

namespace TailFlow

open Program

namespace Program

variable {P P' P'' : Program}

def KeepsTensors (P P' : Program) : Prop :=
  ∀ id < P.tensors.size, P'.tensors[id]? = P.tensors[id]?

theorem KeepsTensors.trans (h : P.KeepsTensors P') (h' : P'.KeepsTensors P'') :
    P.KeepsTensors P'' := by
  intro id hlt
  have hsome := (h id hlt).trans (Array.getElem?_eq_getElem hlt)
  rw [h' id (Array.getElem?_eq_some_iff.mp hsome).1, h id hlt]

theorem keepsTensors_append {extra : List Tensor}
    (htensors : P'.tensors = P.tensors ++ extra.toArray) : P.KeepsTensors P' := by
  intro id hlt
  rw [htensors, Array.getElem?_append_left hlt]

theorem Separates.keeps_interface (hP : P.WellFormed) (hseparates : P.Separates P') :
    P.KeepsTensors P' ∧ P.KeepsFormals P' := by
  induction hseparates with
  | refl => exact ⟨fun _ _ => rfl, fun _ subgraph hsubgraph => ⟨subgraph, hsubgraph, rfl, rfl⟩⟩
  | tail hbefore hstep ih =>
    obtain ⟨r, hr, rfl⟩ := hstep
    exact ⟨ih.1.trans (keepsTensors_append Rewiring.after_tensors),
      ih.2.trans (Rewiring.keepsFormals_after (Separates.wellFormed hP hbefore) hr)⟩

/-- The inputs of a program are checked against its entry and the tensors of the entry alone. -/
theorem entryArguments_after (hP : P.WellFormed) (htensors : P.KeepsTensors P')
    (hformals : P.KeepsFormals P') (hentry : P'.entry = P.entry) {inputs : List DenseArray}
    {arguments : List Value} (harguments : entryArguments P inputs = .ok arguments) :
    entryArguments P' inputs = .ok arguments := by
  obtain ⟨formals, hfound, hchecked⟩ := Outcome.bind_eq_ok.mp harguments
  obtain ⟨subgraph, hsubgraph, hpure⟩ := Outcome.bind_eq_ok.mp hfound
  obtain rfl := Outcome.pure_eq_ok.mp hpure
  obtain ⟨hlength, hmap⟩ := Outcome.check_bind_eq_ok.mp hchecked
  obtain ⟨subgraph', hsubgraph', hinputs, -⟩ := hformals (subgraph_eq_ok.mp hsubgraph)
  have hfound' : (P'.entryInputs : Evaluation (List TensorId)) = .ok subgraph.inputs := by
    rw [entryInputs, hentry, subgraph_eq_ok.mpr hsubgraph', Outcome.ok_bind, hinputs]
    rfl
  rw [entryArguments, hfound', Outcome.ok_bind, hlength, Outcome.ok_bind]
  have hmem : ∀ pair ∈ subgraph.inputs.zip inputs, pair.1 < P.tensors.size := by
    intro ⟨formal, input⟩ hpair
    exact hP.interface (subgraph_eq_ok.mp hsubgraph) formal
      (List.mem_append_left _ (List.of_mem_zip hpair).1)
  refine Outcome.mapM_eq_ok.mpr
    (((List.forall₂_and_left _ _).mpr ⟨hmem, Outcome.mapM_eq_ok.mp hmap⟩).imp ?_)
  intro ⟨formal, input⟩ value ⟨hlt, hvalue⟩
  dsimp only at hlt hvalue ⊢
  unfold entryArgument tensor at hvalue ⊢
  rw [htensors formal hlt]
  exact hvalue

end Program

namespace Cuts

variable {P P' : Program} {links : IdMap Link} {calls : List NodeId}

theorem keeps_interface (hP : P.WellFormed) (hcuts : Cuts P P' links calls) :
    P.KeepsTensors P' ∧ P.KeepsFormals P' := by
  refine ⟨?_, hcuts.keepsFormals hP⟩
  induction hcuts with
  | none => exact fun _ _ => rfl
  | cut _ _ ih => exact ih.trans (keepsTensors_append Cut.after_tensors)

theorem outputs_nodup (hP : P.WellFormed)
    (hnodup : ∀ ⦃listed⦄, P.Lists listed → listed.node.outputs.Nodup)
    (hcuts : Cuts P P' links calls) :
    ∀ ⦃listed⦄, P'.Lists listed → listed.node.outputs.Nodup := by
  induction hcuts with
  | none => exact hnodup
  | cut hcuts hc ih =>
    intro listed hlists
    rcases Cut.lists_after_cases (hcuts.wellFormed hP) hc hlists with ⟨old, hold, -, rfl⟩ | rfl | rfl
    · rw [Cut.moved_node]
      exact ih hold
    · exact hc.fresh.nodup
    · have hcall := ih hc.lists_call
      exact hcall

end Cuts

namespace Stages.Lead

variable {s : Stages} {P Q : Program} {report : ScheduleReport}

theorem keeps_interface (hP : P.WellFormed) (h : s.Lead P report Q) :
    P.KeepsTensors Q ∧ P.KeepsFormals Q ∧ Q.entry = P.entry := by
  obtain ⟨count, hseparate⟩ := h.separates
  have hseparates := separateHandles_separates hP hseparate
  obtain ⟨htensors, hformals⟩ := hseparates.keeps_interface hP
  obtain ⟨htensors', hformals'⟩ := h.cuts.keeps_interface (h.separated_ok hP)
  have hextends := h.wraps.extends_program (h.cut_ok hP)
  have hwrapped : s.cut.KeepsFormals s.wrapped := fun id subgraph hsubgraph =>
    ⟨subgraph, (hextends.subgraph_old id (subgraph_lt hsubgraph)).trans hsubgraph, rfl, rfl⟩
  rw [h.result]
  refine ⟨(htensors.trans htensors').trans hextends.tensor_old, (hformals.trans hformals').trans
    hwrapped, ?_⟩
  show s.wrapped.entry = P.entry
  rw [(h.wraps.keeps_base (h.cut_ok hP)).2.1, h.cuts.entry_eq, (hseparates.keeps hP).2.1]

theorem linked_lt (hP : P.WellFormed) (h : s.Lead P report Q) (call : NodeId) (link : Link)
    (hlink : s.links.get? call = some link) : call < s.cut.nodes.size :=
  h.cuts.key_lt (h.separated_ok hP) call link hlink

theorem outputs_nodup (hP : P.WellFormed) (honce : P.WritesOnce) (hlocal : P.HandlesLocal)
    (hlinks : P.links = .empty) (h : s.Lead P report Q) :
    ∀ ⦃listed⦄, s.cut.Lists listed → listed.node.outputs.Nodup := by
  obtain ⟨count, hseparate⟩ := h.separates
  obtain ⟨-, honce', -⟩ := (separateHandles_separates hP hseparate).keeps_runs hP hlocal honce hlinks
  exact h.cuts.outputs_nodup (h.separated_ok hP) fun _ hlists => honce'.outputs_nodup hlists

/-- What a program executes, the scheduled program executes in twice as many levels. -/
theorem executes (hP : P.WellFormed) (honce : P.WritesOnce) (hlocal : P.HandlesLocal)
    (hlinks : P.links = .empty) (h : s.Lead P report Q) {allows : NodeId → List SubgraphId → Prop}
    {depth : Nat} {inputs outputs : List DenseArray} {entered : List SubgraphId}
    (hexecutes : Executes P allows (depth + 1) inputs outputs entered) :
    Executes Q (fun _ _ => True) (2 * depth + 1) inputs outputs entered := by
  obtain ⟨harguments, hinvokes⟩ := hexecutes
  obtain ⟨count, hseparate⟩ := h.separates
  obtain ⟨-, -, hlinks', hseparated⟩ :=
    (separateHandles_separates hP hseparate).keeps_runs hP hlocal honce hlinks
  obtain ⟨htensors, hformals, hentry⟩ := h.keeps_interface hP
  refine ⟨entryArguments_after hP htensors hformals hentry harguments, ?_⟩
  rw [hentry, h.result_eq hP hlinks]
  have hcut : Invokes { s.cut with links := s.links } allows (depth + 1) P.entry inputs outputs
      entered :=
    h.cuts.invokes_after (h.separated_ok hP) hlinks' (hseparated _ _ _ _ _ _ hinvokes)
  have hlevels : 2 * (depth + 1) ≤ 2 * depth + 1 + 1 := Nat.le_refl _
  exact h.wraps.invokes_after (h.cut_ok hP) (h.outputs_nodup hP honce hlocal hlinks)
    (h.linked_lt hP) hlevels hcut

end Stages.Lead

/-- A scheduled program runs recursively to the outputs and the counts of the program that it comes
from, if it may open twice as many calls and has enough steps. -/
theorem schedule_keeps_runs {P Q : Program} {options : SchedulerOptions} {report : ScheduleReport}
    (hvalid : P.validate = .ok ()) (hbody : P.AllBodies) (hlinks : P.links = .empty)
    (honce : P.WritesOnce) (hlocal : P.HandlesLocal) (hconfined : P.HandlesConfined)
    (hschedule : schedule options P = .ok (report, Q)) {limits : RunLimits}
    {inputs : List DenseArray} {execution : Execution}
    (hrun : Recursive.run P limits inputs = .ok execution) :
    ∃ enough, ∀ limits' : RunLimits, 2 * limits.maxCallDepth ≤ limits'.maxCallDepth →
      enough ≤ limits'.maxSteps →
        ∃ steps, Recursive.run Q limits' inputs = .ok { execution with steps } := by
  have hP := wellFormed_of_validate hvalid
  obtain ⟨s, h⟩ := exists_stages hP hbody hschedule
  obtain ⟨entered, hexecutes, hcounts⟩ := Recursive.executes_of_run hP hconfined hrun
  obtain ⟨enough, hrun'⟩ :=
    Recursive.run_of_executes (h.executes hP honce hlocal hlinks hexecutes)
  refine ⟨enough, fun limits' hdepth hsteps => ?_⟩
  rw [hcounts]
  exact hrun' limits' hdepth hsteps

instance (P : Program) (tensor : TensorId) : Decidable (P.IsHandle tensor) :=
  decidable_of_iff (∃ listed ∈ P.allListed, listed.node.givesHandle ∧ tensor ∈ listed.node.outputs)
    (exists_congr fun _ => and_congr_left' mem_allListed)

instance (P : Program) : Decidable P.HandlesConfined :=
  decidable_of_iff ((∀ reader ∈ P.allListed, ∀ place (h : place < reader.node.inputs.length),
        P.IsHandle reader.node.inputs[place] →
          reader.node.isCall ∧ place = 0 ∨ reader.node.kind.isSwitch ∧ place ≠ 0)
      ∧ ∀ subgraph ∈ P.subgraphs, ∀ tensor ∈ subgraph.outputs, ¬ P.IsHandle tensor)
    ⟨fun ⟨hread, hreturned⟩ => ⟨fun reader handle place hreader hhandle hplace =>
        let ⟨hlt, hsame⟩ := List.getElem?_eq_some_iff.mp hplace
        hread reader (mem_allListed.mpr hreader) place hlt (hsame ▸ hhandle),
      fun _ subgraph hsubgraph => hreturned subgraph (Array.mem_of_getElem? hsubgraph)⟩,
    fun h => ⟨fun _ hreader _ hlt hhandle =>
        h.read (mem_allListed.mp hreader) hhandle (List.getElem?_eq_getElem hlt),
      fun _ hsubgraph =>
        let ⟨_, hid⟩ := Array.getElem?_of_mem hsubgraph
        h.returned hid⟩⟩

/-- A relay hands zero on through two calls of one body. Scheduled, it does so too, if it may open
two calls at once. -/
theorem relay_keeps_run : ∃ execution report Q, Recursive.run relay ⟨1, 7⟩ [⟨[], [0], rfl⟩]
      = .ok execution
    ∧ execution.outputs = [⟨[], [0], rfl⟩] ∧ execution.callCounts.get? 1 = some 2
    ∧ schedule {} relay = .ok (report, Q) ∧ report.nonTailCalls = [1, 3]
    ∧ ∃ enough, ∀ limits : RunLimits, 2 ≤ limits.maxCallDepth → enough ≤ limits.maxSteps →
      ∃ steps, Recursive.run Q limits [⟨[], [0], rfl⟩] = .ok { execution with steps } := by
  have hrun : Recursive.run relay ⟨1, 7⟩ [⟨[], [0], rfl⟩]
      = .ok ⟨[⟨[], [0], rfl⟩], countAll .empty [0, 1, 1], 7⟩ := by decide +kernel
  obtain ⟨⟨report, Q⟩, hschedule, hcalls⟩ := Outcome.exists_of_holds
    (fun answer : ScheduleReport × Program => answer.1.nonTailCalls = [1, 3])
    (by decide +kernel : Outcome.holds ((schedule {} relay).map _) = true)
  exact ⟨_, report, Q, hrun, rfl, rfl, hschedule, hcalls, schedule_keeps_runs (by decide +kernel)
    (by decide) rfl (by decide +kernel) (by decide +kernel) (by decide +kernel) hschedule hrun⟩

end TailFlow
