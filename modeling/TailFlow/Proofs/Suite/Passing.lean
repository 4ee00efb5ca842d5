import TailFlow.Proofs.Runs.Agreement
import TailFlow.Proofs.Suite.Drawing
import TailFlow.Proofs.Suite.LayeredPlans
import TailFlow.Suite.Evaluation

/-!
# Random programs pass

A random program is compiled under the default configuration, whichever way exits are shared, and both
runs of it succeed and agree. This holds of any sequence of draws whose numbers are below their bounds
and, once the program is drawn, of all inputs that its entry takes.
-/

namespace TailFlow

open Program

def Config.withSharing (sharing : ExitSharing) : Config := { scheduler := { sharing } }

/-- A sample passes: its program is checked, every binder names a subgraph with a greater number, and
it is compiled without copies of handles and without warnings to a plan. The program and its plan run
on the inputs with the same outputs and counts, and the sample is found to be equivalent. -/
structure Sample.Passes (sample : Sample) (sharing : ExitSharing) : Prop where
  checked : sample.program.validate = .ok ()
  forward : ∀ ⦃listed : ListedNode⦄ ⦃callee : SubgraphId⦄, sample.program.Lists listed →
    listed.node.kind = .bind callee → listed.owner < callee ∧ callee < sample.program.subgraphs.size
  compiled : ∃ artifacts, compile (.withSharing sharing) sample.program = .ok artifacts
    ∧ artifacts.written = sample.program ∧ artifacts.report.rewiredCalls = 0
    ∧ artifacts.report.warnings = []
    ∧ ∃ expected actual, Recursive.run artifacts.written {} sample.inputs = .ok expected
      ∧ Machine.run artifacts.plan {} sample.inputs = .ok actual
      ∧ actual.outputs = expected.outputs ∧ actual.callCounts = expected.callCounts
  equivalent : ∃ result entries, (sample.evaluate (.withSharing sharing) : Outcome BuildError CaseResult)
    = .ok result ∧ result.outcome = .equivalent entries

namespace Layered

variable {formals : List (List TensorId)} {layers : List Layer} {P : Program}
  (h : Layered formals layers P)

include h

theorem exists_compile (sharing : ExitSharing) : ∃ artifacts Q,
    compile (.withSharing sharing) P = .ok artifacts ∧ artifacts.written = P
      ∧ schedule ⟨none, sharing⟩ P = .ok (artifacts.report, Q)
      ∧ ExecutionPlan.lower Q = .ok artifacts.plan := by
  obtain ⟨report, Q, hschedule⟩ := h.exists_schedule sharing
  obtain ⟨plan, hplan, -⟩ := h.exists_runs hschedule
  obtain ⟨s, hlead⟩ := exists_stages h.wellFormed h.allBodies hschedule
  obtain ⟨text, htext⟩ := (hlead.result_ok h.wellFormed).exists_text (ε := CompileError)
  have hvalid' := hlead.validate_eq_ok h.validate_eq_ok h.allBodies h.links_eq
  have hchecked : checkIf (Config.withSharing sharing).validate P = .ok () := by
    simp [checkIf, h.validate_eq_ok]
  have hchecked' : checkIf (Config.withSharing sharing).validate Q = .ok () := by
    simp [checkIf, hvalid']
  have hscheduled : schedule (Config.withSharing sharing).scheduler P = .ok (report, Q) := hschedule
  refine ⟨⟨P, plan, report, text⟩, Q, ?_, rfl, hschedule, hplan⟩
  rw [compile, hchecked, Outcome.ok_bind, hscheduled, Outcome.mapCause_ok, Outcome.ok_bind]
  dsimp only
  rw [hchecked', Outcome.ok_bind, htext, Outcome.ok_bind, hplan, Outcome.mapCause_ok,
    Outcome.ok_bind]
  rfl

theorem passes {sample : Sample} (hprogram : sample.program = P)
    (hinputs : entryArguments P sample.inputs = .ok (sample.inputs.map .array))
    (sharing : ExitSharing) : sample.Passes sharing := by
  subst hprogram
  obtain ⟨artifacts, Q, hcompile, hwritten, hschedule, hplan⟩ := h.exists_compile sharing
  obtain ⟨plan, hplan', hruns⟩ := h.exists_runs hschedule
  obtain rfl := Except.ok.inj (hplan.symm.trans hplan')
  obtain ⟨expected, actual, hexpected, hactual, houtputs, hcounts, hfew⟩ := hruns _ hinputs
  rw [← hwritten] at hexpected
  constructor
  case checked => exact h.validate_eq_ok
  case forward =>
    rintro ⟨owner, id, node⟩ callee hlists hkind
    obtain ⟨hlater, hlt, -⟩ := h.binder_spec hlists hkind
    exact ⟨hlater, hlt⟩
  case compiled =>
    exact ⟨artifacts, hcompile, hwritten, h.rewiredCalls_eq hschedule, h.warnings_eq_nil hschedule,
      expected, actual, hexpected, hactual, houtputs.symm, hcounts.symm⟩
  case equivalent =>
    have hcompare : expected.compare actual = .ok (sumOf actual.callCounts.values) := by
      rw [Execution.compare_eq_bodyEntries houtputs hcounts]
      exact if_pos (Nat.lt_of_le_of_lt hfew (by decide))
    have hexpected' : Recursive.run artifacts.written (Config.withSharing sharing).limits sample.inputs
        = .ok expected := hexpected
    have hactual' : Machine.run artifacts.plan (Config.withSharing sharing).limits sample.inputs
        = .ok actual := hactual
    have houtcome : (Sample.runOutcome (.withSharing sharing) artifacts sample.inputs
        : Outcome BuildError CaseOutcome) = .ok (.equivalent (sumOf actual.callCounts.values)) := by
      rw [Sample.runOutcome, hexpected', Outcome.attempt_ok, Outcome.ok_bind, hactual',
        Outcome.attempt_ok, Outcome.ok_bind]
      dsimp only
      rw [CaseOutcome.ofComparison, hcompare, Outcome.attempt_ok, Outcome.ok_bind]
      rfl
    rw [Sample.evaluate, hcompile, Outcome.attempt_ok, Outcome.ok_bind]
    dsimp only
    rw [houtcome, Outcome.ok_bind]
    exact ⟨_, _, rfl, rfl⟩

end Layered

/-! ### Inputs -/

theorem map_shape_randomArrays (shapes : List (List Nat)) (stream : RandomStream) :
    (randomArrays shapes stream).map DenseArray.shape = shapes := by
  induction shapes generalizing stream with
  | nil => rfl
  | cons shape rest ih => exact congrArg (shape :: ·) (ih _)

theorem Layered.exists_seededInputs {ε : Type} {formals : List (List TensorId)}
    {layers : List Layer} {P : Program} (h : Layered formals layers P) (seed : Nat) :
    ∃ inputs, (seededInputs P seed : Outcome ε (List DenseArray)) = .ok inputs
      ∧ entryArguments P inputs = .ok (inputs.map .array) := by
  obtain ⟨entry, hentry⟩ := h.exists_entry
  have hshapes : ∀ formal ∈ entry, ∃ tensor, (P.tensor formal : Outcome ε Tensor) = .ok tensor
      ∧ tensor.shape = RandomProgram.shape := fun formal hmem =>
    (h.built.shapes formal (h.input_lt hentry hmem)).imp fun _ => .imp_left tensor_eq_ok.mpr
  obtain ⟨tensors, htensors⟩ := Outcome.exists_mapM_eq_ok fun formal hmem =>
    (hshapes formal hmem).imp fun _ => And.left
  have hshape : ∀ shape ∈ tensors.map Tensor.shape, shape = RandomProgram.shape := by
    intro shape hmem
    obtain ⟨tensor, htensor, rfl⟩ := List.mem_map.mp hmem
    obtain ⟨formal, hformal, hfound⟩ := Outcome.item_of_mem_mapM htensors htensor
    obtain ⟨found, hfound', hshape⟩ := hshapes formal hformal
    rw [← Except.ok.inj (hfound'.symm.trans hfound), hshape]
  have hfits : (tensors.map Tensor.shape).all DenseArray.isAllocatable = true := by
    refine List.all_eq_true.mpr fun shape hmem => ?_
    rw [hshape shape hmem]
    decide
  have hseeded : (seededInputs P seed : Outcome ε (List DenseArray))
      = .ok (randomArrays (tensors.map Tensor.shape) (.ofSeed seed)) := by
    rw [seededInputs, h.entryInputs_eq_ok hentry, Outcome.ok_bind, htensors, Outcome.ok_bind]
    exact if_pos hfits
  have harrays := map_shape_randomArrays (tensors.map Tensor.shape) (.ofSeed seed)
  refine ⟨_, hseeded, (h.entryArguments_eq_ok_iff hentry).mpr ⟨?_, fun input hmem => ?_⟩⟩
  · have hlength := congrArg List.length harrays
    rw [List.length_map, List.length_map] at hlength
    rw [hlength, (Outcome.mapM_eq_ok.mp htensors).length_eq]
  · exact hshape _ (harrays ▸ List.mem_map_of_mem hmem)

/-! ### Samples -/

/-- Whatever the numbers are that a random program is drawn by, as long as each is below its bound,
there is a sample. It passes, on its own inputs and on all others that its entry takes. -/
theorem RandomProgram.sample_passes {σ : Type} [RandomSource σ] (hrange : RandomSource.InRange σ)
    (source : σ) (seed : Nat) (sharing : ExitSharing) :
    ∃ drawn, sample source seed = .ok drawn ∧ drawn.Passes sharing
      ∧ ∀ inputs : List DenseArray,
        entryArguments drawn.program inputs = .ok (inputs.map .array) →
          Sample.Passes { drawn with inputs } sharing := by
  obtain ⟨⟨program, count⟩, source', builder, hdraw, formals, layers, h⟩ :=
    yields_draw hrange source
  obtain ⟨inputs, hseeded, hinputs⟩ := h.exists_seededInputs (ε := BuildError) seed
  refine ⟨⟨s!"random-{seed}", s!"random acyclic program ({count} subgraphs)", program, inputs, false⟩,
    ?_, h.passes rfl hinputs sharing, fun others hothers => h.passes rfl hothers sharing⟩
  have hrun : Building.run (StateT.run draw source) = .ok ((program, count), source') := by
    rw [Building.run, hdraw]
    rfl
  rw [sample, hrun, Outcome.ok_bind]
  dsimp only
  rw [hseeded, Outcome.ok_bind]
  rfl

/-- The numbers of a stream are below their bounds, so the program of a seed passes. -/
theorem RandomProgram.seeded_passes : RandomSource.InRange RandomStream
    ∧ ∃ drawn, ofSeed 7 = .ok drawn ∧ drawn.Passes .perCaller
      ∧ ∀ inputs : List DenseArray,
        entryArguments drawn.program inputs = .ok (inputs.map .array) →
          Sample.Passes { drawn with inputs } .perCaller :=
  ⟨RandomStream.inRange, sample_passes RandomStream.inRange (.ofSeed 7) 7 .perCaller⟩

end TailFlow
