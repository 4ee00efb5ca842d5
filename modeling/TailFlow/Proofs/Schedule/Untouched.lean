import TailFlow.Proofs.Boundary.Wrapping
import TailFlow.Proofs.Schedule.Splitting
import TailFlow.Proofs.Schedule.TailForm

/-!
# Runs that change nothing

A report counts the calls that were given handles of their own, the splits and the boundaries.
Each of these adds tensors or subgraphs to the program, and what is added stays: so a program that
holds no more than before has not been touched, and one of which nothing is counted holds exactly
what it held. The links that a run records come with splits and boundaries only.
-/

namespace TailFlow

open Program

/-! ### What is counted and what is added -/

/-- How much a program holds: every change that is counted adds to it. -/
def Program.extent (P : Program) : Nat := P.tensors.size + P.subgraphs.size

/-- Either nothing is counted and the program is as it was, or something is counted and it holds
more. -/
inductive Program.CountedTo (P : Program) : Nat → Program → Prop
  | untouched : CountedTo P 0 P
  | touched {count : Nat} {Q : Program} (hpos : 0 < count) (hmore : P.extent < Q.extent) :
      CountedTo P count Q

namespace Program.CountedTo

variable {P Q R : Program} {count more : Nat}

theorem trans (h : P.CountedTo count Q) (h' : Q.CountedTo more R) : P.CountedTo (count + more) R := by
  cases h with
  | untouched =>
    rw [Nat.zero_add]
    exact h'
  | touched hpos hmore =>
    cases h' with
    | untouched => exact .touched hpos hmore
    | touched _ hmore' => exact .touched (Nat.add_pos_left hpos _) (Nat.lt_trans hmore hmore')

theorem succ (h : P.CountedTo count Q) (hmore : Q.extent < R.extent) : P.CountedTo (count + 1) R :=
  h.trans (.touched Nat.one_pos hmore)

theorem eq_of_zero (h : P.CountedTo 0 Q) : Q = P := by
  cases h with
  | untouched => rfl
  | touched hpos _ => exact absurd hpos (Nat.lt_irrefl 0)

end Program.CountedTo

theorem Rewiring.extent_lt_after {r : Rewiring} {P : Program} (hr : r.Applies P) :
    P.extent < (r.after P).extent := by
  have hcopies := hr.place_lt
  unfold extent
  rw [size_tensors_after hr, size_subgraphs_after]
  omega

theorem Cut.extent_lt_after (c : Cut) (P : Program) : P.extent < (c.after P).extent := by
  unfold extent
  rw [after_tensors, Array.size_append, size_subgraphs_after]
  omega

theorem Addition.extent_lt_after (a : Addition) (P : Program) : P.extent < (a.after P).extent := by
  unfold extent
  rw [size_tensors_after, size_subgraphs_after]
  omega

theorem Program.separateHandles_countedTo {P S : Program} (hP : P.WellFormed) {count : Nat}
    (hseparate : (P.separateHandles : Outcome ScheduleError (Nat × Program)) = .ok (count, S)) :
    P.CountedTo count S :=
  separateHandles_keeps P.CountedTo (fun _ _ _ _ hr h => h.succ (Rewiring.extent_lt_after hr)) hP
    .untouched hseparate

/-! ### Wrappers -/

namespace Wrapping

variable {ε : Type} {stem : String} {formals : List TensorId} {state state' : Wrapping}

theorem extent_lt_addEntrance {handover : List TensorId} {exit : SubgraphId} {consumer caller : NodeId}
    (hadd : (addEntrance stem formals exit consumer handover state caller : Outcome ε Wrapping)
      = .ok state') : state.program.extent < state'.program.extent := by
  obtain ⟨extra, binderName, callName, name, arguments, handle, -, -, rfl⟩ := addEntrance_eq_ok hadd
  exact Addition.extent_lt_after _ _

theorem extent_lt_addGroup {group : CallerGroup}
    (hadd : (addGroup stem formals state group : Outcome ε Wrapping) = .ok state') :
    state.program.extent < state'.program.extent := by
  obtain ⟨extra, nodeName, name, handover, -, -, hfold⟩ := addGroup_eq_ok hadd
  refine Outcome.foldlM_keeps (fun middle => state.program.extent < middle.program.extent) ?_
    (Addition.extent_lt_after _ _) hfold
  intro middle caller next _ hmiddle hentrance
  exact Nat.lt_trans hmiddle (extent_lt_addEntrance hentrance)

/-- A body that is wrapped for some callers leaves the program with more than it held. -/
theorem extent_lt_wrap {W : Program} {body : SubgraphId} {groups : List CallerGroup}
    (hsome : groups ≠ []) {recorder : LinkRecorder} {wrapping : Wrapping}
    (hwrap : (W.wrap body groups recorder : Outcome ε Wrapping) = .ok wrapping) :
    W.extent < wrapping.program.extent := by
  obtain ⟨subgraph, -, hfold⟩ := Outcome.bind_eq_ok.mp hwrap
  cases groups with
  | nil => exact absurd rfl hsome
  | cons group rest =>
    obtain ⟨first, hfirst, hrest⟩ := Outcome.foldlM_cons_eq_ok.mp hfold
    refine Outcome.foldlM_keeps (fun state => W.extent < state.program.extent) ?_
      (extent_lt_addGroup hfirst) hrest
    intro state group next _ hstate hadd
    exact Nat.lt_trans hstate (extent_lt_addGroup hadd)

end Wrapping

/-! ### The stages of a run -/

namespace ScheduleRun

def changes (run : ScheduleRun) : Nat := run.splits + run.boundaries.length

/-- A run has counted what has become of the first program, and without it has recorded no link. -/
structure Truthful (S : Program) (run : ScheduleRun) (P : Program) : Prop where
  counted : S.CountedTo run.changes P
  unlinked : run.changes = 0 → run.recorder.links = .empty

variable {S P P' : Program} {run run' : ScheduleRun} {sharing : ExitSharing} {catalog : Catalog}

/-- What a run does besides counting, recording and changing the program does not matter. -/
theorem Truthful.congr (h : Truthful S run P) (hsplits : run'.splits = run.splits)
    (hboundaries : run'.boundaries = run.boundaries)
    (hlinks : run'.recorder.links = run.recorder.links) : Truthful S run' P := by
  have hchanges : run'.changes = run.changes := by
    rw [changes, changes, hsplits, hboundaries]
  constructor
  · rw [hchanges]
    exact h.counted
  · intro hzero
    rw [hlinks]
    exact h.unlinked (hchanges ▸ hzero)

theorem Truthful.succ (h : Truthful S run P) (hmore : P.extent < P'.extent)
    (hchanges : run'.changes = run.changes + 1) : Truthful S run' P' := by
  constructor
  · rw [hchanges]
    exact h.counted.succ hmore
  · intro hzero
    omega

theorem settleAll_truthful (S : Program) {order : List SubgraphId} {detection : Detection}
    (hsettle : start.settleAll order detection = .ok run) : Truthful S run S := by
  refine Outcome.foldlM_keeps (fun run => Truthful S run S) ?_ ⟨.untouched, fun _ => rfl⟩ hsettle
  intro run id run' _ hrun hone
  obtain ⟨states, rfl⟩ := settle_eq_ok hone
  exact hrun.congr rfl rfl rfl

theorem splitNext_truthful (hP : P.WellFormed) {id : SubgraphId} (h : Truthful S run P)
    (hnext : run.splitNext P id = .ok (run', P')) : P'.WellFormed ∧ Truthful S run' P' := by
  obtain ⟨states, -, hbody⟩ := Outcome.bind_eq_ok.mp hnext
  obtain ⟨answer, hsplit, hbody⟩ := Outcome.bind_eq_ok.mp hbody
  rcases Cut.splitFirst_eq_ok hP hsplit with ⟨rfl, -⟩ | ⟨c, hc, -, calls, -, rfl⟩
  · obtain ⟨settled, hsettle, hpure⟩ := Outcome.bind_eq_ok.mp hbody
    obtain ⟨rfl, rfl⟩ := Prod.mk.inj (Outcome.pure_eq_ok.mp hpure)
    obtain ⟨states', rfl⟩ := settle_eq_ok hsettle
    exact ⟨hP, h.congr rfl rfl rfl⟩
  · obtain ⟨pending, -, hbody⟩ := Outcome.bind_eq_ok.mp hbody
    obtain ⟨settled, hsettle, hbody⟩ := Outcome.bind_eq_ok.mp hbody
    obtain ⟨resettled, hresettle, hpure⟩ := Outcome.bind_eq_ok.mp hbody
    obtain ⟨rfl, rfl⟩ := Prod.mk.inj (Outcome.pure_eq_ok.mp hpure)
    obtain ⟨states', rfl⟩ := settle_eq_ok hsettle
    obtain ⟨states'', rfl⟩ := settle_eq_ok hresettle
    refine ⟨Cut.wellFormed_after hP hc, h.succ (c.extent_lt_after P) ?_⟩
    exact Nat.succ_add run.splits run.boundaries.length

theorem splitAll_truthful (hP : P.WellFormed) {limit left : Nat} (h : Truthful S run P)
    (hsplit : splitAll limit left run P = .ok (run', P')) : Truthful S run' P' := by
  refine (splitAll_keeps (fun run P => P.WellFormed ∧ Truthful S run P) ?_ ⟨hP, h⟩ hsplit).1.2
  intro run run' P P' id ⟨hP, h⟩ hnext
  have hsame : Truthful S run P := h.congr rfl rfl rfl
  exact splitNext_truthful hP hsame hnext

theorem wrapBody_truthful {body : SubgraphId} (h : Truthful S run P)
    (hwrap : wrapBody sharing catalog (run, P) body = .ok (run', P')) : Truthful S run' P' := by
  obtain ⟨⟨groups, dead⟩, -, hbody⟩ := Outcome.bind_eq_ok.mp hwrap
  dsimp only at hbody
  split at hbody
  · obtain ⟨rfl, rfl⟩ := Prod.mk.inj (Outcome.pure_eq_ok.mp hbody)
    exact h.congr rfl rfl rfl
  rename_i hsome
  split at hbody
  · obtain ⟨rfl, rfl⟩ := Prod.mk.inj (Outcome.pure_eq_ok.mp hbody)
    exact h.congr rfl rfl rfl
  obtain ⟨states, -, hbody⟩ := Outcome.bind_eq_ok.mp hbody
  obtain ⟨wrapping, hwrapping, hbody⟩ := Outcome.bind_eq_ok.mp hbody
  obtain ⟨states', -, hpure⟩ := Outcome.bind_eq_ok.mp hbody
  obtain ⟨rfl, rfl⟩ := Prod.mk.inj (Outcome.pure_eq_ok.mp hpure)
  refine h.succ (Wrapping.extent_lt_wrap ?_ hwrapping) ?_
  · rintro rfl
    exact hsome rfl
  · simp [changes, Nat.add_assoc]

theorem wrapAll_truthful (h : Truthful S run P) (hwrap : run.wrapAll sharing P = .ok (run', P')) :
    Truthful S run' P' := by
  obtain ⟨catalog, -, hfold⟩ := Outcome.bind_eq_ok.mp hwrap
  refine Outcome.foldlM_keeps (fun state : ScheduleRun × Program => Truthful S state.1 state.2) ?_ h hfold
  intro state body state' _ hstate hbody
  exact wrapBody_truthful hstate hbody

end ScheduleRun

/-- A report says that a run has left the program as it was just if it has, and then the run has
recorded no links. This holds of every program that is accepted, scheduled before or not. -/
theorem isNoop_iff_untouched {P Q : Program} (hvalid : P.validate = .ok ())
    {options : SchedulerOptions} {report : ScheduleReport}
    (hschedule : schedule options P = .ok (report, Q)) :
    (report.isNoop = true ↔ Q = P) ∧ (report.isNoop = true → report.links = .empty) := by
  have hP := wellFormed_of_validate hvalid
  obtain ⟨⟨rewired, separated⟩, hseparate, hrest⟩ := Outcome.bind_eq_ok.mp hschedule
  obtain ⟨catalog, -, hrest⟩ := Outcome.bind_eq_ok.mp hrest
  obtain ⟨detection, -, hrest⟩ := Outcome.bind_eq_ok.mp hrest
  obtain ⟨settled, hsettle, hrest⟩ := Outcome.bind_eq_ok.mp hrest
  obtain ⟨⟨split, cut⟩, hsplit, hrest⟩ := Outcome.bind_eq_ok.mp hrest
  obtain ⟨⟨last, wrapped⟩, hwrap, hrest⟩ := Outcome.bind_eq_ok.mp hrest
  obtain ⟨-, hpure⟩ := Outcome.check_bind_eq_ok.mp hrest
  obtain ⟨rfl, rfl⟩ := Prod.mk.inj (Outcome.pure_eq_ok.mp hpure)
  have hS := (separateHandles_separates hP hseparate).wellFormed hP
  have hsettled := ScheduleRun.settleAll_truthful separated hsettle
  have htruthful := ScheduleRun.wrapAll_truthful (ScheduleRun.splitAll_truthful hS hsettled hsplit) hwrap
  have hcounted : P.CountedTo (rewired + last.changes) wrapped :=
    (separateHandles_countedTo hP hseparate).trans htruthful.counted
  have hnoop : (last.report rewired).isNoop = true ↔ rewired + last.changes = 0 := by
    simp [ScheduleReport.isNoop, ScheduleRun.report, ScheduleRun.changes, and_assoc]
  have hunlinked : rewired + last.changes = 0 → last.recorder.links = .empty := fun hzero =>
    htruthful.unlinked (Nat.add_eq_zero_iff.mp hzero).2
  refine ⟨?_, fun h => hunlinked (hnoop.mp h)⟩
  refine hnoop.trans ⟨fun hzero => ?_, fun hsame => ?_⟩
  · obtain rfl := (hzero ▸ hcounted).eq_of_zero
    rw [hunlinked hzero, IdMap.union_empty]
  · generalize rewired + last.changes = count at hcounted
    cases hcounted with
    | untouched => rfl
    | touched _ hmore =>
      rw [← hsame] at hmore
      exact absurd hmore (Nat.lt_irrefl wrapped.extent)

/-- Scheduling the relay changes it, and scheduling it once more does not. -/
theorem relay_untouched_again : ∃ report Q again Q', schedule {} relay = .ok (report, Q)
    ∧ schedule {} Q = .ok (again, Q') ∧ report.isNoop = false ∧ Q ≠ relay
    ∧ again.isNoop = true ∧ Q' = Q ∧ again.links = .empty := by
  obtain ⟨⟨report, Q⟩, hschedule, hnoop, hvalid, hagain⟩ := Outcome.exists_of_holds
    (fun answer : ScheduleReport × Program => answer.1.isNoop = false ∧ answer.2.validate = .ok ()
      ∧ Outcome.holds ((schedule {} answer.2).map fun again => decide (again.1.isNoop = true)) = true)
    (by decide +kernel : Outcome.holds ((schedule {} relay).map _) = true)
  obtain ⟨⟨again, Q'⟩, hreschedule, hnoop'⟩ := Outcome.exists_of_holds _ hagain
  have hfirst := isNoop_iff_untouched (by decide +kernel) hschedule
  obtain ⟨huntouched, hunlinked⟩ := isNoop_iff_untouched hvalid hreschedule
  refine ⟨report, Q, again, Q', hschedule, hreschedule, hnoop, fun hsame => ?_, hnoop',
    huntouched.mp hnoop', hunlinked hnoop'⟩
  exact Bool.false_ne_true (hnoop.symm.trans (hfirst.1.mpr hsame))

end TailFlow
