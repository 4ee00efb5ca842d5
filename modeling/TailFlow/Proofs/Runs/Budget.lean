import TailFlow.Proofs.Runs.Soundness

/-!
# How many subgraphs a run enters

A subgraph that ends in a call leads on without anything coming back, so a plan may go round for ever
without its stack growing. Where every such subgraph has another node, the steps that are allowed bound
the subgraphs that are entered: a call costs a step at least and leaves at most one frame on the stack,
and a return, which may cost nothing, takes a frame off it. Two entries for every step that is still
allowed and one for every frame are therefore more than what is to come.
-/

namespace TailFlow

open Program

/-- Every subgraph that ends in a call has another node. -/
def Program.CallsCost (P : Program) : Prop :=
  ∀ subgraph ∈ P.subgraphs, ∀ call ∈ subgraph.lastNode?, ∀ node ∈ P.nodes[call]?, node.isCall →
    ∃ other ∈ subgraph.nodes, other ≠ call

instance (P : Program) : Decidable P.CallsCost :=
  inferInstanceAs (Decidable (∀ subgraph ∈ P.subgraphs, _))

namespace Machine

variable {P : Program} {plan : ExecutionPlan} {limits : RunLimits}

/-- The subgraphs that a run enters one after the other, at most the given number of them. -/
def entries (plan : ExecutionPlan) (limits : RunLimits) : Nat → State → List SubgraphId
  | 0, _ => []
  | subgraphs + 1, state => state.current :: match step plan limits state with
    | .ok (.goesOn next) => entries plan limits subgraphs next
    | _ => []

/-- What a run may still enter: two subgraphs for every step that is allowed, and one for every frame
on the stack. -/
def State.left (limits : RunLimits) (state : State) : Nat :=
  2 * (limits.maxSteps - state.counters.steps) + state.frames.length

/-! ### What a step costs -/

theorem runNodes_counts {nodes : List NodeId} {env env' : Environment} {counters counters' : Counters}
    (hrun : runNodes P limits nodes env counters = .ok (env', counters')) :
    counters'.steps = counters.steps + nodes.length
      ∧ (nodes ≠ [] → counters'.steps ≤ limits.maxSteps) := by
  induction nodes generalizing env counters with
  | nil =>
    obtain ⟨rfl, rfl⟩ := Prod.mk.inj (Except.ok.inj hrun)
    exact ⟨rfl, fun hne => absurd rfl hne⟩
  | cons id rest ih =>
    obtain ⟨stepped, hstep, hrun⟩ := Outcome.bind_eq_ok.mp hrun
    obtain ⟨middle, -, hrun⟩ := Outcome.bind_eq_ok.mp hrun
    obtain ⟨hlt, rfl⟩ := Counters.step_eq_ok.mp hstep
    obtain ⟨hsteps, hwithin⟩ := ih hrun
    dsimp only at hsteps
    rw [List.length_cons]
    refine ⟨by omega, fun _ => ?_⟩
    cases rest with
    | nil =>
      rw [hsteps]
      exact hlt
    | cons _ _ => exact hwithin (List.cons_ne_nil _ _)

theorem enterCallee_counts {call : NodeId} {env : Environment} {frames : List Frame}
    {counters : Counters} {state : State}
    (henter : enterCallee P call env frames counters = .ok state) :
    state.frames = frames ∧ state.counters.steps = counters.steps := by
  obtain ⟨node, -, henter⟩ := Outcome.bind_eq_ok.mp henter
  obtain ⟨handle, -, henter⟩ := Outcome.bind_eq_ok.mp henter
  obtain ⟨⟨callee, arguments⟩, -, henter⟩ := Outcome.bind_eq_ok.mp henter
  obtain ⟨subgraph, -, henter⟩ := Outcome.bind_eq_ok.mp henter
  obtain ⟨after, -, hpure⟩ := Outcome.bind_eq_ok.mp henter
  obtain rfl := Outcome.pure_eq_ok.mp hpure
  exact ⟨rfl, by rw [Counters.enter_eq]⟩

theorem returnFrom_counts {id : SubgraphId} {env : Environment} {frames : List Frame}
    {counters : Counters} {next : State}
    (hreturn : returnFrom P id env frames counters = .ok (.goesOn next)) :
    frames.length = next.frames.length + 1 ∧ next.counters = counters := by
  obtain ⟨subgraph, -, hreturn⟩ := Outcome.bind_eq_ok.mp hreturn
  obtain ⟨results, -, hreturn⟩ := Outcome.bind_eq_ok.mp hreturn
  cases frames with
  | nil => exact (Outcome.refuse_ne_ok hreturn).elim
  | cons frame frames =>
    obtain ⟨after, -, hreturn⟩ := Outcome.bind_eq_ok.mp hreturn
    obtain ⟨continuation, destination⟩ := frame
    cases continuation with
    | none => exact nomatch Outcome.pure_eq_ok.mp hreturn
    | some continuation =>
      cases Outcome.pure_eq_ok.mp hreturn
      exact ⟨rfl, rfl⟩

theorem pushLink_counts {call : NodeId} {continuation : SubgraphId} {frames pushed : List Frame}
    (hpush : pushLink plan limits call continuation frames = .ok pushed) :
    pushed.length = frames.length + 1 := by
  obtain ⟨link, -, hpush⟩ := Outcome.bind_eq_ok.mp hpush
  obtain ⟨-, hpure⟩ := Outcome.check_bind_eq_ok.mp hpush
  obtain rfl := Outcome.pure_eq_ok.mp hpure
  rfl

theorem inlineNodes_ne_nil (hcost : P.CallsCost) {subgraph : Subgraph} (hmem : subgraph ∈ P.subgraphs)
    {lowered : LoweredSubgraph} (hnodes : lowered.nodes = subgraph.nodes)
    (hends : ExecutionPlan.Ends P subgraph lowered.terminator) (hcalls : lowered.terminator ≠ .returns) :
    inlineNodes lowered ≠ [] := by
  unfold inlineNodes
  rw [hnodes]
  generalize lowered.terminator = terminator at hends hcalls
  cases hends with
  | returns _ => exact absurd rfl hcalls
  | @tailCall earlier call node hsplit _ hnode hcall _ _
  | @linkedCall earlier call node _ hsplit _ hnode hcall _ =>
    dsimp only
    rw [hsplit, List.dropLast_concat]
    rintro rfl
    have hlast : subgraph.lastNode? = some call := by
      rw [Subgraph.lastNode?, hsplit]
      rfl
    obtain ⟨other, hother, hne⟩ := hcost subgraph hmem call hlast node hnode hcall
    rw [hsplit] at hother
    exact hne (List.mem_singleton.mp hother)

/-- What may still be entered gets less with every subgraph that a run enters. -/
theorem left_lt_of_step (hlowers : plan.Lowers P) (hcost : P.CallsCost) {state next : State}
    (hcurrent : state.current < P.subgraphs.size)
    (hstep : step plan limits state = .ok (.goesOn next)) : next.left limits < state.left limits := by
  obtain rfl := hlowers.program_eq
  obtain ⟨lowered, hlowered, hnodes, hends⟩ :=
    hlowers.lowered (Array.getElem?_eq_getElem hcurrent)
  have hne := inlineNodes_ne_nil hcost (Array.getElem_mem hcurrent) hnodes hends
  unfold step at hstep
  rw [Outcome.orRefuse_eq_ok.mpr hlowered, Outcome.ok_bind] at hstep
  obtain ⟨⟨env, counters⟩, hrun, hstep⟩ := Outcome.bind_eq_ok.mp hstep
  obtain ⟨hsteps, hwithin⟩ := runNodes_counts hrun
  -- Before a call a step has been made, and it was one of those that are allowed.
  have hcalls (hcall : lowered.terminator ≠ .returns) :
      state.counters.steps < counters.steps ∧ counters.steps ≤ limits.maxSteps := by
    have hpos := List.length_pos_iff.mpr (hne hcall)
    exact ⟨by omega, hwithin (hne hcall)⟩
  unfold State.left
  cases hterminator : lowered.terminator with
  | returns =>
    rw [hterminator] at hstep
    obtain ⟨hframes, hcounters⟩ := returnFrom_counts hstep
    rw [hcounters]
    omega
  | tailCall call =>
    rw [hterminator] at hstep
    obtain ⟨after, henter, hpure⟩ := Outcome.bind_eq_ok.mp hstep
    obtain ⟨hframes, hcounters⟩ := enterCallee_counts henter
    cases Outcome.pure_eq_ok.mp hpure
    obtain ⟨hmore, hle⟩ := hcalls (hterminator ▸ nofun)
    rw [hframes, hcounters]
    omega
  | linkedCall call continuation =>
    rw [hterminator] at hstep
    obtain ⟨pushed, hpush, hstep⟩ := Outcome.bind_eq_ok.mp hstep
    obtain ⟨after, henter, hpure⟩ := Outcome.bind_eq_ok.mp hstep
    obtain ⟨hframes, hcounters⟩ := enterCallee_counts henter
    have hpushed := pushLink_counts hpush
    cases Outcome.pure_eq_ok.mp hpure
    obtain ⟨hmore, hle⟩ := hcalls (hterminator ▸ nofun)
    rw [hframes, hcounters]
    omega

/-! ### The subgraphs that a run enters -/

theorem Stacked.length_pos {frames : List Frame} (hframes : Stacked P frames) :
    0 < frames.length := by
  cases hframes <;> exact Nat.succ_pos _

section Runs

variable (hP : P.WellFormed) (hlowers : plan.Lowers P)
  (hlinks : ∀ call link, P.links.get? call = some link → P.LinkFits call link)

include hP hlowers hlinks

theorem length_entries_le (hcost : P.CallsCost) (subgraphs : Nat) {state : State}
    (hstate : state.Sound P) : (entries plan limits subgraphs state).length ≤ state.left limits := by
  induction subgraphs generalizing state with
  | zero => exact Nat.zero_le _
  | succ subgraphs ih =>
    unfold entries
    rw [List.length_cons]
    split
    · rename_i next hstep
      have hnext : next.Sound P := (step_ends hP hlowers hlinks hstate).of_eq_ok hstep
      exact Nat.lt_of_le_of_lt (ih hnext) (left_lt_of_step hlowers hcost hstate.current hstep)
    · exact Nat.lt_of_lt_of_le hstate.frames.length_pos (Nat.le_add_left _ _)

theorem length_entries_of_endless {subgraphs : Nat} {state : State} (hstate : state.Sound P)
    (hendless : runFor plan limits subgraphs state = .error (.abort .endless)) :
    (entries plan limits subgraphs state).length = subgraphs := by
  induction subgraphs generalizing state with
  | zero => rfl
  | succ subgraphs ih =>
    have hends : Outcome.Ends (Progression.Sound P) IsExternal (step plan limits state) :=
      step_ends hP hlowers hlinks hstate
    unfold runFor at hendless
    unfold entries
    rw [List.length_cons]
    cases hstep : step plan limits state with
    | error stop =>
      rw [hstep] at hendless hends
      obtain ⟨cause, rfl, -⟩ := hends
      cases hendless
    | ok progression =>
      rw [hstep] at hendless hends
      cases progression with
      | goesOn next =>
        dsimp only
        rw [ih hends hendless]
      | ends env counters => cases hendless

end Runs

/-- A run that has ended before it has entered all it may goes on no further if it may enter more. -/
theorem runFor_add {subgraphs : Nat} {state : State}
    (hlt : (entries plan limits subgraphs state).length < subgraphs) (more : Nat) :
    runFor plan limits (subgraphs + more) state = runFor plan limits subgraphs state := by
  induction subgraphs generalizing state with
  | zero => exact absurd hlt (Nat.lt_irrefl 0)
  | succ subgraphs ih =>
    rw [Nat.add_right_comm]
    unfold runFor
    unfold entries at hlt
    rw [List.length_cons] at hlt
    cases hstep : step plan limits state with
    | error stop => rfl
    | ok progression =>
      cases progression with
      | goesOn next =>
        rw [hstep] at hlt
        exact ih (Nat.lt_of_succ_lt_succ hlt)
      | ends env counters => rfl

theorem left_start {inputs : List DenseArray} {state : State} (hstart : start P inputs = .ok state) :
    state.left limits = 2 * limits.maxSteps + 1 := by
  obtain ⟨formals, -, hstart⟩ := Outcome.bind_eq_ok.mp hstart
  obtain ⟨arguments, -, hstart⟩ := Outcome.bind_eq_ok.mp hstart
  obtain ⟨env, -, hstart⟩ := Outcome.bind_eq_ok.mp hstart
  obtain ⟨entry, -, hpure⟩ := Outcome.bind_eq_ok.mp hstart
  obtain rfl := Outcome.pure_eq_ok.mp hpure
  unfold State.left
  rw [Counters.enter_eq]
  rfl

/-- Where every subgraph that ends in a call has another node, a run of the plan of a checked program
has results or is refused, and the subgraphs that it enters are bounded by the steps that are allowed:
it would come to the same if it might enter no more than two for every step and two besides. -/
theorem run_within_budget (hvalid : P.validate = .ok ()) (hplan : ExecutionPlan.lower P = .ok plan)
    (hcost : P.CallsCost) (limits : RunLimits) (inputs : List DenseArray) :
    ((∃ execution, run plan limits inputs = .ok execution)
        ∨ ∃ cause, run plan limits inputs = .error (.refused cause))
      ∧ ∀ state, start plan.program inputs = .ok state → ∀ subgraphs,
        (entries plan limits subgraphs state).length ≤ 2 * limits.maxSteps + 2
          ∧ (2 * limits.maxSteps + 2 ≤ subgraphs → runFor plan limits subgraphs state
            = runFor plan limits (2 * limits.maxSteps + 2) state) := by
  obtain ⟨hP, houtputs, -, hlinks⟩ := validate_eq_ok.mp hvalid
  have hlowers := ExecutionPlan.lowers_of_lower hP hplan
  have hbound {state : State} (hstart : start P inputs = .ok state) (subgraphs : Nat) :
      (entries plan limits subgraphs state).length < 2 * limits.maxSteps + 2 := by
    have hstate : state.Sound P := (start_ends hP inputs).of_eq_ok hstart
    have hentered : (entries plan limits subgraphs state).length ≤ state.left limits :=
      length_entries_le hP hlowers hlinks hcost subgraphs hstate
    rw [left_start hstart] at hentered
    exact Nat.lt_succ_of_le hentered
  constructor
  · have hends : Outcome.Ends (fun _ => True) IsExternal (run plan limits inputs) := by
      refine run_ends hP hlowers.program_eq houtputs (fun _ h => h) fun state hstart => ?_
      have hstate : state.Sound P := (start_ends hP inputs).of_eq_ok hstart
      rcases (runFor_ends hP hlowers hlinks _ hstate).cases with
        ⟨answer, hok, hanswer⟩ | ⟨stop, hstop, hexternal | rfl⟩
      · rw [hok]
        exact hanswer
      · rw [hstop]
        exact hexternal
      · have hentered := hbound hstart (entryAllowance limits)
        rw [length_entries_of_endless hP hlowers hlinks hstate hstop, entryAllowance] at hentered
        have hword : 2 ≤ wordCount := by decide
        omega
    rcases hends.cases with ⟨execution, hok, -⟩ | ⟨stop, hstop, cause, rfl, -⟩
    · exact .inl ⟨execution, hok⟩
    · exact .inr ⟨cause, hstop⟩
  · intro state hstart subgraphs
    rw [hlowers.program_eq] at hstart
    refine ⟨Nat.le_of_lt (hbound hstart subgraphs), fun hle => ?_⟩
    obtain ⟨more, rfl⟩ := Nat.exists_eq_add_of_le hle
    exact runFor_add (hbound hstart _) more

end Machine

/-- A body that ends in a call of itself. -/
def spinning : Program where
  tensors := #["x", "handle", "y", "given", "again", "z"].map fun name => ⟨name, [], .f32, none⟩
  nodes := #[⟨"bind", .bind 1, [0], [1]⟩, ⟨"call", .call, [1], [2]⟩,
    ⟨"bind_again", .bind 1, [3], [4]⟩, ⟨"call_again", .call, [4], [5]⟩]
  subgraphs := #[⟨"main", .body, [0], [2], [0, 1]⟩, ⟨"loop", .body, [3], [5], [2, 3]⟩]
  order := [0, 1]
  entry := 0
  outputs := [2]
  links := .empty

/-- The body would call itself without end, and the steps end the run. -/
theorem spinning_within_budget : ∃ plan, ExecutionPlan.lower spinning = .ok plan
    ∧ Machine.run plan ⟨0, 3⟩ [⟨[], [0], rfl⟩] = .error (.refused (.tooManySteps 3))
    ∧ ∀ state, Machine.start plan.program [⟨[], [0], rfl⟩] = .ok state → ∀ subgraphs,
      (Machine.entries plan ⟨0, 3⟩ subgraphs state).length ≤ 8 := by
  obtain ⟨plan, hplan, hrun⟩ : ∃ plan, ExecutionPlan.lower spinning = .ok plan
      ∧ Machine.run plan ⟨0, 3⟩ [⟨[], [0], rfl⟩] = .error (.refused (.tooManySteps 3)) :=
    Outcome.exists_of_holds _ (by decide +kernel)
  have hbudget := Machine.run_within_budget (P := spinning) (by decide +kernel) hplan
    (by decide +kernel) ⟨0, 3⟩ [⟨[], [0], rfl⟩]
  exact ⟨plan, hplan, hrun, fun state hstart subgraphs => (hbudget.2 state hstart subgraphs).1⟩

end TailFlow
