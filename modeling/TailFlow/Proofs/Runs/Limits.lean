import TailFlow.Proofs.Runs.Budget

/-!
# What limits do to a run

Limits are compared with what a run has counted, and nothing that is computed depends on them. A
run under wider limits therefore goes the way of the run under the narrower ones for as long as
that goes: it has the same results and the same counts, and is refused for the same reason if the
reason is not a limit.

What is kept along two runs is said of their outcomes, by `Outcome.Prolongs`. The lemmas follow
the two interpreters function by function, and the recursions that are bounded by a number may be
given a larger number in the second run.
-/

namespace TailFlow

namespace Outcome

variable {ε α β : Type} {cut cut' : ε → Prop}

/-- The second operation ends as the first one does, unless the first one is cut short. -/
def Prolongs (cut : ε → Prop) (short long : Except ε α) : Prop :=
  long = short ∨ ∃ stop, short = .error stop ∧ cut stop

theorem Prolongs.refl (cut : ε → Prop) (outcome : Except ε α) : Prolongs cut outcome outcome :=
  .inl rfl

theorem prolongs_of_cut {stop : ε} (hcut : cut stop) (long : Except ε α) :
    Prolongs cut (.error stop) long :=
  .inr ⟨stop, rfl, hcut⟩

theorem Prolongs.imp (himp : ∀ stop, cut stop → cut' stop) {short long : Except ε α}
    (h : Prolongs cut short long) : Prolongs cut' short long :=
  h.imp_right fun ⟨stop, hstop, hcut⟩ => ⟨stop, hstop, himp stop hcut⟩

theorem Prolongs.bind {short long : Except ε α} {next next' : α → Except ε β}
    (h : Prolongs cut short long) (hnext : ∀ value, Prolongs cut (next value) (next' value)) :
    Prolongs cut (short >>= next) (long >>= next') := by
  rcases h with rfl | ⟨stop, rfl, hcut⟩
  · cases long with
    | error stop => exact .refl cut _
    | ok value => exact hnext value
  · exact prolongs_of_cut hcut _

theorem prolongs_bind (first : Except ε α) {next next' : α → Except ε β}
    (hnext : ∀ value, Prolongs cut (next value) (next' value)) :
    Prolongs cut (first >>= next) (first >>= next') :=
  (Prolongs.refl cut first).bind hnext

theorem Prolongs.eq_ok {short long : Except ε α} (h : Prolongs cut short long) {answer : α}
    (hok : short = .ok answer) : long = .ok answer := by
  rcases h with rfl | ⟨stop, hstop, -⟩
  · exact hok
  · exact nomatch hok.symm.trans hstop

theorem Prolongs.eq_error {short long : Except ε α} (h : Prolongs cut short long) {stop : ε}
    (herror : short = .error stop) (hcut : ¬ cut stop) : long = .error stop := by
  rcases h with rfl | ⟨other, hother, hother'⟩
  · exact herror
  · obtain rfl := Except.error.inj (herror.symm.trans hother)
    exact absurd hother' hcut

end Outcome

open Outcome

/-- An error that says that a limit has been reached. -/
def EvalError.isLimit : EvalError → Bool
  | .tooDeep _ | .tooManySteps _ | .tooManyContinuations _ _ => true
  | _ => false

def IsLimit (stop : Stop EvalError) : Prop := ∃ cause, stop = .refused cause ∧ cause.isLimit = true

/-- Limits that allow no more than others. -/
structure RunLimits.Within (limits wider : RunLimits) : Prop where
  depth : limits.maxCallDepth ≤ wider.maxCallDepth
  steps : limits.maxSteps ≤ wider.maxSteps

theorem isLimit_refused {cause : EvalError} (hlimit : cause.isLimit = true) :
    IsLimit (.refused cause) :=
  ⟨cause, rfl, hlimit⟩

variable {limits wider : RunLimits}

theorem Counters.step_prolongs (hwithin : limits.Within wider) (counters : Counters) :
    Prolongs IsLimit (counters.step limits) (counters.step wider) := by
  have hsteps := hwithin.steps
  unfold step
  dsimp only
  by_cases hle : counters.steps + 1 ≤ limits.maxSteps
  · rw [if_pos hle, if_pos (by omega)]
    exact .refl IsLimit _
  · rw [if_neg hle]
    exact prolongs_of_cut (isLimit_refused rfl) _

/-! ### Recursive runs -/

namespace Recursive

variable {P : Program} {call wide : Invoke}

theorem runCall_prolongs
    (hcall : ∀ id arguments counters,
      Prolongs IsLimit (call id arguments counters) (wide id arguments counters))
    (node : Node) (env : Environment) (counters : Counters) :
    Prolongs IsLimit (runCall call P node env counters) (runCall wide P node env counters) := by
  unfold runCall
  apply prolongs_bind
  intro handle
  apply prolongs_bind
  intro closure
  exact (hcall _ _ _).bind fun _ => .refl IsLimit _

theorem runNodes_prolongs (hwithin : limits.Within wider)
    (hcall : ∀ id arguments counters,
      Prolongs IsLimit (call id arguments counters) (wide id arguments counters))
    (nodes : List NodeId) (env : Environment) (counters : Counters) :
    Prolongs IsLimit (runNodes call P limits nodes env counters)
      (runNodes wide P wider nodes env counters) := by
  induction nodes generalizing env counters with
  | nil => exact .refl IsLimit _
  | cons id rest ih =>
    unfold runNodes
    refine (Counters.step_prolongs hwithin counters).bind fun stepped => ?_
    apply prolongs_bind
    intro node
    split
    · exact (runCall_prolongs hcall node env stepped).bind fun _ => ih _ _
    · exact prolongs_bind _ fun _ => ih _ _

theorem runChain_prolongs (hwithin : limits.Within wider)
    (hcall : ∀ id arguments counters,
      Prolongs IsLimit (call id arguments counters) (wide id arguments counters))
    {links more : Nat} (hlinks : links ≤ more) (subgraph : Subgraph) (env : Environment)
    (counters : Counters) :
    Prolongs IsLimit (runChain call P limits links subgraph env counters)
      (runChain wide P wider more subgraph env counters) := by
  induction links generalizing more subgraph env counters with
  | zero => exact prolongs_of_cut (isLimit_refused rfl) _
  | succ links ih =>
    obtain ⟨more, rfl⟩ := Nat.exists_eq_succ_of_ne_zero (Nat.ne_zero_of_lt hlinks)
    unfold runChain
    refine (runNodes_prolongs hwithin hcall subgraph.nodes env counters).bind fun _ => ?_
    dsimp only
    cases subgraph.lastNode?.bind P.linkFor? with
    | none => exact .refl IsLimit _
    | some link => exact prolongs_bind _ fun _ => ih (Nat.le_of_succ_le_succ hlinks) _ _ _

theorem invoke_prolongs (hwithin : limits.Within wider) {levels more : Nat} (hlevels : levels ≤ more)
    (id : SubgraphId) (arguments : List Value) (counters : Counters) :
    Prolongs IsLimit (invoke P limits levels id arguments counters)
      (invoke P wider more id arguments counters) := by
  induction levels generalizing more id arguments counters with
  | zero => exact prolongs_of_cut (isLimit_refused rfl) _
  | succ levels ih =>
    obtain ⟨more, rfl⟩ := Nat.exists_eq_succ_of_ne_zero (Nat.ne_zero_of_lt hlevels)
    unfold invoke
    apply prolongs_bind
    intro subgraph
    apply prolongs_bind
    intro env
    exact runChain_prolongs hwithin (fun id arguments counters =>
      ih (Nat.le_of_succ_le_succ hlevels) id arguments counters)
      (Nat.succ_le_succ hwithin.steps) subgraph env _

theorem run_prolongs (hwithin : limits.Within wider) (P : Program) (inputs : List DenseArray) :
    Prolongs IsLimit (run P limits inputs) (run P wider inputs) := by
  unfold run
  apply prolongs_bind
  intro arguments
  have hinvoke := invoke_prolongs (P := P) hwithin (Nat.succ_le_succ hwithin.depth) P.entry arguments .zero
  exact hinvoke.bind fun _ => .refl IsLimit _

end Recursive

/-! ### Runs of plans -/

namespace Machine

variable {P : Program} {plan : ExecutionPlan}

/-- A run of a plan is cut short at a limit, or where it may enter no more subgraphs. -/
def IsCut (stop : Stop EvalError) : Prop := IsLimit stop ∨ stop = .abort .endless

theorem runNodes_prolongs (hwithin : limits.Within wider) (nodes : List NodeId) (env : Environment)
    (counters : Counters) :
    Prolongs IsLimit (runNodes P limits nodes env counters) (runNodes P wider nodes env counters) := by
  induction nodes generalizing env counters with
  | nil => exact .refl IsLimit _
  | cons id rest ih =>
    unfold runNodes
    refine (Counters.step_prolongs hwithin counters).bind fun stepped => ?_
    exact prolongs_bind _ fun _ => ih _ _

theorem pushLink_prolongs (hwithin : limits.Within wider) (call : NodeId) (continuation : SubgraphId)
    (frames : List Frame) :
    Prolongs IsLimit (pushLink plan limits call continuation frames)
      (pushLink plan wider call continuation frames) := by
  have hdepth := hwithin.depth
  unfold pushLink
  apply prolongs_bind
  intro link
  by_cases hlt : frames.length < limits.maxCallDepth
  · rw [decide_eq_true hlt, decide_eq_true (show frames.length < wider.maxCallDepth by omega)]
    exact .refl IsLimit _
  · rw [decide_eq_false hlt]
    exact prolongs_of_cut (isLimit_refused rfl) _

theorem step_prolongs (hwithin : limits.Within wider) (state : State) :
    Prolongs IsLimit (step plan limits state) (step plan wider state) := by
  unfold step
  apply prolongs_bind
  intro lowered
  refine (runNodes_prolongs hwithin (inlineNodes lowered) state.env state.counters).bind fun _ => ?_
  dsimp only
  cases lowered.terminator with
  | returns => exact .refl IsLimit _
  | tailCall call => exact .refl IsLimit _
  | linkedCall call continuation =>
    exact (pushLink_prolongs hwithin call continuation state.frames).bind fun _ => .refl IsLimit _

theorem runFor_prolongs (hwithin : limits.Within wider) {subgraphs more : Nat} (hle : subgraphs ≤ more)
    (state : State) :
    Prolongs IsCut (runFor plan limits subgraphs state) (runFor plan wider more state) := by
  induction subgraphs generalizing more state with
  | zero => exact prolongs_of_cut (.inr rfl) _
  | succ subgraphs ih =>
    obtain ⟨more, rfl⟩ := Nat.exists_eq_succ_of_ne_zero (Nat.ne_zero_of_lt hle)
    unfold runFor
    refine ((step_prolongs hwithin state).imp fun _ => .inl).bind fun progression => ?_
    cases progression with
    | goesOn next => exact ih (Nat.le_of_succ_le_succ hle) next
    | ends env counters => exact .refl IsCut _

theorem run_prolongs (hwithin : limits.Within wider) (plan : ExecutionPlan) (inputs : List DenseArray) :
    Prolongs IsCut (run plan limits inputs) (run plan wider inputs) := by
  have hallowance : entryAllowance limits ≤ entryAllowance wider := by
    have hsteps := hwithin.steps
    unfold entryAllowance
    omega
  unfold run
  apply prolongs_bind
  intro state
  exact (runFor_prolongs hwithin hallowance state).bind fun _ => .refl IsCut _

end Machine

/-- Limits only cut runs short. Under wider limits each of the two interpreters has the same
results, counts and steps where it has any under the narrower ones, and it stops for the same reason
where the reason was not a limit. A run of a plan that was broken off under the narrower limits has
not stopped. -/
theorem limits_only_cut_short (hwithin : limits.Within wider) (P : Program) (plan : ExecutionPlan)
    (inputs : List DenseArray) :
    ((∀ execution, Recursive.run P limits inputs = .ok execution →
        Recursive.run P wider inputs = .ok execution)
      ∧ ∀ stop, Recursive.run P limits inputs = .error stop → ¬ IsLimit stop →
        Recursive.run P wider inputs = .error stop)
    ∧ (∀ execution, Machine.run plan limits inputs = .ok execution →
        Machine.run plan wider inputs = .ok execution)
      ∧ ∀ stop, Machine.run plan limits inputs = .error stop → ¬ IsLimit stop →
        stop ≠ .abort .endless → Machine.run plan wider inputs = .error stop := by
  have hrecursive := Recursive.run_prolongs hwithin P inputs
  have hmachine := Machine.run_prolongs hwithin plan inputs
  refine ⟨⟨fun _ => hrecursive.eq_ok, fun _ => hrecursive.eq_error⟩, fun _ => hmachine.eq_ok, ?_⟩
  intro stop hstop hlimit hendless
  exact hmachine.eq_error hstop fun hcut => hcut.elim hlimit hendless

/-- Six steps and two open calls are enough for the program and for its plan, so the limits that
hold where nothing else is said are. An array of another shape is refused under both. -/
theorem carried_under_default_limits : RunLimits.Within ⟨2, 6⟩ {}
    ∧ ∃ plan, ExecutionPlan.lower carried = .ok plan
      ∧ Recursive.run carried {} [⟨[], [0], rfl⟩]
        = .ok ⟨[⟨[], [0], rfl⟩], countAll .empty [0, 1, 2], 6⟩
      ∧ Machine.run plan {} [⟨[], [0], rfl⟩] = .ok ⟨[⟨[], [0], rfl⟩], countAll .empty [0, 1, 2], 4⟩
      ∧ Recursive.run carried {} [⟨[1], [0], rfl⟩] = .error (.refused (.wrongInputShape "x" [] [1]))
      ∧ Machine.run plan {} [⟨[1], [0], rfl⟩] = .error (.refused (.wrongInputShape "x" [] [1])) := by
  have hwithin : RunLimits.Within ⟨2, 6⟩ {} := ⟨by decide, by decide⟩
  obtain ⟨plan, hplan, hrun, hrefused⟩ : ∃ plan, ExecutionPlan.lower carried = .ok plan
      ∧ Machine.run plan ⟨2, 6⟩ [⟨[], [0], rfl⟩]
        = .ok ⟨[⟨[], [0], rfl⟩], countAll .empty [0, 1, 2], 4⟩
      ∧ Machine.run plan ⟨2, 6⟩ [⟨[1], [0], rfl⟩]
        = .error (.refused (.wrongInputShape "x" [] [1])) :=
    Outcome.exists_of_holds _ (by decide +kernel)
  have hlimit : ¬ IsLimit (.refused (.wrongInputShape "x" [] [1])) := by
    rintro ⟨cause, hsame, hlimit⟩
    cases hsame
    exact nomatch hlimit
  obtain ⟨⟨hruns, -⟩, hplanned, -⟩ := limits_only_cut_short hwithin carried plan [⟨[], [0], rfl⟩]
  obtain ⟨⟨-, hstops⟩, -, hbreaks⟩ := limits_only_cut_short hwithin carried plan [⟨[1], [0], rfl⟩]
  exact ⟨hwithin, plan, hplan, hruns _ (by decide +kernel), hplanned _ hrun,
    hstops _ (by decide +kernel) hlimit, hbreaks _ hrefused hlimit nofun⟩

end TailFlow
