import TailFlow.Proofs.CallGraph.Cycles
import TailFlow.Proofs.Runs.Closed
import TailFlow.Proofs.Runs.Recursion
import TailFlow.Proofs.Runs.Scheduled

/-!
# Watching a recursive run

A recursive run keeps its open calls on the stack of the recursion, where nothing can be said about
them. Here the run is watched: besides how it ends it leaves behind the moments that it passes through,
each with the calls that wait at that moment. Forgetting the moments gives the run back, also where the
run fails.

Handles come from binders whose handles flow to where they are read, so at every moment each call that
waits may run what is open above it. Since no call that is not a tail call leads back to its own
subgraph, the subgraph of such a call is not open a second time above it.
-/

namespace TailFlow

open Program

/-- A call that waits for its results, and the subgraph that makes it. -/
structure WaitingCall where
  owner : SubgraphId
  call : NodeId
  deriving DecidableEq, Repr

/-- A moment of a run: the calls that wait, the one opened last in front, and the subgraph that is being
run. -/
structure Moment where
  waiting : List WaitingCall
  running : SubgraphId
  deriving DecidableEq, Repr

/-- What is left behind by a run that is watched: its moments, and how it ends. -/
structure Watched (α : Type) where
  moments : List Moment
  outcome : Evaluation α

namespace Watched

variable {α β : Type}

instance : Monad Watched where
  pure value := ⟨[], .ok value⟩
  bind first next :=
    match first.outcome with
    | .ok value => ⟨first.moments ++ (next value).moments, (next value).outcome⟩
    | .error stop => ⟨first.moments, .error stop⟩

def inside (evaluation : Evaluation α) : Watched α := ⟨[], evaluation⟩

def note (moment : Moment) : Watched Unit := ⟨[moment], .ok ()⟩

@[simp] theorem outcome_pure (value : α) : (pure value : Watched α).outcome = .ok value := rfl

@[simp] theorem outcome_inside (evaluation : Evaluation α) :
    (inside evaluation).outcome = evaluation := rfl

@[simp] theorem outcome_note (moment : Moment) : (note moment).outcome = .ok () := rfl

@[simp] theorem outcome_bind (first : Watched α) (next : α → Watched β) :
    (first >>= next).outcome = first.outcome >>= fun value => (next value).outcome := by
  obtain ⟨moments, outcome⟩ := first
  cases outcome <;> rfl

@[simp] theorem moments_pure (value : α) : (pure value : Watched α).moments = [] := rfl

@[simp] theorem moments_inside (evaluation : Evaluation α) : (inside evaluation).moments = [] := rfl

@[simp] theorem moments_note (moment : Moment) : (note moment).moments = [moment] := rfl

theorem mem_moments_bind {first : Watched α} {next : α → Watched β} {moment : Moment} :
    moment ∈ (first >>= next).moments ↔ moment ∈ first.moments
      ∨ ∃ value, first.outcome = .ok value ∧ moment ∈ (next value).moments := by
  obtain ⟨moments, outcome⟩ := first
  cases outcome with
  | error stop => exact ⟨.inl, fun h => h.resolve_right fun ⟨_, hnone, _⟩ => nomatch hnone⟩
  | ok value =>
    refine List.mem_append.trans (or_congr_right ⟨fun h => ⟨value, rfl, h⟩, ?_⟩)
    intro ⟨_, hvalue, hmem⟩
    exact Except.ok.inj hvalue ▸ hmem

end Watched

namespace Recursive

abbrev WatchedInvoke := SubgraphId → List Value → Counters → Watched (List Value × Counters)

def watchCall (invoke : WatchedInvoke) (program : Program) (node : Node) (env : Environment)
    (counters : Counters) : Watched (Environment × Counters) := do
  let handle ← .inside (Outcome.following node.inputs[0]?)
  let (callee, arguments) ← .inside (env.closure program handle)
  let (results, counters) ← invoke callee arguments counters
  return (← .inside (env.bindAll node.outputs results), counters)

/-- Runs nodes of a subgraph and watches them. The callees are told which calls wait. -/
def watchNodes (invoke : List WaitingCall → WatchedInvoke) (program : Program) (limits : RunLimits)
    (waiting : List WaitingCall) (owner : SubgraphId) :
    List NodeId → Environment → Counters → Watched (Environment × Counters)
  | [], env, counters => return (env, counters)
  | id :: rest, env, counters => do
    .note ⟨waiting, owner⟩
    let counters ← .inside (counters.step limits)
    let node ← .inside (program.node id)
    if node.isCall then
      let (env, counters) ← watchCall (invoke (⟨owner, id⟩ :: waiting)) program node env counters
      watchNodes invoke program limits waiting owner rest env counters
    else
      let env ← .inside (env.runNode program id)
      watchNodes invoke program limits waiting owner rest env counters

/-- Runs a subgraph and its continuations and watches them. -/
def watchChain (invoke : List WaitingCall → WatchedInvoke) (program : Program) (limits : RunLimits)
    (waiting : List WaitingCall) :
    Nat → SubgraphId → Subgraph → Environment → Counters → Watched (List Value × Counters)
  | 0, _, _, _, _ => .inside (.refuse (.tooManySteps limits.maxSteps))
  | links + 1, id, subgraph, env, counters => do
    let (env, counters) ← watchNodes invoke program limits waiting id subgraph.nodes env counters
    match subgraph.lastNode?.bind program.linkFor? with
    | some link =>
      let next ← .inside (program.subgraph link.continuation)
      watchChain invoke program limits waiting links link.continuation next env counters
    | none => return (← .inside (env.values program subgraph.outputs), counters)

/-- Runs a subgraph on arguments and watches it. A subgraph that is opened is taken down even where the
limits do not allow it any more. -/
def watchInvoke (program : Program) (limits : RunLimits) : Nat → List WaitingCall → WatchedInvoke
  | 0, waiting, id, _, _ => do
    .note ⟨waiting, id⟩
    .inside (.refuse (.tooDeep limits.maxCallDepth))
  | levels + 1, waiting, id, arguments, counters => do
    .note ⟨waiting, id⟩
    let subgraph ← .inside (program.subgraph id)
    let env ← .inside (Environment.bindAll .empty subgraph.inputs arguments)
    watchChain (watchInvoke program limits levels) program limits waiting (limits.maxSteps + 1) id
      subgraph env (counters.enter id subgraph.kind)

def watch (program : Program) (limits : RunLimits) (inputs : List DenseArray) :
    Watched Execution := do
  let arguments ← .inside (entryArguments program inputs)
  let (results, counters) ←
    watchInvoke program limits (limits.maxCallDepth + 1) [] program.entry arguments .zero
  let outputs ← .inside (results.mapM resultArray)
  return ⟨outputs, counters.calls, counters.steps⟩

/-! ### Forgetting the moments -/

section Forget

variable {P : Program} {limits : RunLimits} {invoke : Invoke}

theorem watchCall_outcome {watched : WatchedInvoke}
    (hinvoke : ∀ callee arguments counters,
      (watched callee arguments counters).outcome = invoke callee arguments counters)
    (node : Node) (env : Environment) (counters : Counters) :
    (watchCall watched P node env counters).outcome = runCall invoke P node env counters := by
  simp only [watchCall, runCall, Watched.outcome_bind, Watched.outcome_inside, Watched.outcome_pure,
    hinvoke]
  rfl

variable {watched : List WaitingCall → WatchedInvoke}
  (hinvoke : ∀ waiting callee arguments counters,
    (watched waiting callee arguments counters).outcome = invoke callee arguments counters)

include hinvoke

theorem watchNodes_outcome (waiting : List WaitingCall) (owner : SubgraphId) (nodes : List NodeId)
    (env : Environment) (counters : Counters) :
    (watchNodes watched P limits waiting owner nodes env counters).outcome
      = runNodes invoke P limits nodes env counters := by
  induction nodes generalizing env counters with
  | nil => rfl
  | cons id rest ih =>
    simp only [watchNodes, runNodes, Watched.outcome_bind, Watched.outcome_inside,
      Watched.outcome_note, Outcome.ok_bind]
    refine bind_congr fun counters => bind_congr fun node => ?_
    split
    · rw [Watched.outcome_bind, watchCall_outcome (hinvoke _)]
      exact bind_congr fun _ => ih _ _
    · rw [Watched.outcome_bind]
      exact bind_congr fun _ => ih _ _

theorem watchChain_outcome (waiting : List WaitingCall) (links : Nat) (id : SubgraphId)
    (subgraph : Subgraph) (env : Environment) (counters : Counters) :
    (watchChain watched P limits waiting links id subgraph env counters).outcome
      = runChain invoke P limits links subgraph env counters := by
  induction links generalizing id subgraph env counters with
  | zero => rfl
  | succ links ih =>
    simp only [watchChain, runChain, Watched.outcome_bind, watchNodes_outcome hinvoke]
    refine bind_congr fun answer => ?_
    cases subgraph.lastNode?.bind P.linkFor? with
    | some link =>
      dsimp only
      rw [Watched.outcome_bind]
      exact bind_congr fun next => ih _ _ _ _
    | none =>
      dsimp only
      rw [Watched.outcome_bind]
      rfl

end Forget

theorem watchInvoke_outcome (P : Program) (limits : RunLimits) (levels : Nat)
    (waiting : List WaitingCall) (id : SubgraphId) (arguments : List Value) (counters : Counters) :
    (watchInvoke P limits levels waiting id arguments counters).outcome
      = invoke P limits levels id arguments counters := by
  induction levels generalizing waiting id arguments counters with
  | zero => rfl
  | succ levels ih =>
    simp only [watchInvoke, invoke, Watched.outcome_bind, Watched.outcome_inside,
      Watched.outcome_note, Outcome.ok_bind, watchChain_outcome ih]

theorem watch_outcome (P : Program) (limits : RunLimits) (inputs : List DenseArray) :
    (watch P limits inputs).outcome = run P limits inputs := by
  simp only [watch, run, Watched.outcome_bind, Watched.outcome_inside, Watched.outcome_pure,
    watchInvoke_outcome]
  rfl

end Recursive

/-! ### What waits -/

/-- Each call that waits may run what is open right above it. -/
def Program.Stacks (P : Program) : List WaitingCall → SubgraphId → Prop
  | [], _ => True
  | frame :: below, above => P.MayRun frame.owner frame.call above ∧ P.Stacks below frame.owner

@[simp] theorem Program.stacks_cons {P : Program} {frame : WaitingCall} {below : List WaitingCall}
    {above : SubgraphId} : P.Stacks (frame :: below) above
      ↔ P.MayRun frame.owner frame.call above ∧ P.Stacks below frame.owner := Iff.rfl

/-- A call that waits may run something from which calls lead to all that is open above. -/
theorem Program.Stacks.exists_mayRun {P : Program} {above below : List WaitingCall}
    {frame : WaitingCall} {running : SubgraphId}
    (hstacks : P.Stacks (above ++ frame :: below) running) :
    ∃ callee, P.MayRun frame.owner frame.call callee ∧ P.CallsOnTo callee running
      ∧ ∀ other ∈ above, P.CallsOnTo callee other.owner := by
  induction above generalizing running with
  | nil => exact ⟨running, hstacks.1, .refl, List.forall_mem_nil _⟩
  | cons last above ih =>
    obtain ⟨hruns, hrest⟩ := stacks_cons.mp hstacks
    obtain ⟨callee, hcallee, hleads, hothers⟩ := ih hrest
    exact ⟨callee, hcallee, hleads.tail (callsInto_iff.mpr ⟨last.call, hruns⟩),
      List.forall_mem_cons.mpr ⟨hleads, hothers⟩⟩

namespace Recursive

section Stacks

variable {P : Program} {limits : RunLimits} {levels : Nat}

/-- While a call waits, the moments are those of what its handle stands for. -/
theorem exists_of_mem_watchCall {invoke : WatchedInvoke} {node : Node} {env : Environment}
    {counters : Counters} {moment : Moment}
    (hmoment : moment ∈ (watchCall invoke P node env counters).moments) :
    ∃ handle callee arguments, node.inputs.head? = some handle
      ∧ P.Reads env handle (.closure callee arguments)
      ∧ moment ∈ (invoke callee arguments counters).moments := by
  simp only [watchCall, Watched.mem_moments_bind, Watched.moments_inside, Watched.moments_pure,
    List.not_mem_nil, false_or, and_false, exists_false, or_false, Watched.outcome_inside] at hmoment
  obtain ⟨handle, hhandle, ⟨callee, arguments⟩, hclosure, hmoment⟩ := hmoment
  refine ⟨handle, callee, arguments, ?_, Environment.closure_eq_ok.mp hclosure, hmoment⟩
  rw [List.head?_eq_getElem?]
  exact Outcome.following_eq_ok.mp hhandle

variable (hP : P.WellFormed) (hconfined : P.HandlesConfined)

include hP hconfined

/-- A call that has been run leaves handles traced behind, because it has handed arrays over. -/
theorem traced_of_runCall {node : Node} {env env' : Environment} (htraced : Traced P env)
    {counters counters' : Counters}
    (hrun : runCall (invoke P limits levels) P node env counters = .ok (env', counters')) :
    Traced P env' := by
  obtain ⟨handle, -, hrun⟩ := Outcome.bind_eq_ok.mp hrun
  obtain ⟨⟨callee, arguments⟩, hclosure, hrun⟩ := Outcome.bind_eq_ok.mp hrun
  obtain ⟨⟨results, counted⟩, hinvoke, hrun⟩ := Outcome.bind_eq_ok.mp hrun
  obtain ⟨bound, hbind, hpure⟩ := Outcome.bind_eq_ok.mp hrun
  obtain ⟨rfl, -⟩ := Prod.mk.inj (Outcome.pure_eq_ok.mp hpure)
  obtain ⟨-, arrays, rfl⟩ := htraced.closure_of_reads (Environment.closure_eq_ok.mp hclosure)
  obtain ⟨outputs, -, rfl, -⟩ := sound hP hconfined limits levels callee arrays _ _ _ hinvoke
  exact htraced.bindArrays hbind

theorem traced_of_runNode {listed : ListedNode} (hlists : P.Lists listed) {env env' : Environment}
    (htraced : Traced P env) (hrun : env.runNode P listed.id = .ok env') : Traced P env' := by
  obtain ⟨-, -, -, hnode⟩ := id hlists
  obtain ⟨values, hgives, hbind⟩ := Environment.gives_of_runNode hnode (hP.fits hlists)
    (hconfined.isArray_of_binder hlists htraced) hrun
  exact htraced.step hlists hgives hbind

/-- Running nodes passes through moments in which what waits stacks up, if the callees do. -/
theorem stacks_of_watchNodes
    (hinvoke : ∀ waiting callee (arguments : List DenseArray) counters, P.Stacks waiting callee →
      ∀ moment ∈ (watchInvoke P limits levels waiting callee (arguments.map .array) counters).moments,
        P.Stacks moment.waiting moment.running)
    {owner : SubgraphId} {subgraph : Subgraph} (hsubgraph : P.subgraphs[owner]? = some subgraph)
    {waiting : List WaitingCall} (hstacks : P.Stacks waiting owner) {nodes : List NodeId}
    (hsub : ∀ id ∈ nodes, id ∈ subgraph.nodes) {env : Environment} (htraced : Traced P env)
    {counters : Counters} {moment : Moment}
    (hmoment : moment ∈ (watchNodes (watchInvoke P limits levels) P limits waiting owner nodes env
      counters).moments) : P.Stacks moment.waiting moment.running := by
  induction nodes generalizing env counters with
  | nil => exact nomatch hmoment
  | cons id rest ih =>
    obtain ⟨hhead, hrest⟩ := List.forall_mem_cons.mp hsub
    simp only [watchNodes, Watched.mem_moments_bind, Watched.moments_note, List.mem_singleton,
      Watched.moments_inside, List.not_mem_nil, false_or, Watched.outcome_note,
      Watched.outcome_inside] at hmoment
    rcases hmoment with rfl | ⟨-, -, stepped, -, node, hnode, hmoment⟩
    · exact hstacks
    obtain ⟨found, hfound, hlists⟩ := hP.exists_lists hsubgraph hhead
    obtain rfl := Option.some.inj (hfound.symm.trans (node_eq_ok.mp hnode))
    split at hmoment
    · rename_i hcall
      rcases Watched.mem_moments_bind.mp hmoment with hduring | ⟨⟨after, counted⟩, hran, hlater⟩
      · obtain ⟨handle, callee, arguments, hhandle, hreads, hduring⟩ := exists_of_mem_watchCall hduring
        obtain ⟨⟨binder, hflows, hnames⟩, arrays, rfl⟩ := htraced.closure_of_reads hreads
        have hruns : P.MayRun owner id callee :=
          ⟨_, handle, binder, hlists, rfl, rfl, hcall, hhandle, hflows, hnames⟩
        exact hinvoke _ callee arrays _ (stacks_cons.mpr ⟨hruns, hstacks⟩) moment hduring
      · rw [watchCall_outcome (watchInvoke_outcome P limits levels _)] at hran
        exact ih hrest (traced_of_runCall hP hconfined htraced hran) hlater
    · rcases Watched.mem_moments_bind.mp hmoment with hnone | ⟨after, hran, hlater⟩
      · exact nomatch hnone
      · exact ih hrest (traced_of_runNode hP hconfined hlists htraced hran) hlater

/-- At every moment of a subgraph that is run on arrays what waits stacks up, if it does so when the
subgraph is opened. -/
theorem stacks_of_watchInvoke (hlinks : P.links = .empty) {waiting : List WaitingCall}
    {id : SubgraphId} (hstacks : P.Stacks waiting id) {arguments : List DenseArray}
    {counters : Counters} {moment : Moment}
    (hmoment : moment ∈ (watchInvoke P limits levels waiting id (arguments.map .array)
      counters).moments) : P.Stacks moment.waiting moment.running := by
  induction levels generalizing waiting id arguments counters moment with
  | zero =>
    rcases Watched.mem_moments_bind.mp hmoment with hnow | ⟨-, -, hnone⟩
    · exact List.mem_singleton.mp hnow ▸ hstacks
    · exact nomatch hnone
  | succ levels ih =>
    simp only [watchInvoke, watchChain, Watched.mem_moments_bind, Watched.moments_note,
      List.mem_singleton, Watched.moments_inside, List.not_mem_nil, false_or, Watched.outcome_note,
      Watched.outcome_inside, bind_linkFor?_eq_none hlinks, Watched.moments_pure, and_false,
      exists_false, or_false] at hmoment
    rcases hmoment with rfl | ⟨-, -, subgraph, hsubgraph, env, hbind, hmoment⟩
    · exact hstacks
    · exact stacks_of_watchNodes hP hconfined
        (fun _ _ _ _ hstacks _ hmoment => ih hstacks hmoment) (subgraph_eq_ok.mp hsubgraph) hstacks
        (fun _ hmem => hmem) ((Traced.empty P).bindArrays hbind) hmoment

theorem stacks_of_watch (hlinks : P.links = .empty) {inputs : List DenseArray} {moment : Moment}
    (hmoment : moment ∈ (watch P limits inputs).moments) :
    P.Stacks moment.waiting moment.running := by
  simp only [watch, Watched.mem_moments_bind, Watched.moments_inside, List.not_mem_nil, false_or,
    Watched.outcome_inside, Watched.moments_pure, and_false, exists_false, or_false] at hmoment
  obtain ⟨arguments, harguments, hmoment⟩ := hmoment
  obtain rfl := entryArguments_eq_ok harguments
  have hempty : P.Stacks [] P.entry := trivial
  exact stacks_of_watchInvoke hP hconfined hlinks hempty hmoment

end Stacks

end Recursive

/-- However a run is going, a subgraph whose call waits without being a tail call is not open a second
time above that call. Watching a run does not change how it ends. The program is in single assignment
form and closed, handles are read by calls and switches only, and its calls have been detected. -/
theorem waiting_not_reopened {P : Program} {catalog : Catalog} {detection : Detection}
    (hvalid : P.validate = .ok ()) (hlinks : P.links = .empty) (honce : P.SingleAssignment)
    (hclosed : P.Closed) (hconfined : P.HandlesConfined)
    (hdetect : Detection.detect P catalog = .ok detection) (limits : RunLimits)
    (inputs : List DenseArray) :
    (Recursive.watch P limits inputs).outcome = Recursive.run P limits inputs
      ∧ ∀ moment ∈ (Recursive.watch P limits inputs).moments,
        ∀ above frame below, moment.waiting = above ++ frame :: below →
          (P.isTailCall frame.owner frame.call : Outcome ScheduleError Bool) = .ok false →
            moment.running ≠ frame.owner ∧ ∀ other ∈ above, other.owner ≠ frame.owner := by
  have hP := wellFormed_of_validate hvalid
  refine ⟨Recursive.watch_outcome P limits inputs, ?_⟩
  intro moment hmoment above frame below hwaiting htail
  have hstacks := Recursive.stacks_of_watch hP hconfined hlinks hmoment
  rw [hwaiting] at hstacks
  obtain ⟨callee, hruns, hrunning, habove⟩ := hstacks.exists_mayRun
  have hback : ¬ P.CallsOnTo callee frame.owner := by
    obtain ⟨listed, handle, binder, hlists, howner, hid, hcall, hhead, hflows, hnames⟩ := hruns
    rw [← howner, ← hid] at htail
    obtain ⟨subgraph, hsubgraph, -, hnode⟩ := id hlists
    have hnonTail : P.NonTail listed.owner listed.id := by
      rw [isTailCall_eq_ok hsubgraph hnode, Except.ok.injEq, decide_eq_false_iff_not] at htail
      exact (nonTail_iff hlists hcall hsubgraph).mpr htail
    rw [← howner]
    exact Detection.not_callsOnTo_of_nonTail hP (honce.handlesLocal hclosed).unique hdetect hlists
      hnonTail hhead hflows hnames
  refine ⟨fun hsame => hback (hsame ▸ hrunning), fun other hmem hsame => ?_⟩
  exact hback (hsame ▸ habove other hmem)

/-- The first call of the relay waits while the body is run, and is no tail call. -/
theorem relay_not_reopened : relay.SingleAssignment ∧ relay.Closed ∧ relay.HandlesConfined
    ∧ (relay.isTailCall 0 1 : Outcome ScheduleError Bool) = .ok false
    ∧ (Recursive.watch relay ⟨1, 7⟩ [⟨[], [0], rfl⟩]).outcome
      = Recursive.run relay ⟨1, 7⟩ [⟨[], [0], rfl⟩]
    ∧ ∃ moment ∈ (Recursive.watch relay ⟨1, 7⟩ [⟨[], [0], rfl⟩]).moments,
      moment.waiting = [⟨0, 1⟩] ∧ moment.running = 1 ∧ moment.running ≠ 0 := by
  have honce : relay.SingleAssignment := by decide +kernel
  have hclosed : relay.Closed := by decide +kernel
  have hconfined : relay.HandlesConfined := by decide +kernel
  have htail : (relay.isTailCall 0 1 : Outcome ScheduleError Bool) = .ok false := by decide +kernel
  have hmoment : ⟨[⟨0, 1⟩], 1⟩ ∈ (Recursive.watch relay ⟨1, 7⟩ [⟨[], [0], rfl⟩]).moments := by
    decide +kernel
  obtain ⟨detection, hdetect⟩ : ∃ detection, Detection.detect relay .empty = .ok detection :=
    Outcome.exists_of_isOk (by decide +kernel)
  obtain ⟨hsame, hstays⟩ := waiting_not_reopened (by decide +kernel) rfl honce hclosed hconfined
    hdetect ⟨1, 7⟩ [⟨[], [0], rfl⟩]
  obtain ⟨hrunning, -⟩ := hstays _ hmoment [] ⟨0, 1⟩ [] rfl htail
  exact ⟨honce, hclosed, hconfined, htail, hsame, _, hmoment, rfl, rfl, hrunning⟩

end TailFlow
