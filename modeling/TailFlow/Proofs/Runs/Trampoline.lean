import TailFlow.Proofs.Handles.Locality
import TailFlow.Proofs.Runs.Machine
import TailFlow.Proofs.Runs.Store

/-!
# Tail calls without a stack

Where all subgraphs are bodies and there are no links, every call of a plan is a tail call. A recursive
run then waits in every call for results that it only hands on, and the run of the plan goes from body
to body instead, with one store for all of them. The results are read in the body that returns. They
are what every call that waits would hand on, because a tail call writes different tensors and these
are what its subgraph returns.
-/

namespace TailFlow

open Program

variable {P : Program}

/-- A call writes different tensors. -/
def Program.CallsDistinct (P : Program) : Prop :=
  ∀ listed ∈ P.allListed, listed.node.isCall → listed.node.outputs.Nodup

instance (P : Program) : Decidable P.CallsDistinct :=
  inferInstanceAs (Decidable (∀ listed ∈ P.allListed, _))

/-- Nodes that are no calls are run by a recursive run and by the run of a plan alike. -/
theorem Machine.runNodes_of_recursive (hP : P.WellFormed) (hplain : P.WritesPlain)
    {invoke : Recursive.Invoke} {limits : RunLimits} {nodes rest : List NodeId}
    (hnodes : ∀ id ∈ nodes, ∃ owner node, P.Lists ⟨owner, id, node⟩ ∧ node.isCall = false)
    {env store : Environment} (hcovers : Covers Unchanged P env P store)
    (hspares : store.SparesConstants P) {counters : Counters} {answer : Environment × Counters}
    (hrun : Recursive.runNodes invoke P limits (nodes ++ rest) env counters = .ok answer) :
    ∃ env' store', Covers Unchanged P env' P store' ∧ store'.SparesConstants P
      ∧ Recursive.runNodes invoke P limits rest env' ⟨counters.calls, counters.steps + nodes.length⟩
        = .ok answer
      ∧ ∀ (limits : RunLimits) (counters : Counters), counters.steps + nodes.length ≤ limits.maxSteps →
        runNodes P limits nodes store counters
          = .ok (store', ⟨counters.calls, counters.steps + nodes.length⟩) := by
  induction nodes generalizing env store counters with
  | nil => exact ⟨env, store, hcovers, hspares, hrun, fun _ _ _ => rfl⟩
  | cons id nodes ih =>
    obtain ⟨⟨owner, node, hlists, hcall⟩, hothers⟩ := List.forall_mem_cons.mp hnodes
    obtain ⟨stepped, hstep, hrun⟩ := Outcome.bind_eq_ok.mp hrun
    obtain ⟨found, hfound, hrun⟩ := Outcome.bind_eq_ok.mp hrun
    obtain ⟨-, rfl⟩ := Counters.step_eq_ok.mp hstep
    have hnode : P.nodes[id]? = some node := hlists.choose_spec.2.2
    obtain rfl := Option.some.inj (hnode.symm.trans (node_eq_ok.mp hfound))
    rw [hcall, if_neg Bool.false_ne_true] at hrun
    obtain ⟨middle, hmiddle, hrun⟩ := Outcome.bind_eq_ok.mp hrun
    obtain ⟨middle', hmiddle', hcovers, hsame⟩ :=
      Environment.runNode_covers hcovers hP hlists hmiddle
    have hspares := hspares.of_unchanged (hplain.outputs hlists) hsame
    obtain ⟨env', store', hcovers, hspares, hrest, hruns⟩ := ih hothers hcovers hspares hrun
    refine ⟨env', store', hcovers, hspares, ?_, fun limits counters hsteps => ?_⟩
    · rw [List.length_cons, ← hrest, Nat.add_right_comm, Nat.add_assoc]
    · rw [List.length_cons] at hsteps ⊢
      rw [runNodes_cons (by omega) hmiddle',
        hruns limits ⟨counters.calls, counters.steps + 1⟩ (by dsimp only; omega)]
      dsimp only
      rw [Nat.add_right_comm, Nat.add_assoc]

theorem Recursive.call_of_runNodes {invoke : Recursive.Invoke} {limits : RunLimits} {call : NodeId}
    {node : Node} (hnode : P.nodes[call]? = some node) (hcall : node.isCall)
    {env env' : Environment} {counters counters' : Counters}
    (hrun : runNodes invoke P limits [call] env counters = .ok (env', counters')) :
    ∃ handle callee arguments results, node.inputs.head? = some handle
      ∧ P.Reads env handle (.closure callee arguments)
      ∧ invoke callee arguments ⟨counters.calls, counters.steps + 1⟩ = .ok (results, counters')
      ∧ env.bindAll node.outputs results = .ok env' := by
  obtain ⟨stepped, hstep, hrun⟩ := Outcome.bind_eq_ok.mp hrun
  obtain ⟨found, hfound, hrun⟩ := Outcome.bind_eq_ok.mp hrun
  obtain ⟨-, rfl⟩ := Counters.step_eq_ok.mp hstep
  obtain rfl := Option.some.inj (hnode.symm.trans (node_eq_ok.mp hfound))
  rw [if_pos hcall] at hrun
  obtain ⟨⟨middle, counted⟩, hcalling, hnil⟩ := Outcome.bind_eq_ok.mp hrun
  obtain ⟨rfl, rfl⟩ := Prod.mk.inj (Except.ok.inj hnil)
  obtain ⟨handle, hhandle, hcalling⟩ := Outcome.bind_eq_ok.mp hcalling
  obtain ⟨⟨callee, arguments⟩, hclosure, hcalling⟩ := Outcome.bind_eq_ok.mp hcalling
  obtain ⟨⟨results, counted⟩, hinvoke, hcalling⟩ := Outcome.bind_eq_ok.mp hcalling
  obtain ⟨after, hbind, hpure⟩ := Outcome.bind_eq_ok.mp hcalling
  obtain ⟨rfl, rfl⟩ := Prod.mk.inj (Outcome.pure_eq_ok.mp hpure)
  refine ⟨handle, callee, arguments, results, ?_, Environment.closure_eq_ok.mp hclosure, hinvoke,
    hbind⟩
  rw [List.head?_eq_getElem?]
  exact Outcome.following_eq_ok.mp hhandle

/-! ### From body to body -/

/-- From the start of a subgraph, with nothing but the end of the run below it, a run goes through
further subgraphs and binds results to whatever they are wanted in. -/
def Machine.Lands (plan : ExecutionPlan) (id : SubgraphId) (store : Environment)
    (results : List Value) (entered : List SubgraphId) (cost : Nat) : Prop :=
  ∃ left : Environment, ∀ ⦃destination : List TensorId⦄ ⦃final : Environment⦄,
    left.bindAll destination results = .ok final →
      ∀ (limits : RunLimits) (counters : Counters) (more : Nat),
        counters.steps + cost ≤ limits.maxSteps →
          runFor plan limits (entered.length + 1 + more) ⟨id, store, [⟨none, destination⟩], counters⟩
            = .ok (final, ⟨countAll counters.calls entered, counters.steps + cost⟩)

namespace Machine

variable {plan : ExecutionPlan}

section Subgraph

variable {id : SubgraphId} {subgraph : Subgraph} {lowered : LoweredSubgraph}
  {store store' : Environment} {results : List Value}
  (hprogram : plan.program = P) (hsubgraph : P.subgraphs[id]? = some subgraph)
  (hlowered : plan.lowered? id = some lowered) (hnodes : lowered.nodes = subgraph.nodes)

include hprogram hlowered hnodes

include hsubgraph in
theorem lands_returns (hends : lowered.terminator = .returns)
    (hruns : ∀ (limits : RunLimits) (counters : Counters),
      counters.steps + subgraph.nodes.length ≤ limits.maxSteps →
        runNodes P limits subgraph.nodes store counters
          = .ok (store', ⟨counters.calls, counters.steps + subgraph.nodes.length⟩))
    (hresults : store'.values P subgraph.outputs = .ok results) :
    Lands plan id store results [] subgraph.nodes.length := by
  subst hprogram
  refine ⟨store', fun destination final hbind limits counters more hsteps => ?_⟩
  have hstep : step plan limits ⟨id, store, [⟨none, destination⟩], counters⟩
      = .ok (.ends final ⟨counters.calls, counters.steps + subgraph.nodes.length⟩) := by
    have hinline : inlineNodes lowered = subgraph.nodes := by rw [inlineNodes, hends, hnodes]
    rw [step, Outcome.orRefuse_eq_ok.mpr hlowered, Outcome.ok_bind, hinline,
      hruns limits counters hsteps, Outcome.ok_bind, hends]
    exact returnFrom_eq_ok hsubgraph hresults hbind [] _
  rw [List.length_nil, Nat.zero_add, Nat.add_comm 1 more, runFor, hstep]
  rfl

theorem lands_tailCall {earlier : List NodeId} {call : NodeId} {node : Node} {handle : TensorId}
    {callee : SubgraphId} {arguments : List Value} {target : Subgraph} {after : Environment}
    {entered : List SubgraphId} {cost : Nat} (hends : lowered.terminator = .tailCall call)
    (hsplit : subgraph.nodes = earlier ++ [call])
    (hruns : ∀ (limits : RunLimits) (counters : Counters),
      counters.steps + earlier.length ≤ limits.maxSteps → runNodes P limits earlier store counters
        = .ok (store', ⟨counters.calls, counters.steps + earlier.length⟩))
    (hnode : P.nodes[call]? = some node) (hhandle : node.inputs.head? = some handle)
    (hreads : P.Reads store' handle (.closure callee arguments))
    (htarget : P.subgraphs[callee]? = some target) (hbody : target.kind = .body)
    (hbind : store'.bindAll target.inputs arguments = .ok after)
    (hlands : Lands plan callee after results entered cost) :
    Lands plan id store results (callee :: entered) (earlier.length + cost) := by
  subst hprogram
  obtain ⟨left, hlands⟩ := hlands
  refine ⟨left, fun destination final hfinal limits counters more hsteps => ?_⟩
  have hstep : step plan limits ⟨id, store, [⟨none, destination⟩], counters⟩
      = .ok (.goesOn ⟨callee, after, [⟨none, destination⟩],
        ⟨countAll counters.calls [callee], counters.steps + earlier.length⟩⟩) := by
    have hinline : inlineNodes lowered = earlier := by
      rw [inlineNodes, hends, hnodes, hsplit, List.dropLast_concat]
    rw [step, Outcome.orRefuse_eq_ok.mpr hlowered, Outcome.ok_bind, hinline,
      hruns limits counters (by omega), Outcome.ok_bind, hends]
    dsimp only
    rw [enterCallee_eq_ok hnode hhandle hreads htarget hbind, Outcome.ok_bind, hbody]
    rfl
  have hrest := hlands hfinal limits
    ⟨countAll counters.calls [callee], counters.steps + earlier.length⟩ more (by dsimp only; omega)
  rw [List.length_cons, Nat.add_right_comm _ 1 more, runFor, hstep, Outcome.ok_bind]
  dsimp only at hrest ⊢
  rw [hrest, Nat.add_assoc]
  rfl

end Subgraph

/-- What a recursive invocation comes to, the plan comes to from the start of the subgraph with the
arguments bound in its store. The calls that the recursion waits in are steps of its own. -/
theorem lands_of_invoke (hP : P.WellFormed) (hlowers : plan.Lowers P) (hbodies : P.AllBodies)
    (hlinks : P.links = .empty) (hplain : P.WritesPlain) (hdistinct : P.CallsDistinct)
    {limits : RunLimits} {levels : Nat} {id : SubgraphId} {arguments results : List Value}
    {counters counters' : Counters} {store : Environment} (hspares : store.SparesConstants P)
    (hinvoke : Recursive.invoke P limits levels id arguments counters = .ok (results, counters')) :
    ∃ subgraph env after entered cost, P.subgraphs[id]? = some subgraph
      ∧ store.bindAll subgraph.inputs arguments = .ok after
      ∧ List.Forall₂ (P.Reads env) subgraph.outputs results
      ∧ counters' = ⟨countAll counters.calls (id :: entered),
        counters.steps + cost + entered.length⟩
      ∧ Lands plan id after results entered cost := by
  induction levels generalizing id arguments results counters counters' store with
  | zero => exact (Outcome.refuse_ne_ok hinvoke).elim
  | succ levels ih =>
    obtain ⟨subgraph, env, env', hsubgraph, hbind, hrun, hread⟩ :=
      (Recursive.invoke_succ_eq_ok hlinks).mp hinvoke
    have hvalues := Environment.values_eq_ok.mpr hread
    have houtputs : ∀ tensor ∈ subgraph.outputs, tensor < P.tensors.size :=
      fun tensor hmem => hP.interface hsubgraph tensor (List.mem_append_right _ hmem)
    obtain ⟨after, hafter⟩ :=
      Environment.exists_bindAll store (Environment.length_eq_of_bindAll hbind)
    have hcovers := Environment.covers_of_bindAll hspares hbind hafter
    have hspares := hspares.of_unchanged (hplain.inputs hsubgraph)
      fun tensor habsent => Environment.get?_bindAll_of_notMem hafter habsent
    have henter : counters.enter id subgraph.kind
        = ⟨countAll counters.calls [id], counters.steps⟩ := by
      rw [Counters.enter_eq, hbodies hsubgraph]
      rfl
    rw [henter] at hrun
    obtain ⟨lowered, hlowered, hnodes, hends⟩ := hlowers.lowered hsubgraph
    generalize hterminator : lowered.terminator = terminator at hends
    cases hends with
    | returns hnone =>
      rw [← List.append_nil subgraph.nodes] at hrun
      obtain ⟨last, left, hcovers, -, hrest, hruns⟩ :=
        runNodes_of_recursive hP hplain (hnone.lists hP hsubgraph (List.Subset.refl _)) hcovers
          hspares hrun
      obtain ⟨rfl, rfl⟩ := Prod.mk.inj (Except.ok.inj hrest)
      exact ⟨subgraph, last, after, [], _, hsubgraph, hafter, hread, rfl,
        lands_returns hlowers.program_eq hsubgraph hlowered hnodes hterminator hruns
          (Environment.values_of_covers hcovers houtputs hvalues)⟩
    | @tailCall earlier call node hsplit hnone hnode hcall _ hsame =>
      rw [hsplit] at hrun
      have hsub : earlier ⊆ subgraph.nodes := hsplit ▸ List.subset_append_left _ _
      have hlists := ExecutionPlan.lists_last hsubgraph hsplit hnode
      obtain ⟨last, left, hcovers, hspares, hrest, hruns⟩ :=
        runNodes_of_recursive hP hplain (hnone.lists hP hsubgraph hsub) hcovers hspares hrun
      obtain ⟨handle, callee, inner, handed, hhandle, hclosure, hinner, hreturn⟩ :=
        Recursive.call_of_runNodes hnode hcall hrest
      -- What the callee returns is what the call binds and what its subgraph returns.
      have hbound := Environment.values_eq_ok.mpr
        (Environment.reads_bindAll (P := P) (hdistinct _ (mem_allListed.mpr hlists) hcall) hreturn)
      rw [hsame] at hbound
      obtain rfl := Except.ok.inj (hbound.symm.trans hvalues)
      obtain ⟨_, hclosure', rfl⟩ :=
        hcovers (hP.inputs_lt hlists (List.mem_of_head? hhandle)) hclosure
      obtain ⟨target, -, after', entered, cost, htarget, hafter', -, rfl, hlands⟩ := ih hspares hinner
      refine ⟨subgraph, env', after, callee :: entered, earlier.length + cost, hsubgraph, hafter,
        hread, ?_, lands_tailCall hlowers.program_eq hlowered hnodes hterminator hsplit hruns hnode
          hhandle hclosure' htarget (hbodies htarget) hafter' hlands⟩
      rw [List.length_cons, ← countAll_append, List.singleton_append]
      congr 1
      dsimp only
      omega
    | @linkedCall earlier call node link hsplit hnone hnode hcall hlink =>
      rw [linkFor?, hlinks, IdMap.get?_empty] at hlink
      cases hlink

theorem resultArrays {results : List Value} {outputs : List DenseArray}
    (hresults : results.mapM Recursive.resultArray = .ok outputs) : results = outputs.map .array := by
  refine List.forall₂_eq_eq_eq ▸ List.forall₂_map_right_iff.mpr ?_
  refine (Outcome.mapM_eq_ok.mp hresults).imp fun value array hresult => ?_
  cases value with
  | array found => rw [Except.ok.inj hresult]
  | closure _ _ => exact (Outcome.refuse_ne_ok hresult).elim

/-- If all subgraphs are bodies, there are no links, the program returns what its entry returns, no
constant is written, and no call writes a tensor twice, then whatever a recursive run comes to, the run
of the plan comes to, however few continuations may be pending, if it may make as many steps. The
recursive run makes a step more for every body that is entered but the entry. -/
theorem run_of_recursive (hvalid : P.validate = .ok ()) (hplan : ExecutionPlan.lower P = .ok plan)
    (hbodies : P.AllBodies) (hlinks : P.links = .empty)
    (houtputs : P.subgraphs[P.entry]?.map Subgraph.outputs = some P.outputs)
    (hplain : P.WritesPlain) (hdistinct : P.CallsDistinct) {limits limits' : RunLimits}
    {inputs : List DenseArray} {expected : Execution}
    (hrun : Recursive.run P limits inputs = .ok expected)
    (hsteps : expected.steps ≤ limits'.maxSteps) :
    ∃ actual, run plan limits' inputs = .ok actual ∧ actual.outputs = expected.outputs
      ∧ actual.callCounts = expected.callCounts
      ∧ expected.steps + 1 = actual.steps + sumOf expected.callCounts.values := by
  have hP := wellFormed_of_validate hvalid
  have hlowers := ExecutionPlan.lowers_of_lower hP hplan
  obtain ⟨arguments, harguments, hrun⟩ := Outcome.bind_eq_ok.mp hrun
  obtain ⟨⟨results, counters⟩, hinvoke, hrun⟩ := Outcome.bind_eq_ok.mp hrun
  obtain ⟨outputs, hresults, hpure⟩ := Outcome.bind_eq_ok.mp hrun
  obtain rfl := Outcome.pure_eq_ok.mp hpure
  obtain ⟨subgraph, env, after, entered, cost, hsubgraph, hbind, hread, rfl, left, hlands⟩ :=
    lands_of_invoke hP hlowers hbodies hlinks hplain hdistinct (Environment.sparesConstants_empty P)
      hinvoke
  rw [hsubgraph, Option.map_some, Option.some.injEq] at houtputs
  rw [houtputs, resultArrays hresults] at hread
  rw [resultArrays hresults] at hlands
  dsimp only at hsteps
  obtain ⟨final, hfinal⟩ := Environment.exists_bindAll left hread.length_eq
  obtain ⟨more, hmore⟩ : ∃ more, entryAllowance limits' = entered.length + 1 + more := by
    have hword : 1 ≤ wordCount := by decide
    refine Nat.exists_eq_add_of_le ?_
    unfold entryAllowance
    omega
  have hentered := hlands hfinal limits' ⟨countAll .empty [P.entry], 0⟩ more (by dsimp only; omega)
  have hbound : List.Forall₂ (P.Reads final) P.outputs (outputs.map .array) :=
    Environment.reads_bindAll_of_reads hread hfinal
  have hstart := start_eq_ok hsubgraph harguments hbind
  rw [hbodies hsubgraph] at hstart
  have hsum := sumOf_countAll .empty (P.entry :: entered)
  rw [show sumOf (IdMap.empty : IdMap Nat).values = 0 from rfl, List.length_cons] at hsum
  rw [← hmore] at hentered
  obtain rfl := hlowers.program_eq
  refine ⟨_, run_eq_ok hstart hentered hbound, rfl, rfl, ?_⟩
  show 0 + cost + entered.length + 1
    = 0 + cost + sumOf (countAll .empty (plan.program.entry :: entered)).values
  omega

end Machine

/-- Two bodies that call each other, with the same tensors, until nothing is left to be added. -/
def shuttle : Program where
  tensors := #[⟨"n", [], .f32, none⟩, ⟨"zero", [], .f32, some [0]⟩, ⟨"one", [], .f32, some [1]⟩]
    ++ #["handle", "sum", "count", "sofar", "more", "rest", "next", "again", "stop", "taken", "result",
      "total"].map fun name => ⟨name, [], .f32, none⟩
  nodes := #[⟨"bind", .bind 1, [0, 1], [3]⟩, ⟨"call", .call, [3], [4]⟩]
    ++ #[2, 1].flatMap fun other => #[⟨"more", .kernel .less, [1, 5], [7]⟩,
      ⟨"rest", .kernel .sub, [5, 2], [8]⟩, ⟨"next", .kernel .add, [6, 5], [9]⟩,
      ⟨"again", .bind other, [8, 9], [10]⟩, ⟨"stop", .bind 3, [6], [11]⟩,
      ⟨"pick", .switch, [7, 10, 11], [12]⟩, ⟨"go_on", .call, [12], [13]⟩]
  subgraphs := #[⟨"main", .body, [0], [4], [0, 1]⟩,
    ⟨"there", .body, [5, 6], [13], [2, 3, 4, 5, 6, 7, 8]⟩,
    ⟨"back", .body, [5, 6], [13], [9, 10, 11, 12, 13, 14, 15]⟩, ⟨"done", .body, [14], [14], []⟩]
  order := [0, 1, 2, 3]
  entry := 0
  outputs := [4]
  links := .empty

/-- The recursive run opens four calls inside each other, and the plan needs no continuation. -/
theorem shuttle_runs : ∃ plan, ExecutionPlan.lower shuttle = .ok plan
    ∧ Recursive.run shuttle ⟨4, 23⟩ [⟨[], [2], rfl⟩]
      = .ok ⟨[⟨[], [3], rfl⟩], countAll .empty [0, 1, 2, 1, 3], 23⟩
    ∧ ∃ actual, Machine.run plan ⟨0, 23⟩ [⟨[], [2], rfl⟩] = .ok actual
      ∧ actual.outputs = [⟨[], [3], rfl⟩] ∧ actual.steps = 19 := by
  obtain ⟨plan, hplan, -⟩ : ∃ plan, ExecutionPlan.lower shuttle = .ok plan ∧ True :=
    Outcome.exists_of_holds _ (by decide +kernel)
  have hrun : Recursive.run shuttle ⟨4, 23⟩ [⟨[], [2], rfl⟩]
      = .ok ⟨[⟨[], [3], rfl⟩], countAll .empty [0, 1, 2, 1, 3], 23⟩ := by decide +kernel
  obtain ⟨actual, hactual, houtputs, -, hsteps⟩ := Machine.run_of_recursive (by decide +kernel) hplan
    (by decide +kernel) rfl (by decide +kernel) (by decide +kernel) (by decide +kernel) hrun
    (show 23 ≤ RunLimits.maxSteps ⟨0, 23⟩ from Nat.le_refl 23)
  refine ⟨plan, hplan, hrun, actual, hactual, houtputs, ?_⟩
  have hcounts : sumOf (countAll .empty [0, 1, 2, 1, 3]).values = 5 := by decide
  dsimp only at hsteps
  omega

end TailFlow
