import TailFlow.Eval.Machine
import TailFlow.Proofs.Runs.Recursion
import TailFlow.Proofs.Schedule.TailForm

/-!
# Steps of a run with continuations

Between two subgraphs, a run of a plan stands at a `Place`: what comes next, the environment, and
the stack of continuations. `GoesTo` says that a run gets from one place to another one and which
bodies it enters on the way, for all limits that allow the depth of the stack and enough steps. One
lemma for each way in which a subgraph ends says where running the subgraph goes.
-/

namespace TailFlow

open Program

/-! ### How subgraphs end -/

namespace ExecutionPlan

variable {P : Program}

def NoneCalls (P : Program) (nodes : List NodeId) : Prop :=
  ∀ id ∈ nodes, ∀ node, P.nodes[id]? = some node → node.isCall = false

/-- What a subgraph looks like that a plan lets end in some way. -/
inductive Ends (P : Program) (subgraph : Subgraph) : Terminator → Prop where
  | returns (hnone : NoneCalls P subgraph.nodes) : Ends P subgraph .returns
  | tailCall {earlier : List NodeId} {call : NodeId} {node : Node}
      (hnodes : subgraph.nodes = earlier ++ [call]) (hnone : NoneCalls P earlier)
      (hnode : P.nodes[call]? = some node) (hcall : node.isCall)
      (hlink : P.linkFor? call = none) (houtputs : node.outputs = subgraph.outputs) :
      Ends P subgraph (.tailCall call)
  | linkedCall {earlier : List NodeId} {call : NodeId} {node : Node} {link : Link}
      (hnodes : subgraph.nodes = earlier ++ [call]) (hnone : NoneCalls P earlier)
      (hnode : P.nodes[call]? = some node) (hcall : node.isCall)
      (hlink : P.linkFor? call = some link) :
      Ends P subgraph (.linkedCall call link.continuation)

theorem noneCalls_of_checkNodes {id : SubgraphId} {name : String} {earlier : List NodeId}
    {last : NodeId} (hcheck : checkNodes P id name (earlier ++ [last]) = .ok ()) :
    NoneCalls P earlier := by
  induction earlier with
  | nil => exact nofun
  | cons first rest ih =>
    obtain ⟨node, hnode, hcheck⟩ := Outcome.bind_eq_ok.mp hcheck
    obtain ⟨hfirst, hrest⟩ := Outcome.check_bind_eq_ok.mp hcheck
    refine List.forall_mem_cons.mpr ⟨fun found hfound => ?_, ih hrest⟩
    obtain rfl := Option.some.inj ((node_eq_ok.mp hnode).symm.trans hfound)
    simpa using Outcome.ensure_eq_ok.mp hfirst

theorem NoneCalls.lists (hP : P.WellFormed) {owner : SubgraphId} {subgraph : Subgraph}
    (hsubgraph : P.subgraphs[owner]? = some subgraph) {nodes : List NodeId}
    (hnone : NoneCalls P nodes) (hsub : nodes ⊆ subgraph.nodes) :
    ∀ id ∈ nodes, ∃ owner node, P.Lists ⟨owner, id, node⟩ ∧ node.isCall = false := by
  intro id hmem
  obtain ⟨node, hnode, hlists⟩ := hP.exists_lists hsubgraph (hsub hmem)
  exact ⟨owner, node, hlists, hnone id hmem node hnode⟩

theorem lists_last {id : SubgraphId} {subgraph : Subgraph}
    (hsubgraph : P.subgraphs[id]? = some subgraph) {earlier : List NodeId} {last : NodeId}
    (hsplit : subgraph.nodes = earlier ++ [last]) {node : Node} (hnode : P.nodes[last]? = some node) :
    P.Lists ⟨id, last, node⟩ := by
  refine ⟨subgraph, hsubgraph, ?_, hnode⟩
  rw [hsplit]
  exact List.mem_append_right _ List.mem_cons_self

theorem ends_of_lowerSubgraph {id : SubgraphId} {lowered : LoweredSubgraph}
    (hlower : lowerSubgraph P id = .ok lowered) {subgraph : Subgraph}
    (hsubgraph : P.subgraphs[id]? = some subgraph) :
    lowered.nodes = subgraph.nodes ∧ Ends P subgraph lowered.terminator := by
  obtain ⟨found, hfound, hlower⟩ := Outcome.bind_eq_ok.mp hlower
  obtain rfl := Option.some.inj (hsubgraph.symm.trans (subgraph_eq_ok.mp hfound))
  obtain ⟨-, hlower⟩ := Outcome.check_bind_eq_ok.mp hlower
  obtain ⟨hcheck, hlower⟩ := Outcome.check_bind_eq_ok.mp hlower
  obtain ⟨terminator, hterminator, hpure⟩ := Outcome.bind_eq_ok.mp hlower
  rw [← Outcome.pure_eq_ok.mp hpure]
  refine ⟨rfl, ?_⟩
  show Ends P subgraph terminator
  cases hlast : subgraph.nodes.getLast? with
  | none =>
    rw [terminatorOf, Subgraph.lastNode?, hlast] at hterminator
    rw [← Outcome.pure_eq_ok.mp hterminator]
    refine .returns ?_
    rw [List.getLast?_eq_none_iff.mp hlast]
    exact fun _ hmem => absurd hmem List.not_mem_nil
  | some last =>
    rw [terminatorOf, Subgraph.lastNode?, hlast] at hterminator
    obtain ⟨node, hnode, hterminator⟩ := Outcome.bind_eq_ok.mp hterminator
    obtain ⟨earlier, hnodes⟩ := List.getLast?_eq_some_iff.mp hlast
    rw [hnodes] at hcheck
    have hnone := noneCalls_of_checkNodes hcheck
    rw [node_eq_ok] at hnode
    split at hterminator
    · rename_i hcall
      rw [← Outcome.pure_eq_ok.mp hterminator]
      refine .returns fun id hmem found hfound => ?_
      rw [hnodes] at hmem
      rcases List.mem_append.mp hmem with hearlier | hsame
      · exact hnone id hearlier found hfound
      · obtain rfl := List.mem_singleton.mp hsame
        obtain rfl := Option.some.inj (hnode.symm.trans hfound)
        simpa using hcall
    · rename_i hcall
      have hcall : node.isCall := by simpa using hcall
      split at hterminator
      · rename_i link hlink
        rw [← Outcome.pure_eq_ok.mp hterminator]
        exact .linkedCall hnodes hnone hnode hcall hlink
      · rename_i hlink
        split at hterminator
        · rename_i houtputs
          rw [← Outcome.pure_eq_ok.mp hterminator]
          exact .tailCall hnodes hnone hnode hcall hlink houtputs
        · exact (Outcome.refuse_ne_ok hterminator).elim

theorem Ends.eq_returns {subgraph : Subgraph} {terminator : Terminator}
    (hends : Ends P subgraph terminator) (hnone : NoneCalls P subgraph.nodes) :
    terminator = .returns := by
  have hlast {earlier : List NodeId} {call : NodeId} {node : Node}
      (hnodes : subgraph.nodes = earlier ++ [call]) (hnode : P.nodes[call]? = some node)
      (hcall : node.isCall) : False := by
    have hmem : call ∈ subgraph.nodes := by simp [hnodes]
    rw [hnone call hmem node hnode] at hcall
    exact nomatch hcall
  cases hends with
  | returns _ => rfl
  | tailCall hnodes _ hnode hcall _ _ => exact (hlast hnodes hnode hcall).elim
  | linkedCall hnodes _ hnode hcall _ => exact (hlast hnodes hnode hcall).elim

theorem Ends.eq_linkedCall {subgraph : Subgraph} {terminator : Terminator}
    (hends : Ends P subgraph terminator) {earlier : List NodeId} {call : NodeId}
    (hnodes : subgraph.nodes = earlier ++ [call]) {node : Node}
    (hnode : P.nodes[call]? = some node) (hcall : node.isCall) {link : Link}
    (hlink : P.linkFor? call = some link) :
    NoneCalls P earlier ∧ terminator = .linkedCall call link.continuation := by
  cases hends with
  | returns hnone =>
    have hmem : call ∈ subgraph.nodes := by simp [hnodes]
    rw [hnone call hmem node hnode] at hcall
    exact nomatch hcall
  | tailCall hnodes' _ _ _ hfree _ =>
    obtain ⟨-, hsame⟩ := List.append_inj' (hnodes'.symm.trans hnodes) rfl
    rw [List.singleton_inj.mp hsame] at hfree
    exact nomatch hfree.symm.trans hlink
  | linkedCall hnodes' hnone _ _ hlink' =>
    obtain ⟨rfl, hsame⟩ := List.append_inj' (hnodes'.symm.trans hnodes) rfl
    rw [List.singleton_inj.mp hsame] at hlink' ⊢
    rw [Option.some.inj (hlink'.symm.trans hlink)]
    exact ⟨hnone, rfl⟩

/-- The plan is that of the program and lists all its subgraphs. -/
structure Lowers (plan : ExecutionPlan) (P : Program) : Prop where
  program_eq : plan.program = P
  lowered : ∀ ⦃id : SubgraphId⦄ ⦃subgraph : Subgraph⦄, P.subgraphs[id]? = some subgraph →
    ∃ lowered, plan.lowered? id = some lowered ∧ lowered.nodes = subgraph.nodes
      ∧ Ends P subgraph lowered.terminator

theorem Lowers.subgraph_eq {plan : ExecutionPlan} (hlowers : plan.Lowers P) (id : SubgraphId) :
    plan.program.subgraphs[id]? = P.subgraphs[id]? := by
  rw [hlowers.program_eq]

theorem lowers_of_lower (hP : P.WellFormed) {plan : ExecutionPlan} (hplan : lower P = .ok plan) :
    plan.Lowers P := by
  obtain ⟨hprogram, hall⟩ := lowered?_of_lower hP hplan
  refine ⟨hprogram, fun id subgraph hsubgraph => ?_⟩
  obtain ⟨lowered, hfound, hlowered⟩ := hall id (subgraph_lt hsubgraph)
  exact ⟨lowered, hfound, ends_of_lowerSubgraph hlowered hsubgraph⟩

def width (plan : ExecutionPlan) : Nat :=
  (plan.schedule.map fun lowered => lowered.nodes.length).foldr max 0

theorem length_le_width {plan : ExecutionPlan} {id : SubgraphId} {lowered : LoweredSubgraph}
    (hlowered : plan.lowered? id = some lowered) : lowered.nodes.length ≤ plan.width := by
  have hmem := List.mem_of_find?_eq_some hlowered
  unfold width
  generalize plan.schedule = schedule at hmem ⊢
  induction schedule with
  | nil => exact nomatch hmem
  | cons first rest ih =>
    rw [List.map_cons, List.foldr_cons]
    rcases List.mem_cons.mp hmem with rfl | hlater
    · exact Nat.le_max_left _ _
    · exact Nat.le_trans (ih hlater) (Nat.le_max_right _ _)

end ExecutionPlan

/-- What is due when a subgraph comes next: its own entry, and that of an entrance that it may go to.
The body behind an entrance pays for it. -/
def SubgraphKind.due : SubgraphKind → Nat
  | .entrance _ => 0
  | _ => 2

/-- A body or an entrance, which is what handles name. -/
def SubgraphKind.IsCallee (kind : SubgraphKind) : Prop :=
  kind = .body ∨ ∃ wrapped, kind = .entrance wrapped

theorem SubgraphKind.due_of_isWrapper {kind : SubgraphKind} (hplain : kind.isWrapper = false) :
    kind.due = 2 := by
  cases kind with
  | entrance _ => exact nomatch hplain
  | body | segment _ | exit _ => rfl

theorem SubgraphKind.IsCallee.due_le {kind : SubgraphKind} (h : kind.IsCallee) (id : SubgraphId) :
    kind.due ≤ 4 * (kind.entering id).length := by
  rcases h with rfl | ⟨_, rfl⟩
  · rw [entering, if_pos rfl]
    show 2 ≤ 4
    decide
  · exact Nat.zero_le _

def noCalls : Calls := fun _ _ _ _ _ => False

namespace Machine

/-! ### Going from place to place -/

/-- Where a run stands between two subgraphs. Nothing comes next if the run has ended. -/
structure Place where
  next : Option SubgraphId
  env : Environment
  frames : List Frame

def Place.at (place : Place) (counters : Counters) : Progression :=
  match place.next with
  | some id => .goesOn ⟨id, place.env, place.frames, counters⟩
  | none => .ends place.env counters

/-- What is due at a place: an entry for every continuation on the stack, and what is due for the
subgraph that comes next. -/
def Place.due (P : Program) (place : Place) : Nat :=
  place.frames.length + match place.next.bind fun id => P.subgraphs[id]? with
    | some subgraph => subgraph.kind.due
    | none => 0

theorem Place.due_of_subgraph {P : Program} {id : SubgraphId} {subgraph : Subgraph}
    (hsubgraph : P.subgraphs[id]? = some subgraph) (env : Environment) (frames : List Frame) :
    Place.due P ⟨some id, env, frames⟩ = frames.length + subgraph.kind.due := by
  rw [due, Option.bind_some, hsubgraph]

theorem Place.due_le (P : Program) (place : Place) : place.due P ≤ place.frames.length + 2 := by
  unfold due
  refine Nat.add_le_add_left ?_ _
  split
  · rename_i subgraph _
    cases subgraph.kind with
    | entrance _ => exact Nat.zero_le _
    | body | segment _ | exit _ => exact Nat.le_refl _
  · exact Nat.zero_le _

variable {plan : ExecutionPlan} {depth : Nat}

def proceed (plan : ExecutionPlan) (limits : RunLimits) (subgraphs : Nat) :
    Progression → Evaluation (Environment × Counters)
  | .goesOn state => runFor plan limits subgraphs state
  | .ends env counters => .ok (env, counters)

/-- A run gets from one place to the other and enters some bodies on the way, if the limits allow as
many open continuations as the depth says and enough steps. Every body that is entered pays for four
entries, and an entry costs as many steps as a subgraph has nodes at most. -/
def GoesTo (plan : ExecutionPlan) (depth : Nat) (source target : Place)
    (entered : List SubgraphId) : Prop :=
  ∃ entries cost, entries + target.due plan.program
      ≤ source.due plan.program + 4 * entered.length
    ∧ cost ≤ plan.width * entries
    ∧ ∀ (limits : RunLimits) (counters : Counters) (more : Nat),
      depth ≤ limits.maxCallDepth → counters.steps + cost ≤ limits.maxSteps →
        proceed plan limits (entries + more) (source.at counters)
          = proceed plan limits more
              (target.at ⟨countAll counters.calls entered, counters.steps + cost⟩)

theorem GoesTo.trans {first second third : Place} {inside entered : List SubgraphId}
    (hfirst : GoesTo plan depth first second inside)
    (hsecond : GoesTo plan depth second third entered) :
    GoesTo plan depth first third (inside ++ entered) := by
  obtain ⟨entries, cost, hdue, hcost, hfirst⟩ := hfirst
  obtain ⟨entries', cost', hdue', hcost', hsecond⟩ := hsecond
  refine ⟨entries + entries', cost + cost', ?_, ?_, fun limits counters more hdepth hsteps => ?_⟩
  · rw [List.length_append]
    omega
  · rw [Nat.mul_add]
    exact Nat.add_le_add hcost hcost'
  rw [Nat.add_assoc, hfirst limits counters _ hdepth (by omega),
    hsecond limits _ more hdepth (by dsimp only; omega)]
  dsimp only
  rw [countAll_append, Nat.add_assoc]

theorem GoesTo.of_step {id : SubgraphId} {env : Environment} {frames : List Frame}
    {target : Place} {entered : List SubgraphId} {cost : Nat} (hcost : cost ≤ plan.width)
    (hdue : target.due plan.program + 1
      ≤ Place.due plan.program ⟨some id, env, frames⟩ + 4 * entered.length)
    (hstep : ∀ (limits : RunLimits) (counters : Counters), depth ≤ limits.maxCallDepth →
      counters.steps + cost ≤ limits.maxSteps → step plan limits ⟨id, env, frames, counters⟩
        = .ok (target.at ⟨countAll counters.calls entered, counters.steps + cost⟩)) :
    GoesTo plan depth ⟨some id, env, frames⟩ target entered := by
  refine ⟨1, cost, Nat.add_comm 1 _ ▸ hdue, (Nat.mul_one plan.width).symm ▸ hcost,
    fun limits counters more hdepth hsteps => ?_⟩
  rw [Nat.add_comm 1 more]
  show runFor plan limits (more + 1) ⟨id, env, frames, counters⟩ = _
  rw [runFor, hstep limits counters hdepth hsteps, Outcome.ok_bind]
  generalize target.at _ = progression
  cases progression <;> rfl

/-! ### What subgraphs lead to -/

theorem entered_eq_nil {P : Program} {nodes : List NodeId} {env env' : Environment}
    {entered : List SubgraphId} (hpasses : Passes P noCalls nodes env env' entered) :
    entered = [] := by
  induction hpasses with
  | nil => rfl
  | inline _ _ _ _ ih => exact ih
  | call _ _ _ _ hcalls _ _ => exact hcalls.elim

theorem runNodes_cons {P : Program} {limits : RunLimits} {id : NodeId} {env middle : Environment}
    {counters : Counters} (hstep : counters.steps < limits.maxSteps)
    (hrun : env.runNode P id = .ok middle) (rest : List NodeId) :
    runNodes P limits (id :: rest) env counters
      = runNodes P limits rest middle ⟨counters.calls, counters.steps + 1⟩ := by
  rw [runNodes, Counters.step_eq_ok.mpr ⟨hstep, rfl⟩, Outcome.ok_bind, hrun, Outcome.ok_bind]

theorem runNodes_of_passes {P : Program} {nodes : List NodeId} {env env' : Environment}
    {entered : List SubgraphId} (hpasses : Passes P noCalls nodes env env' entered)
    {limits : RunLimits} {counters : Counters}
    (hsteps : counters.steps + nodes.length ≤ limits.maxSteps) :
    runNodes P limits nodes env counters
      = .ok (env', ⟨counters.calls, counters.steps + nodes.length⟩) := by
  induction hpasses generalizing counters with
  | nil => rfl
  | call _ _ _ _ hcalls _ _ => exact hcalls.elim
  | @inline id node rest env middle env' values entered hnode hgives hbind _ ih =>
    rw [List.length_cons] at hsteps ⊢
    rw [runNodes_cons (by omega) (Environment.runNode_of_gives hnode hgives hbind),
      ih (by dsimp only; omega)]
    dsimp only
    rw [Nat.add_assoc, Nat.add_comm 1]

theorem returnFrom_eq_ok {P : Program} {id : SubgraphId} {subgraph : Subgraph}
    (hsubgraph : P.subgraphs[id]? = some subgraph) {env after : Environment} {results : List Value}
    (hresults : env.values P subgraph.outputs = .ok results) {frame : Frame}
    (hbind : env.bindAll frame.destination results = .ok after) (frames : List Frame)
    (counters : Counters) : returnFrom P id env (frame :: frames) counters
      = .ok (Place.at ⟨frame.continuation, after, frames⟩ counters) := by
  rw [returnFrom, subgraph_eq_ok.mpr hsubgraph, Outcome.ok_bind, hresults, Outcome.ok_bind]
  dsimp only
  rw [hbind, Outcome.ok_bind]
  obtain ⟨continuation, destination⟩ := frame
  cases continuation <;> rfl

section Subgraph

variable {P : Program} {id : SubgraphId} {subgraph : Subgraph} {lowered : LoweredSubgraph}
  {env env' after : Environment}
  (hprogram : plan.program = P) (hsubgraph : P.subgraphs[id]? = some subgraph)
  (hlowered : plan.lowered? id = some lowered) (hnodes : lowered.nodes = subgraph.nodes)

include hprogram hsubgraph hlowered hnodes

/-- A subgraph that returns goes on with the continuation on top of the stack. -/
theorem goesTo_returns (hends : lowered.terminator = .returns) (hdue : subgraph.kind.due = 2)
    (hpasses : Passes P noCalls subgraph.nodes env env' []) {results : List Value}
    (hreads : List.Forall₂ (P.Reads env') subgraph.outputs results) {frame : Frame}
    {frames : List Frame} (hbind : env'.bindAll frame.destination results = .ok after) :
    GoesTo plan depth ⟨some id, env, frame :: frames⟩ ⟨frame.continuation, after, frames⟩ [] := by
  subst hprogram
  have hpaid := Place.due_le plan.program ⟨frame.continuation, after, frames⟩
  have hcost := ExecutionPlan.length_le_width hlowered
  rw [hnodes] at hcost
  refine .of_step hcost ?_ fun limits counters _ hsteps => ?_
  · rw [Place.due_of_subgraph hsubgraph, hdue, List.length_cons]
    exact Nat.add_right_comm _ 1 2 ▸ Nat.succ_le_succ hpaid
  have hinline : inlineNodes lowered = subgraph.nodes := by rw [inlineNodes, hends, hnodes]
  rw [step, Outcome.orRefuse_eq_ok.mpr hlowered, Outcome.ok_bind, hinline,
    runNodes_of_passes hpasses hsteps, Outcome.ok_bind, hends]
  exact returnFrom_eq_ok hsubgraph (Environment.values_eq_ok.mpr hreads) hbind frames _

variable {earlier : List NodeId} {call : NodeId} {node : Node} {handle : TensorId}
  {callee : SubgraphId} {arguments : List Value} {target : Subgraph}
  (hsplit : subgraph.nodes = earlier ++ [call])
  (hpasses : Passes P noCalls earlier env env' [])
  (hnode : P.nodes[call]? = some node) (hhandle : node.inputs.head? = some handle)
  (hreads : P.Reads env' handle (.closure callee arguments))
  (htarget : P.subgraphs[callee]? = some target)
  (hbind : env'.bindAll target.inputs arguments = .ok after)

omit hprogram hsubgraph in
include hsplit in
theorem length_earlier_le : earlier.length ≤ plan.width := by
  have hcost := ExecutionPlan.length_le_width hlowered
  rw [hnodes, hsplit, List.length_append] at hcost
  exact Nat.le_of_add_right_le hcost

omit hprogram hsubgraph hlowered hnodes in
include hnode hhandle hreads htarget hbind in
theorem enterCallee_eq_ok (frames : List Frame) (counters : Counters) :
    enterCallee P call env' frames counters = .ok ⟨callee, after, frames,
      ⟨countAll counters.calls (target.kind.entering callee), counters.steps⟩⟩ := by
  rw [List.head?_eq_getElem?] at hhandle
  rw [enterCallee, node_eq_ok.mpr hnode, Outcome.ok_bind, hhandle, Outcome.following_some,
    Outcome.ok_bind, Environment.closure_eq_ok.mpr hreads, Outcome.ok_bind]
  dsimp only
  rw [subgraph_eq_ok.mpr htarget, Outcome.ok_bind, hbind, Outcome.ok_bind, ← Counters.enter_eq]
  rfl

include hsplit hpasses hnode hhandle hreads htarget hbind

/-- A subgraph that ends in a tail call goes on with the callee and leaves the stack alone. -/
theorem goesTo_tailCall (hends : lowered.terminator = .tailCall call) (frames : List Frame)
    (hdue : target.kind.due + 2 ≤ subgraph.kind.due + 4 * (target.kind.entering callee).length) :
    GoesTo plan depth ⟨some id, env, frames⟩ ⟨some callee, after, frames⟩
      (target.kind.entering callee) := by
  subst hprogram
  refine .of_step (length_earlier_le hlowered hnodes hsplit) ?_ fun limits counters _ hsteps => ?_
  · rw [Place.due_of_subgraph hsubgraph, Place.due_of_subgraph htarget]
    omega
  have hinline : inlineNodes lowered = earlier := by
    rw [inlineNodes, hends, hnodes, hsplit, List.dropLast_concat]
  rw [step, Outcome.orRefuse_eq_ok.mpr hlowered, Outcome.ok_bind, hinline,
    runNodes_of_passes hpasses hsteps, Outcome.ok_bind, hends]
  dsimp only
  rw [enterCallee_eq_ok hnode hhandle hreads htarget hbind, Outcome.ok_bind]
  rfl

/-- A subgraph that ends in a linked call puts the continuation on the stack first. -/
theorem goesTo_linkedCall {link : Link} (hlink : P.linkFor? call = some link)
    (hends : lowered.terminator = .linkedCall call link.continuation) {frames : List Frame}
    (hlt : frames.length < depth)
    (hdue : target.kind.due + 2 ≤ subgraph.kind.due + 4 * (target.kind.entering callee).length) :
    GoesTo plan depth ⟨some id, env, frames⟩
      ⟨some callee, after, ⟨some link.continuation, link.tensors⟩ :: frames⟩
      (target.kind.entering callee) := by
  subst hprogram
  refine .of_step (length_earlier_le hlowered hnodes hsplit) ?_ fun limits counters hdepth hsteps => ?_
  · rw [Place.due_of_subgraph hsubgraph, Place.due_of_subgraph htarget, List.length_cons]
    omega
  have hinline : inlineNodes lowered = earlier := by
    rw [inlineNodes, hends, hnodes, hsplit, List.dropLast_concat]
  have hroom : frames.length < limits.maxCallDepth := Nat.lt_of_lt_of_le hlt hdepth
  have hpush : pushLink plan limits call link.continuation frames
      = .ok (⟨some link.continuation, link.tensors⟩ :: frames) := by
    have hlinked : plan.linkFor? call = some link := hlink
    rw [pushLink, Outcome.orRefuse_eq_ok.mpr hlinked, Outcome.ok_bind, decide_eq_true hroom,
      Outcome.ensure_true, Outcome.ok_bind]
    rfl
  rw [step, Outcome.orRefuse_eq_ok.mpr hlowered, Outcome.ok_bind, hinline,
    runNodes_of_passes hpasses hsteps, Outcome.ok_bind, hends]
  dsimp only
  rw [hpush, Outcome.ok_bind, enterCallee_eq_ok hnode hhandle hreads htarget hbind, Outcome.ok_bind]
  rfl

end Subgraph

/-! ### Where a run starts and ends -/

theorem start_eq_ok {P : Program} {entry : Subgraph} (hentry : P.subgraphs[P.entry]? = some entry)
    {inputs : List DenseArray} {arguments : List Value}
    (harguments : entryArguments P inputs = .ok arguments) {env : Environment}
    (hbind : Environment.bindAll .empty entry.inputs arguments = .ok env) :
    start P inputs = .ok ⟨P.entry, env, [⟨none, P.outputs⟩],
      ⟨countAll .empty (entry.kind.entering P.entry), 0⟩⟩ := by
  have hfound : (P.subgraph P.entry : Evaluation Subgraph) = .ok entry := subgraph_eq_ok.mpr hentry
  have hformals : (P.entryInputs : Evaluation (List TensorId)) = .ok entry.inputs := by
    rw [entryInputs, hfound, Outcome.ok_bind]
    rfl
  rw [start, hformals, Outcome.ok_bind, harguments, Outcome.ok_bind, hbind, Outcome.ok_bind, hfound,
    Outcome.ok_bind, Counters.enter_eq]
  rfl

theorem run_eq_ok {inputs : List DenseArray} {state : State}
    (hstart : start plan.program inputs = .ok state) {limits : RunLimits} {env : Environment}
    {counters : Counters}
    (hrun : runFor plan limits (entryAllowance limits) state = .ok (env, counters))
    {outputs : List DenseArray}
    (hreads : List.Forall₂ (plan.program.Reads env) plan.program.outputs (outputs.map .array)) :
    run plan limits inputs = .ok ⟨outputs, counters.calls, counters.steps⟩ := by
  have hresults : plan.program.outputs.mapM (env.array plan.program) = .ok outputs :=
    Outcome.mapM_eq_ok.mpr
      ((Environment.forall₂_array.mpr hreads).imp fun _ _ => Environment.array_eq_ok.mpr)
  rw [run, hstart, Outcome.ok_bind, hrun, Outcome.ok_bind]
  dsimp only
  rw [hresults, Outcome.ok_bind]
  rfl

end Machine

end TailFlow
