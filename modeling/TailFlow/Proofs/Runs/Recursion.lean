import TailFlow.Eval.Recursive
import TailFlow.Proofs.Runs.Invocation

/-!
# Recursive runs

A recursive run that succeeds is a run without limits that enters the bodies that are counted, and
it has as many levels as the limits allow calls to be open. The other way round, a run without limits
is a recursive run for all limits that allow enough steps.

Arrays are all that is handed over in a recursive run if handles are confined: they are read as the
handles of calls and as the branches of switches only.
-/

namespace TailFlow

open Program

/-- Handles are read as handles of calls and as branches of switches only, and no subgraph returns
one. -/
structure Program.HandlesConfined (P : Program) : Prop where
  read : ∀ ⦃reader : ListedNode⦄ ⦃handle : TensorId⦄ ⦃place : Nat⦄, P.Lists reader →
    P.IsHandle handle → reader.node.inputs[place]? = some handle →
      reader.node.isCall ∧ place = 0 ∨ reader.node.kind.isSwitch ∧ place ≠ 0
  returned : ∀ ⦃id : SubgraphId⦄ ⦃subgraph : Subgraph⦄, P.subgraphs[id]? = some subgraph →
    ∀ tensor ∈ subgraph.outputs, ¬ P.IsHandle tensor

/-- Counts bodies that are entered. -/
def countAll (calls : IdMap Nat) (entered : List SubgraphId) : IdMap Nat :=
  entered.foldl (fun calls id => calls.alter id fun count => count.getD 0 + 1) calls

theorem countAll_append (calls : IdMap Nat) (first second : List SubgraphId) :
    countAll calls (first ++ second) = countAll (countAll calls first) second :=
  List.foldl_append

/-- The counts add up to what was counted before and the bodies that are entered. -/
theorem sumOf_countAll (calls : IdMap Nat) (entered : List SubgraphId) :
    sumOf (countAll calls entered).values = sumOf calls.values + entered.length := by
  induction entered generalizing calls with
  | nil => rfl
  | cons id rest ih =>
    have hinsert := IdMap.sumOf_values_insert calls id ((calls.get? id).getD 0 + 1)
    have hrest : sumOf (countAll calls (id :: rest)).values = _ := ih _
    rw [hrest, List.length_cons]
    show sumOf (calls.insert id ((calls.get? id).getD 0 + 1)).values + _ = _
    omega

theorem Counters.enter_eq (counters : Counters) (id : SubgraphId) (kind : SubgraphKind) :
    counters.enter id kind = ⟨countAll counters.calls (kind.entering id), counters.steps⟩ := by
  unfold enter SubgraphKind.entering
  split <;> rfl

theorem Counters.step_eq_ok {counters answer : Counters} {limits : RunLimits} :
    counters.step limits = .ok answer
      ↔ counters.steps < limits.maxSteps ∧ answer = ⟨counters.calls, counters.steps + 1⟩ := by
  unfold step
  dsimp only
  split
  · rename_i hle
    exact ⟨fun h => ⟨hle, (Except.ok.inj h).symm⟩, fun ⟨_, h⟩ => by rw [h]⟩
  · rename_i hgt
    exact ⟨fun h => (Outcome.refuse_ne_ok h).elim, fun ⟨hlt, _⟩ => absurd hlt hgt⟩

theorem Program.HandlesConfined.isArray_of_binder {P : Program} (hconfined : P.HandlesConfined)
    {listed : ListedNode} (hlists : P.Lists listed) {env : Environment} (htraced : Traced P env)
    (hbinder : listed.node.callee?.isSome) :
    ∀ input ∈ listed.node.inputs, ∀ value, P.Reads env input value → value.isArray := by
  intro input hmem value hreads
  refine htraced.isArray_of_reads (fun hhandle => ?_) hreads
  obtain ⟨place, hplace⟩ := List.getElem?_of_mem hmem
  rcases hconfined.read hlists hhandle hplace with ⟨hisCall, -⟩ | ⟨hswitch, -⟩
  · exact nomatch (Node.givesHandle_ne_call (Node.givesHandle_of_callee? hbinder)).symm.trans hisCall
  · obtain ⟨callee, hcallee⟩ := Option.isSome_iff_exists.mp hbinder
    rw [callee?_eq_some.mp hcallee] at hswitch
    exact nomatch hswitch

/-! ### From a recursive run -/

namespace Recursive

variable {P : Program} {limits : RunLimits} {levels : Nat}

/-- What is known about the calls of a recursive run that may open a number of further calls. -/
def Sound (P : Program) (limits : RunLimits) (levels : Nat) : Prop :=
  ∀ (callee : SubgraphId) (arguments : List DenseArray) (counters : Counters)
    (results : List Value) (counters' : Counters),
    invoke P limits levels callee (arguments.map .array) counters = .ok (results, counters') →
      ∃ (arrays : List DenseArray) (inside : List SubgraphId), results = arrays.map .array
        ∧ Invokes P (fun _ _ => True) levels callee arguments arrays inside
        ∧ counters'.calls = countAll counters.calls inside

theorem passes_of_runNodes (hP : P.WellFormed) (hconfined : P.HandlesConfined)
    (hcalls : Sound P limits levels) {owner : SubgraphId} {subgraph : Subgraph}
    (hsubgraph : P.subgraphs[owner]? = some subgraph) {nodes : List NodeId}
    (hsub : ∀ id ∈ nodes, id ∈ subgraph.nodes) {env env' : Environment} (htraced : Traced P env)
    {counters counters' : Counters}
    (hrun : runNodes (invoke P limits levels) P limits nodes env counters = .ok (env', counters')) :
    ∃ entered, Passes P (CallsWithin P (fun _ _ => True) levels) nodes env env' entered
      ∧ counters'.calls = countAll counters.calls entered := by
  induction nodes generalizing env counters with
  | nil =>
    obtain ⟨rfl, rfl⟩ := Prod.mk.inj (Except.ok.inj hrun)
    exact ⟨[], .nil, rfl⟩
  | cons id rest ih =>
    obtain ⟨hhead, hrest⟩ := List.forall_mem_cons.mp hsub
    obtain ⟨stepped, hstep, hrun⟩ := Outcome.bind_eq_ok.mp hrun
    obtain ⟨-, rfl⟩ := Counters.step_eq_ok.mp hstep
    obtain ⟨node, hnode, hrun⟩ := Outcome.bind_eq_ok.mp hrun
    obtain ⟨found, hfound, hlists⟩ := hP.exists_lists hsubgraph hhead
    obtain rfl := Option.some.inj (hfound.symm.trans (node_eq_ok.mp hnode))
    split at hrun
    · rename_i hcall
      obtain ⟨⟨middle, after⟩, hcalling, hrun⟩ := Outcome.bind_eq_ok.mp hrun
      obtain ⟨handle, hhandle, hcalling⟩ := Outcome.bind_eq_ok.mp hcalling
      obtain ⟨⟨callee, arguments⟩, hclosure, hcalling⟩ := Outcome.bind_eq_ok.mp hcalling
      obtain ⟨⟨results, counted⟩, hinvoke, hcalling⟩ := Outcome.bind_eq_ok.mp hcalling
      obtain ⟨bound, hbind, hpure⟩ := Outcome.bind_eq_ok.mp hcalling
      obtain ⟨rfl, rfl⟩ := Prod.mk.inj (Outcome.pure_eq_ok.mp hpure)
      have hreads := Environment.closure_eq_ok.mp hclosure
      obtain ⟨-, arrays, rfl⟩ := htraced.closure_of_reads hreads
      obtain ⟨outputs, inside, rfl, hinside, hcount⟩ := hcalls callee arrays _ _ _ hinvoke
      obtain ⟨entered, hpasses, hcounts⟩ := ih hrest (htraced.bindArrays hbind) hrun
      refine ⟨inside ++ entered, .call hfound hcall ?_ hreads ⟨trivial, hinside⟩ hbind hpasses, ?_⟩
      · rw [List.head?_eq_getElem?]
        exact Outcome.following_eq_ok.mp hhandle
      · rw [hcounts, hcount, countAll_append]
    · obtain ⟨middle, hnodeRun, hrun⟩ := Outcome.bind_eq_ok.mp hrun
      obtain ⟨values, hgives, hbind⟩ := Environment.gives_of_runNode hfound (hP.fits hlists)
        (hconfined.isArray_of_binder hlists htraced) hnodeRun
      obtain ⟨entered, hpasses, hcounts⟩ := ih hrest (htraced.step hlists hgives hbind) hrun
      exact ⟨entered, .inline hfound hgives hbind hpasses, hcounts⟩

theorem follows_of_runChain (hP : P.WellFormed) (hconfined : P.HandlesConfined)
    (hcalls : Sound P limits levels) {links : Nat} {id : SubgraphId} {subgraph : Subgraph}
    (hsubgraph : P.subgraphs[id]? = some subgraph) {env : Environment} (htraced : Traced P env)
    {counters counters' : Counters} {results : List Value}
    (hrun : runChain (invoke P limits levels) P limits links subgraph env counters
      = .ok (results, counters')) :
    ∃ (arrays : List DenseArray) (entered : List SubgraphId), results = arrays.map .array
      ∧ Follows P (CallsWithin P (fun _ _ => True) levels) id env arrays entered
      ∧ counters'.calls = countAll counters.calls entered := by
  induction links generalizing id subgraph env counters with
  | zero => exact (Outcome.refuse_ne_ok hrun).elim
  | succ links ih =>
    obtain ⟨⟨env', middle⟩, hnodes, hrun⟩ := Outcome.bind_eq_ok.mp hrun
    obtain ⟨inside, hpasses, hcount⟩ := passes_of_runNodes hP hconfined hcalls hsubgraph
      (fun _ hmem => hmem) htraced hnodes
    have htraced' := htraced.passes hP hsubgraph (fun _ hmem => hmem) hpasses
    dsimp only at hrun
    cases hlast : subgraph.lastNode?.bind P.linkFor? with
    | some link =>
      rw [hlast] at hrun
      obtain ⟨next, hnext, hrun⟩ := Outcome.bind_eq_ok.mp hrun
      obtain ⟨arrays, entered, hresults, hrest, hcounts⟩ :=
        ih (subgraph_eq_ok.mp hnext) htraced' hrun
      refine ⟨arrays, inside ++ entered, hresults, .goesOn hsubgraph hpasses hlast hrest, ?_⟩
      rw [hcounts, hcount, countAll_append]
    | none =>
      rw [hlast] at hrun
      obtain ⟨values, hvalues, hpure⟩ := Outcome.bind_eq_ok.mp hrun
      obtain ⟨rfl, rfl⟩ := Prod.mk.inj (Outcome.pure_eq_ok.mp hpure)
      have hreads := Environment.values_eq_ok.mp hvalues
      obtain ⟨arrays, rfl⟩ := exists_arrays fun value hmem => by
        obtain ⟨output, hout, hread⟩ := Outcome.exists_left_of_forall₂ hreads hmem
        exact htraced'.isArray_of_reads (hconfined.returned hsubgraph output hout) hread
      exact ⟨arrays, inside, rfl, .returns hsubgraph hpasses hlast hreads, hcount⟩

theorem sound (hP : P.WellFormed) (hconfined : P.HandlesConfined) (limits : RunLimits)
    (levels : Nat) : Sound P limits levels := by
  induction levels with
  | zero =>
    intro _ _ _ _ _ hinvoke
    exact (Outcome.refuse_ne_ok hinvoke).elim
  | succ levels ih =>
    intro callee arguments counters results counters' hinvoke
    obtain ⟨subgraph, hsubgraph, hinvoke⟩ := Outcome.bind_eq_ok.mp hinvoke
    obtain ⟨env, hbind, hrun⟩ := Outcome.bind_eq_ok.mp hinvoke
    obtain ⟨arrays, inside, rfl, hfollows, hcount⟩ := follows_of_runChain hP hconfined ih
      (subgraph_eq_ok.mp hsubgraph) ((Traced.empty P).bindArrays hbind) hrun
    refine ⟨arrays, _, rfl, ⟨subgraph, env, inside, subgraph_eq_ok.mp hsubgraph, hbind, hfollows,
      rfl⟩, ?_⟩
    rw [hcount, Counters.enter_eq, countAll_append]

theorem entryArguments_eq_ok {inputs : List DenseArray} {arguments : List Value}
    (harguments : entryArguments P inputs = .ok arguments) : arguments = inputs.map .array := by
  obtain ⟨formals, -, hchecked⟩ := Outcome.bind_eq_ok.mp harguments
  obtain ⟨hlength, hmap⟩ := Outcome.check_bind_eq_ok.mp hchecked
  have hsame : formals.length = inputs.length := by simpa using Outcome.ensure_eq_ok.mp hlength
  have hpairs := Outcome.mapM_eq_ok.mp hmap
  clear harguments hchecked hmap hlength
  induction inputs generalizing formals arguments with
  | nil =>
    rw [List.zip_nil_right, List.forall₂_nil_left_iff] at hpairs
    exact hpairs
  | cons input rest ih =>
    cases formals with
    | nil => exact nomatch hsame
    | cons formal formals =>
      cases hpairs with
      | cons hfirst hrest =>
        obtain ⟨tensor, -, hchecked⟩ := Outcome.bind_eq_ok.mp hfirst
        obtain ⟨-, hpure⟩ := Outcome.check_bind_eq_ok.mp hchecked
        rw [← Outcome.pure_eq_ok.mp hpure, ih formals (Nat.succ.inj hsame) hrest, List.map_cons]

theorem resultArrays_eq_ok {arrays outputs : List DenseArray} :
    (arrays.map Value.array).mapM resultArray = .ok outputs ↔ outputs = arrays := by
  rw [Outcome.mapM_eq_ok, List.forall₂_map_left_iff]
  constructor
  · intro hpairs
    refine (List.forall₂_eq_eq_eq ▸ hpairs.imp fun _ _ hsame => ?_ : arrays = outputs).symm
    exact Except.ok.inj hsame
  · rintro rfl
    exact List.forall₂_same.mpr fun _ _ => rfl

/-- A recursive run is a run without limits. -/
theorem executes_of_run (hP : P.WellFormed) (hconfined : P.HandlesConfined)
    {inputs : List DenseArray} {execution : Execution}
    (hrun : run P limits inputs = .ok execution) :
    ∃ entered, Executes P (fun _ _ => True) (limits.maxCallDepth + 1) inputs execution.outputs
        entered
      ∧ execution.callCounts = countAll .empty entered := by
  obtain ⟨arguments, harguments, hrun⟩ := Outcome.bind_eq_ok.mp hrun
  obtain ⟨⟨results, counters⟩, hinvoke, hrun⟩ := Outcome.bind_eq_ok.mp hrun
  obtain ⟨outputs, houtputs, hpure⟩ := Outcome.bind_eq_ok.mp hrun
  obtain rfl := entryArguments_eq_ok harguments
  obtain ⟨arrays, entered, rfl, hinvokes, hcount⟩ :=
    sound hP hconfined limits _ P.entry inputs _ _ _ hinvoke
  obtain rfl := resultArrays_eq_ok.mp houtputs
  rw [← Outcome.pure_eq_ok.mp hpure]
  exact ⟨entered, ⟨harguments, hinvokes⟩, hcount⟩

/-! ### To a recursive run -/

section Nodes

variable {invoke : Invoke} {id : NodeId} {node : Node} {env middle : Environment}
  {counters : Counters} (hnode : P.nodes[id]? = some node)
  (hstep : counters.steps < limits.maxSteps)

include hnode hstep

theorem runNodes_inline {values : List Value}
    (hgives : node.kind.Gives (P.Reads env) node.inputs values)
    (hbind : env.bindAll node.outputs values = .ok middle) (rest : List NodeId) :
    runNodes invoke P limits (id :: rest) env counters
      = runNodes invoke P limits rest middle ⟨counters.calls, counters.steps + 1⟩ := by
  have hcall : ¬ node.isCall := fun h => hgives.ne_call (of_decide_eq_true h)
  rw [runNodes, Counters.step_eq_ok.mpr ⟨hstep, rfl⟩, Outcome.ok_bind, node_eq_ok.mpr hnode,
    Outcome.ok_bind, if_neg hcall, Environment.runNode_of_gives hnode hgives hbind, Outcome.ok_bind]

theorem runNodes_call (hcall : node.isCall) {handle : TensorId}
    (hhandle : node.inputs[0]? = some handle) {callee : SubgraphId} {arguments results : List Value}
    (hreads : P.Reads env handle (.closure callee arguments)) {counted : Counters}
    (hinvoke : invoke callee arguments ⟨counters.calls, counters.steps + 1⟩ = .ok (results, counted))
    (hbind : env.bindAll node.outputs results = .ok middle) (rest : List NodeId) :
    runNodes invoke P limits (id :: rest) env counters
      = runNodes invoke P limits rest middle counted := by
  have hrun : runCall invoke P node env ⟨counters.calls, counters.steps + 1⟩ = .ok (middle, counted) := by
    rw [runCall, hhandle, Outcome.following_some, Outcome.ok_bind,
      Environment.closure_eq_ok.mpr hreads, Outcome.ok_bind]
    dsimp only
    rw [hinvoke, Outcome.ok_bind]
    dsimp only
    rw [hbind, Outcome.ok_bind]
    rfl
  rw [runNodes, Counters.step_eq_ok.mpr ⟨hstep, rfl⟩, Outcome.ok_bind, node_eq_ok.mpr hnode,
    Outcome.ok_bind, if_pos hcall, hrun, Outcome.ok_bind]

end Nodes

/-- Where there are no links, a call binds the formals of its callee, runs its nodes and returns what
its outputs are read as. -/
theorem invoke_succ_eq_ok (hlinks : P.links = .empty) {id : SubgraphId}
    {arguments results : List Value} {counters counters' : Counters} :
    invoke P limits (levels + 1) id arguments counters = .ok (results, counters')
      ↔ ∃ subgraph env env', P.subgraphs[id]? = some subgraph
        ∧ Environment.bindAll .empty subgraph.inputs arguments = .ok env
        ∧ runNodes (invoke P limits levels) P limits subgraph.nodes env
          (counters.enter id subgraph.kind) = .ok (env', counters')
        ∧ List.Forall₂ (P.Reads env') subgraph.outputs results := by
  constructor
  · intro hinvoke
    obtain ⟨subgraph, hsubgraph, hinvoke⟩ := Outcome.bind_eq_ok.mp hinvoke
    obtain ⟨env, hbind, hchain⟩ := Outcome.bind_eq_ok.mp hinvoke
    obtain ⟨⟨env', reached⟩, hrun, hchain⟩ := Outcome.bind_eq_ok.mp hchain
    dsimp only at hchain
    rw [bind_linkFor?_eq_none hlinks] at hchain
    obtain ⟨values, hvalues, hpure⟩ := Outcome.bind_eq_ok.mp hchain
    obtain ⟨rfl, rfl⟩ := Prod.mk.inj (Outcome.pure_eq_ok.mp hpure)
    exact ⟨subgraph, env, env', subgraph_eq_ok.mp hsubgraph, hbind, hrun,
      Environment.values_eq_ok.mp hvalues⟩
  · intro ⟨subgraph, env, env', hsubgraph, hbind, hrun, hreads⟩
    rw [invoke, subgraph_eq_ok.mpr hsubgraph, Outcome.ok_bind, hbind, Outcome.ok_bind, runChain, hrun,
      Outcome.ok_bind]
    dsimp only
    rw [bind_linkFor?_eq_none hlinks]
    dsimp only
    rw [Environment.values_eq_ok.mpr hreads, Outcome.ok_bind]
    rfl

variable {allows : NodeId → List SubgraphId → Prop}

/-- The calls that may be opened can be run, in a number of steps that does not depend on the
limits, and just so if further calls may be opened. -/
def Complete (P : Program) (allows : NodeId → List SubgraphId → Prop) (levels : Nat) : Prop :=
  ∀ (callee : SubgraphId) (arguments results : List DenseArray) (inside : List SubgraphId),
    Invokes P allows levels callee arguments results inside →
      ∃ cost, ∀ (limits : RunLimits) (counters : Counters) (calls : Nat), levels ≤ calls →
        counters.steps + cost ≤ limits.maxSteps →
          invoke P limits calls callee (arguments.map .array) counters
            = .ok (results.map .array, ⟨countAll counters.calls inside, counters.steps + cost⟩)

theorem runNodes_of_passes (hcalls : Complete P allows levels) {nodes : List NodeId}
    {env env' : Environment} {entered : List SubgraphId}
    (hpasses : Passes P (CallsWithin P allows levels) nodes env env' entered) :
    ∃ cost, nodes.length ≤ cost ∧ ∀ (limits : RunLimits) (counters : Counters) (calls : Nat),
      levels ≤ calls → counters.steps + cost ≤ limits.maxSteps →
        runNodes (invoke P limits calls) P limits nodes env counters
          = .ok (env', ⟨countAll counters.calls entered, counters.steps + cost⟩) := by
  induction hpasses with
  | nil => exact ⟨0, Nat.le_refl 0, fun _ _ _ _ _ => rfl⟩
  | @inline id node rest env middle env' values entered hnode hgives hbind _ ih =>
    obtain ⟨cost, hlength, hrest⟩ := ih
    refine ⟨cost + 1, Nat.succ_le_succ hlength, fun limits counters calls hmore hsteps => ?_⟩
    rw [runNodes_inline hnode (by omega) hgives hbind,
      hrest limits ⟨counters.calls, counters.steps + 1⟩ calls hmore (by dsimp only; omega)]
    dsimp only
    rw [Nat.add_assoc, Nat.add_comm 1 cost]
  | @call id node rest env middle env' handle callee arguments results inside entered hnode hcall
      hhandle hreads hinside hbind _ ih =>
    obtain ⟨cost, hlength, hrest⟩ := ih
    obtain ⟨taken, hinvoke⟩ := hcalls callee arguments results inside hinside.2
    have htotal : rest.length + 1 ≤ taken + cost + 1 := by omega
    refine ⟨taken + cost + 1, htotal, fun limits counters calls hmore hsteps => ?_⟩
    rw [List.head?_eq_getElem?] at hhandle
    have hcalled := hinvoke limits ⟨counters.calls, counters.steps + 1⟩ calls hmore
      (by dsimp only; omega)
    rw [runNodes_call hnode (by omega) hcall hhandle hreads hcalled hbind,
      hrest limits _ calls hmore (by dsimp only; omega)]
    dsimp only
    rw [countAll_append, show counters.steps + 1 + taken + cost
      = counters.steps + (taken + cost + 1) by omega]

theorem runChain_of_follows (hcalls : Complete P allows levels) {id : SubgraphId}
    {env : Environment} {results : List DenseArray} {entered : List SubgraphId}
    (hfollows : Follows P (CallsWithin P allows levels) id env results entered) :
    ∃ subgraph cost, P.subgraphs[id]? = some subgraph ∧ ∀ (limits : RunLimits) (counters : Counters)
      (calls links : Nat), levels ≤ calls → counters.steps + cost ≤ limits.maxSteps →
        cost < links → runChain (invoke P limits calls) P limits links subgraph env counters
          = .ok (results.map .array,
              ⟨countAll counters.calls entered, counters.steps + cost⟩) := by
  induction hfollows with
  | @returns id subgraph env env' results entered hsubgraph hpasses hlast hreads =>
    obtain ⟨cost, -, hnodes⟩ := runNodes_of_passes hcalls hpasses
    refine ⟨subgraph, cost, hsubgraph, fun limits counters calls links hmore hsteps hlinks => ?_⟩
    cases links with
    | zero => exact nomatch hlinks
    | succ links =>
      rw [runChain, hnodes limits counters calls hmore hsteps, Outcome.ok_bind]
      dsimp only
      rw [hlast]
      dsimp only
      rw [Environment.values_eq_ok.mpr hreads, Outcome.ok_bind]
      rfl
  | @goesOn id subgraph link env env' results inside entered hsubgraph hpasses hlast _ ih =>
    obtain ⟨cost, hlength, hnodes⟩ := runNodes_of_passes hcalls hpasses
    obtain ⟨next, rest, hnext, hrest⟩ := ih
    have hpos : 0 < subgraph.nodes.length := by
      refine List.length_pos_iff.mpr fun hnil => ?_
      rw [Subgraph.lastNode?, hnil] at hlast
      exact nomatch hlast
    refine ⟨subgraph, cost + rest, hsubgraph, fun limits counters calls links hmore hsteps hlinks => ?_⟩
    cases links with
    | zero => exact nomatch hlinks
    | succ links =>
      rw [runChain, hnodes limits counters calls hmore (by omega), Outcome.ok_bind]
      dsimp only
      rw [hlast]
      dsimp only
      rw [subgraph_eq_ok.mpr hnext, Outcome.ok_bind,
        hrest limits _ calls links hmore (by dsimp only; omega) (by omega)]
      dsimp only
      rw [countAll_append, Nat.add_assoc]

theorem complete (P : Program) (allows : NodeId → List SubgraphId → Prop) (levels : Nat) :
    Complete P allows levels := by
  induction levels with
  | zero => exact fun _ _ _ _ hinvokes => hinvokes.elim
  | succ levels ih =>
    intro callee arguments results inside hinvokes
    obtain ⟨subgraph, env, entered, hsubgraph, hbind, hfollows, rfl⟩ := invokes_succ.mp hinvokes
    obtain ⟨found, cost, hfound, hchain⟩ := runChain_of_follows ih hfollows
    obtain rfl := Option.some.inj (hsubgraph.symm.trans hfound)
    refine ⟨cost, fun limits counters calls hmore hsteps => ?_⟩
    obtain ⟨further, rfl⟩ : ∃ further, calls = further + 1 :=
      ⟨calls - 1, (Nat.sub_add_cancel (Nat.le_trans (Nat.succ_pos levels) hmore)).symm⟩
    have hlinks : cost < limits.maxSteps + 1 := by omega
    rw [invoke, subgraph_eq_ok.mpr hsubgraph, Outcome.ok_bind, hbind, Outcome.ok_bind,
      Counters.enter_eq, countAll_append]
    exact hchain limits ⟨countAll counters.calls (subgraph.kind.entering callee), counters.steps⟩
      further _ (Nat.le_of_succ_le_succ hmore) hsteps hlinks

/-- A run without limits is a recursive run if the limits allow its levels and enough steps. -/
theorem run_of_executes {inputs outputs : List DenseArray} {entered : List SubgraphId}
    {depth : Nat} (hexecutes : Executes P allows (depth + 1) inputs outputs entered) :
    ∃ enough, ∀ limits : RunLimits, depth ≤ limits.maxCallDepth → enough ≤ limits.maxSteps →
      ∃ steps, run P limits inputs = .ok ⟨outputs, countAll .empty entered, steps⟩ := by
  obtain ⟨harguments, hinvokes⟩ := hexecutes
  obtain ⟨cost, hinvoke⟩ := complete P allows (depth + 1) P.entry inputs outputs entered hinvokes
  refine ⟨cost, fun limits hdepth hsteps => ⟨Counters.zero.steps + cost, ?_⟩⟩
  have hzero : Counters.zero.steps + cost ≤ limits.maxSteps :=
    Nat.le_trans (Nat.le_of_eq (Nat.zero_add cost)) hsteps
  have hrun := hinvoke limits .zero (limits.maxCallDepth + 1) (Nat.succ_le_succ hdepth) hzero
  rw [run, harguments, Outcome.ok_bind, hrun, Outcome.ok_bind]
  dsimp only
  rw [resultArrays_eq_ok.mpr rfl, Outcome.ok_bind]
  rfl

/-- Recursive runs on the same inputs come to the same, whatever their limits are. -/
theorem run_unique (hP : P.WellFormed) (hconfined : P.HandlesConfined) {limits limits' : RunLimits}
    {inputs : List DenseArray} {execution execution' : Execution}
    (hrun : run P limits inputs = .ok execution) (hrun' : run P limits' inputs = .ok execution') :
    execution.outputs = execution'.outputs ∧ execution.callCounts = execution'.callCounts := by
  obtain ⟨entered, hexecutes, hcounts⟩ := executes_of_run hP hconfined hrun
  obtain ⟨entered', hexecutes', hcounts'⟩ := executes_of_run hP hconfined hrun'
  obtain ⟨enough, hruns⟩ := run_of_executes hexecutes
  obtain ⟨enough', hruns'⟩ := run_of_executes hexecutes'
  -- Limits that allow either run.
  let common : RunLimits := ⟨max limits.maxCallDepth limits'.maxCallDepth, max enough enough'⟩
  obtain ⟨steps, hcommon⟩ := hruns common (Nat.le_max_left _ _) (Nat.le_max_left _ _)
  obtain ⟨steps', hcommon'⟩ := hruns' common (Nat.le_max_right _ _) (Nat.le_max_right _ _)
  obtain ⟨houtputs, hsame, -⟩ :=
    Execution.mk.injEq .. ▸ Except.ok.inj (hcommon.symm.trans hcommon')
  exact ⟨houtputs, hcounts.trans (hsame.trans hcounts'.symm)⟩

end Recursive

end TailFlow
