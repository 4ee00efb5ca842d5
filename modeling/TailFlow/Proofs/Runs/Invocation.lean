import TailFlow.Eval.Execution
import TailFlow.Proofs.CallGraph.Catalog
import TailFlow.Proofs.Runs.Node

/-!
# Runs without limits

Running a program is described here as a relation, without counters and without a bound on steps.
`Passes` runs nodes one after the other, `Follows` runs a subgraph and the continuations that links
lead to, and `Invokes` runs a subgraph on arguments, within a number of levels of calls. Each says
which bodies have been entered, in order, and each asks that arrays are all that is handed over to a
call and back. A run can also be asked to be such that some relation holds between a call and the
bodies that are entered from it.
-/

namespace TailFlow

open Program

/-- What a call comes to: arguments lead to results, and bodies are entered. -/
abbrev Calls :=
  NodeId → SubgraphId → List DenseArray → List DenseArray → List SubgraphId → Prop

/-- Nodes are run one after the other. -/
inductive Passes (P : Program) (calls : Calls) :
    List NodeId → Environment → Environment → List SubgraphId → Prop where
  | nil {env : Environment} : Passes P calls [] env env []
  | inline {id : NodeId} {node : Node} {rest : List NodeId} {env middle env' : Environment}
      {values : List Value} {entered : List SubgraphId} (hnode : P.nodes[id]? = some node)
      (hgives : node.kind.Gives (P.Reads env) node.inputs values)
      (hbind : env.bindAll node.outputs values = .ok middle)
      (hrest : Passes P calls rest middle env' entered) : Passes P calls (id :: rest) env env' entered
  | call {id : NodeId} {node : Node} {rest : List NodeId} {env middle env' : Environment}
      {handle : TensorId} {callee : SubgraphId} {arguments results : List DenseArray}
      {inside entered : List SubgraphId} (hnode : P.nodes[id]? = some node) (hcall : node.isCall)
      (hhandle : node.inputs.head? = some handle)
      (hreads : P.Reads env handle (.closure callee (arguments.map .array)))
      (hcalls : calls id callee arguments results inside)
      (hbind : env.bindAll node.outputs (results.map .array) = .ok middle)
      (hrest : Passes P calls rest middle env' entered) :
      Passes P calls (id :: rest) env env' (inside ++ entered)

/-- A subgraph is run, and then the continuation that the link of its last node leads to. -/
inductive Follows (P : Program) (calls : Calls) :
    SubgraphId → Environment → List DenseArray → List SubgraphId → Prop where
  | returns {id : SubgraphId} {subgraph : Subgraph} {env env' : Environment}
      {results : List DenseArray} {entered : List SubgraphId}
      (hsubgraph : P.subgraphs[id]? = some subgraph)
      (hpasses : Passes P calls subgraph.nodes env env' entered)
      (hlast : subgraph.lastNode?.bind P.linkFor? = none)
      (hreads : List.Forall₂ (P.Reads env') subgraph.outputs (results.map .array)) :
      Follows P calls id env results entered
  | goesOn {id : SubgraphId} {subgraph : Subgraph} {link : Link} {env env' : Environment}
      {results : List DenseArray} {inside entered : List SubgraphId}
      (hsubgraph : P.subgraphs[id]? = some subgraph)
      (hpasses : Passes P calls subgraph.nodes env env' inside)
      (hlast : subgraph.lastNode?.bind P.linkFor? = some link)
      (hrest : Follows P calls link.continuation env' results entered) :
      Follows P calls id env results (inside ++ entered)

/-- What is entered when a subgraph is: the subgraph, if it is a body. -/
def SubgraphKind.entering (kind : SubgraphKind) (id : SubgraphId) : List SubgraphId :=
  if kind = .body then [id] else []

/-- A subgraph is run on arguments. The number is how many calls may be open, and `allows` is what
is asked of a call and the bodies that are entered from it. -/
def Invokes (P : Program) (allows : NodeId → List SubgraphId → Prop) :
    Nat → SubgraphId → List DenseArray → List DenseArray → List SubgraphId → Prop
  | 0, _, _, _, _ => False
  | levels + 1, id, arguments, results, entered => ∃ subgraph env inside,
    P.subgraphs[id]? = some subgraph
      ∧ Environment.bindAll .empty subgraph.inputs (arguments.map .array) = .ok env
      ∧ Follows P (fun call callee arguments results inside => allows call inside
          ∧ Invokes P allows levels callee arguments results inside) id env results inside
      ∧ entered = subgraph.kind.entering id ++ inside

/-- The calls within a run that has a number of levels left. -/
def CallsWithin (P : Program) (allows : NodeId → List SubgraphId → Prop) (levels : Nat) : Calls :=
  fun call callee arguments results inside => allows call inside
    ∧ Invokes P allows levels callee arguments results inside

theorem invokes_succ {P : Program} {allows : NodeId → List SubgraphId → Prop} {levels : Nat}
    {id : SubgraphId} {arguments results : List DenseArray} {entered : List SubgraphId} :
    Invokes P allows (levels + 1) id arguments results entered ↔ ∃ subgraph env inside,
      P.subgraphs[id]? = some subgraph
        ∧ Environment.bindAll .empty subgraph.inputs (arguments.map .array) = .ok env
        ∧ Follows P (CallsWithin P allows levels) id env results inside
        ∧ entered = subgraph.kind.entering id ++ inside := Iff.rfl

def Executes (P : Program) (allows : NodeId → List SubgraphId → Prop) (levels : Nat)
    (inputs outputs : List DenseArray) (entered : List SubgraphId) : Prop :=
  entryArguments P inputs = .ok (inputs.map .array)
    ∧ Invokes P allows levels P.entry inputs outputs entered

theorem Follows.without_links {P : Program} (hlinks : P.links = .empty) {calls : Calls}
    {id : SubgraphId} {env : Environment} {results : List DenseArray} {entered : List SubgraphId}
    (hfollows : Follows P calls id env results entered) :
    ∃ subgraph env', P.subgraphs[id]? = some subgraph
      ∧ Passes P calls subgraph.nodes env env' entered
      ∧ List.Forall₂ (P.Reads env') subgraph.outputs (results.map .array) := by
  cases hfollows with
  | returns hsubgraph hpasses _ hreads => exact ⟨_, _, hsubgraph, hpasses, hreads⟩
  | goesOn _ _ hlast _ =>
    obtain ⟨last, -, hlink⟩ := Option.bind_eq_some_iff.mp hlast
    rw [linkFor?, hlinks] at hlink
    exact nomatch hlink

theorem Program.bind_linkFor?_eq_none {P : Program} (hlinks : P.links = .empty)
    (last : Option NodeId) : last.bind P.linkFor? = none := by
  cases last with
  | none => rfl
  | some last =>
    show P.links.get? last = none
    rw [hlinks]
    rfl

namespace Passes

variable {P P' : Program} {calls calls' : Calls} {nodes earlier later : List NodeId}
  {env middle env' : Environment} {entered inside : List SubgraphId}

theorem append (hearlier : Passes P calls earlier env middle inside)
    (hlater : Passes P calls later middle env' entered) :
    Passes P calls (earlier ++ later) env env' (inside ++ entered) := by
  induction hearlier with
  | nil => exact hlater
  | inline hnode hgives hbind _ ih => exact .inline hnode hgives hbind (ih hlater)
  | call hnode hcall hhandle hreads hcalls hbind _ ih =>
    rw [List.append_assoc]
    exact .call hnode hcall hhandle hreads hcalls hbind (ih hlater)

theorem of_append (hpasses : Passes P calls (earlier ++ later) env env' entered) :
    ∃ middle inside outside, Passes P calls earlier env middle inside
      ∧ Passes P calls later middle env' outside ∧ entered = inside ++ outside := by
  induction earlier generalizing env entered with
  | nil => exact ⟨env, [], entered, .nil, hpasses, rfl⟩
  | cons id rest ih =>
    cases hpasses with
    | inline hnode hgives hbind hrest =>
      obtain ⟨middle, inside, outside, hearlier, hlater, rfl⟩ := ih hrest
      exact ⟨middle, inside, outside, .inline hnode hgives hbind hearlier, hlater, rfl⟩
    | call hnode hcall hhandle hreads hcalls hbind hrest =>
      obtain ⟨middle, inside, outside, hearlier, hlater, rfl⟩ := ih hrest
      exact ⟨middle, _, outside, .call hnode hcall hhandle hreads hcalls hbind hearlier, hlater,
        (List.append_assoc _ _ _).symm⟩

/-- What a step keeps, a run of nodes keeps. -/
theorem keeps {motive : Environment → Prop} (hpasses : Passes P calls nodes env env' entered)
    (hinline : ∀ id ∈ nodes, ∀ node env env' values, P.nodes[id]? = some node → motive env →
      node.kind.Gives (P.Reads env) node.inputs values →
      env.bindAll node.outputs values = .ok env' → motive env')
    (hcall : ∀ id ∈ nodes, ∀ node env env' (results : List DenseArray), P.nodes[id]? = some node →
      node.isCall → motive env → env.bindAll node.outputs (results.map .array) = .ok env' →
      motive env') (hstart : motive env) : motive env' := by
  induction hpasses with
  | nil => exact hstart
  | inline hnode hgives hbind _ ih =>
    have hnext := hinline _ List.mem_cons_self _ _ _ _ hnode hstart hgives hbind
    exact ih (fun id hmem => hinline id (.tail _ hmem)) (fun id hmem => hcall id (.tail _ hmem)) hnext
  | call hnode hisCall _ _ _ hbind _ ih =>
    have hnext := hcall _ List.mem_cons_self _ _ _ _ hnode hisCall hstart hbind
    exact ih (fun id hmem => hinline id (.tail _ hmem)) (fun id hmem => hcall id (.tail _ hmem)) hnext

end Passes

/-! ### Where handles come from -/

/-- Every handle in an environment is that of a binder whose handle is passed on to the tensor, and
its arguments are arrays. -/
def Traced (P : Program) (env : Environment) : Prop :=
  ∀ ⦃id : TensorId⦄ ⦃callee : SubgraphId⦄ ⦃arguments : List Value⦄,
    env.get? id = some (.closure callee arguments) →
      (∃ binder, P.Flows binder id ∧ P.Names binder callee)
        ∧ ∃ arrays : List DenseArray, arguments = arrays.map .array

namespace Traced

variable {P : Program} {env env' : Environment} {ids : List TensorId} {arrays : List DenseArray}

theorem empty (P : Program) : Traced P .empty :=
  fun _ _ _ hbound => nomatch hbound

theorem closure_of_reads (htraced : Traced P env) {id : TensorId} {callee : SubgraphId}
    {arguments : List Value} (hreads : P.Reads env id (.closure callee arguments)) :
    (∃ binder, P.Flows binder id ∧ P.Names binder callee)
      ∧ ∃ arrays : List DenseArray, arguments = arrays.map .array := by
  rcases hreads.cases with hbound | ⟨-, harray, -⟩
  · exact htraced hbound
  · exact nomatch harray

theorem isArray_of_reads (htraced : Traced P env) {id : TensorId} {value : Value}
    (hhandle : ¬ P.IsHandle id) (hreads : P.Reads env id value) : value.isArray := by
  cases value with
  | array array => rfl
  | closure callee arguments =>
    obtain ⟨⟨binder, hflows, -⟩, -⟩ := htraced.closure_of_reads hreads
    exact absurd hflows.isHandle hhandle

theorem bindArrays (htraced : Traced P env)
    (hbind : env.bindAll ids (arrays.map .array) = .ok env') : Traced P env' := by
  intro id callee arguments hbound
  rcases Environment.bound_of_bindAll hbind hbound with hold | ⟨-, hmem⟩
  · exact htraced hold
  · obtain ⟨array, -, hsame⟩ := List.mem_map.mp hmem
    exact nomatch hsame

theorem step (htraced : Traced P env) {listed : ListedNode} (hlists : P.Lists listed)
    {values : List Value} (hgives : listed.node.kind.Gives (P.Reads env) listed.node.inputs values)
    (hbind : env.bindAll listed.node.outputs values = .ok env') : Traced P env' := by
  intro id callee arguments hbound
  rcases Environment.bound_of_bindAll hbind hbound with hold | ⟨hout, hmem⟩
  · exact htraced hold
  -- A handle is new if the node makes it, and a switch passes on one that was there before.
  have hpick {taken : TensorId} (hbranch : taken ∈ listed.node.branches)
      (hreads : P.Reads env taken (.closure callee arguments)) :
      (∃ binder, P.Flows binder id ∧ P.Names binder callee)
        ∧ ∃ arrays : List DenseArray, arguments = arrays.map .array := by
    obtain ⟨⟨binder, hflows, hnames⟩, harrays⟩ := htraced.closure_of_reads hreads
    exact ⟨⟨binder, .picked hflows hlists hbranch hout, hnames⟩, harrays⟩
  generalize hkind : listed.node.kind = kind at hgives
  generalize hinputs : listed.node.inputs = inputs at hgives
  cases hgives with
  | kernel _ _ =>
    obtain ⟨result, -, hsame⟩ := List.mem_map.mp hmem
    exact nomatch hsame
  | bind _ =>
    obtain ⟨rfl, rfl⟩ := Value.closure.inj (List.mem_singleton.mp hmem)
    have hbinder : listed.node.callee?.isSome := by
      rw [callee?_eq_some.mpr hkind]
      rfl
    exact ⟨⟨listed.id, .made hlists rfl hbinder hout, listed, hlists, rfl, hkind⟩, _, rfl⟩
  | switch _ htaken hread =>
    obtain rfl := List.mem_singleton.mp hmem
    refine hpick (Node.mem_branches.mpr ⟨by rw [hkind]; rfl, ?_⟩) hread
    rw [hinputs]
    exact List.mem_of_getElem? htaken
  | switchLayer _ _ htaken hread =>
    obtain rfl := List.mem_singleton.mp hmem
    refine hpick (Node.mem_branches.mpr ⟨by rw [hkind]; rfl, ?_⟩) hread
    rw [hinputs]
    exact List.mem_of_getElem? htaken

/-- Running the nodes of a subgraph keeps handles traced, whatever the links are. -/
theorem passes (hP : P.WellFormed) {links : IdMap Link} {calls : Calls} {owner : SubgraphId}
    {subgraph : Subgraph} (hsubgraph : P.subgraphs[owner]? = some subgraph) {nodes : List NodeId}
    (hsub : ∀ id ∈ nodes, id ∈ subgraph.nodes) {entered : List SubgraphId}
    (hpasses : Passes { P with links } calls nodes env env' entered) (htraced : Traced P env) :
    Traced P env' := by
  refine hpasses.keeps ?_ ?_ htraced
  · intro id hmem node env env' values hnode htraced hgives hbind
    obtain ⟨found, hfound, hlists⟩ := hP.exists_lists hsubgraph (hsub id hmem)
    obtain rfl := Option.some.inj (hnode.symm.trans hfound)
    exact htraced.step hlists hgives hbind
  · intro id _ node env env' results _ _ htraced hbind
    exact htraced.bindArrays hbind

end Traced

end TailFlow
