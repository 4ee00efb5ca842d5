import TailFlow.Proofs.Boundary.Callers
import TailFlow.Proofs.Runs.Simulation

/-!
# Runs and wrappers

After wrapping, some handles name an entrance where they used to name its body. An entrance hands
its arguments on to the body, and its exit hands the results back, so it comes to what the body
comes to. It takes one level of calls more than the body, so twice as many levels are enough for a
run of the wrapped program.
-/

namespace TailFlow

open Program

namespace Wraps

variable {P W : Program} {links links' : IdMap Link} {bodies : List SubgraphId}

/-- Values before and after wrapping: a handle may name the entrance of its binder. -/
inductive Enters (P W : Program) (links : IdMap Link) : TensorId → Value → Value → Prop where
  | same {id : TensorId} {value : Value} : Enters P W links id value value
  | entrance {id : TensorId} {e : Entrance} {arguments : List Value} (he : e.Stands P W links)
      (hflows : P.Flows e.caller id) :
      Enters P W links id (.closure e.body arguments) (.closure e.id arguments)

theorem relatesArrays_enters : RelatesArrays (Enters P W links) where
  self := fun _ _ => .same
  array := by
    intro id array value' h
    cases h
    rfl
  closure := by
    intro id callee arguments value' h
    cases h with
    | same => exact ⟨callee, rfl⟩
    | entrance _ _ => exact ⟨_, rfl⟩

theorem matches_wrapped (hP : P.WellFormed) (hwraps : Wraps P links bodies W links')
    {listed : ListedNode} (hlists : P.Lists listed) :
    ∃ node', W.nodes[listed.id]? = some node' ∧ listed.node.Matches (Enters P W links') node' := by
  have hpick : ∀ taken ∈ listed.node.branches, ∀ out ∈ listed.node.outputs, ∀ value value',
      Enters P W links' taken value value' → Enters P W links' out value value' := by
    intro taken hbranch out hout value value' h
    cases h with
    | same => exact .same
    | entrance he hflows => exact .entrance he (.picked hflows hlists hbranch hout)
  obtain ⟨-, -, -, hnode⟩ := id hlists
  have hlt := Nat.lt_of_lt_of_le (node_lt hnode) (hwraps.extends_program hP).nodes_le
  refine ⟨W.nodes[listed.id], Array.getElem?_eq_getElem hlt, ?_⟩
  rcases hwraps.node_cases hP hlists (Array.getElem?_eq_getElem hlt) with
    hsame | ⟨e, he, hcaller, hkind, hnamed⟩
  · rw [hsame]
    exact ⟨rfl, rfl, fun _ => rfl, fun callee h => ⟨callee, h, fun _ _ _ => .same⟩, hpick⟩
  · rw [hnamed]
    refine ⟨rfl, rfl, fun h => absurd hkind (h _), fun callee h => ?_, hpick⟩
    obtain rfl := NodeKind.bind.inj (hkind.symm.trans h)
    refine ⟨e.id, rfl, fun out hout arguments => .entrance he ?_⟩
    have hbinder : listed.node.callee?.isSome := by
      rw [callee?_eq_some.mpr hkind]
      rfl
    exact .made hlists hcaller.symm hbinder hout

/-- A call through an entrance hands its results over to where the call that its caller reaches
wants them. -/
theorem destination_eq {e : Entrance} (he : e.Stands P W links) {listed : ListedNode}
    (hlists : P.Lists listed) (hcall : listed.node.isCall) {handle : TensorId}
    (hhead : listed.node.inputs.head? = some handle) (hflows : P.Flows e.caller handle) :
    e.exit.destination = listed.node.outputs := by
  obtain ⟨call, node, -, honly, hnode, hout⟩ := he.serves
  have hsame : listed.id = call := honly listed.id ⟨handle, hflows, listed, hlists, rfl, hcall, hhead⟩
  obtain ⟨-, -, -, hnode'⟩ := hlists
  rw [hsame, hnode] at hnode'
  rw [← hout, Option.some.inj hnode']

variable (hP : P.WellFormed) (hwraps : Wraps P links bodies W links')
  (hnodup : ∀ ⦃listed⦄, P.Lists listed → listed.node.outputs.Nodup)
  (hlinked : ∀ call link, links.get? call = some link → call < P.nodes.size)

include hP hwraps hlinked in
theorem linkFor_consumer {x : Exit} (hx : x.Stands P W) : links'.get? x.consumer = Option.none := by
  cases hlink : links'.get? x.consumer with
  | none => rfl
  | some link =>
    rcases (hwraps.shape hP).link_new hlink with hold | ⟨e, he, hcall, -⟩
    · exact absurd (hlinked _ _ hold) (Nat.not_lt.mpr hx.consumer_ge)
    · have hnode := he.call_eq
      rw [hcall, hx.node_eq, Option.some.injEq, Node.mk.injEq] at hnode
      exact nomatch hnode.2.1

include hP hwraps hlinked in
theorem invokes_entrance {levels : Nat} {e : Entrance} (he : e.Stands P W links')
    {arguments results : List DenseArray} {entered : List SubgraphId}
    (hdestination : e.exit.destination.Nodup)
    (hresults : e.exit.destination.length = results.length)
    (hinvokes : Invokes { W with links := links' } (fun _ _ => True) levels e.body arguments results
      entered) :
    Invokes { W with links := links' } (fun _ _ => True) (levels + 1) e.id arguments results
      entered := by
  have hx := he.exit_stands
  have hformals : e.arguments.length = (arguments.map Value.array).length := by
    cases levels with
    | zero => exact hinvokes.elim
    | succ levels =>
      obtain ⟨subgraph, env, inside, hsubgraph, hbind, -⟩ := invokes_succ.mp hinvokes
      obtain ⟨target, htarget, hlength⟩ := he.length_eq
      have hold := (hwraps.extends_program hP).subgraph_old _ (subgraph_lt htarget)
      obtain rfl := Option.some.inj ((hold.trans htarget).symm.trans hsubgraph)
      rw [hlength, Environment.length_eq_of_bindAll hbind]
  obtain ⟨env, hbind⟩ := Environment.exists_bindAll .empty hformals
  have hnodup := (List.nodup_append.mp he.nodup).1
  have hbinder : (NodeKind.bind e.body).Gives ({ W with links := links' }.Reads env) e.arguments
      [.closure e.body (arguments.map .array)] :=
    .bind (Environment.forall₂_array.mpr (Environment.reads_bindAll hnodup hbind))
  have hhand : e.exit.handover.length = (results.map Value.array).length := by
    rw [hx.length_eq, hresults, List.length_map]
  obtain ⟨handed, hhanded⟩ := Environment.exists_bindAll
    (env.insert e.handle (.closure e.body (arguments.map .array))) hhand
  have hcopy : (NodeKind.kernel .copy).Gives ({ W with links := links' }.Reads handed)
      e.exit.handover (results.map .array) := by
    refine .kernel (Environment.forall₂_array.mpr ?_) rfl
    exact Environment.reads_bindAll hx.nodup hhanded
  obtain ⟨returned, hreturned⟩ := Environment.exists_bindAll handed
    (hresults.trans (List.length_map Value.array).symm)
  have hpasses : Passes { W with links := links' }
      (CallsWithin { W with links := links' } (fun _ _ => True) levels) [e.binder, e.call] env
        handed (entered ++ []) :=
    .inline he.binder_eq hbinder Environment.bindAll_singleton
      (.call he.call_eq rfl rfl reads_insert_self ⟨trivial, hinvokes⟩ hhanded .nil)
  rw [List.append_nil] at hpasses
  have hexit : Follows { W with links := links' }
      (CallsWithin { W with links := links' } (fun _ _ => True) levels) e.exit.id handed results
        [] := by
    refine .returns hx.subgraph_eq (.inline hx.node_eq hcopy hreturned .nil) ?_
      (Environment.reads_bindAll hdestination hreturned)
    exact hwraps.linkFor_consumer hP hlinked hx
  refine ⟨_, env, entered ++ [], he.subgraph_eq, hbind, ?_, by simp [SubgraphKind.entering]⟩
  exact .goesOn he.subgraph_eq hpasses he.link_eq hexit

include hP hwraps in
/-- A chain of subgraphs comes to the same after wrapping, if its calls do. -/
theorem follows_after {calls calls' : Calls} (hcalls : ∀ ⦃listed⦄, P.Lists listed →
      listed.node.isCall → ∀ handle callee callee' arguments results inside,
        listed.node.inputs.head? = some handle →
        Enters P W links' handle (.closure callee (arguments.map .array))
          (.closure callee' (arguments.map .array)) → listed.node.outputs.length = results.length →
        calls listed.id callee arguments results inside →
          calls' listed.id callee' arguments results inside)
    {id : SubgraphId} {env other : Environment} {results : List DenseArray}
    {entered : List SubgraphId} (hfollows : Follows { P with links } calls id env results entered)
    (hcovers : Covers (Enters P W links') { P with links } env { W with links := links' } other) :
    Follows { W with links := links' } calls' id other results entered := by
  have hextends := hwraps.extends_program hP
  have hafter {owner : SubgraphId} {subgraph : Subgraph}
      (hsubgraph : P.subgraphs[owner]? = some subgraph) : W.subgraphs[owner]? = some subgraph :=
    (hextends.subgraph_old _ (subgraph_lt hsubgraph)).trans hsubgraph
  have hlast {owner : SubgraphId} {subgraph : Subgraph}
      (hsubgraph : P.subgraphs[owner]? = some subgraph) :
      subgraph.lastNode?.bind { W with links := links' }.linkFor?
        = subgraph.lastNode?.bind { P with links }.linkFor? := by
    cases hlast : subgraph.lastNode? with
    | none => rfl
    | some last =>
      exact (hwraps.shape hP).link_old (hP.inArena hsubgraph last (List.mem_of_getLast? hlast))
  have hpasses {owner : SubgraphId} {subgraph : Subgraph}
      (hsubgraph : P.subgraphs[owner]? = some subgraph) {env env' other : Environment}
      {entered : List SubgraphId}
      (hpasses : Passes { P with links } calls subgraph.nodes env env' entered)
      (hcovers : Covers (Enters P W links') { P with links } env { W with links := links' } other) :
      ∃ other', Passes { W with links := links' } calls' subgraph.nodes other other' entered
        ∧ Covers (Enters P W links') { P with links } env' { W with links := links' } other' := by
    refine hpasses.simulate relatesArrays_enters ?_ ?_ hcovers
    · intro id hmem node hnode
      have hlists : P.Lists ⟨owner, id, node⟩ := ⟨subgraph, hsubgraph, hmem, hnode⟩
      exact ⟨fun tensor htensor => hP.inputs_lt hlists htensor, hwraps.matches_wrapped hP hlists⟩
    · intro id hmem node hnode hcall
      have hlists : P.Lists ⟨owner, id, node⟩ := ⟨subgraph, hsubgraph, hmem, hnode⟩
      exact hcalls hlists hcall
  induction hfollows generalizing other with
  | @returns id subgraph env env' results entered hsubgraph hnodes hnone hreads =>
    obtain ⟨other', hnodes', hcovers'⟩ := hpasses hsubgraph hnodes hcovers
    refine .returns (hafter hsubgraph) hnodes' ((hlast hsubgraph).trans hnone) ?_
    refine hcovers'.arrays relatesArrays_enters (fun output hmem => ?_) hreads
    exact hP.interface hsubgraph output (List.mem_append_right _ hmem)
  | @goesOn id subgraph link env env' results inside entered hsubgraph hnodes hlink _ ih =>
    obtain ⟨other', hnodes', hcovers'⟩ := hpasses hsubgraph hnodes hcovers
    exact .goesOn (hafter hsubgraph) hnodes' ((hlast hsubgraph).trans hlink) (ih hcovers')

include hP hwraps hnodup hlinked in
/-- Invocations come to the same after wrapping, in twice as many levels. -/
theorem invokes_after {allows : NodeId → List SubgraphId → Prop} {levels more : Nat}
    (hmore : 2 * levels ≤ more + 1) {id : SubgraphId} {arguments results : List DenseArray}
    {entered : List SubgraphId}
    (hinvokes : Invokes { P with links } allows levels id arguments results entered) :
    Invokes { W with links := links' } (fun _ _ => True) more id arguments results entered := by
  have hextends := hwraps.extends_program hP
  induction levels generalizing more id arguments results entered with
  | zero => exact hinvokes.elim
  | succ levels ih =>
    obtain ⟨further, rfl⟩ : ∃ further, more = further + 1 := ⟨more - 1, by omega⟩
    obtain ⟨subgraph, env, inside, hsubgraph, hbind, hchain, rfl⟩ := invokes_succ.mp hinvokes
    refine ⟨subgraph, env, inside, (hextends.subgraph_old _ (subgraph_lt hsubgraph)).trans hsubgraph,
      hbind, ?_, rfl⟩
    refine hwraps.follows_after hP ?_ hchain fun id value hlt hreads =>
      ⟨value, (reads_congr rfl (hextends.tensor_old id hlt)).mpr hreads, .same⟩
    -- A call is made directly, or through the entrance of its binder.
    intro listed hlists hcall handle callee callee' arguments results inside hhead hrelated hlength
      hcalls
    refine ⟨trivial, ?_⟩
    generalize hvalue : Value.closure callee (arguments.map .array) = value at hrelated
    generalize hvalue' : Value.closure callee' (arguments.map .array) = value' at hrelated
    cases hrelated with
    | same =>
      obtain ⟨rfl, -⟩ := Value.closure.inj (hvalue.trans hvalue'.symm)
      exact ih (by omega) hcalls.2
    | entrance he hflows =>
      obtain ⟨rfl, -⟩ := Value.closure.inj hvalue
      obtain ⟨rfl, -⟩ := Value.closure.inj hvalue'
      have hdestination := destination_eq he hlists hcall hhead hflows
      have hpos : levels ≠ 0 := by
        rintro rfl
        exact hcalls.2.elim
      obtain ⟨inner, rfl⟩ : ∃ inner, further = inner + 1 := ⟨further - 1, by omega⟩
      refine hwraps.invokes_entrance hP hlinked he ?_ ?_ (ih (by omega) hcalls.2)
      · rw [hdestination]
        exact hnodup hlists
      · rw [hdestination]
        exact hlength

end Wraps

end TailFlow
