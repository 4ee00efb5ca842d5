import TailFlow.Proofs.CallGraph.Cycles
import TailFlow.Proofs.Runs.Invocation
import TailFlow.Proofs.Runs.Ownership

/-!
# Calls that wait in a run

Handles in a run come from binders whose handles flow to where they are read, so a run enters only
what the call structure leads to. Since no call that is not a tail call leads back to its own
subgraph, the subgraph of such a call is not entered while the call is open.

After the body has been cut, this is said of the links: a link suspends a body that is not entered
until the link is followed.
-/

namespace TailFlow

open Program

/-- The subgraph of a call that is not a tail call is not among those that are entered. -/
def Program.StaysOut (P : Program) (call : NodeId) (entered : List SubgraphId) : Prop :=
  ∀ ⦃owner : SubgraphId⦄, P.NonTail owner call → owner ∉ entered

section Detected

variable {P : Program} {catalog : Catalog} {detection : Detection} (hP : P.WellFormed)
  (hunique : P.HandlesUnique) (hdetect : Detection.detect P catalog = .ok detection)
  {levels : Nat}

include hP hunique hdetect

theorem Passes.staysOut (hcalls : ∀ callee arguments results inside,
      Invokes P (fun _ _ => True) levels callee arguments results inside →
        Invokes P P.StaysOut levels callee arguments results inside
          ∧ ∀ other ∈ inside, P.CallsOnTo callee other)
    {owner : SubgraphId} {subgraph : Subgraph} (hsubgraph : P.subgraphs[owner]? = some subgraph)
    {nodes : List NodeId} (hsub : ∀ id ∈ nodes, id ∈ subgraph.nodes) {env env' : Environment}
    {entered : List SubgraphId} (htraced : Traced P env)
    (hpasses : Passes P (CallsWithin P (fun _ _ => True) levels) nodes env env' entered) :
    Passes P (CallsWithin P P.StaysOut levels) nodes env env' entered
      ∧ ∀ other ∈ entered, P.CallsOnTo owner other := by
  induction hpasses with
  | nil => exact ⟨.nil, nofun⟩
  | @inline id node rest env middle env' values entered hnode hgives hbind _ ih =>
    obtain ⟨hhead, hrest⟩ := List.forall_mem_cons.mp hsub
    have hlists : P.Lists ⟨owner, id, node⟩ := ⟨subgraph, hsubgraph, hhead, hnode⟩
    obtain ⟨hpasses, hentered⟩ := ih hrest (htraced.step hlists hgives hbind)
    exact ⟨.inline hnode hgives hbind hpasses, hentered⟩
  | @call id node rest env middle env' handle callee arguments results inside entered hnode hcall
      hhandle hreads hinside hbind _ ih =>
    obtain ⟨hhead, hrest⟩ := List.forall_mem_cons.mp hsub
    have hlists : P.Lists ⟨owner, id, node⟩ := ⟨subgraph, hsubgraph, hhead, hnode⟩
    obtain ⟨hpasses, hentered⟩ := ih hrest (htraced.bindArrays hbind)
    obtain ⟨⟨binder, hflows, hnames⟩, -⟩ := htraced.closure_of_reads hreads
    obtain ⟨hinvokes, hreached⟩ := hcalls callee arguments results inside hinside.2
    have hout : P.StaysOut id inside := by
      intro other hnonTail hmem
      obtain rfl : other = owner := by
        obtain ⟨subgraph', -, hsubgraph', hmem', -⟩ := hnonTail
        exact hP.apart hsubgraph' hsubgraph id hmem' hhead
      exact Detection.not_callsOnTo_of_nonTail hP hunique hdetect hlists hnonTail hhandle hflows
        hnames (hreached other hmem)
    refine ⟨.call hnode hcall hhandle hreads ⟨hout, hinvokes⟩ hbind hpasses, fun other hmem => ?_⟩
    rcases List.mem_append.mp hmem with hmem | hmem
    · have hstep : P.CallsInto owner callee :=
        ⟨⟨owner, id, node⟩, handle, binder, hlists, rfl, hcall, hhandle, hflows, hnames⟩
      exact .head hstep (hreached other hmem)
    · exact hentered other hmem

/-- Every call that is not a tail call stays open without its subgraph being entered. -/
theorem Invokes.staysOut (hlinks : P.links = .empty) {id : SubgraphId}
    {arguments results : List DenseArray} {entered : List SubgraphId}
    (hinvokes : Invokes P (fun _ _ => True) levels id arguments results entered) :
    Invokes P P.StaysOut levels id arguments results entered
      ∧ ∀ other ∈ entered, P.CallsOnTo id other := by
  induction levels generalizing id arguments results entered with
  | zero => exact hinvokes.elim
  | succ levels ih =>
    obtain ⟨subgraph, env, inside, hsubgraph, hbind, hfollows, rfl⟩ := invokes_succ.mp hinvokes
    obtain ⟨found, env', hfound, hpasses, hreads⟩ := hfollows.without_links hlinks
    obtain rfl := Option.some.inj (hsubgraph.symm.trans hfound)
    obtain ⟨hpasses', hentered⟩ := Passes.staysOut hP hunique hdetect
      (fun _ _ _ _ h => ih h) hsubgraph (fun _ h => h) ((Traced.empty P).bindArrays hbind) hpasses
    have hreturns := Follows.returns hfound hpasses' (bind_linkFor?_eq_none hlinks _) hreads
    refine ⟨⟨subgraph, env, inside, hsubgraph, hbind, hreturns, rfl⟩, fun other hmem => ?_⟩
    rcases List.mem_append.mp hmem with hmem | hmem
    · obtain rfl : other = id := by
        unfold SubgraphKind.entering at hmem
        split at hmem
        · exact List.mem_singleton.mp hmem
        · exact nomatch hmem
      exact .refl
    · exact hentered other hmem

end Detected

/-! ### Links -/

/-- A linked call hands its outputs over to a subgraph of the same body, and the body is not entered
from the call. -/
def Program.Suspends (P : Program) (links : IdMap Link) (allows : NodeId → List SubgraphId → Prop) :
    Prop :=
  ∀ ⦃listed : ListedNode⦄ ⦃subgraph : Subgraph⦄ ⦃link : Link⦄, P.Lists listed →
    P.subgraphs[listed.owner]? = some subgraph → links.get? listed.id = some link →
      listed.node.isCall ∧ link.tensors = listed.node.outputs
        ∧ (∃ next, P.subgraphs[link.continuation]? = some next
          ∧ segmentOrigin link.continuation next.kind = segmentOrigin listed.owner subgraph.kind)
        ∧ ∀ inside, allows listed.id inside → segmentOrigin listed.owner subgraph.kind ∉ inside

theorem Cuts.suspends {P P' : Program} {links : IdMap Link} {calls : List NodeId}
    (hP : P.WellFormed) (hbody : P.AllBodies) (hcuts : Cuts P P' links calls) :
    P'.Suspends links P.StaysOut := by
  intro listed subgraph link hlists hsubgraph hlink
  obtain ⟨found, hfound, hmem, hnode⟩ := id hlists
  obtain rfl := Option.some.inj (hsubgraph.symm.trans hfound)
  obtain ⟨hnonTail, hnext⟩ := hcuts.link_body hP hbody hlink hsubgraph hmem
  obtain ⟨-, -, -, -, node, -, hnode', hcall, -, houtputs⟩ := hcuts.isTail_of_link hP hlink
  obtain rfl := Option.some.inj (hnode.symm.trans hnode')
  exact ⟨hcall, houtputs.symm, hnext, fun inside hout => hout hnonTail⟩

end TailFlow
