import TailFlow.Proofs.CallGraph.Detection

/-!
# Calls that wait are not entered again

The call structure of a program is detected only if no call that is not a tail call leads back to
the subgraph that makes it. `Program.MayRun` tells which subgraphs a call may run, through handles
that flow to it, and the edges of the call structure are just these steps.
-/

namespace TailFlow

open Program

namespace Program

/-- A call that a subgraph lists may run a subgraph. -/
def MayRun (P : Program) (owner : SubgraphId) (call : NodeId) (callee : SubgraphId) : Prop :=
  ∃ listed handle binder, P.Lists listed ∧ listed.owner = owner ∧ listed.id = call
    ∧ listed.node.isCall ∧ listed.node.inputs.head? = some handle ∧ P.Flows binder handle
    ∧ P.Names binder callee

def CallsInto (P : Program) (caller callee : SubgraphId) : Prop :=
  ∃ listed handle binder, P.Lists listed ∧ listed.owner = caller ∧ listed.node.isCall
    ∧ listed.node.inputs.head? = some handle ∧ P.Flows binder handle ∧ P.Names binder callee

def CallsOnTo (P : Program) : SubgraphId → SubgraphId → Prop :=
  Relation.ReflTransGen P.CallsInto

/-- A call that is not a tail call may run a subgraph from which calls lead back to its own. -/
def HasNonTailCycle (P : Program) : Prop :=
  ∃ owner call callee, P.MayRun owner call callee ∧ P.NonTail owner call
    ∧ P.CallsOnTo callee owner

variable {P : Program}

theorem callsInto_iff {caller callee : SubgraphId} :
    P.CallsInto caller callee ↔ ∃ call, P.MayRun caller call callee := by
  constructor
  · intro ⟨listed, handle, binder, hlists, howner, hrest⟩
    exact ⟨_, listed, handle, binder, hlists, howner, rfl, hrest⟩
  · intro ⟨call, listed, handle, binder, hlists, howner, _, hrest⟩
    exact ⟨listed, handle, binder, hlists, howner, hrest⟩

end Program

namespace CallEdge

variable {edges : List CallEdge}

theorem leads_iff {start goal : SubgraphId} :
    leads edges start goal ↔ Reach.Leads (calleesOf edges) start goal := by
  unfold leads
  rw [decide_eq_true_iff, Reach.mem_closure_iff (edges.map callee)]
  · constructor
    · intro ⟨origin, horigin, hleads⟩
      rcases IdSet.mem_insert.mp horigin with rfl | hempty
      · exact hleads
      · exact absurd hempty (IdSet.not_mem_empty origin)
    · exact fun hleads => ⟨start, IdSet.mem_insert.mpr (.inl rfl), hleads⟩
  · intro origin target htarget
    obtain ⟨edge, hmem, rfl⟩ := List.mem_map.mp htarget
    exact List.mem_map.mpr ⟨edge, (List.mem_filter.mp hmem).1, rfl⟩
  · rw [List.length_map]
    exact Nat.lt_succ_self _

/-- The edge of a call that is not a tail call leads back to the caller. -/
def Waits (edges : List CallEdge) (edge : CallEdge) : Prop :=
  edge ∈ edges ∧ edge.tail = false ∧ Reach.Leads (calleesOf edges) edge.callee edge.caller

theorem checkCycles_cases (edges : List CallEdge) :
    (checkCycles edges = .ok () ∧ ∀ edge, ¬ Waits edges edge) ∨ ∃ edge, Waits edges edge
      ∧ checkCycles edges = .refuse (.nonTailCycle edge.call edge.caller edge.callee) := by
  have hwaits (edge : CallEdge) :
      (!edge.tail && leads edges edge.callee edge.caller) = true
        ↔ edge.tail = false ∧ Reach.Leads (calleesOf edges) edge.callee edge.caller := by
    rw [Bool.and_eq_true, leads_iff, Bool.not_eq_true']
  unfold checkCycles
  split
  · rename_i hnone
    refine .inl ⟨rfl, fun edge ⟨hmem, hback⟩ => ?_⟩
    exact List.find?_eq_none.mp hnone edge hmem ((hwaits edge).mpr hback)
  · rename_i edge hsome
    have hback := List.find?_some
      (p := fun edge : CallEdge => !edge.tail && leads edges edge.callee edge.caller) hsome
    exact .inr ⟨edge, ⟨List.mem_of_find?_eq_some hsome, (hwaits edge).mp hback⟩, rfl⟩

end CallEdge

namespace Detection

variable {P : Program} {catalog : Catalog} {detection : Detection}

/-! ### The edges of all calls -/

section Edges

variable (hP : P.WellFormed) (hunique : P.HandlesUnique) {listing : List ListedNode}
  (hlist : (P.listing : Outcome ScheduleError (List ListedNode)) = .ok listing)
  {edges : List (List CallEdge)}
  (hedges : (listing.filter fun listed => listed.node.isCall).mapM (edgesOf P listing) = .ok edges)

include hP hunique hlist hedges

/-- An edge tells of a call that may run a subgraph, and whether it is a tail call. -/
theorem mayRun_of_mem {edge : CallEdge} (hmem : edge ∈ edges.flatten) :
    P.MayRun edge.caller edge.call edge.callee
      ∧ (edge.tail = false ↔ P.NonTail edge.caller edge.call) := by
  have htells := (mem_edges_iff hP hlist hedges).mp hmem
  obtain ⟨listing', node, binders, hlist', hlists, hcall, hbinders, hbinder⟩ := htells.resolves
  obtain rfl := Except.ok.inj (hlist.symm.trans hlist')
  obtain ⟨handle, hhead⟩ := hP.exists_handle hlists hcall
  obtain ⟨-, -, -, hnode⟩ := id hlists
  have hflows := (mem_resolveCall hP hunique hlist hbinders hnode hhead).mp hbinder
  exact ⟨⟨_, handle, edge.binder, hlists, rfl, rfl, hcall, hhead, hflows, htells.names⟩,
    htells.tail⟩

theorem exists_edge {owner callee : SubgraphId} {call : NodeId} (hruns : P.MayRun owner call callee) :
    ∃ edge ∈ edges.flatten, edge.caller = owner ∧ edge.call = call ∧ edge.callee = callee := by
  obtain ⟨listed, handle, binder, hlists, rfl, rfl, hcall, hhead, hflows, hnames⟩ := hruns
  obtain ⟨found, -, hof⟩ :=
    Outcome.answer_of_mem_mapM hedges ((mem_calls_iff hP hlist).mpr ⟨hlists, hcall⟩)
  obtain ⟨tail, -, hof⟩ := Outcome.bind_eq_ok.mp hof
  obtain ⟨binders, hbinders, -⟩ := Outcome.bind_eq_ok.mp hof
  obtain ⟨-, -, -, hnode⟩ := id hlists
  have hbinder := (mem_resolveCall hP hunique hlist hbinders hnode hhead).mpr hflows
  obtain ⟨edge, htells, howner, hid, -, hcallee⟩ := CallEdge.exists_tells
    ⟨listing, listed.node, binders, hlist, hlists, hcall, hbinders, hbinder⟩ hnames
  exact ⟨edge, (mem_edges_iff hP hlist hedges).mpr htells, howner, hid, hcallee⟩

theorem leads_iff_callsOnTo {start goal : SubgraphId} :
    Reach.Leads (CallEdge.calleesOf edges.flatten) start goal ↔ P.CallsOnTo start goal := by
  have hstep : (fun caller target => target ∈ CallEdge.calleesOf edges.flatten caller)
      = P.CallsInto := by
    funext caller target
    rw [callsInto_iff, eq_iff_iff, CallEdge.calleesOf, List.mem_map]
    constructor
    · rintro ⟨edge, hmem, rfl⟩
      obtain ⟨hedge, hcaller⟩ := List.mem_filter.mp hmem
      rw [← eq_of_beq hcaller]
      exact ⟨edge.call, (mayRun_of_mem hP hunique hlist hedges hedge).1⟩
    · rintro ⟨call, hruns⟩
      obtain ⟨edge, hmem, rfl, -, rfl⟩ := exists_edge hP hunique hlist hedges hruns
      exact ⟨edge, List.mem_filter.mpr ⟨hmem, beq_self_eq_true _⟩, rfl⟩
  unfold Reach.Leads CallsOnTo
  rw [hstep]

theorem exists_waits_iff :
    (∃ edge, CallEdge.Waits edges.flatten edge) ↔ P.HasNonTailCycle := by
  constructor
  · intro ⟨edge, hmem, htail, hback⟩
    obtain ⟨hruns, hiff⟩ := mayRun_of_mem hP hunique hlist hedges hmem
    exact ⟨edge.caller, edge.call, edge.callee, hruns, hiff.mp htail,
      (leads_iff_callsOnTo hP hunique hlist hedges).mp hback⟩
  · intro ⟨owner, call, callee, hruns, hnonTail, hback⟩
    obtain ⟨edge, hmem, rfl, rfl, rfl⟩ := exists_edge hP hunique hlist hedges hruns
    exact ⟨edge, hmem, (mayRun_of_mem hP hunique hlist hedges hmem).2.mpr hnonTail,
      (leads_iff_callsOnTo hP hunique hlist hedges).mpr hback⟩

end Edges

/-! ### What is refused -/

/-- Where the calls have been detected, a subgraph whose call is not a tail call cannot be reached
from what the call runs. -/
theorem not_callsOnTo_of_nonTail (hP : P.WellFormed) (hunique : P.HandlesUnique)
    (hdetect : detect P catalog = .ok detection) {listed : ListedNode} (hlists : P.Lists listed)
    (hnonTail : P.NonTail listed.owner listed.id) {handle : TensorId}
    (hhead : listed.node.inputs.head? = some handle) {binder : NodeId} {callee : SubgraphId}
    (hflows : P.Flows binder handle) (hnames : P.Names binder callee) :
    ¬ P.CallsOnTo callee listed.owner := by
  intro hback
  obtain ⟨listing, edges, hlist, hedges, -, hcycles⟩ := detect_eq_ok hdetect
  obtain ⟨-, node, -, -, hnode, hcall, -⟩ := id hnonTail
  obtain ⟨-, -, -, hnode'⟩ := id hlists
  obtain rfl := Option.some.inj (hnode.symm.trans hnode')
  have hruns : P.MayRun listed.owner listed.id callee :=
    ⟨listed, handle, binder, hlists, rfl, rfl, hcall, hhead, hflows, hnames⟩
  obtain ⟨edge, hwaits⟩ :=
    (exists_waits_iff hP hunique hlist hedges).mpr ⟨_, _, _, hruns, hnonTail, hback⟩
  rcases CallEdge.checkCycles_cases edges.flatten with ⟨-, hnone⟩ | ⟨_, -, hrefuse⟩
  · exact hnone edge hwaits
  · exact Outcome.refuse_ne_ok (hrefuse.symm.trans hcycles)

/-- Once the calls are resolved, the only thing to be refused is a call that waits for its own
subgraph. -/
theorem detect_cases (hP : P.WellFormed) (hunique : P.HandlesUnique) (hresolve : P.AllResolve)
    (catalog : Catalog) :
    (¬ P.HasNonTailCycle ∧ ∃ detection, detect P catalog = .ok detection)
      ∨ (P.HasNonTailCycle ∧ ∃ call owner callee,
        detect P catalog = .error (.refused (.nonTailCycle call owner callee))) := by
  obtain ⟨listing, hlist⟩ := hP.exists_listing (ε := ScheduleError)
  obtain ⟨edges, hedges⟩ : ∃ edges,
      (listing.filter fun listed => listed.node.isCall).mapM (edgesOf P listing) = .ok edges := by
    refine Outcome.exists_mapM_eq_ok fun listed hmem => ?_
    obtain ⟨hlists, hcall⟩ := (mem_calls_iff hP hlist).mp hmem
    obtain ⟨handle, hhead⟩ := hP.exists_handle hlists hcall
    obtain ⟨-, -, -, hnode⟩ := id hlists
    obtain ⟨binders, hbinders⟩ :
        ∃ binders, P.resolveCall listing listed.owner listed.id = .ok binders :=
      (exists_resolveCall_iff hP hunique hlist hnode hhead).mpr
        (hresolve ⟨listed, hlists, rfl, hcall, hhead⟩)
    exact exists_edgesOf hP hlist hlists hbinders
  obtain ⟨known, hnote, -⟩ :=
    exists_noteNonTails (fun listed hmem => (mem_calls_iff hP hlist).mp hmem) .empty
  have hcycle := exists_waits_iff hP hunique hlist hedges
  have hdetect : detect P catalog = (CallEdge.checkCycles edges.flatten >>= fun _ =>
      .ok ⟨known, IdSet.ofList catalog.multiplyCalled, edges.flatten⟩) := by
    unfold detect
    rw [hlist, Outcome.ok_bind]
    dsimp only
    rw [hedges, Outcome.ok_bind, hnote]
    rfl
  rw [hdetect]
  rcases CallEdge.checkCycles_cases edges.flatten with ⟨hok, hnone⟩ | ⟨edge, hedge, hrefuse⟩
  · rw [hok]
    exact .inl ⟨fun h => (hcycle.mpr h).elim hnone, _, rfl⟩
  · rw [hrefuse]
    exact .inr ⟨hcycle.mp ⟨edge, hedge⟩, _, _, _, rfl⟩

theorem not_hasNonTailCycle_of_allTail (hall : ∀ id < P.subgraphs.size, P.AllTail id) :
    ¬ P.HasNonTailCycle := by
  rintro ⟨owner, call, -, -, hnonTail, -⟩
  exact hall owner hnonTail.lt call hnonTail

end Detection

end TailFlow
