import TailFlow.Proofs.CallGraph.Catalog
import TailFlow.Proofs.Handles.Flow
import TailFlow.Proofs.Schedule.TailCalls

/-!
# What is detected

Detection resolves every call that is listed, notes the calls that are not tail calls under the
subgraphs that list them, and draws an edge from a call to whatever a binder names whose handle flows
to the call. Where some handle does not resolve it refuses the first call with such a handle.
-/

namespace TailFlow

open Program

namespace Program

variable {P : Program}

theorem resolveCall_eq_refuse (hP : P.WellFormed) (hunique : P.HandlesUnique)
    {listing : List ListedNode}
    (hlist : (P.listing : Outcome ScheduleError (List ListedNode)) = .ok listing)
    {owner : SubgraphId} {call : NodeId} {node : Node} {handle : TensorId}
    (hnode : P.nodes[call]? = some node) (hhead : node.inputs.head? = some handle)
    (hnot : ¬ P.Resolves handle) :
    P.resolveCall listing owner call = .refuse (.unresolvedCall call owner) := by
  have hfails : ¬ ∃ binders, P.resolveCall listing owner call = .ok binders :=
    mt (exists_resolveCall_iff hP hunique hlist hnode hhead).mp hnot
  unfold resolveCall at hfails ⊢
  simp only [node_eq_ok.mpr hnode, hhead, Outcome.orRefuse, Outcome.ok_bind, Outcome.ensure] at hfails ⊢
  split
  · rename_i hhandles
    rw [if_pos hhandles, Outcome.ok_bind] at hfails
    rw [Outcome.ok_bind]
    split
    · rename_i hsome
      rw [if_pos hsome] at hfails
      exact absurd ⟨_, rfl⟩ hfails
    · rfl
  · rfl

/-- A listed call resolves to a binder. -/
def ResolvesTo (P : Program) (owner : SubgraphId) (call binder : NodeId) : Prop :=
  ∃ listing node binders, (P.listing : Outcome ScheduleError (List ListedNode)) = .ok listing
    ∧ P.Lists ⟨owner, call, node⟩ ∧ node.isCall
    ∧ P.resolveCall listing owner call = .ok binders ∧ binder ∈ binders

theorem names_of_resolveCall (hP : P.WellFormed) {listing : List ListedNode}
    (hlist : (P.listing : Outcome ScheduleError (List ListedNode)) = .ok listing)
    {owner : SubgraphId} {call binder : NodeId} {binders : IdSet}
    (hresolve : P.resolveCall listing owner call = .ok binders) (hmem : binder ∈ binders) :
    ∃ node callee, P.nodes[binder]? = some node ∧ node.callee? = some callee
      ∧ P.Names binder callee := by
  simp only [resolveCall, Outcome.bind_eq_ok, node_eq_ok, Outcome.orRefuse_eq_ok,
    Outcome.ensure_eq_ok, exists_const, Outcome.pure_eq_ok] at hresolve
  obtain ⟨node, -, handle, -, -, -, rfl⟩ := hresolve
  obtain ⟨source, -, hbinder⟩ := List.mem_filterMap.mp (IdSet.mem_ofList.mp hmem)
  obtain ⟨listed, hproducer, hbinder⟩ := Option.bind_eq_some_iff.mp hbinder
  obtain ⟨hlists, -⟩ := lists_of_producer? hP hlist hproducer
  split at hbinder
  · rename_i hbinds
    obtain rfl := Option.some.inj hbinder
    obtain ⟨callee, hcallee⟩ := Option.isSome_iff_exists.mp hbinds
    obtain ⟨-, -, -, hnode⟩ := id hlists
    exact ⟨listed.node, callee, hnode, hcallee, listed, hlists, rfl, callee?_eq_some.mp hcallee⟩
  · exact absurd hbinder.symm (Option.some_ne_none _)

end Program

/-- An edge tells of a binder that a call resolves to, of the subgraph that the binder names, and of
whether the call is a tail call. -/
structure CallEdge.Tells (edge : CallEdge) (P : Program) : Prop where
  resolves : P.ResolvesTo edge.caller edge.call edge.binder
  names : P.Names edge.binder edge.callee
  tail : edge.tail = false ↔ P.NonTail edge.caller edge.call

theorem CallEdge.exists_tells {P : Program} {owner callee : SubgraphId} {call binder : NodeId}
    (hresolves : P.ResolvesTo owner call binder) (hnames : P.Names binder callee) :
    ∃ edge : CallEdge, edge.Tells P ∧ edge.caller = owner ∧ edge.call = call
      ∧ edge.binder = binder ∧ edge.callee = callee := by
  classical
  refine ⟨⟨owner, call, binder, callee, decide ¬ P.NonTail owner call⟩, ⟨hresolves, hnames, ?_⟩,
    rfl, rfl, rfl, rfl⟩
  rw [decide_eq_false_iff_not, not_not]

namespace Detection

variable {P : Program}

theorem detect_eq_ok {catalog : Catalog} {detection : Detection}
    (hdetect : detect P catalog = .ok detection) : ∃ listing edges,
      (P.listing : Outcome ScheduleError (List ListedNode)) = .ok listing
        ∧ (listing.filter fun listed => listed.node.isCall).mapM (edgesOf P listing) = .ok edges
        ∧ (listing.filter fun listed => listed.node.isCall).foldlM (noteNonTail P) .empty
          = .ok detection.nonTailCalls
        ∧ CallEdge.checkCycles edges.flatten = .ok () := by
  obtain ⟨listing, hlist, hbody⟩ := Outcome.bind_eq_ok.mp hdetect
  obtain ⟨edges, hedges, hbody⟩ := Outcome.bind_eq_ok.mp hbody
  obtain ⟨calls, hcalls, hbody⟩ := Outcome.bind_eq_ok.mp hbody
  obtain ⟨hcycles, hpure⟩ := Outcome.check_bind_eq_ok.mp hbody
  obtain rfl := Outcome.pure_eq_ok.mp hpure
  exact ⟨listing, edges, hlist, hedges, hcalls, hcycles⟩

theorem mem_calls_iff (hP : P.WellFormed) {listing : List ListedNode}
    (hlist : (P.listing : Outcome ScheduleError (List ListedNode)) = .ok listing)
    {listed : ListedNode} : listed ∈ listing.filter (fun listed => listed.node.isCall)
      ↔ P.Lists listed ∧ listed.node.isCall := by
  rw [List.mem_filter, hP.mem_listing hlist]

/-! ### The calls that are noted -/

/-- The number of calls that have been noted for a subgraph. -/
def pending (table : IdMap (List NodeId)) (id : SubgraphId) : Nat :=
  (table.get? id).map List.length |>.getD 0

theorem pending_alter_pos_iff (table : IdMap (List NodeId)) (owner id : SubgraphId)
    (call : NodeId) : 0 < pending (table.alter owner fun calls => calls.getD [] ++ [call]) id
      ↔ 0 < pending table id ∨ owner = id := by
  unfold pending
  rw [IdMap.get?_alter]
  by_cases hsame : owner = id <;> simp [hsame]

theorem noteNonTail_eq_ok {listed : ListedNode} {subgraph : Subgraph}
    (hsubgraph : P.subgraphs[listed.owner]? = some subgraph)
    (hnode : P.nodes[listed.id]? = some listed.node) (known : IdMap (List NodeId)) :
    noteNonTail P known listed = .ok (if IsTail subgraph listed.id listed.node then known
      else known.alter listed.owner fun calls => calls.getD [] ++ [listed.id]) := by
  unfold noteNonTail
  rw [isTailCall_eq_ok hsubgraph hnode, Outcome.ok_bind]
  by_cases htail : IsTail subgraph listed.id listed.node <;> simp [htail, pure, Except.pure]

/-- Noting goes through, and the subgraphs that something is noted for are those that list a call that
is not a tail call. -/
theorem exists_noteNonTails {calls : List ListedNode}
    (hcalls : ∀ listed ∈ calls, P.Lists listed ∧ listed.node.isCall)
    (known : IdMap (List NodeId)) : ∃ known', calls.foldlM (noteNonTail P) known = .ok known'
      ∧ ∀ id, 0 < pending known' id ↔ 0 < pending known id
        ∨ ∃ listed ∈ calls, listed.owner = id ∧ P.NonTail id listed.id := by
  induction calls generalizing known with
  | nil => exact ⟨known, rfl, fun id => by simp⟩
  | cons listed rest ih =>
    obtain ⟨⟨hlists, hcall⟩, htail⟩ := List.forall_mem_cons.mp hcalls
    obtain ⟨subgraph, hsubgraph, hmem, hnode⟩ := id hlists
    have hnote := noteNonTail_eq_ok hsubgraph hnode known
    have hstep (id : SubgraphId) : 0 < pending (if IsTail subgraph listed.id listed.node then known
        else known.alter listed.owner fun calls => calls.getD [] ++ [listed.id]) id
          ↔ 0 < pending known id ∨ (listed.owner = id ∧ P.NonTail id listed.id) := by
      have hnonTail := nonTail_iff hlists hcall hsubgraph
      split
      · rename_i hisTail
        refine (or_iff_left ?_).symm
        rintro ⟨rfl, hnot⟩
        exact hnonTail.mp hnot hisTail
      · rename_i hnot
        rw [pending_alter_pos_iff]
        refine or_congr_right ⟨?_, fun h => h.1⟩
        rintro rfl
        exact ⟨rfl, hnonTail.mpr hnot⟩
    obtain ⟨known', hrest, hiff⟩ := ih htail _
    refine ⟨known', Outcome.foldlM_cons_eq_ok.mpr ⟨_, hnote, hrest⟩, fun id => ?_⟩
    rw [hiff, hstep, List.exists_mem_cons_iff, or_assoc]

theorem pending_pos_iff (hP : P.WellFormed) {catalog : Catalog} {detection : Detection}
    (hdetect : detect P catalog = .ok detection) {id : SubgraphId} :
    0 < pending detection.nonTailCalls id ↔ ∃ call, P.NonTail id call := by
  obtain ⟨listing, -, hlist, -, hfold, -⟩ := detect_eq_ok hdetect
  obtain ⟨known, hfold', hiff⟩ := exists_noteNonTails
    (fun listed hmem => (mem_calls_iff hP hlist).mp hmem) .empty
  obtain rfl := Except.ok.inj (hfold.symm.trans hfold')
  rw [hiff, or_iff_right (show ¬ 0 < pending .empty id from Nat.lt_irrefl 0)]
  constructor
  · intro ⟨listed, _, _, hnonTail⟩
    exact ⟨listed.id, hnonTail⟩
  · intro ⟨call, hnonTail⟩
    have ⟨subgraph, node, hsubgraph, hmem, hnode, hcall, _⟩ := hnonTail
    exact ⟨⟨id, call, node⟩, (mem_calls_iff hP hlist).mpr ⟨⟨subgraph, hsubgraph, hmem, hnode⟩, hcall⟩,
      rfl, hnonTail⟩

/-! ### The edges that are drawn -/

section Edges

variable {listing : List ListedNode} (hP : P.WellFormed)
  (hlist : (P.listing : Outcome ScheduleError (List ListedNode)) = .ok listing)

include hP hlist

theorem mem_edgesOf_iff {listed : ListedNode} (hlists : P.Lists listed) (hcall : listed.node.isCall)
    {edges : List CallEdge} (hedges : edgesOf P listing listed = .ok edges) {edge : CallEdge} :
    edge ∈ edges ↔ edge.Tells P ∧ edge.caller = listed.owner ∧ edge.call = listed.id := by
  obtain ⟨tail, htail, hedges⟩ := Outcome.bind_eq_ok.mp hedges
  obtain ⟨binders, hbinders, hedges⟩ := Outcome.bind_eq_ok.mp hedges
  obtain ⟨callees, hcallees, hpure⟩ := Outcome.bind_eq_ok.mp hedges
  obtain rfl := Outcome.pure_eq_ok.mp hpure
  obtain ⟨subgraph, hsubgraph, -, hnode⟩ := id hlists
  rw [isTailCall_eq_ok hsubgraph hnode] at htail
  obtain rfl := Except.ok.inj htail
  have hnonTail := nonTail_iff hlists hcall hsubgraph
  rw [List.mem_filterMap]
  constructor
  · rintro ⟨⟨binder, found⟩, hmem, hedge⟩
    obtain ⟨callee, rfl, rfl⟩ := Option.map_eq_some_iff.mp hedge
    obtain ⟨binder', hbinder, hpair⟩ := Outcome.item_of_mem_mapM hcallees hmem
    obtain ⟨node, hread, hpure⟩ := Outcome.bind_eq_ok.mp hpair
    obtain ⟨rfl, hcallee⟩ := Prod.mk.inj (Outcome.pure_eq_ok.mp hpure)
    obtain ⟨node', callee', hread', hcallee', hnames⟩ :=
      names_of_resolveCall hP hlist hbinders hbinder
    obtain rfl := Option.some.inj ((node_eq_ok.mp hread).symm.trans hread')
    obtain rfl := Option.some.inj (hcallee.symm.trans hcallee')
    exact ⟨⟨⟨listing, listed.node, binders, hlist, hlists, hcall, hbinders, hbinder⟩, hnames,
      by rw [hnonTail, decide_eq_false_iff_not]⟩, rfl, rfl⟩
  · rintro ⟨⟨hresolves, hnames, hiff⟩, howner, hid⟩
    obtain ⟨caller, call, binder, callee, tail⟩ := edge
    dsimp only at hresolves hnames hiff howner hid
    subst howner hid
    obtain ⟨listing', -, binders', hlist', -, -, hbinders', hbinder⟩ := hresolves
    obtain rfl := Except.ok.inj (hlist.symm.trans hlist')
    obtain rfl := Except.ok.inj (hbinders.symm.trans hbinders')
    obtain ⟨⟨_, found⟩, hfound, hpair⟩ := Outcome.answer_of_mem_mapM hcallees hbinder
    obtain ⟨node, hread, hpure⟩ := Outcome.bind_eq_ok.mp hpair
    obtain ⟨rfl, rfl⟩ := Prod.mk.inj (Outcome.pure_eq_ok.mp hpure)
    obtain ⟨⟨_, _, _⟩, ⟨_, _, _, hwritten⟩, rfl, hkind⟩ := hnames
    obtain rfl := Option.some.inj (hwritten.symm.trans (node_eq_ok.mp hread))
    refine ⟨_, hfound, ?_⟩
    have hsame : decide (IsTail subgraph listed.id listed.node) = tail := by
      rw [Bool.eq_iff_iff, decide_eq_true_iff, ← not_iff_not, ← hnonTail, ← hiff,
        Bool.not_eq_true]
    rw [callee?_eq_some.mpr hkind, ← hsame]
    rfl

theorem exists_edgesOf {listed : ListedNode} (hlists : P.Lists listed) {binders : IdSet}
    (hbinders : P.resolveCall listing listed.owner listed.id = .ok binders) :
    ∃ edges, edgesOf P listing listed = .ok edges := by
  obtain ⟨subgraph, hsubgraph, -, hnode⟩ := id hlists
  obtain ⟨callees, hcallees⟩ : ∃ callees, (binders.members.mapM fun binder => do
      return (binder, (← P.node binder).callee?)
        : Outcome ScheduleError (List (NodeId × Option SubgraphId))) = .ok callees := by
    refine Outcome.exists_mapM_eq_ok fun binder hbinder => ?_
    obtain ⟨node, -, hread, -⟩ := names_of_resolveCall hP hlist hbinders hbinder
    rw [node_eq_ok.mpr hread, Outcome.ok_bind]
    exact ⟨_, rfl⟩
  rw [edgesOf, isTailCall_eq_ok hsubgraph hnode, Outcome.ok_bind, hbinders, Outcome.ok_bind, hcallees,
    Outcome.ok_bind]
  exact ⟨_, rfl⟩

theorem mem_edges_iff {edges : List (List CallEdge)}
    (hedges : (listing.filter fun listed => listed.node.isCall).mapM (edgesOf P listing) = .ok edges)
    {edge : CallEdge} :
    edge ∈ edges.flatten ↔ edge.Tells P := by
  rw [List.mem_flatten]
  constructor
  · rintro ⟨found, hfound, hmem⟩
    obtain ⟨listed, hlisted, hof⟩ := Outcome.item_of_mem_mapM hedges hfound
    obtain ⟨hlists, hcall⟩ := (mem_calls_iff hP hlist).mp hlisted
    exact ((mem_edgesOf_iff hP hlist hlists hcall hof).mp hmem).1
  · intro htells
    obtain ⟨-, node, -, -, hlists, hcall, -⟩ := htells.resolves
    obtain ⟨found, hfound, hof⟩ :=
      Outcome.answer_of_mem_mapM hedges ((mem_calls_iff hP hlist).mpr ⟨hlists, hcall⟩)
    exact ⟨found, hfound,
      (mem_edgesOf_iff hP hlist hlists hcall hof).mpr ⟨htells, rfl, rfl⟩⟩

variable (hunique : P.HandlesUnique)

include hunique

theorem edgesOf_eq_refuse {listed : ListedNode} (hlists : P.Lists listed) {handle : TensorId}
    (hhead : listed.node.inputs.head? = some handle) (hnot : ¬ P.Resolves handle) :
    edgesOf P listing listed = .refuse (.unresolvedCall listed.id listed.owner) := by
  obtain ⟨subgraph, hsubgraph, -, hnode⟩ := id hlists
  unfold edgesOf
  rw [isTailCall_eq_ok hsubgraph hnode, Outcome.ok_bind,
    resolveCall_eq_refuse hP hunique hlist hnode hhead hnot]
  rfl

end Edges

theorem allResolve_of_detect (hP : P.WellFormed) (hunique : P.HandlesUnique) {catalog : Catalog}
    {detection : Detection} (hdetect : detect P catalog = .ok detection) : P.AllResolve := by
  intro call handle ⟨listed, hlists, _, hcall, hhead⟩
  obtain ⟨listing, edges, hlist, hedges, -, -⟩ := detect_eq_ok hdetect
  obtain ⟨answer, -, hanswer⟩ :=
    Outcome.answer_of_mem_mapM hedges ((mem_calls_iff hP hlist).mpr ⟨hlists, hcall⟩)
  by_contra hnot
  rw [edgesOf_eq_refuse hP hlist hunique hlists hhead hnot] at hanswer
  exact Outcome.refuse_ne_ok hanswer

theorem exists_unresolved (hP : P.WellFormed) (hunique : P.HandlesUnique) (hnot : ¬ P.AllResolve)
    (catalog : Catalog) :
    ∃ call owner, detect P catalog = .error (.refused (.unresolvedCall call owner)) := by
  obtain ⟨listing, hlist⟩ := hP.exists_listing (ε := ScheduleError)
  simp only [AllResolve, not_forall] at hnot
  obtain ⟨call, handle, ⟨listed, hlists, -, hcall, hhead⟩, hopen⟩ := hnot
  -- The walk stops at the first such call, which need not be this one.
  obtain ⟨other, hmem, stop, hstop, hedges⟩ := Outcome.exists_mapM_eq_error
    ((mem_calls_iff hP hlist).mpr ⟨hlists, hcall⟩)
    (edgesOf_eq_refuse hP hlist hunique hlists hhead hopen)
  obtain ⟨hother, hisCall⟩ := (mem_calls_iff hP hlist).mp hmem
  obtain ⟨handle', hhead'⟩ := hP.exists_handle hother hisCall
  have hopen' : ¬ P.Resolves handle' := by
    intro hresolves
    obtain ⟨-, -, -, hnode⟩ := id hother
    obtain ⟨binders, hbinders⟩ :
        ∃ binders, P.resolveCall listing other.owner other.id = .ok binders :=
      (exists_resolveCall_iff hP hunique hlist hnode hhead').mpr hresolves
    obtain ⟨edges, hok⟩ := exists_edgesOf hP hlist hother hbinders
    exact nomatch hstop.symm.trans hok
  have hrefuse := hstop.symm.trans (edgesOf_eq_refuse hP hlist hunique hother hhead' hopen')
  obtain rfl := Except.error.inj hrefuse
  refine ⟨other.id, other.owner, ?_⟩
  unfold detect
  rw [hlist, Outcome.ok_bind]
  dsimp only
  rw [hedges]
  rfl

end Detection

end TailFlow
