import TailFlow.Proofs.CallGraph.Cycles
import TailFlow.Proofs.CallGraph.Noting
import TailFlow.Proofs.Handles.Locality

/-!
# The cycle check is exact

Where all calls resolve, detection refuses a program just if some call that is not a tail call
resolves to a binder of a subgraph from which calls lead back to the caller, and it names the first
such call. Otherwise it draws one edge for every binder that a call resolves to. Nothing is asked of
the handles here: a call resolves to whatever the backward search finds, also where a handle has
several writers.
-/

namespace TailFlow

open Program

namespace Program

def CallsResolve (P : Program) : Prop :=
  ∀ ⦃listing : List ListedNode⦄, (P.listing : Outcome ScheduleError (List ListedNode)) = .ok listing →
    ∀ ⦃listed : ListedNode⦄, P.Lists listed → listed.node.isCall →
      ∃ binders, P.resolveCall listing listed.owner listed.id = .ok binders

instance (P : Program) : Decidable P.CallsResolve :=
  match hlist : (P.listing : Outcome ScheduleError (List ListedNode)) with
  | .error _ => isTrue fun _ hother => nomatch hlist.symm.trans hother
  | .ok listing => decidable_of_iff (∀ listed ∈ P.allListed, listed.node.isCall →
      (P.resolveCall listing listed.owner listed.id).isOk)
    ⟨fun h _ hother _ hlists hcall =>
      Except.ok.inj (hlist.symm.trans hother) ▸
        Outcome.exists_of_isOk (h _ (mem_allListed.mpr hlists) hcall),
    fun h _ hmem hcall => (h hlist (mem_allListed.mp hmem) hcall).elim fun _ hok =>
      congrArg Except.isOk hok⟩

def RunsInto (P : Program) (caller callee : SubgraphId) : Prop :=
  ∃ call binder, P.ResolvesTo caller call binder ∧ P.Names binder callee

variable {P : Program}

end Program

/-- The call of an edge is not a tail call, and calls lead from its callee back to its caller. -/
def CallEdge.ClosesCycle (edge : CallEdge) (P : Program) : Prop :=
  edge.Tells P ∧ P.NonTail edge.caller edge.call
    ∧ Relation.ReflTransGen P.RunsInto edge.callee edge.caller

/-- Edges stand by the place of the caller in the order, then by the place of the call in its
subgraph, then by the number of the binder. -/
def CallEdge.Before (P : Program) (first second : CallEdge) : Prop :=
  [first.caller, second.caller].Sublist P.order
    ∨ first.caller = second.caller ∧ (P.Precedes first.caller first.call second.call
      ∨ first.call = second.call ∧ first.binder < second.binder)

/-! ### The order of the listing -/

theorem pairwise_of_forall₂ {α β : Type} {R : α → β → Prop} {before : α → α → Prop}
    {after : β → β → Prop} {lefts : List α} {rights : List β} (hpairs : List.Forall₂ R lefts rights)
    (hbefore : lefts.Pairwise before)
    (hkeeps : ∀ a b x y, before a b → R a x → R b y → after x y) : rights.Pairwise after := by
  induction hpairs with
  | nil => exact .nil
  | @cons left right lefts rights hhead hrest ih =>
    obtain ⟨hfirst, hlater⟩ := List.pairwise_cons.mp hbefore
    refine List.pairwise_cons.mpr ⟨fun other hother => ?_, ih hlater⟩
    obtain ⟨source, hsource, hpair⟩ := Outcome.exists_left_of_forall₂ hrest hother
    exact hkeeps left source right other (hfirst source hsource) hhead hpair

/-- Listed nodes stand by the place of their subgraph in the order, then by their place in it. -/
def ListedNode.Before (P : Program) (first second : ListedNode) : Prop :=
  [first.owner, second.owner].Sublist P.order
    ∨ first.owner = second.owner ∧ P.Precedes first.owner first.id second.id

namespace Program

variable {ε : Type} {P : Program}

theorem pairwise_listedIn {owner : SubgraphId} {answers : List ListedNode}
    (hlist : (P.listedIn owner : Outcome ε (List ListedNode)) = .ok answers) :
    answers.Pairwise (ListedNode.Before P) := by
  obtain ⟨subgraph, hsubgraph, hmap⟩ := Outcome.bind_eq_ok.mp hlist
  have hnodes : subgraph.nodes.Pairwise fun first second =>
      [first, second].Sublist subgraph.nodes :=
    List.pairwise_iff_forall_sublist.mpr id
  refine pairwise_of_forall₂ (Outcome.mapM_eq_ok.mp hmap) hnodes ?_
  intro first second listed other hbefore hfirst hsecond
  obtain ⟨node, -, hpure⟩ := Outcome.bind_eq_ok.mp hfirst
  obtain rfl := Outcome.pure_eq_ok.mp hpure
  obtain ⟨node', -, hpure⟩ := Outcome.bind_eq_ok.mp hsecond
  obtain rfl := Outcome.pure_eq_ok.mp hpure
  exact .inr ⟨rfl, subgraph, subgraph_eq_ok.mp hsubgraph, hbefore⟩

theorem pairwise_listing {listing : List ListedNode}
    (hlist : (P.listing : Outcome ε (List ListedNode)) = .ok listing) :
    listing.Pairwise (ListedNode.Before P) := by
  obtain ⟨lists, hmap, hpure⟩ := Outcome.bind_eq_ok.mp hlist
  obtain rfl := Outcome.pure_eq_ok.mp hpure
  have horder : P.order.Pairwise fun first second => [first, second].Sublist P.order :=
    List.pairwise_iff_forall_sublist.mpr id
  refine List.pairwise_flatten.mpr ⟨fun answers hmem => ?_,
    pairwise_of_forall₂ (Outcome.mapM_eq_ok.mp hmap) horder ?_⟩
  · obtain ⟨owner, -, hitem⟩ := Outcome.item_of_mem_mapM hmap hmem
    exact pairwise_listedIn hitem
  · intro first second answers others hbefore hfirst hsecond listed hlisted other hother
    obtain ⟨rfl, -⟩ := (mem_listedIn hfirst).mp hlisted
    obtain ⟨rfl, -⟩ := (mem_listedIn hsecond).mp hother
    exact .inl hbefore

end Program

/-! ### The edges that are drawn -/

namespace CallEdge

variable {P : Program}

/-- Edges that tell of the same call and the same binder are one and the same. -/
theorem Tells.eq_of_same (hP : P.WellFormed) {first second : CallEdge} (hfirst : first.Tells P)
    (hsecond : second.Tells P) (hcall : first.call = second.call)
    (hbinder : first.binder = second.binder) : first = second := by
  obtain ⟨caller, call, binder, callee, tail⟩ := first
  obtain ⟨caller', call', binder', callee', tail'⟩ := second
  obtain rfl : call = call' := hcall
  obtain rfl : binder = binder' := hbinder
  obtain ⟨-, node, -, -, hlists, -⟩ := hfirst.resolves
  obtain ⟨-, node', -, -, hlists', -⟩ := hsecond.resolves
  obtain ⟨rfl, -⟩ := ListedNode.mk.inj (hP.lists_unique hlists hlists' rfl)
  obtain rfl : callee = callee' := hfirst.names.unique hP hsecond.names
  have htail : tail = tail' := by
    have hiff : tail = false ↔ tail' = false := hfirst.tail.trans hsecond.tail.symm
    revert hiff
    cases tail <;> cases tail' <;> decide
  rw [htail]

theorem checkCycles_eq_refuse {edges : List CallEdge} {cause : ScheduleError}
    (hrefuse : checkCycles edges = .error (.refused cause)) : ∃ earlier edge later,
      edges = earlier ++ edge :: later ∧ Waits edges edge
        ∧ cause = .nonTailCycle edge.call edge.caller edge.callee
        ∧ ∀ other ∈ earlier, ¬ Waits edges other := by
  unfold checkCycles at hrefuse
  split at hrefuse
  · exact nomatch hrefuse
  · rename_i edge hfirst
    obtain ⟨hwaits, earlier, later, hsplit, hnone⟩ := List.find?_eq_some_iff_append.mp hfirst
    rw [Bool.and_eq_true, leads_iff, Bool.not_eq_true'] at hwaits
    refine ⟨earlier, edge, later, hsplit, ⟨List.mem_of_find?_eq_some hfirst, hwaits⟩,
      (Stop.refused.inj (Except.error.inj hrefuse)).symm, fun other hother ⟨_, htail, hback⟩ => ?_⟩
    have hnot := hnone other hother
    rw [Bool.not_eq_true', Bool.and_eq_false_iff] at hnot
    rcases hnot with hnot | hnot
    · rw [htail] at hnot
      exact nomatch hnot
    · exact Bool.false_ne_true (hnot.symm.trans (leads_iff.mpr hback))

end CallEdge

namespace Detection

variable {P : Program} {catalog : Catalog}

section Edges

variable {listing : List ListedNode}

theorem pairwise_edgesOf {listed : ListedNode} {edges : List CallEdge}
    (hedges : edgesOf P listing listed = .ok edges) :
    edges.Pairwise fun first second => first.binder < second.binder := by
  obtain ⟨tail, -, hedges⟩ := Outcome.bind_eq_ok.mp hedges
  obtain ⟨binders, -, hedges⟩ := Outcome.bind_eq_ok.mp hedges
  obtain ⟨callees, hcallees, hpure⟩ := Outcome.bind_eq_ok.mp hedges
  obtain rfl := Outcome.pure_eq_ok.mp hpure
  have hascending : callees.Pairwise fun first second => first.1 < second.1 := by
    refine pairwise_of_forall₂ (Outcome.mapM_eq_ok.mp hcallees) binders.ascending ?_
    intro first second pair other hbefore hfirst hsecond
    obtain ⟨node, -, hpure⟩ := Outcome.bind_eq_ok.mp hfirst
    obtain ⟨node', -, hpure'⟩ := Outcome.bind_eq_ok.mp hsecond
    rwa [← Outcome.pure_eq_ok.mp hpure, ← Outcome.pure_eq_ok.mp hpure']
  refine hascending.filterMap _ fun pair other hbefore edge hedge edge' hedge' => ?_
  obtain ⟨callee, -, rfl⟩ := Option.map_eq_some_iff.mp hedge
  obtain ⟨callee', -, rfl⟩ := Option.map_eq_some_iff.mp hedge'
  exact hbefore

variable (hP : P.WellFormed)
  (hlist : (P.listing : Outcome ScheduleError (List ListedNode)) = .ok listing)
  {edges : List (List CallEdge)}
  (hedges : (listing.filter fun listed => listed.node.isCall).mapM (edgesOf P listing) = .ok edges)

include hP hlist hedges

theorem pairwise_edges : edges.flatten.Pairwise (CallEdge.Before P) := by
  have hordered : (listing.filter fun listed => listed.node.isCall).Pairwise fun first second =>
      ListedNode.Before P first second ∧ P.Lists first ∧ first.node.isCall ∧ P.Lists second
        ∧ second.node.isCall :=
    ((pairwise_listing hlist).filter _).imp_of_mem fun hfirst hsecond hbefore =>
      have ⟨hlists, hcall⟩ := (mem_calls_iff hP hlist).mp hfirst
      ⟨hbefore, hlists, hcall, (mem_calls_iff hP hlist).mp hsecond⟩
  refine List.pairwise_flatten.mpr ⟨fun found hfound => ?_,
    pairwise_of_forall₂ (Outcome.mapM_eq_ok.mp hedges) hordered ?_⟩
  · obtain ⟨listed, hlisted, hof⟩ := Outcome.item_of_mem_mapM hedges hfound
    obtain ⟨hlists, hcall⟩ := (mem_calls_iff hP hlist).mp hlisted
    refine (pairwise_edgesOf hof).imp_of_mem fun hfirst hsecond hlt => ?_
    obtain ⟨-, howner, hid⟩ := (mem_edgesOf_iff hP hlist hlists hcall hof).mp hfirst
    obtain ⟨-, howner', hid'⟩ := (mem_edgesOf_iff hP hlist hlists hcall hof).mp hsecond
    exact .inr ⟨howner.trans howner'.symm, .inr ⟨hid.trans hid'.symm, hlt⟩⟩
  · rintro listed other found others ⟨hbefore, hlists, hcall, hlists', hcall'⟩ hof hof' first hfirst
      second hsecond
    obtain ⟨-, howner, hid⟩ := (mem_edgesOf_iff hP hlist hlists hcall hof).mp hfirst
    obtain ⟨-, howner', hid'⟩ := (mem_edgesOf_iff hP hlist hlists' hcall' hof').mp hsecond
    unfold CallEdge.Before
    rw [howner, howner', hid, hid']
    exact hbefore.imp_right fun ⟨hsame, hprecedes⟩ => ⟨hsame, .inl hprecedes⟩

theorem leads_iff_runsInto {start goal : SubgraphId} :
    Reach.Leads (CallEdge.calleesOf edges.flatten) start goal
      ↔ Relation.ReflTransGen P.RunsInto start goal := by
  have hstep : (fun caller target => target ∈ CallEdge.calleesOf edges.flatten caller)
      = P.RunsInto := by
    funext caller target
    rw [eq_iff_iff, CallEdge.calleesOf, List.mem_map]
    constructor
    · rintro ⟨edge, hmem, rfl⟩
      obtain ⟨hedge, hcaller⟩ := List.mem_filter.mp hmem
      have htells := (mem_edges_iff hP hlist hedges).mp hedge
      rw [← eq_of_beq hcaller]
      exact ⟨edge.call, edge.binder, htells.resolves, htells.names⟩
    · rintro ⟨call, binder, hresolves, hnames⟩
      obtain ⟨edge, htells, hcaller, -, -, hcallee⟩ := CallEdge.exists_tells hresolves hnames
      exact ⟨edge, List.mem_filter.mpr ⟨(mem_edges_iff hP hlist hedges).mpr htells,
        beq_iff_eq.mpr hcaller⟩, hcallee⟩
  unfold Reach.Leads
  rw [hstep]

theorem waits_iff_closesCycle {edge : CallEdge} :
    CallEdge.Waits edges.flatten edge ↔ edge.ClosesCycle P := by
  unfold CallEdge.Waits CallEdge.ClosesCycle
  rw [mem_edges_iff hP hlist hedges, leads_iff_runsInto hP hlist hedges]
  exact and_congr_right fun htells => and_congr_left fun _ => htells.tail

end Edges

theorem exists_edges (hP : P.WellFormed) {listing : List ListedNode}
    (hlist : (P.listing : Outcome ScheduleError (List ListedNode)) = .ok listing)
    (hresolve : P.CallsResolve) : ∃ edges,
      (listing.filter fun listed => listed.node.isCall).mapM (edgesOf P listing) = .ok edges := by
  refine Outcome.exists_mapM_eq_ok fun listed hmem => ?_
  obtain ⟨hlists, hcall⟩ := (mem_calls_iff hP hlist).mp hmem
  obtain ⟨binders, hbinders⟩ := hresolve hlist hlists hcall
  exact exists_edgesOf hP hlist hlists hbinders

/-- Where every call resolves, detection comes down to the check of the edges. -/
theorem detect_eq (hP : P.WellFormed) (hresolve : P.CallsResolve) (catalog : Catalog) :
    ∃ listing edges nonTailCalls,
      (P.listing : Outcome ScheduleError (List ListedNode)) = .ok listing
        ∧ (listing.filter fun listed => listed.node.isCall).mapM (edgesOf P listing) = .ok edges
        ∧ detect P catalog = (CallEdge.checkCycles edges.flatten >>= fun _ =>
          .ok ⟨nonTailCalls, IdSet.ofList catalog.multiplyCalled, edges.flatten⟩) := by
  obtain ⟨listing, hlist⟩ := hP.exists_listing (ε := ScheduleError)
  obtain ⟨edges, hedges⟩ := exists_edges hP hlist hresolve
  obtain ⟨nonTailCalls, hnote, -⟩ :=
    exists_noteNonTails (fun listed hmem => (mem_calls_iff hP hlist).mp hmem) .empty
  refine ⟨listing, edges, nonTailCalls, hlist, hedges, ?_⟩
  unfold detect
  rw [hlist, Outcome.ok_bind]
  dsimp only
  rw [hedges, Outcome.ok_bind, hnote]
  rfl

theorem first_of_refuse (hP : P.WellFormed) {listing : List ListedNode}
    (hlist : (P.listing : Outcome ScheduleError (List ListedNode)) = .ok listing)
    {edges : List (List CallEdge)} (hedges : (listing.filter fun listed =>
      listed.node.isCall).mapM (edgesOf P listing) = .ok edges) {cause : ScheduleError}
    (hrefuse : CallEdge.checkCycles edges.flatten = .error (.refused cause)) :
    ∃ edge : CallEdge, cause = .nonTailCycle edge.call edge.caller edge.callee
      ∧ edge.ClosesCycle P ∧ ∀ other, other.ClosesCycle P → other ≠ edge → edge.Before P other := by
  obtain ⟨earlier, edge, later, hsplit, hedge, hcause, hnone⟩ := CallEdge.checkCycles_eq_refuse hrefuse
  refine ⟨edge, hcause, (waits_iff_closesCycle hP hlist hedges).mp hedge, fun other hother hne => ?_⟩
  have hwaits := (waits_iff_closesCycle hP hlist hedges).mpr hother
  have hordered := pairwise_edges hP hlist hedges
  have hmem := hwaits.1
  rw [hsplit] at hordered hmem
  obtain ⟨-, hbehind, -⟩ := List.pairwise_append.mp hordered
  rcases List.mem_append.mp hmem with hearlier | hmem
  · exact absurd hwaits (hnone other hearlier)
  · exact (List.pairwise_cons.mp hbehind).1 other ((List.mem_cons.mp hmem).resolve_left hne)

theorem existsUnique_edge (hP : P.WellFormed) {edges : List CallEdge}
    (hedges : ∀ edge : CallEdge, edge ∈ edges ↔ edge.Tells P) {owner : SubgraphId}
    {call binder : NodeId} (hresolves : P.ResolvesTo owner call binder) :
    ∃! edge, edge ∈ edges ∧ edge.call = call ∧ edge.binder = binder := by
  obtain ⟨listing, -, binders, hlist, -, -, hbinders, hmem⟩ := id hresolves
  obtain ⟨-, callee, -, -, hnames⟩ := names_of_resolveCall hP hlist hbinders hmem
  obtain ⟨edge, htells, -, hcall, hbinder, -⟩ := CallEdge.exists_tells hresolves hnames
  refine ⟨edge, ⟨(hedges edge).mpr htells, hcall, hbinder⟩, fun other ⟨hother, hcall', hbinder'⟩ => ?_⟩
  exact ((hedges other).mp hother).eq_of_same hP htells (hcall'.trans hcall.symm)
    (hbinder'.trans hbinder.symm)

/-- Where every call resolves, a program is refused just if an edge closes a cycle, and the edge that is
named stands before all others that do. Otherwise all calls that are not tail calls are noted, and
there is one edge for every binder that a call resolves to. -/
theorem detect_exact (hvalid : P.validate = .ok ()) (hresolve : P.CallsResolve) (catalog : Catalog) :
    ((∃ call owner callee,
        detect P catalog = .error (.refused (.nonTailCycle call owner callee)))
      ↔ ∃ edge : CallEdge, edge.ClosesCycle P)
    ∧ (∀ call owner callee,
        detect P catalog = .error (.refused (.nonTailCycle call owner callee)) →
        ∃ edge : CallEdge, edge.call = call ∧ edge.caller = owner ∧ edge.callee = callee
          ∧ edge.ClosesCycle P ∧ ∀ other, other.ClosesCycle P → other ≠ edge → edge.Before P other)
    ∧ ((¬ ∃ edge : CallEdge, edge.ClosesCycle P) → ∃ detection, detect P catalog = .ok detection
      ∧ (∀ id < P.subgraphs.size, ∃ calls,
        (P.nonTailCalls id : Outcome ScheduleError (List NodeId)) = .ok calls
          ∧ ∀ call, call ∈ calls ↔ P.NonTail id call)
      ∧ (∀ id calls, detection.nonTailCalls.get? id = some calls
        ↔ calls ≠ [] ∧ (P.nonTailCalls id : Outcome ScheduleError (List NodeId)) = .ok calls)
      ∧ (∀ edge, edge ∈ detection.edges ↔ edge.Tells P)
      ∧ (∀ owner call binder, P.ResolvesTo owner call binder →
        ∃! edge, edge ∈ detection.edges ∧ edge.call = call ∧ edge.binder = binder)
      ∧ detection.edges.Pairwise (CallEdge.Before P)) := by
  have hP := wellFormed_of_validate hvalid
  obtain ⟨listing, edges, nonTailCalls, hlist, hedges, hdetect⟩ := detect_eq hP hresolve catalog
  have hcloses {edge : CallEdge} : CallEdge.Waits edges.flatten edge ↔ edge.ClosesCycle P :=
    waits_iff_closesCycle hP hlist hedges
  have hmem (edge : CallEdge) : edge ∈ edges.flatten ↔ edge.Tells P :=
    mem_edges_iff hP hlist hedges
  rcases CallEdge.checkCycles_cases edges.flatten with ⟨hok, hnone⟩ | ⟨edge, hedge, hrefuse⟩
  · rw [hok, Outcome.ok_bind] at hdetect
    refine ⟨iff_of_false ?_ ?_, ?_, fun _ => ⟨_, hdetect, fun id hlt => ?_, fun id calls => ?_, hmem,
      fun owner call binder => existsUnique_edge hP hmem, pairwise_edges hP hlist hedges⟩⟩
    · rintro ⟨call, owner, callee, hrefuse⟩
      exact nomatch hdetect.symm.trans hrefuse
    · rintro ⟨edge, hedge⟩
      exact hnone edge (hcloses.mpr hedge)
    · intro call owner callee hrefuse
      exact nomatch hdetect.symm.trans hrefuse
    · exact exists_nonTailCalls hP (Array.getElem?_eq_getElem hlt)
    · exact get?_nonTailCalls_eq_some hP hdetect
  · obtain ⟨edge, hcause, hedge, hfirst⟩ := first_of_refuse hP hlist hedges hrefuse
    rw [hrefuse, hcause] at hdetect
    have hstop : detect P catalog
        = .error (.refused (.nonTailCycle edge.call edge.caller edge.callee)) := hdetect
    refine ⟨iff_of_true ⟨_, _, _, hstop⟩ ⟨edge, hedge⟩, fun call owner callee hsame => ?_,
      fun hnone => absurd ⟨edge, hedge⟩ hnone⟩
    obtain ⟨rfl, rfl, rfl⟩ := ScheduleError.nonTailCycle.inj
      (Stop.refused.inj (Except.error.inj (hstop.symm.trans hsame)))
    exact ⟨edge, rfl, rfl, rfl, hedge, hfirst⟩

end Detection

/-- An entry that waits for one of two bodies, which call each other for ever. -/
def carousel : Program where
  tensors := #["x", "left", "y", "out", "given", "right", "answer", "taken", "again", "result"].map
    fun name => ⟨name, [], .f32, none⟩
  nodes := #[⟨"bind_left", .bind 1, [0], [1]⟩, ⟨"call_left", .call, [1], [2]⟩,
    ⟨"end", .kernel .copy, [2], [3]⟩, ⟨"bind_right", .bind 2, [4], [5]⟩,
    ⟨"call_right", .call, [5], [6]⟩, ⟨"bind_again", .bind 1, [7], [8]⟩,
    ⟨"call_again", .call, [8], [9]⟩]
  subgraphs := #[⟨"main", .body, [0], [3], [0, 1, 2]⟩, ⟨"left", .body, [4], [6], [3, 4]⟩,
    ⟨"right", .body, [7], [9], [5, 6]⟩]
  order := [0, 1, 2]
  entry := 0
  outputs := [3]
  links := .empty

/-- A carousel on which the last body calls the entry, which waits for it. -/
def jammedCarousel : Program :=
  carousel.updateNode 5 fun node => { node with kind := .bind 0 }

/-- No edge of a carousel closes a cycle; on a jammed one the call of the entry does, by way of tail
calls. -/
theorem carousel_exact : (carousel.CallsResolve ∧ ¬ ∃ edge : CallEdge, edge.ClosesCycle carousel)
    ∧ jammedCarousel.CallsResolve ∧ ∃ edge : CallEdge, edge.ClosesCycle jammedCarousel
      ∧ edge.caller = 0 ∧ edge.call = 1 ∧ edge.callee = 1 := by
  have hresolve : carousel.CallsResolve := by decide +kernel
  have hjammed : jammedCarousel.CallsResolve := by decide +kernel
  have hexact := Detection.detect_exact (P := carousel) (by decide +kernel) hresolve .empty
  have hrefused :=
    (Detection.detect_exact (P := jammedCarousel) (by decide +kernel) hjammed .empty).2.1
  refine ⟨⟨hresolve, fun hcycle => ?_⟩, hjammed, ?_⟩
  · obtain ⟨call, owner, callee, hrefuse⟩ := hexact.1.mpr hcycle
    have hcheck : (Detection.detect carousel .empty).isOk = true := by decide +kernel
    exact nomatch (congrArg Except.isOk hrefuse).symm.trans hcheck
  · have hstop : Detection.detect jammedCarousel .empty
        = .error (.refused (.nonTailCycle 1 0 1)) := by decide +kernel
    obtain ⟨edge, hcall, hcaller, hcallee, hedge, -⟩ := hrefused 1 0 1 hstop
    exact ⟨edge, hedge, hcaller, hcall, hcallee⟩

end TailFlow
