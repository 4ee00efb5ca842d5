import TailFlow.Proofs.Handles.Locality

/-!
# Separating handles

Separation is a sequence of rewirings, so what every rewiring keeps, separation keeps. Where handles
stay in their subgraph, no binder of the separated program reaches more than one call; and a program
in which this holds is left as it is.
-/

namespace TailFlow

namespace Program

variable {P P' P'' : Program}

def ListsCall (P : Program) (call : NodeId) : Prop :=
  ∃ listed, P.Lists listed ∧ listed.id = call ∧ listed.node.isCall

/-- The second program comes from the first one by giving calls handles of their own. -/
def Separates : Program → Program → Prop :=
  Relation.ReflTransGen fun P P' => ∃ r : Rewiring, r.Applies P ∧ P' = r.after P

theorem Separates.wellFormed (hP : P.WellFormed) (hseparates : P.Separates P') :
    P'.WellFormed := by
  induction hseparates with
  | refl => exact hP
  | tail _ hstep ih =>
    obtain ⟨r, hr, rfl⟩ := hstep
    exact Rewiring.wellFormed_after ih hr

/-- What every rewiring keeps, separation keeps. -/
@[elab_as_elim]
theorem Separates.preserves {kept : Program → Prop} (hP : P.WellFormed)
    (hseparates : P.Separates P') (hstart : kept P)
    (hstep : ∀ ⦃Q : Program⦄ ⦃r : Rewiring⦄, Q.WellFormed → r.Applies Q → kept Q → kept (r.after Q)) :
    kept P' := by
  induction hseparates with
  | refl => exact hstart
  | tail hbefore hrewires ih =>
    obtain ⟨r, hr, rfl⟩ := hrewires
    exact hstep (Separates.wellFormed hP hbefore) hr ih

theorem Separates.handlesLocal (hP : P.WellFormed) (hlocal : P.HandlesLocal)
    (hseparates : P.Separates P') : P'.HandlesLocal :=
  hseparates.preserves hP hlocal fun _ _ hQ hr hbefore => Rewiring.handlesLocal_after hQ hbefore hr

theorem listsCall_after (hP : P.WellFormed) {r : Rewiring} (hr : r.Applies P) {call : NodeId}
    (hcall : P.ListsCall call) : (r.after P).ListsCall call := by
  obtain ⟨listed, hlists, rfl, hisCall⟩ := hcall
  by_cases hsame : listed.id = r.call
  · exact ⟨_, Rewiring.lists_after_call hP hr, hsame.symm, hr.isCall⟩
  · exact ⟨listed, Rewiring.lists_after_old hP hr hlists hsame, rfl, hisCall⟩

theorem Separates.listsCall (hP : P.WellFormed) (hseparates : P.Separates P') {call : NodeId}
    (hcall : P.ListsCall call) : P'.ListsCall call :=
  hseparates.preserves hP hcall fun _ _ hQ hr hbefore => listsCall_after hQ hr hbefore

/-! ### One call -/

/-- A call either gets a handle of its own, or the program stays as it is because the handle of the
call does not come from the subgraph of the call. -/
theorem rewireCall_eq_ok (hP : P.WellFormed) {listed : ListedNode} (hlists : P.Lists listed)
    (hcall : listed.node.isCall) {rewired : Bool}
    (hrewire : (P.rewireCall listed.id : Outcome ScheduleError (Bool × Program))
      = .ok (rewired, P')) :
    (∃ r : Rewiring, r.Applies P ∧ r.call = listed.id ∧ P' = r.after P ∧ rewired = true)
      ∨ (P' = P ∧ rewired = false
        ∧ ∃ listing, (P.listing : Outcome ScheduleError (List ListedNode)) = .ok listing
          ∧ ∀ handle, listed.node.inputs.head? = some handle →
            ∀ source, ¬ HandleCopy.Local listing listed.owner handle source) := by
  obtain ⟨owner, call, node⟩ := listed
  unfold rewireCall at hrewire
  rw [hP.owner?_eq hlists] at hrewire
  obtain ⟨listing, hlist, hbody⟩ := Outcome.bind_eq_ok.mp hrewire
  obtain ⟨node', hnode', hbody⟩ := Outcome.bind_eq_ok.mp hbody
  obtain ⟨handle, hhandle, hbody⟩ := Outcome.bind_eq_ok.mp hbody
  obtain ⟨⟨fresh, state⟩, hcopy, hlast⟩ := Outcome.bind_eq_ok.mp hbody
  obtain ⟨subgraph, hsubgraph, hid, hnode⟩ := id hlists
  obtain rfl : node = node' := Option.some.inj (hnode.symm.trans (node_eq_ok.mp hnode'))
  rw [Outcome.following_eq_ok] at hhandle
  obtain ⟨others, hinputs⟩ : ∃ others, node.inputs = handle :: others := by
    cases hnil : node.inputs with
    | nil => simp [hnil] at hhandle
    | cons first others =>
      rw [hnil, List.head?_cons, Option.some.injEq] at hhandle
      exact ⟨others, by rw [hhandle]⟩
  have hstart : HandleCopy.Holds P listing owner handle [] [] ⟨P, []⟩ :=
    ⟨.nil, rfl, List.forall_mem_nil _, by simp [HandleCopy.extend], rfl⟩
  obtain ⟨extra, copies, hholds, hredirected⟩ :=
    HandleCopy.copyHandle_holds hP hlist .root hstart hcopy
  rw [List.nil_append] at hholds hredirected
  dsimp only at hlast
  rcases hredirected with ⟨rfl, hforeign⟩ | ⟨place, copy, hplace, hroot, hfresh⟩
  · rw [if_pos rfl] at hlast
    obtain ⟨rfl, rfl⟩ := Prod.mk.inj (Outcome.pure_eq_ok.mp hlast)
    refine .inr ⟨rfl, rfl, listing, hlist, fun other hother => ?_⟩
    obtain rfl := Option.some.inj (hhandle.symm.trans hother)
    exact hforeign
  · have hne : fresh ≠ handle := by
      have hlt := hP.inputs_lt hlists (show handle ∈ node.inputs by simp [hinputs])
      rw [hfresh]
      exact (Nat.ne_of_lt (Nat.lt_add_right _ hlt)).symm
    rw [if_neg hne] at hlast
    obtain ⟨rfl, rfl⟩ := Prod.mk.inj (Outcome.pure_eq_ok.mp hlast)
    obtain ⟨earlier, later, hsplit⟩ := List.append_of_mem hid
    refine .inl ⟨⟨listing, owner, subgraph, earlier, call, later, node, handle, others, extra,
      copies, place⟩, ⟨hlist, hsubgraph, hsplit, hnode, hcall, hinputs, hholds.copies_ok,
      hholds.length_eq, hholds.plain, copy, hplace, hroot⟩, rfl, ?_, rfl⟩
    simp only [Rewiring.after, Rewiring.added, hholds.program_eq, hholds.added_eq, hfresh]

section Keeps

/-! What every rewiring keeps, together with the number of rewirings so far, separation keeps. -/

variable (kept : Nat → Program → Prop)
  (hstep : ∀ ⦃count : Nat⦄ ⦃Q : Program⦄ ⦃r : Rewiring⦄, Q.WellFormed → r.Applies Q → kept count Q →
    kept (count + 1) (r.after Q))

include hstep

theorem rewireCalls_keeps (hP : P.WellFormed) {calls : List NodeId}
    (hcalls : ∀ call ∈ calls, P.ListsCall call) {count count' : Nat} (hstart : kept count P)
    (hrewire : (rewireCalls (count, P) calls : Outcome ScheduleError (Nat × Program))
      = .ok (count', P')) : kept count' P' := by
  induction calls generalizing P count with
  | nil =>
    obtain ⟨rfl, rfl⟩ := Prod.mk.inj (Except.ok.inj hrewire)
    exact hstart
  | cons call rest ih =>
    obtain ⟨⟨rewired, middle⟩, hfirst, hrest⟩ := Outcome.bind_eq_ok.mp hrewire
    obtain ⟨hhead, htail⟩ := List.forall_mem_cons.mp hcalls
    obtain ⟨listed, hlists, rfl, hcall⟩ := hhead
    rcases rewireCall_eq_ok hP hlists hcall hfirst with ⟨r, hr, -, rfl, rfl⟩ | ⟨rfl, rfl, -⟩
    · have hlisted : ∀ call ∈ rest, (r.after P).ListsCall call :=
        fun call hmem => listsCall_after hP hr (htail call hmem)
      exact ih (Rewiring.wellFormed_after hP hr) hlisted (hstep hP hr hstart) hrest
    · exact ih hP htail hstart hrest

end Keeps

/-! ### All binders -/

def ListsBinder (P : Program) (binder : NodeId) : Prop :=
  ∃ listed, P.Lists listed ∧ listed.id = binder ∧ listed.node.callee?.isSome

theorem Reaches.listsBinder {binder call : NodeId} (hreaches : P.Reaches binder call) :
    P.ListsBinder binder := by
  obtain ⟨handle, hflows, -⟩ := hreaches
  induction hflows with
  | made hlists hid hbinder _ => exact ⟨_, hlists, hid, hbinder⟩
  | picked _ _ _ _ ih => exact ih

theorem Reaches.listsCall {binder call : NodeId} (hreaches : P.Reaches binder call) :
    P.ListsCall call := by
  obtain ⟨handle, -, listed, hlists, hid, hcall, -⟩ := hreaches
  exact ⟨listed, hlists, hid, hcall⟩

theorem ListsBinder.lt {binder : NodeId} (hbinder : P.ListsBinder binder) :
    binder < P.nodes.size := by
  obtain ⟨listed, ⟨subgraph, -, -, hnode⟩, rfl, -⟩ := hbinder
  exact node_lt hnode

theorem Separates.listsBinder (hP : P.WellFormed) (hseparates : P.Separates P') {binder : NodeId}
    (hbinder : P.ListsBinder binder) : P'.ListsBinder binder := by
  refine hseparates.preserves hP hbinder fun Q r hQ hr ⟨listed, hlists, hid, hsome⟩ => ?_
  have hne : listed.id ≠ r.call := by
    intro hsame
    obtain rfl := hQ.lists_unique hlists hr.lists_call hsame
    have hcall : r.node.isCall := hr.isCall
    rw [Node.givesHandle_ne_call (Node.givesHandle_of_callee? hsome)] at hcall
    exact nomatch hcall
  exact ⟨listed, Rewiring.lists_after_old hQ hr hlists hne, hid, hsome⟩

theorem mem_listedIds {id : NodeId} :
    id ∈ P.listedIds ↔ ∃ (owner : SubgraphId) (subgraph : Subgraph),
      P.subgraphs[owner]? = some subgraph ∧ id ∈ subgraph.nodes := by
  unfold listedIds
  rw [IdSet.mem_members, IdSet.mem_ofList, List.mem_flatMap]
  constructor
  · intro ⟨subgraph, hmem, hid⟩
    obtain ⟨owner, howner⟩ := Array.getElem?_of_mem (Array.mem_toList_iff.mp hmem)
    exact ⟨owner, subgraph, howner, hid⟩
  · intro ⟨owner, subgraph, howner, hid⟩
    exact ⟨subgraph, Array.mem_toList_iff.mpr (Array.mem_of_getElem? howner), hid⟩

theorem exists_listedBinders (hP : P.WellFormed) :
    ∃ binders, (P.listedBinders : Outcome ScheduleError (List NodeId)) = .ok binders
      ∧ ∀ binder, binder ∈ binders ↔ P.ListsBinder binder := by
  have hnode {id : NodeId} (hid : id ∈ P.listedIds) : ∃ owner node, P.Lists ⟨owner, id, node⟩
      ∧ P.nodes[id]? = some node := by
    obtain ⟨owner, subgraph, howner, hmem⟩ := mem_listedIds.mp hid
    obtain ⟨node, hnode, hlists⟩ := hP.exists_lists howner hmem
    exact ⟨owner, node, hlists, hnode⟩
  refine ⟨_, Outcome.filterM_eq_ok.mpr ⟨fun id hid => ?_, rfl⟩, fun binder => ?_⟩
  · obtain ⟨owner, node, -, hnode⟩ := hnode hid
    rw [node_eq_ok.mpr hnode, Outcome.ok_bind]
    exact ⟨_, rfl⟩
  · rw [List.mem_filter]
    constructor
    · intro ⟨hid, hholds⟩
      obtain ⟨owner, node, hlists, hnode⟩ := hnode hid
      rw [node_eq_ok.mpr hnode] at hholds
      exact ⟨⟨owner, binder, node⟩, hlists, rfl, hholds⟩
    · intro ⟨listed, hlists, hid, hsome⟩
      obtain ⟨subgraph, hsubgraph, hmem, hnode⟩ := hlists
      subst hid
      refine ⟨mem_listedIds.mpr ⟨_, subgraph, hsubgraph, hmem⟩, ?_⟩
      rw [node_eq_ok.mpr hnode]
      exact hsome

theorem exists_callsReached (hP : P.WellFormed) {listing : List ListedNode}
    (hlist : (P.listing : Outcome ScheduleError (List ListedNode)) = .ok listing) {binder : NodeId}
    (hbinder : P.ListsBinder binder) :
    ∃ calls, (P.callsReached listing binder : Outcome ScheduleError IdSet) = .ok calls
      ∧ ∀ call, call ∈ calls ↔ P.Reaches binder call := by
  obtain ⟨listed, hlists, rfl, hsome⟩ := hbinder
  obtain ⟨subgraph, -, -, hnode⟩ := id hlists
  have hcalls : (P.callsReached listing listed.id : Outcome ScheduleError IdSet)
      = .ok (ListedNode.reachedCalls listing listed.node.outputs) := by
    rw [callsReached, node_eq_ok.mpr hnode, Outcome.ok_bind]
    rfl
  exact ⟨_, hcalls, fun call => mem_callsReached hP hlist hlists hsome hcalls⟩

section Keeps

variable (kept : Nat → Program → Prop)
  (hstep : ∀ ⦃count : Nat⦄ ⦃Q : Program⦄ ⦃r : Rewiring⦄, Q.WellFormed → r.Applies Q → kept count Q →
    kept (count + 1) (r.after Q))

include hstep

theorem separateBinder_keeps (hP : P.WellFormed) {binder : NodeId}
    (hbinder : P.ListsBinder binder) {count count' : Nat} (hstart : kept count P)
    (hseparate : (separateBinder (count, P) binder : Outcome ScheduleError (Nat × Program))
      = .ok (count', P')) : kept count' P' := by
  obtain ⟨listing, hlist, hseparate⟩ := Outcome.bind_eq_ok.mp hseparate
  obtain ⟨calls, hcalls, hrewire⟩ := Outcome.bind_eq_ok.mp hseparate
  obtain ⟨calls', hcalls', hreached⟩ := exists_callsReached hP hlist hbinder
  obtain rfl := Except.ok.inj (hcalls.symm.trans hcalls')
  refine rewireCalls_keeps kept hstep hP (fun call hmem => ?_) hstart hrewire
  exact ((hreached call).mp (List.mem_of_mem_drop hmem)).listsCall

end Keeps

theorem separateBinder_separates (hP : P.WellFormed) {binder : NodeId}
    (hbinder : P.ListsBinder binder) {count count' : Nat}
    (hseparate : (separateBinder (count, P) binder : Outcome ScheduleError (Nat × Program))
      = .ok (count', P')) : P.Separates P' :=
  separateBinder_keeps (fun _ => P.Separates) (fun _ _ r _ hr hbefore => hbefore.tail ⟨r, hr, rfl⟩)
    hP hbinder .refl hseparate

section Keeps

variable (kept : Nat → Program → Prop)
  (hstep : ∀ ⦃count : Nat⦄ ⦃Q : Program⦄ ⦃r : Rewiring⦄, Q.WellFormed → r.Applies Q → kept count Q →
    kept (count + 1) (r.after Q))

include hstep

theorem separateBinders_keeps (hP : P.WellFormed) {binders : List NodeId}
    (hbinders : ∀ binder ∈ binders, P.ListsBinder binder) {count count' : Nat}
    (hstart : kept count P)
    (hfold : (binders.foldlM separateBinder (count, P) : Outcome ScheduleError (Nat × Program))
      = .ok (count', P')) : kept count' P' := by
  induction binders generalizing P count with
  | nil =>
    obtain ⟨rfl, rfl⟩ := Prod.mk.inj (Outcome.foldlM_nil_eq_ok.mp hfold)
    exact hstart
  | cons binder rest ih =>
    obtain ⟨⟨middleCount, middle⟩, hfirst, hrest⟩ := Outcome.foldlM_cons_eq_ok.mp hfold
    obtain ⟨hhead, htail⟩ := List.forall_mem_cons.mp hbinders
    have hseparates := separateBinder_separates hP hhead hfirst
    have hlisted : ∀ binder ∈ rest, middle.ListsBinder binder :=
      fun binder hmem => hseparates.listsBinder hP (htail binder hmem)
    exact ih (hseparates.wellFormed hP) hlisted
      (separateBinder_keeps kept hstep hP hhead hstart hfirst) hrest

theorem separateHandles_keeps (hP : P.WellFormed) {count : Nat} (hstart : kept 0 P)
    (hseparate : (P.separateHandles : Outcome ScheduleError (Nat × Program)) = .ok (count, P')) :
    kept count P' := by
  obtain ⟨binders, hbinders, hfold⟩ := Outcome.bind_eq_ok.mp hseparate
  obtain ⟨binders', hbinders', hmem⟩ := exists_listedBinders hP
  obtain rfl := Except.ok.inj (hbinders.symm.trans hbinders')
  exact separateBinders_keeps kept hstep hP (fun binder => (hmem binder).mp) hstart hfold

end Keeps

/-- Separation is a sequence of rewirings. -/
theorem separateHandles_separates (hP : P.WellFormed) {count : Nat}
    (hseparate : (P.separateHandles : Outcome ScheduleError (Nat × Program)) = .ok (count, P')) :
    P.Separates P' :=
  separateHandles_keeps (fun _ => P.Separates) (fun _ _ r _ hr hbefore => hbefore.tail ⟨r, hr, rfl⟩)
    hP .refl hseparate

/-! ### Which calls binders reach -/

/-- A binder reaches one call at most. -/
def ReachesOne (P : Program) (binder : NodeId) : Prop :=
  ∀ ⦃first second : NodeId⦄, P.Reaches binder first → P.Reaches binder second → first = second

/-- The handle of a call is copied if and only if the subgraph of the call makes it. -/
theorem ownsHandle_iff (hP : P.WellFormed) {listed : ListedNode} (hlists : P.Lists listed)
    (hcall : listed.node.isCall) {handle : TensorId}
    (hhead : listed.node.inputs.head? = some handle) :
    P.OwnsHandle listed.id ↔ ∃ source, P.MadeBy listed.owner handle source := by
  obtain ⟨owner, call, node⟩ := listed
  constructor
  · rintro ⟨owner', handle', source, ⟨node', hlists', -, hhead'⟩, hmade⟩
    obtain ⟨rfl, -, rfl⟩ := ListedNode.mk.inj (hP.lists_unique hlists hlists' rfl)
    obtain rfl := Option.some.inj (hhead.symm.trans hhead')
    exact ⟨source, hmade⟩
  · rintro ⟨source, hmade⟩
    exact ⟨owner, handle, source, ⟨node, hlists, hcall, hhead⟩, hmade⟩

/-- The binders of the first program reach no more in the second one, the new ones reach one call
each, and the calls have handles made by their subgraphs, and handles that come in, as before. -/
structure Thins (P P' : Program) : Prop where
  size_le : P.nodes.size ≤ P'.nodes.size
  old : ∀ ⦃binder call : NodeId⦄, binder < P.nodes.size → P'.Reaches binder call →
    P.Reaches binder call
  new : ∀ ⦃binder : NodeId⦄, P.nodes.size ≤ binder → P'.ReachesOne binder
  ownsHandle_iff : ∀ {call : NodeId}, P'.OwnsHandle call ↔ P.OwnsHandle call
  reachesIn_iff : ∀ {binder call : NodeId}, binder < P.nodes.size →
    (P'.ReachesIn binder call ↔ P.ReachesIn binder call)

theorem Thins.refl (P : Program) : P.Thins P where
  size_le := Nat.le_refl _
  old := fun _ _ _ hreaches => hreaches
  new := fun _ hge _ _ hreaches _ => absurd hreaches.listsBinder.lt (Nat.not_lt.mpr hge)
  ownsHandle_iff := Iff.rfl
  reachesIn_iff := fun _ => Iff.rfl

theorem Thins.trans (hfirst : P.Thins P') (hsecond : P'.Thins P'') : P.Thins P'' where
  size_le := Nat.le_trans hfirst.size_le hsecond.size_le
  old := fun _ _ hlt hreaches =>
    hfirst.old hlt (hsecond.old (Nat.lt_of_lt_of_le hlt hfirst.size_le) hreaches)
  new := by
    intro binder hge first second hone htwo
    by_cases hlt : binder < P'.nodes.size
    · exact hfirst.new hge (hsecond.old hlt hone) (hsecond.old hlt htwo)
    · exact hsecond.new (Nat.not_lt.mp hlt) hone htwo
  ownsHandle_iff := hsecond.ownsHandle_iff.trans hfirst.ownsHandle_iff
  reachesIn_iff := fun hlt =>
    (hsecond.reachesIn_iff (Nat.lt_of_lt_of_le hlt hfirst.size_le)).trans (hfirst.reachesIn_iff hlt)

theorem thins_after (hP : P.WellFormed) {r : Rewiring} (hr : r.Applies P) :
    P.Thins (r.after P) where
  size_le := by
    rw [Rewiring.size_nodes_after]
    exact Nat.le_add_right _ _
  old := by
    intro binder call hlt hreaches
    rcases Rewiring.reaches_after_cases hP hr hreaches with ⟨-, hbefore, -⟩ | ⟨hge, -⟩
    · exact hbefore
    · exact absurd hlt (Nat.not_lt.mpr hge)
  new := by
    intro binder hge first second hone htwo
    have honly {call : NodeId} (hreaches : (r.after P).Reaches binder call) : call = r.call :=
      (Rewiring.reaches_after_cases hP hr hreaches).elim
        (fun ⟨hlt, _⟩ => absurd hlt (Nat.not_lt.mpr hge)) And.right
    exact (honly hone).trans (honly htwo).symm
  ownsHandle_iff := Rewiring.ownsHandle_after_iff hP hr
  reachesIn_iff := Rewiring.reachesIn_after_iff hP hr

/-- A call that has got a handle of its own, or could not, is reached by an old binder only if the
handle of the binder comes in or the subgraph of the call does not make the one of the call. -/
theorem rewireCalls_thins (hP : P.WellFormed) {calls : List NodeId}
    (hcalls : ∀ call ∈ calls, P.ListsCall call) {count count' : Nat}
    (hrewire : (rewireCalls (count, P) calls : Outcome ScheduleError (Nat × Program))
      = .ok (count', P')) :
    P.Thins P' ∧ ∀ binder < P.nodes.size, ∀ call ∈ calls, P.OwnsHandle call →
      P'.Reaches binder call → P.ReachesIn binder call := by
  induction calls generalizing P count with
  | nil =>
    obtain ⟨-, rfl⟩ := Prod.mk.inj (Except.ok.inj hrewire)
    exact ⟨.refl _, fun _ _ _ hmem => nomatch hmem⟩
  | cons call rest ih =>
    obtain ⟨⟨rewired, middle⟩, hfirst, hrest⟩ := Outcome.bind_eq_ok.mp hrewire
    obtain ⟨⟨listed, hlists, rfl, hcall⟩, hlisted⟩ := List.forall_mem_cons.mp hcalls
    rcases rewireCall_eq_ok hP hlists hcall hfirst with
      ⟨r, hr, hsame, rfl, -⟩ | ⟨rfl, -, listing, hlist, hnone⟩
    · have hthins := thins_after hP hr
      obtain ⟨hthins', hleft⟩ := ih (Rewiring.wellFormed_after hP hr)
        (fun call hmem => listsCall_after hP hr (hlisted call hmem)) hrest
      refine ⟨hthins.trans hthins', fun binder hlt => List.forall_mem_cons.mpr ⟨?_, ?_⟩⟩
      · intro _ hreaches
        have hlt' := Nat.lt_of_lt_of_le hlt hthins.size_le
        rcases Rewiring.reaches_after_cases hP hr (hthins'.old hlt' hreaches) with
          ⟨-, -, hin⟩ | ⟨hge, -⟩
        · exact hin hsame.symm
        · exact absurd hlt (Nat.not_lt.mpr hge)
      · intro call hmem howns hreaches
        have hlt' := Nat.lt_of_lt_of_le hlt hthins.size_le
        exact (hthins.reachesIn_iff hlt).mp
          (hleft binder hlt' call hmem (hthins.ownsHandle_iff.mpr howns) hreaches)
    · obtain ⟨hthins, hleft⟩ := ih hP hlisted hrest
      refine ⟨hthins, fun binder hlt => List.forall_mem_cons.mpr ⟨fun howns => ?_, hleft binder hlt⟩⟩
      obtain ⟨handle, hhead⟩ := hP.exists_handle hlists hcall
      obtain ⟨source, hmade⟩ := (ownsHandle_iff hP hlists hcall hhead).mp howns
      exact absurd ((madeBy_iff hlist).mp hmade) (hnone handle hhead source)

/-- After a binder has been dealt with, its handle comes in for every call of those that it reaches
but the first, if the subgraph of the call makes the handle of the call. -/
theorem separateBinder_thins (hP : P.WellFormed) {binder : NodeId} (hbinder : P.ListsBinder binder)
    {count count' : Nat}
    (hseparate : (separateBinder (count, P) binder : Outcome ScheduleError (Nat × Program))
      = .ok (count', P')) :
    P.Thins P' ∧ ∀ first call, P'.Reaches binder first → P'.Reaches binder call → first < call →
      P.OwnsHandle call → P.ReachesIn binder call := by
  obtain ⟨listing, hlist, hseparate⟩ := Outcome.bind_eq_ok.mp hseparate
  obtain ⟨calls, hcalls, hrewire⟩ := Outcome.bind_eq_ok.mp hseparate
  obtain ⟨calls', hcalls', hreached⟩ := exists_callsReached hP hlist hbinder
  obtain rfl := Except.ok.inj (hcalls.symm.trans hcalls')
  obtain ⟨hthins, hleft⟩ := rewireCalls_thins hP
    (fun call hdrop => ((hreached call).mp (List.mem_of_mem_drop hdrop)).listsCall) hrewire
  refine ⟨hthins, fun first call hone htwo hlt howns => ?_⟩
  have hbefore {call : NodeId} (hreaches : P'.Reaches binder call) : call ∈ calls :=
    (hreached call).mpr (hthins.old hbinder.lt hreaches)
  exact hleft binder hbinder.lt call
    (IdSet.mem_drop_one_iff.mpr ⟨hbefore htwo, first, hbefore hone, hlt⟩) howns htwo

theorem separateBinders_thins (hP : P.WellFormed) {binders : List NodeId}
    (hbinders : ∀ binder ∈ binders, P.ListsBinder binder) {count count' : Nat}
    (hfold : (binders.foldlM separateBinder (count, P) : Outcome ScheduleError (Nat × Program))
      = .ok (count', P')) :
    P.Thins P' ∧ ∀ binder ∈ binders, ∀ first call, P'.Reaches binder first → P'.Reaches binder call →
      first < call → P.OwnsHandle call → P.ReachesIn binder call := by
  induction binders generalizing P count with
  | nil =>
    obtain ⟨-, rfl⟩ := Prod.mk.inj (Outcome.foldlM_nil_eq_ok.mp hfold)
    exact ⟨.refl _, fun _ hmem => nomatch hmem⟩
  | cons binder rest ih =>
    obtain ⟨⟨middleCount, middle⟩, hfirst, hrest⟩ := Outcome.foldlM_cons_eq_ok.mp hfold
    obtain ⟨hhead, htail⟩ := List.forall_mem_cons.mp hbinders
    have hseparates := separateBinder_separates hP hhead hfirst
    obtain ⟨hthins, hleft⟩ := separateBinder_thins hP hhead hfirst
    obtain ⟨hthins', hothers⟩ := ih (hseparates.wellFormed hP)
      (fun binder hmem => hseparates.listsBinder hP (htail binder hmem)) hrest
    have hlt' := Nat.lt_of_lt_of_le hhead.lt hthins.size_le
    refine ⟨hthins.trans hthins', List.forall_mem_cons.mpr ⟨?_, ?_⟩⟩
    · exact fun first call hone htwo =>
        hleft first call (hthins'.old hlt' hone) (hthins'.old hlt' htwo)
    · intro binder hmem first call hone htwo hlt howns
      exact (hthins.reachesIn_iff (htail binder hmem).lt).mp
        (hothers binder hmem first call hone htwo hlt (hthins.ownsHandle_iff.mpr howns))

/-- A binder that still reaches several calls after separation, the later of which have handles made
by their subgraphs, has a handle that comes in for these. -/
theorem separateHandles_thins (hP : P.WellFormed) {count : Nat}
    (hseparate : (P.separateHandles : Outcome ScheduleError (Nat × Program)) = .ok (count, P')) :
    P.Thins P' ∧ ∀ binder first call, P'.Reaches binder first → P'.Reaches binder call →
      first < call → P.OwnsHandle call → P.ReachesIn binder call := by
  obtain ⟨binders, hbinders, hfold⟩ := Outcome.bind_eq_ok.mp hseparate
  obtain ⟨binders', hbinders', hmem⟩ := exists_listedBinders hP
  obtain rfl := Except.ok.inj (hbinders.symm.trans hbinders')
  obtain ⟨hthins, hleft⟩ := separateBinders_thins hP (fun binder => (hmem binder).mp) hfold
  refine ⟨hthins, fun binder first call hone htwo hlt => ?_⟩
  by_cases hold : binder < P.nodes.size
  · exact hleft binder ((hmem binder).mpr (hthins.old hold hone).listsBinder) first call hone htwo hlt
  · exact absurd (hthins.new (Nat.not_lt.mp hold) hone htwo) (Nat.ne_of_lt hlt)

/-- After separation of a program whose handles stay in their subgraph every binder reaches one call at
most. -/
theorem reachesOne_of_separateHandles (hP : P.WellFormed) (hlocal : P.HandlesLocal) {count : Nat}
    (hseparate : (P.separateHandles : Outcome ScheduleError (Nat × Program)) = .ok (count, P')) :
    P'.HandlesLocal ∧ ∀ binder, P'.ReachesOne binder := by
  have hlocal' := (separateHandles_separates hP hseparate).handlesLocal hP hlocal
  obtain ⟨hthins, hleft⟩ := separateHandles_thins hP hseparate
  have hbelow ⦃binder first call : NodeId⦄ (hfirst : P'.Reaches binder first)
      (hcall : P'.Reaches binder call) : call ≤ first := by
    refine Nat.not_lt.mp fun hlt => ?_
    have hP' := (separateHandles_separates hP hseparate).wellFormed hP
    have howns := hthins.ownsHandle_iff.mp (hlocal'.ownsHandle hP' hcall)
    exact (hlocal.ownBranches hP).not_reachesIn hP (hleft binder first call hfirst hcall hlt howns)
  exact ⟨hlocal', fun _ _ _ hfirst hsecond =>
    Nat.le_antisymm (hbelow hsecond hfirst) (hbelow hfirst hsecond)⟩

end Program

end TailFlow
