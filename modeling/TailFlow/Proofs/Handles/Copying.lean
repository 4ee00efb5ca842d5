import TailFlow.Proofs.Handles.Tracing

/-!
# How copying ends

Copying a handle goes back from it through the switches of one subgraph. The allowance is one more
than there are listed nodes, so it is used up only if a switch is met twice, and such a switch picks
from what it writes itself: the handle goes round in a circle, and copying it has no end. Separation
makes no circle that was not there before. Where handles stay in their subgraph, a switch picks from
what is written further up in the list, so there is none, and separation has an answer.
-/

namespace TailFlow

open Program Relation

namespace Program

variable {P P' : Program}

/-! ### Circles -/

/-- A switch of the subgraph picks the second tensor into the first one. -/
def PickedWithin (P : Program) (owner : SubgraphId) (handle source : TensorId) : Prop :=
  ∃ listed, P.Lists listed ∧ listed.owner = owner ∧ handle ∈ listed.node.outputs
    ∧ source ∈ listed.node.branches

/-- Going back from a tensor through switches of a subgraph leads to one that is picked from itself. -/
def Circles (P : Program) (owner : SubgraphId) (root : TensorId) : Prop :=
  ∃ handle, ReflTransGen (P.PickedWithin owner) root handle
    ∧ TransGen (P.PickedWithin owner) handle handle

/-- The handle of a call goes round in the subgraph of the call. -/
def GoesRound (P : Program) : Prop :=
  ∃ listed handle, P.Lists listed ∧ listed.node.isCall ∧ listed.node.inputs.head? = some handle
    ∧ P.Circles listed.owner handle

/-- Where handles stay in their subgraph, going back through switches goes up the list. -/
theorem HandlesLocal.exists_writer_behind (hP : P.WellFormed) (hlocal : P.HandlesLocal)
    {owner : SubgraphId} {subgraph : Subgraph} (hsubgraph : P.subgraphs[owner]? = some subgraph)
    {handle source : TensorId} (hleads : TransGen (P.PickedWithin owner) handle source)
    {writer : ListedNode} (hwriter : P.Lists writer) (hgives : writer.node.givesHandle)
    (houtput : source ∈ writer.node.outputs) :
    ∃ reader, P.Lists reader ∧ handle ∈ reader.node.outputs
      ∧ subgraph.nodes.idxOf writer.id < subgraph.nodes.idxOf reader.id := by
  have hstep {middle : TensorId} {writer switch : ListedNode} (hwriter : P.Lists writer)
      (hgives : writer.node.givesHandle) (houtput : middle ∈ writer.node.outputs)
      (hswitch : P.Lists switch) (howner : switch.owner = owner)
      (hbranch : middle ∈ switch.node.branches) :
      subgraph.nodes.idxOf writer.id < subgraph.nodes.idxOf switch.id := by
    obtain ⟨hsame, hbefore⟩ := hlocal.behind hwriter hgives houtput hswitch
      (Node.mem_inputs_of_mem_branches hbranch)
    rw [← hsame, howner] at hbefore
    exact idxOf_lt_of_precedes hP hsubgraph hbefore
  induction hleads generalizing writer with
  | single hpicked =>
    obtain ⟨switch, hswitch, howner, hin, hbranch⟩ := hpicked
    exact ⟨switch, hswitch, hin, hstep hwriter hgives houtput hswitch howner hbranch⟩
  | tail _ hpicked ih =>
    obtain ⟨switch, hswitch, howner, hin, hbranch⟩ := hpicked
    obtain ⟨reader, hreader, hout, hlt⟩ :=
      ih hswitch (Node.givesHandle_of_mem_branches hbranch) hin
    have hlt' := hstep hwriter hgives houtput hswitch howner hbranch
    exact ⟨reader, hreader, hout, Nat.lt_trans hlt' hlt⟩

theorem HandlesLocal.not_goesRound (hP : P.WellFormed) (hlocal : P.HandlesLocal) :
    ¬ P.GoesRound := by
  rintro ⟨call, root, hcall, -, -, handle, -, hcircle⟩
  obtain ⟨subgraph, hsubgraph, -⟩ := id hcall
  obtain ⟨middle, ⟨switch, hswitch, -, houtput, hbranch⟩, -⟩ := TransGen.head'_iff.mp hcircle
  have hgives := Node.givesHandle_of_mem_branches hbranch
  obtain ⟨reader, hreader, hout, hlt⟩ :=
    hlocal.exists_writer_behind hP hsubgraph hcircle hswitch hgives houtput
  rw [hlocal.unique hswitch hgives houtput hreader hout] at hlt
  exact Nat.lt_irrefl _ hlt

end Program

namespace Rewiring

variable {r : Rewiring} {P : Program}

theorem pickedWithin_origin (hP : P.WellFormed) (hr : r.Applies P) {owner : SubgraphId}
    {handle source : TensorId} (hpicked : (r.after P).PickedWithin owner handle source) :
    P.PickedWithin owner (r.origin P handle) (r.origin P source) := by
  obtain ⟨switch, hswitch, howner, houtput, hbranch⟩ := hpicked
  rcases (lists_after_iff hP hr).mp hswitch with ⟨hold, -⟩ | rfl | ⟨place, copy, hcopy, rfl⟩
  · have hsame := copies_old (r := r) hP hold
    exact ⟨switch, hold, howner, hsame.mem_outputs houtput, hsame.mem_branches hbranch⟩
  · have hnot := Node.givesHandle_ne_call (Node.givesHandle_of_mem_branches hbranch)
    exact absurd hr.isCall (Bool.eq_false_iff.mp hnot)
  · have hcopies := copies_copy hP hr hcopy
    obtain ⟨-, hstays, -⟩ := hr.source hP hcopy
    exact ⟨copy.source, hcopies.lists, hstays.trans howner, hcopies.mem_outputs houtput,
      hcopies.mem_branches hbranch⟩

theorem goesRound_of_after (hP : P.WellFormed) (hr : r.Applies P)
    (hround : (r.after P).GoesRound) : P.GoesRound := by
  obtain ⟨listed, root, hlists, hcall, hhead, handle, hleads, hcircle⟩ := hround
  obtain ⟨node, hbefore, hcall', hhead'⟩ := exists_call_of_after hP hr hlists hcall hhead
  have hpicked (first second : TensorId)
      (hstep : (r.after P).PickedWithin listed.owner first second) :
      P.PickedWithin listed.owner (r.origin P first) (r.origin P second) :=
    pickedWithin_origin hP hr hstep
  exact ⟨_, _, hbefore, hcall', hhead', r.origin P handle,
    ReflTransGen.lift (r.origin P) hpicked _ _ hleads,
    TransGen.lift (r.origin P) hpicked _ _ hcircle⟩

end Rewiring

theorem Program.Separates.goesRound {P P' : Program} (hP : P.WellFormed)
    (hseparates : P.Separates P') : P'.GoesRound → P.GoesRound :=
  hseparates.preserves hP (fun hround => hround) fun _ _ hQ hr hbefore hround =>
    hbefore (Rewiring.goesRound_of_after hQ hr hround)

/-! ### Going back -/

/-- The switches of a subgraph that are met, the last one first, in going back from one tensor to
another. -/
inductive Trail (P : Program) (owner : SubgraphId) (root : TensorId) :
    List ListedNode → TensorId → Prop where
  | start : Trail P owner root [] root
  | back {visited : List ListedNode} {switch : ListedNode} {handle branch : TensorId}
      (htrail : Trail P owner root visited handle) (hlists : P.Lists switch)
      (howner : switch.owner = owner) (houtput : handle ∈ switch.node.outputs)
      (hbranch : branch ∈ switch.node.branches) :
      Trail P owner root (switch :: visited) branch

namespace Trail

variable {P : Program} {owner : SubgraphId} {root handle : TensorId} {visited : List ListedNode}

theorem lists (htrail : Trail P owner root visited handle) : ∀ switch ∈ visited, P.Lists switch := by
  induction htrail with
  | start => exact List.forall_mem_nil _
  | back _ hlists _ _ _ ih => exact List.forall_mem_cons.mpr ⟨hlists, ih⟩

theorem leads_root (htrail : Trail P owner root visited handle) :
    ReflTransGen (P.PickedWithin owner) root handle := by
  induction htrail with
  | start => exact .refl
  | back _ hlists howner houtput hbranch ih =>
    exact ih.tail ⟨_, hlists, howner, houtput, hbranch⟩

theorem leads (htrail : Trail P owner root visited handle) {switch : ListedNode}
    (hmem : switch ∈ visited) {tensor : TensorId} (houtput : tensor ∈ switch.node.outputs) :
    TransGen (P.PickedWithin owner) tensor handle := by
  induction htrail with
  | start => exact absurd hmem List.not_mem_nil
  | back _ hlists howner houtput' hbranch ih =>
    rcases List.mem_cons.mp hmem with rfl | hbefore
    · exact .single ⟨_, hlists, howner, houtput, hbranch⟩
    · exact (ih hbefore).tail ⟨_, hlists, howner, houtput', hbranch⟩

theorem nodup (htrail : Trail P owner root visited handle) (hnone : ¬ P.Circles owner root) :
    visited.Nodup := by
  induction htrail with
  | start => exact List.nodup_nil
  | back htrail _ _ houtput _ ih =>
    refine List.nodup_cons.mpr ⟨fun hmem => hnone ?_, ih⟩
    exact ⟨_, htrail.leads_root, htrail.leads hmem houtput⟩

theorem length_le (htrail : Trail P owner root visited handle) (hnone : ¬ P.Circles owner root)
    (hP : P.WellFormed) {listing : List ListedNode}
    (hlist : (P.listing : Outcome ScheduleError (List ListedNode)) = .ok listing) :
    visited.length ≤ listing.length := by
  have hsub : visited ⊆ listing := fun switch hmem =>
    (hP.mem_listing hlist).mpr (htrail.lists switch hmem)
  exact (List.subperm_of_subset (htrail.nodup hnone) hsub).length_le

end Trail

/-! ### One handle -/

namespace Copying

variable {P : Program}

/-- The state of copying has at least the tensors of the program. -/
def Covers (P : Program) (state : Copying) : Prop := P.tensors.size ≤ state.program.tensors.size

variable {allowed : Stop ScheduleError → Prop} {state : Copying}

theorem addCopy_ends (hstate : Covers P state) {handle : TensorId}
    (hlt : handle < P.tensors.size) (node : Node) (inputs : List TensorId) (tag : String) :
    Outcome.Ends (fun answer => Covers P answer.2) allowed
      (state.addCopy handle node inputs tag) := by
  have hlt' : handle < state.program.tensors.size := Nat.lt_of_lt_of_le hlt hstate
  have htensor := tensor_eq_ok (ε := ScheduleError).mpr (Array.getElem?_eq_getElem hlt')
  obtain ⟨fresh, program, hadd, hle⟩ := exists_addLike (ε := ScheduleError) hlt'
    (state.program.tensors[handle].name ++ "_" ++ tag)
  unfold addCopy
  rw [htensor, Outcome.ok_bind, hadd, Outcome.ok_bind]
  exact Nat.le_trans hstate hle

theorem each_ends {copy : TensorId → Copying → Outcome ScheduleError (TensorId × Copying)}
    {handles : List TensorId}
    (hcopy : ∀ handle ∈ handles, ∀ state, Covers P state →
      Outcome.Ends (fun answer => Covers P answer.2) allowed (copy handle state))
    (hstate : Covers P state) :
    Outcome.Ends (fun answer => Covers P answer.2) allowed (each copy handles state) := by
  induction handles generalizing state with
  | nil => exact hstate
  | cons handle rest ih =>
    obtain ⟨hhead, htail⟩ := List.forall_mem_cons.mp hcopy
    refine (hhead state hstate).bind fun (fresh, middle) _ hmiddle => ?_
    exact (ih htail hmiddle).bind fun (others, after) _ hafter => hafter

/-- Copying a handle goes through, or it has no end and going back from the handle leads into a
circle. -/
theorem copyHandle_ends (hP : P.WellFormed) {listing : List ListedNode}
    (hlist : (P.listing : Outcome ScheduleError (List ListedNode)) = .ok listing)
    {owner : SubgraphId} (tag : String) {root handle : TensorId} {visited : List ListedNode}
    {depth : Nat} (htrail : Trail P owner root visited handle)
    (hdepth : listing.length < visited.length + depth) (hstate : Covers P state) :
    Outcome.Ends (fun answer => Covers P answer.2)
      (Outcome.IsAbort .endless (P.Circles owner root))
      (copyHandle P listing owner tag depth handle state
        : Outcome ScheduleError (TensorId × Copying)) := by
  induction depth generalizing handle visited state with
  | zero =>
    refine ⟨rfl, by_contra fun hnone => ?_⟩
    exact Nat.not_lt.mpr (htrail.length_le hnone hP hlist) hdepth
  | succ depth ih =>
    unfold copyHandle
    cases hproducer : ListedNode.producer? listing handle with
    | none => exact hstate
    | some source =>
      obtain ⟨hlists, houtput⟩ := lists_of_producer? hP hlist hproducer
      have hlt := hP.outputs_lt hlists houtput
      simp only [hP.owner?_eq hlists, bne_iff_ne, ne_eq, Option.some.injEq]
      by_cases howner : source.owner = owner
      swap
      · rw [if_pos howner]
        exact hstate
      rw [if_neg (not_not_intro howner)]
      -- Both kinds of switch are met and their branches are gone back to.
      have hswitch : Outcome.Ends (fun answer => Covers P answer.2)
          (Outcome.IsAbort .endless (P.Circles owner root)) (do
            let copied ← each (copyHandle P listing owner tag depth) source.node.branches state
            copied.2.addCopy handle source.node (source.node.inputs.take 1 ++ copied.1) tag
              : Outcome ScheduleError (TensorId × Copying)) := by
        refine Outcome.Ends.bind (each_ends (fun branch hmem state hbefore => ?_) hstate)
          fun (branches, middle) _ hmiddle => addCopy_ends hmiddle hlt _ _ _
        refine ih (htrail.back hlists howner houtput hmem) ?_ hbefore
        rw [List.length_cons]
        omega
      cases source.node.kind with
      | kernel op => exact hstate
      | bind callee => exact addCopy_ends hstate hlt _ _ _
      | call => exact hstate
      | switch => exact hswitch
      | switchLayer => exact hswitch

end Copying

/-! ### All handles -/

namespace Program

variable {P P' : Program}

theorem rewireCall_ends (hP : P.WellFormed) {call : NodeId} (hcall : P.ListsCall call) :
    Outcome.Ends (fun answer => P.Separates answer.2) (Outcome.IsAbort .endless P.GoesRound)
      (P.rewireCall call : Outcome ScheduleError (Bool × Program)) := by
  obtain ⟨listed, hlists, rfl, hisCall⟩ := hcall
  obtain ⟨subgraph, -, -, hnode⟩ := id hlists
  obtain ⟨listing, hlist⟩ := hP.exists_listing (ε := ScheduleError)
  obtain ⟨handle, hhead⟩ := hP.exists_handle hlists hisCall
  have hdepth : listing.length < ([] : List ListedNode).length + (listing.length + 1) := by simp
  have hcopy := Copying.copyHandle_ends hP hlist listed.node.name
    (.start : Trail P listed.owner handle [] handle) hdepth
    (show Copying.Covers P ⟨P, []⟩ from Nat.le_refl _)
  have hends : Outcome.Ends (fun _ => True) (Outcome.IsAbort .endless P.GoesRound)
      (P.rewireCall listed.id : Outcome ScheduleError (Bool × Program)) := by
    unfold rewireCall
    rw [hP.owner?_eq hlists]
    simp only [hlist, node_eq_ok.mpr hnode, hhead, Outcome.following_some, Outcome.ok_bind]
    refine (hcopy.mono (fun _ _ h => h) fun stop h => h.imp fun hcircle =>
      ⟨listed, handle, hlists, hisCall, hhead, hcircle⟩).bind fun (fresh, state) _ _ => ?_
    dsimp only
    split <;> trivial
  refine hends.mono (fun (rewired, P') hrewire _ => ?_) fun _ h => h
  rcases rewireCall_eq_ok hP hlists hisCall hrewire with ⟨r, hr, -, rfl, -⟩ | ⟨rfl, -⟩
  · exact .single ⟨r, hr, rfl⟩
  · exact .refl

theorem rewireCalls_ends (hP : P.WellFormed) {calls : List NodeId}
    (hcalls : ∀ call ∈ calls, P.ListsCall call) (count : Nat) :
    Outcome.Ends (fun answer => P.Separates answer.2) (Outcome.IsAbort .endless P.GoesRound)
      (rewireCalls (count, P) calls : Outcome ScheduleError (Nat × Program)) := by
  induction calls generalizing P count with
  | nil => exact .refl
  | cons call rest ih =>
    obtain ⟨hhead, htail⟩ := List.forall_mem_cons.mp hcalls
    refine (rewireCall_ends hP hhead).bind fun (rewired, middle) _ hfirst => ?_
    have hrest := ih (hfirst.wellFormed hP)
      (fun call hmem => hfirst.listsCall hP (htail call hmem))
      (if rewired then count + 1 else count)
    exact hrest.mono (fun _ _ h => hfirst.trans h) fun _ h => h.imp (hfirst.goesRound hP)

theorem separateBinder_ends (hP : P.WellFormed) {binder : NodeId} (hbinder : P.ListsBinder binder)
    (count : Nat) :
    Outcome.Ends (fun answer => P.Separates answer.2) (Outcome.IsAbort .endless P.GoesRound)
      (separateBinder (count, P) binder : Outcome ScheduleError (Nat × Program)) := by
  obtain ⟨listing, hlist⟩ := hP.exists_listing (ε := ScheduleError)
  obtain ⟨calls, hcalls, hreached⟩ := exists_callsReached hP hlist hbinder
  unfold separateBinder
  dsimp only
  rw [hlist, Outcome.ok_bind, hcalls, Outcome.ok_bind]
  exact rewireCalls_ends hP
    (fun call hmem => ((hreached call).mp (List.mem_of_mem_drop hmem)).listsCall) count

/-- Separation has an answer unless the handle of a call goes round, and then it has no end. -/
theorem separateHandles_ends (hP : P.WellFormed) :
    Outcome.Ends (fun answer => P.Separates answer.2) (Outcome.IsAbort .endless P.GoesRound)
      (P.separateHandles : Outcome ScheduleError (Nat × Program)) := by
  obtain ⟨binders, hbinders, hmem⟩ := exists_listedBinders hP
  unfold separateHandles
  rw [hbinders, Outcome.ok_bind]
  have hstep (state : Nat × Program) (binder : NodeId) (hbinder : binder ∈ binders)
      (hstart : P.Separates state.2) :
      Outcome.Ends (fun answer => P.Separates answer.2) (Outcome.IsAbort .endless P.GoesRound)
        (separateBinder state binder : Outcome ScheduleError (Nat × Program)) := by
    have hends := separateBinder_ends (hstart.wellFormed hP)
      (hstart.listsBinder hP ((hmem binder).mp hbinder)) state.1
    exact hends.mono (fun _ _ h => hstart.trans h) fun _ h => h.imp (hstart.goesRound hP)
  exact Outcome.ends_foldlM hstep .refl

theorem exists_separateHandles (hP : P.WellFormed) (hlocal : P.HandlesLocal) : ∃ count P',
    (P.separateHandles : Outcome ScheduleError (Nat × Program)) = .ok (count, P') := by
  rcases (separateHandles_ends hP).cases with ⟨⟨count, P'⟩, hok, -⟩ | ⟨stop, -, -, hround⟩
  · exact ⟨count, P', hok⟩
  · exact absurd hround (hlocal.not_goesRound hP)

end Program

end TailFlow
