import Mathlib.Data.List.Find
import TailFlow.Proofs.Handles.Rewiring

/-!
# Handles from other subgraphs

Copying goes back from the handle of a call through the binders and switches of one subgraph, and
what that subgraph does not make is not copied: the copies pick from it just as their sources do. So
when a call gets a handle of its own, the copies reach that call and no other, and of the binders that
were there before just those still reach it whose handles come in from elsewhere.
-/

namespace TailFlow

namespace Program

variable {P : Program}

/-! ### Who makes a handle -/

/-- The first listed node that writes the tensor is this binder or switch of the subgraph. -/
def MadeBy (P : Program) (owner : SubgraphId) (handle : TensorId) (source : ListedNode) : Prop :=
  ∃ listing, (P.listing : Outcome ScheduleError (List ListedNode)) = .ok listing
    ∧ HandleCopy.Local listing owner handle source

theorem madeBy_iff {listing : List ListedNode}
    (hlist : (P.listing : Outcome ScheduleError (List ListedNode)) = .ok listing)
    {owner : SubgraphId} {handle : TensorId} {source : ListedNode} :
    P.MadeBy owner handle source ↔ HandleCopy.Local listing owner handle source := by
  refine ⟨fun ⟨listing', hlist', hlocal⟩ => ?_, fun hlocal => ⟨listing, hlist, hlocal⟩⟩
  rwa [Except.ok.inj (hlist.symm.trans hlist')]

namespace MadeBy

variable {owner : SubgraphId} {handle : TensorId} {source other : ListedNode}

theorem owner_eq (h : P.MadeBy owner handle source) : source.owner = owner := by
  obtain ⟨-, -, -, howner, -⟩ := h
  exact howner

theorem unique (h : P.MadeBy owner handle source) (h' : P.MadeBy owner handle other) :
    other = source := by
  obtain ⟨listing, hlist, hproducer, -⟩ := h
  exact Option.some.inj (((madeBy_iff hlist).mp h').1.symm.trans hproducer)

variable (hP : P.WellFormed)

include hP

theorem lists (h : P.MadeBy owner handle source) : P.Lists source := by
  obtain ⟨listing, hlist, hproducer, -⟩ := h
  exact (lists_of_producer? hP hlist hproducer).1

theorem mem_outputs (h : P.MadeBy owner handle source) : handle ∈ source.node.outputs := by
  obtain ⟨listing, hlist, hproducer, -⟩ := h
  exact (lists_of_producer? hP hlist hproducer).2

end MadeBy

def isWrittenBy (P : Program) (tensor : TensorId) (id : NodeId) : Bool :=
  (P.nodes[id]?).any fun node => node.outputs.contains tensor

/-- The first writer of a tensor is found along the numbers of the listed nodes. -/
theorem map_id_producer? (hP : P.WellFormed) {listing : List ListedNode}
    (hlist : (P.listing : Outcome ScheduleError (List ListedNode)) = .ok listing)
    (tensor : TensorId) : (ListedNode.producer? listing tensor).map ListedNode.id
      = P.listingIds.find? (P.isWrittenBy tensor) := by
  rw [← map_id_listing hlist, List.find?_map, ListedNode.producer?]
  refine congrArg _ (List.find?_congr fun listed hmem => ?_)
  obtain ⟨-, -, -, hnode⟩ := (hP.mem_listing hlist).mp hmem
  rw [Function.comp_apply, isWrittenBy, hnode]
  rfl

theorem madeBy_iff_find? (hP : P.WellFormed) {owner : SubgraphId} {handle : TensorId}
    {source : ListedNode} : P.MadeBy owner handle source
      ↔ P.listingIds.find? (P.isWrittenBy handle) = some source.id ∧ P.Lists source
        ∧ source.owner = owner ∧ source.node.givesHandle := by
  obtain ⟨listing, hlist⟩ := hP.exists_listing (ε := ScheduleError)
  rw [madeBy_iff hlist, HandleCopy.Local, ← map_id_producer? hP hlist, Option.map_eq_some_iff]
  constructor
  · rintro ⟨hproducer, howner, hgives⟩
    exact ⟨⟨source, hproducer, rfl⟩, (lists_of_producer? hP hlist hproducer).1, howner, hgives⟩
  · rintro ⟨⟨found, hproducer, hid⟩, hlists, howner, hgives⟩
    have hfound := (lists_of_producer? hP hlist hproducer).1
    obtain rfl := hP.lists_unique hfound hlists hid
    exact ⟨hproducer, howner, hgives⟩

/-! ### Handles that come in -/

/-- Switches of a subgraph pass on the handle of a binder into a tensor, from one that the subgraph
does not make. -/
inductive ComesIn (P : Program) (owner : SubgraphId) (binder : NodeId) : TensorId → Prop where
  | foreign {handle : TensorId} (hforeign : ∀ source, ¬ P.MadeBy owner handle source)
      (hflows : P.Flows binder handle) : ComesIn P owner binder handle
  | picked {branch handle : TensorId} {source : ListedNode} (hbranch : ComesIn P owner binder branch)
      (hmade : P.MadeBy owner handle source) (hreads : branch ∈ source.node.branches) :
      ComesIn P owner binder handle

theorem ComesIn.flows (hP : P.WellFormed) {owner : SubgraphId} {binder : NodeId}
    {handle : TensorId} (hcomes : P.ComesIn owner binder handle) : P.Flows binder handle := by
  induction hcomes with
  | foreign _ hflows => exact hflows
  | picked _ hmade hreads ih => exact .picked ih (hmade.lists hP) hreads (hmade.mem_outputs hP)

/-- A call of the subgraph reads the tensor as its handle. -/
def CallsWithin (P : Program) (owner : SubgraphId) (call : NodeId) (handle : TensorId) : Prop :=
  ∃ node, P.Lists ⟨owner, call, node⟩ ∧ node.isCall ∧ node.inputs.head? = some handle

theorem callsHandle_iff {call : NodeId} {handle : TensorId} :
    P.CallsHandle call handle ↔ ∃ owner, P.CallsWithin owner call handle := by
  constructor
  · rintro ⟨listed, hlists, rfl, hcall, hhead⟩
    exact ⟨listed.owner, listed.node, hlists, hcall, hhead⟩
  · rintro ⟨owner, node, hlists, hcall, hhead⟩
    exact ⟨_, hlists, rfl, hcall, hhead⟩

theorem CallsWithin.lt (hP : P.WellFormed) {owner : SubgraphId} {call : NodeId}
    {handle : TensorId} (hcalls : P.CallsWithin owner call handle) : handle < P.tensors.size := by
  obtain ⟨node, hlists, -, hhead⟩ := hcalls
  exact hP.inputs_lt hlists (List.mem_of_mem_head? (Option.mem_def.mpr hhead))

/-- The handle of a call is made by the subgraph of the call. -/
def OwnsHandle (P : Program) (call : NodeId) : Prop :=
  ∃ owner handle source, P.CallsWithin owner call handle ∧ P.MadeBy owner handle source

/-- The subgraph of a call makes the handle of the call, and the handle of the binder comes in from
elsewhere. -/
def ReachesIn (P : Program) (binder call : NodeId) : Prop :=
  ∃ owner handle source, P.CallsWithin owner call handle ∧ P.MadeBy owner handle source
    ∧ P.ComesIn owner binder handle

theorem ReachesIn.ownsHandle {binder call : NodeId} (hreaches : P.ReachesIn binder call) :
    P.OwnsHandle call := by
  obtain ⟨owner, handle, source, hcalls, hmade, -⟩ := hreaches
  exact ⟨owner, handle, source, hcalls, hmade⟩

theorem ReachesIn.reaches (hP : P.WellFormed) {binder call : NodeId}
    (hreaches : P.ReachesIn binder call) : P.Reaches binder call := by
  obtain ⟨owner, handle, -, hcalls, -, hcomes⟩ := hreaches
  exact ⟨handle, hcomes.flows hP, callsHandle_iff.mpr ⟨owner, hcalls⟩⟩

/-- Switches pick from handles that their own subgraphs make. -/
def OwnBranches (P : Program) : Prop :=
  ∀ switch, P.Lists switch → ∀ branch ∈ switch.node.branches, P.IsHandle branch →
    ∃ source, P.MadeBy switch.owner branch source

/-- What flows into a branch is made by the subgraph that the branch is read in, so nothing comes in. -/
theorem OwnBranches.not_reachesIn (hP : P.WellFormed) (hown : P.OwnBranches)
    {binder call : NodeId} : ¬ P.ReachesIn binder call := by
  rintro ⟨owner, handle, source, -, hmade, hcomes⟩
  induction hcomes generalizing source with
  | foreign hforeign _ => exact hforeign source hmade
  | picked hbranch hswitch hreads ih =>
    obtain ⟨maker, hmaker⟩ := hown _ (hswitch.lists hP) _ hreads (hbranch.flows hP).isHandle
    exact ih maker (hswitch.owner_eq ▸ hmaker)

end Program

namespace Rewiring

open Program

variable {r : Rewiring} {P : Program} (hP : P.WellFormed) (hr : r.Applies P)

include hP hr

/-! ### Who makes a handle of the changed program -/

theorem filter_listingIds_after :
    (r.after P).listingIds.filter (· < P.nodes.size) = P.listingIds := by
  rw [listingIds, List.filter_flatMap, listingIds, after_order]
  refine congrArg (P.order.flatMap ·) (funext fun owner => ?_)
  cases hsubgraph : P.subgraphs[owner]? with
  | none =>
    have hge := Array.getElem?_eq_none_iff.mp hsubgraph
    rw [← size_subgraphs_after (r := r)] at hge
    rw [Array.getElem?_eq_none_iff.mpr hge]
    rfl
  | some subgraph =>
    obtain ⟨after, hafter, -, -, -, hnodes⟩ := exists_subgraph_after hP hr hsubgraph
    rw [hafter]
    exact hnodes

/-- The copies write new tensors, so an old tensor has the first writer that it had. -/
theorem find?_isWrittenBy_after {tensor : TensorId} (hlt : tensor < P.tensors.size) :
    (r.after P).listingIds.find? ((r.after P).isWrittenBy tensor)
      = P.listingIds.find? (P.isWrittenBy tensor) := by
  rw [← filter_listingIds_after hP hr, List.find?_filter]
  refine List.find?_congr fun id _ => ?_
  rcases Nat.lt_or_ge id P.nodes.size with hold | hnew
  · obtain ⟨after, hafter, -, hout⟩ := exists_node_after hr (Array.getElem?_eq_getElem hold)
    simp [isWrittenBy, hafter, hout, hold]
  · obtain ⟨place, rfl⟩ := Nat.exists_eq_add_of_le hnew
    rw [isWrittenBy, node_after_copy hr]
    cases hcopy : r.copies[place]? with
    | none => simp
    | some copy =>
      have hne : tensor ≠ P.tensors.size + place := Nat.ne_of_lt (Nat.lt_add_right _ hlt)
      simp [hr.outputs_of_copy hcopy, hne]

theorem madeBy_after_old_iff {owner : SubgraphId} {handle : TensorId}
    (hlt : handle < P.tensors.size) {source : ListedNode} :
    (r.after P).MadeBy owner handle source ↔ P.MadeBy owner handle source := by
  rw [madeBy_iff_find? (wellFormed_after hP hr), madeBy_iff_find? hP,
    find?_isWrittenBy_after hP hr hlt]
  refine and_congr_right fun hfind => ?_
  constructor
  · rintro ⟨hlists, howner, hgives⟩
    rcases writer_after hP hr hlists hgives with ⟨hold, -⟩ | ⟨place, copy, hcopy, rfl, -⟩
    · exact ⟨hold, howner, hgives⟩
    · -- An old tensor has an old writer.
      have hwrites := List.find?_some hfind
      have hnone : P.nodes[P.nodes.size + place]? = none :=
        Array.getElem?_eq_none_iff.mpr (Nat.le_add_right _ _)
      rw [isWrittenBy, hnone] at hwrites
      exact nomatch hwrites
  · rintro ⟨hlists, howner, hgives⟩
    refine ⟨lists_after_old hP hr hlists fun hsame => ?_, howner, hgives⟩
    obtain rfl := hP.lists_unique hlists hr.lists_call hsame
    exact absurd hr.isCall (Bool.eq_false_iff.mp (Node.givesHandle_ne_call hgives))

/-- What a copy writes is made by the subgraph that the copies stand in, and by no other one. -/
theorem madeBy_after_copy_iff {place : Nat} {copy : HandleCopy}
    (hcopy : r.copies[place]? = some copy) {owner : SubgraphId} {source : ListedNode} :
    (r.after P).MadeBy owner (P.tensors.size + place) source
      ↔ owner = r.owner ∧ source = ⟨r.owner, P.nodes.size + place, copy.node⟩ := by
  have hafter := wellFormed_after hP hr
  obtain ⟨listing, hlist⟩ := hafter.exists_listing (ε := ScheduleError)
  have hge : ¬ P.tensors.size + place < P.tensors.size := Nat.not_lt.mpr (Nat.le_add_right _ _)
  have honly {writer : ListedNode} (hwriter : (r.after P).Lists writer)
      (hout : P.tensors.size + place ∈ writer.node.outputs) :
      writer = ⟨r.owner, P.nodes.size + place, copy.node⟩ := by
    rcases (lists_after_iff hP hr).mp hwriter with ⟨hold, -⟩ | rfl | ⟨place', copy', hcopy', rfl⟩
    · exact absurd (hP.outputs_lt hold hout) hge
    · exact absurd (hP.outputs_lt hr.lists_call hout) hge
    · rw [hr.outputs_of_copy hcopy', List.mem_singleton] at hout
      obtain rfl : place = place' := Nat.add_left_cancel hout
      obtain rfl := Option.some.inj (hcopy.symm.trans hcopy')
      rfl
  rw [madeBy_iff hlist]
  constructor
  · rintro ⟨hproducer, howner, -⟩
    obtain ⟨hlists, hout⟩ := lists_of_producer? hafter hlist hproducer
    obtain rfl := honly hlists hout
    exact ⟨howner.symm, rfl⟩
  · rintro ⟨rfl, rfl⟩
    have hlists := lists_after_copy hP hr hcopy
    have hwrites : P.tensors.size + place ∈ copy.node.outputs :=
      hr.outputs_of_copy hcopy ▸ List.mem_singleton_self _
    obtain ⟨-, -, hgives, -⟩ := hr.source hP hcopy
    refine ⟨?_, rfl, ?_⟩
    · cases hproducer : ListedNode.producer? listing (P.tensors.size + place) with
      | none =>
        have hnone := List.find?_eq_none.mp hproducer _ ((hafter.mem_listing hlist).mpr hlists)
        simp [hwrites] at hnone
      | some writer =>
        obtain ⟨hwriter, hout⟩ := lists_of_producer? hafter hlist hproducer
        rw [honly hwriter hout]
    · rw [Node.givesHandle, Node.callee?, (hr.copies_ok.added hcopy).kind_eq]
      exact hgives

/-! ### What flows into the copies -/

omit hP in
theorem madeBy_of_copy {place : Nat} {copy : HandleCopy} (hcopy : r.copies[place]? = some copy) :
    P.MadeBy r.owner copy.handle copy.source :=
  (madeBy_iff hr.listing_eq).mpr (hr.copies_ok.added hcopy).isLocal

/-- A copied switch picks from what its source picks from where the subgraph does not make it, and
from earlier copies otherwise. -/
theorem branches_of_copy_cases {place : Nat} {copy : HandleCopy}
    (hcopy : r.copies[place]? = some copy) :
    List.Forall₂ (fun branch fresh =>
        (fresh = branch ∧ ∀ source, ¬ P.MadeBy r.owner branch source)
          ∨ ∃ earlier other, r.copies[earlier]? = some other ∧ other.handle = branch
            ∧ fresh = P.tensors.size + earlier)
      copy.source.node.branches copy.node.branches := by
  refine (hr.branches_of_copy hP hcopy).imp fun branch fresh hredirected => ?_
  rcases hredirected with ⟨rfl, hforeign⟩ | ⟨earlier, other, hother, hhandle, hfresh⟩
  · exact .inl ⟨rfl, fun source hmade => hforeign source ((madeBy_iff hr.listing_eq).mp hmade)⟩
  · rw [List.getElem?_take] at hother
    split at hother
    · exact .inr ⟨earlier, other, hother, hhandle, hfresh⟩
    · exact nomatch hother

/-- Into an old tensor only old binders flow, as before, and into what a copy writes flow new binders
and those that come in. -/
theorem flows_after_cases {binder : NodeId} {tensor : TensorId}
    (hflows : (r.after P).Flows binder tensor) :
    (binder < P.nodes.size ∧ P.Flows binder tensor)
      ∨ ∃ place copy, r.copies[place]? = some copy ∧ tensor = P.tensors.size + place
        ∧ (P.nodes.size ≤ binder ∨ binder < P.nodes.size ∧ P.ComesIn r.owner binder copy.handle) := by
  induction hflows with
  | made hlists hid hbinder houtput =>
    have hgives := Node.givesHandle_of_callee? hbinder
    rcases writer_after hP hr hlists hgives with ⟨hold, -⟩ | ⟨place, copy, hcopy, rfl, houtputs⟩
    · obtain ⟨-, -, -, hnode⟩ := id hold
      exact .inl ⟨hid ▸ node_lt hnode, .made hold hid hbinder houtput⟩
    · rw [houtputs, List.mem_singleton] at houtput
      exact .inr ⟨place, copy, hcopy, houtput, .inl (hid ▸ Nat.le_add_right _ _)⟩
  | picked _ hlists hreads houtput ih =>
    have hgives := Node.givesHandle_of_mem_branches hreads
    rcases writer_after hP hr hlists hgives with ⟨hold, -⟩ | ⟨place, copy, hcopy, rfl, houtputs⟩
    · have hlt := hP.inputs_lt hold (Node.mem_inputs_of_mem_branches hreads)
      rcases ih with ⟨hbinder, hflows⟩ | ⟨place, -, -, rfl, -⟩
      · exact .inl ⟨hbinder, .picked hflows hold hreads houtput⟩
      · exact absurd hlt (Nat.not_lt.mpr (Nat.le_add_right _ _))
    · rw [houtputs, List.mem_singleton] at houtput
      refine .inr ⟨place, copy, hcopy, houtput, ?_⟩
      have hmade := madeBy_of_copy hr hcopy
      obtain ⟨original, horiginal, hcases⟩ :=
        Outcome.exists_left_of_forall₂ (branches_of_copy_cases hP hr hcopy) hreads
      rcases hcases with ⟨rfl, hforeign⟩ | ⟨earlier, other, hother, rfl, rfl⟩
      · rcases ih with ⟨hbinder, hflows⟩ | ⟨place', -, -, rfl, -⟩
        · exact .inr ⟨hbinder, .picked (.foreign hforeign hflows) hmade horiginal⟩
        · have hlt := hP.inputs_lt (hmade.lists hP) (Node.mem_inputs_of_mem_branches horiginal)
          exact absurd hlt (Nat.not_lt.mpr (Nat.le_add_right _ _))
      · rcases ih with ⟨-, hflows⟩ | ⟨place', other', hother', hsame, hcomes⟩
        · obtain ⟨writer, hwriter, -, hout⟩ := hflows.isHandle
          exact absurd (hP.outputs_lt hwriter hout) (Nat.not_lt.mpr (Nat.le_add_right _ _))
        · obtain rfl : earlier = place' := Nat.add_left_cancel hsame
          obtain rfl := Option.some.inj (hother.symm.trans hother')
          exact hcomes.imp_right fun ⟨hbinder, hcomes⟩ =>
            ⟨hbinder, .picked hcomes hmade horiginal⟩

theorem flows_after_old_iff {binder : NodeId} {tensor : TensorId} (hlt : tensor < P.tensors.size) :
    (r.after P).Flows binder tensor ↔ P.Flows binder tensor := by
  constructor
  · intro hflows
    rcases flows_after_cases hP hr hflows with ⟨-, hbefore⟩ | ⟨place, -, -, rfl, -⟩
    · exact hbefore
    · exact absurd hlt (Nat.not_lt.mpr (Nat.le_add_right _ _))
  · clear hlt
    have hkept {listed : ListedNode} (hlists : P.Lists listed) (hgives : listed.node.givesHandle) :
        (r.after P).Lists listed := by
      refine lists_after_old hP hr hlists fun hsame => ?_
      obtain rfl := hP.lists_unique hlists hr.lists_call hsame
      exact absurd hr.isCall (Bool.eq_false_iff.mp (Node.givesHandle_ne_call hgives))
    intro hflows
    induction hflows with
    | made hlists hid hbinder houtput =>
      exact .made (hkept hlists (Node.givesHandle_of_callee? hbinder)) hid hbinder houtput
    | picked _ hlists hreads houtput ih =>
      exact .picked ih (hkept hlists (Node.givesHandle_of_mem_branches hreads)) hreads houtput

/-! ### What comes in -/

theorem comesIn_after_old_iff {owner : SubgraphId} {binder : NodeId} {handle : TensorId}
    (hlt : handle < P.tensors.size) :
    (r.after P).ComesIn owner binder handle ↔ P.ComesIn owner binder handle := by
  constructor
  · intro hcomes
    induction hcomes with
    | foreign hforeign hflows =>
      exact .foreign (fun source hmade => hforeign source ((madeBy_after_old_iff hP hr hlt).mpr hmade))
        ((flows_after_old_iff hP hr hlt).mp hflows)
    | picked _ hmade hreads ih =>
      have hmade' := (madeBy_after_old_iff hP hr hlt).mp hmade
      have hbranch := hP.inputs_lt (hmade'.lists hP) (Node.mem_inputs_of_mem_branches hreads)
      exact .picked (ih hbranch) hmade' hreads
  · intro hcomes
    induction hcomes with
    | foreign hforeign hflows =>
      exact .foreign (fun source hmade => hforeign source ((madeBy_after_old_iff hP hr hlt).mp hmade))
        ((flows_after_old_iff hP hr hlt).mpr hflows)
    | picked _ hmade hreads ih =>
      have hbranch := hP.inputs_lt (hmade.lists hP) (Node.mem_inputs_of_mem_branches hreads)
      exact .picked (ih hbranch) ((madeBy_after_old_iff hP hr hlt).mpr hmade) hreads

/-- What comes into a copy is what comes into the handle that it is a copy of. -/
theorem comesIn_after_copy_iff {binder : NodeId} (hbinder : binder < P.nodes.size) {place : Nat}
    {copy : HandleCopy} (hcopy : r.copies[place]? = some copy) :
    (r.after P).ComesIn r.owner binder (P.tensors.size + place)
      ↔ P.ComesIn r.owner binder copy.handle := by
  constructor
  · intro hcomes
    rcases flows_after_cases hP hr (hcomes.flows (wellFormed_after hP hr)) with
      ⟨-, hflows⟩ | ⟨place', copy', hcopy', hsame, hcases⟩
    · obtain ⟨writer, hwriter, -, hout⟩ := hflows.isHandle
      exact absurd (hP.outputs_lt hwriter hout) (Nat.not_lt.mpr (Nat.le_add_right _ _))
    · obtain rfl : place = place' := Nat.add_left_cancel hsame
      obtain rfl := Option.some.inj (hcopy.symm.trans hcopy')
      rcases hcases with hge | ⟨-, hbefore⟩
      · exact absurd hbinder (Nat.not_lt.mpr hge)
      · exact hbefore
  · intro hcomes
    generalize hhandle : copy.handle = handle at hcomes
    induction hcomes generalizing place copy with
    | foreign hforeign _ => exact absurd (hhandle ▸ madeBy_of_copy hr hcopy) (hforeign _)
    | picked hcomes hmade hreads ih =>
      subst hhandle
      obtain rfl := (madeBy_of_copy hr hcopy).unique hmade
      have hmade' := (madeBy_after_copy_iff hP hr hcopy).mpr ⟨rfl, rfl⟩
      have hlt := hP.inputs_lt (hmade.lists hP) (Node.mem_inputs_of_mem_branches hreads)
      obtain ⟨fresh, hfresh, hcases⟩ :=
        Outcome.exists_right_of_forall₂ (branches_of_copy_cases hP hr hcopy) hreads
      rcases hcases with ⟨rfl, -⟩ | ⟨earlier, other, hother, hsame, rfl⟩
      · exact .picked ((comesIn_after_old_iff hP hr hlt).mpr hcomes) hmade' hfresh
      · exact .picked (ih hother hsame) hmade' hfresh

/-! ### The calls -/

theorem callsWithin_after_iff {owner : SubgraphId} {call : NodeId} {handle : TensorId} :
    (r.after P).CallsWithin owner call handle ↔ (call ≠ r.call ∧ P.CallsWithin owner call handle)
      ∨ (owner = r.owner ∧ call = r.call ∧ handle = P.tensors.size + r.place) := by
  constructor
  · rintro ⟨node, hlists, hcall, hhead⟩
    rcases (lists_after_iff hP hr).mp hlists with ⟨hold, hne⟩ | hsame | ⟨place, copy, hcopy, hsame⟩
    · exact .inl ⟨hne, node, hold, hcall, hhead⟩
    · obtain ⟨rfl, rfl, rfl⟩ := ListedNode.mk.inj hsame
      exact .inr ⟨rfl, rfl, (Option.some.inj hhead).symm⟩
    · obtain ⟨-, -, rfl⟩ := ListedNode.mk.inj hsame
      rw [hr.isCall_of_copy hP hcopy] at hcall
      exact nomatch hcall
  · rintro (⟨hne, node, hlists, hcall, hhead⟩ | ⟨rfl, rfl, rfl⟩)
    · exact ⟨node, lists_after_old hP hr hlists hne, hcall, hhead⟩
    · exact ⟨_, lists_after_call hP hr, hr.isCall, rfl⟩

omit hP in
theorem callsWithin_call : P.CallsWithin r.owner r.call r.handle :=
  ⟨r.node, hr.lists_call, hr.isCall, by rw [hr.inputs_eq]; rfl⟩

theorem eq_of_callsWithin_call {owner : SubgraphId} {handle : TensorId}
    (hcalls : P.CallsWithin owner r.call handle) : owner = r.owner ∧ handle = r.handle := by
  obtain ⟨node, hlists, -, hhead⟩ := hcalls
  obtain ⟨rfl, -, rfl⟩ := ListedNode.mk.inj (hP.lists_unique hlists hr.lists_call rfl)
  rw [hr.inputs_eq] at hhead
  exact ⟨rfl, (Option.some.inj hhead).symm⟩

theorem ownsHandle_after_iff {call : NodeId} :
    (r.after P).OwnsHandle call ↔ P.OwnsHandle call := by
  obtain ⟨copy, hcopy, hroot⟩ := hr.place_eq
  constructor
  · rintro ⟨owner, handle, source, hcalls, hmade⟩
    rcases (callsWithin_after_iff hP hr).mp hcalls with ⟨-, hold⟩ | ⟨rfl, rfl, rfl⟩
    · exact ⟨owner, handle, source, hold, (madeBy_after_old_iff hP hr (hold.lt hP)).mp hmade⟩
    · exact ⟨_, _, _, callsWithin_call hr, hroot ▸ madeBy_of_copy hr hcopy⟩
  · rintro ⟨owner, handle, source, hcalls, hmade⟩
    by_cases hsame : call = r.call
    · exact ⟨_, _, _, (callsWithin_after_iff hP hr).mpr (.inr ⟨rfl, hsame, rfl⟩),
        (madeBy_after_copy_iff hP hr hcopy).mpr ⟨rfl, rfl⟩⟩
    · exact ⟨owner, handle, source, (callsWithin_after_iff hP hr).mpr (.inl ⟨hsame, hcalls⟩),
        (madeBy_after_old_iff hP hr (hcalls.lt hP)).mpr hmade⟩

/-- The handles of old binders that come in for a call do so for a call with a handle of its own. -/
theorem reachesIn_after_iff {binder call : NodeId} (hbinder : binder < P.nodes.size) :
    (r.after P).ReachesIn binder call ↔ P.ReachesIn binder call := by
  obtain ⟨copy, hcopy, hroot⟩ := hr.place_eq
  constructor
  · rintro ⟨owner, handle, source, hcalls, hmade, hcomes⟩
    rcases (callsWithin_after_iff hP hr).mp hcalls with ⟨-, hold⟩ | ⟨rfl, rfl, rfl⟩
    · exact ⟨owner, handle, source, hold, (madeBy_after_old_iff hP hr (hold.lt hP)).mp hmade,
        (comesIn_after_old_iff hP hr (hold.lt hP)).mp hcomes⟩
    · exact ⟨_, _, _, callsWithin_call hr, hroot ▸ madeBy_of_copy hr hcopy,
        hroot ▸ (comesIn_after_copy_iff hP hr hbinder hcopy).mp hcomes⟩
  · rintro ⟨owner, handle, source, hcalls, hmade, hcomes⟩
    by_cases hsame : call = r.call
    · subst hsame
      obtain ⟨rfl, rfl⟩ := eq_of_callsWithin_call hP hr hcalls
      exact ⟨_, _, _, (callsWithin_after_iff hP hr).mpr (.inr ⟨rfl, rfl, rfl⟩),
        (madeBy_after_copy_iff hP hr hcopy).mpr ⟨rfl, rfl⟩,
        (comesIn_after_copy_iff hP hr hbinder hcopy).mpr (hroot ▸ hcomes)⟩
    · exact ⟨owner, handle, source, (callsWithin_after_iff hP hr).mpr (.inl ⟨hsame, hcalls⟩),
        (madeBy_after_old_iff hP hr (hcalls.lt hP)).mpr hmade,
        (comesIn_after_old_iff hP hr (hcalls.lt hP)).mpr hcomes⟩

/-- Old binders keep the call only where their handles come in from elsewhere, and the copies reach
nothing else. -/
theorem reaches_after_cases {binder call : NodeId} (hreaches : (r.after P).Reaches binder call) :
    (binder < P.nodes.size ∧ P.Reaches binder call ∧ (call = r.call → P.ReachesIn binder call))
      ∨ (P.nodes.size ≤ binder ∧ call = r.call) := by
  obtain ⟨handle, hflows, hcalls⟩ := hreaches
  obtain ⟨owner, hcalls⟩ := callsHandle_iff.mp hcalls
  rcases (callsWithin_after_iff hP hr).mp hcalls with ⟨hne, hold⟩ | ⟨rfl, rfl, rfl⟩
  · rcases flows_after_cases hP hr hflows with ⟨hbinder, hbefore⟩ | ⟨place, -, -, rfl, -⟩
    · exact .inl ⟨hbinder, ⟨handle, hbefore, callsHandle_iff.mpr ⟨owner, hold⟩⟩,
        fun hsame => absurd hsame hne⟩
    · exact absurd (hold.lt hP) (Nat.not_lt.mpr (Nat.le_add_right _ _))
  · obtain ⟨copy, hcopy, hroot⟩ := hr.place_eq
    rcases flows_after_cases hP hr hflows with ⟨-, hbefore⟩ | ⟨place, copy', hcopy', hsame, hcases⟩
    · obtain ⟨writer, hwriter, -, hout⟩ := hbefore.isHandle
      exact absurd (hP.outputs_lt hwriter hout) (Nat.not_lt.mpr (Nat.le_add_right _ _))
    · obtain rfl : r.place = place := Nat.add_left_cancel hsame
      obtain rfl := Option.some.inj (hcopy.symm.trans hcopy')
      rcases hcases with hge | ⟨hbinder, hcomes⟩
      · exact .inr ⟨hge, rfl⟩
      · have hin : P.ReachesIn binder r.call :=
          ⟨_, _, _, callsWithin_call hr, hroot ▸ madeBy_of_copy hr hcopy, hroot ▸ hcomes⟩
        exact .inl ⟨hbinder, hin.reaches hP, fun _ => hin⟩

end Rewiring

end TailFlow
