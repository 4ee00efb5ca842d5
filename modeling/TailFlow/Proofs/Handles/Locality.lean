import TailFlow.Proofs.Handles.Foreign

/-!
# Handles that stay in their subgraph

Where every handle has one writer and is read only behind it in the same subgraph, giving a call a
handle of its own does what it is for: the copies reach that call and no other, no binder that was
there before reaches it any longer, and the handles of the changed program stay in their subgraphs
too.
-/

namespace TailFlow

namespace Program

variable {P : Program}

/-- A node stands before another one in the list of a subgraph. -/
def Precedes (P : Program) (owner : SubgraphId) (first second : NodeId) : Prop :=
  ∃ subgraph, P.subgraphs[owner]? = some subgraph ∧ [first, second].Sublist subgraph.nodes

/-- Every handle has one writer, and only nodes behind the writer in its subgraph read it. -/
structure HandlesLocal (P : Program) : Prop where
  unique : P.HandlesUnique
  behind : ∀ ⦃writer reader : ListedNode⦄ ⦃handle : TensorId⦄, P.Lists writer →
    writer.node.givesHandle → handle ∈ writer.node.outputs → P.Lists reader →
    handle ∈ reader.node.inputs →
    reader.owner = writer.owner ∧ P.Precedes writer.owner writer.id reader.id

instance (P : Program) (owner : SubgraphId) (first second : NodeId) :
    Decidable (P.Precedes owner first second) :=
  match hsubgraph : P.subgraphs[owner]? with
  | none => isFalse fun ⟨_, hsome, _⟩ => nomatch hsubgraph.symm.trans hsome
  | some subgraph => decidable_of_iff ([first, second].Sublist subgraph.nodes)
    ⟨fun h => ⟨subgraph, hsubgraph, h⟩, fun ⟨_, hsome, h⟩ =>
      Option.some.inj (hsubgraph.symm.trans hsome) ▸ h⟩

/-- All listed nodes, by the number of the subgraph. -/
def allListed (P : Program) : List ListedNode :=
  P.subgraphIds.flatMap fun owner => match P.subgraphs[owner]? with
    | none => []
    | some subgraph => subgraph.nodes.filterMap fun id => (P.nodes[id]?).map (⟨owner, id, ·⟩)

theorem mem_allListed {listed : ListedNode} : listed ∈ P.allListed ↔ P.Lists listed := by
  unfold allListed
  rw [List.mem_flatMap]
  constructor
  · intro ⟨owner, _, hmem⟩
    cases hsubgraph : P.subgraphs[owner]? with
    | none => simp [hsubgraph] at hmem
    | some subgraph =>
      simp only [hsubgraph, List.mem_filterMap, Option.map_eq_some_iff] at hmem
      obtain ⟨id, hid, node, hnode, rfl⟩ := hmem
      exact ⟨subgraph, hsubgraph, hid, hnode⟩
  · intro ⟨subgraph, hsubgraph, hid, hnode⟩
    refine ⟨listed.owner, mem_subgraphIds.mpr (subgraph_lt hsubgraph), ?_⟩
    simp only [hsubgraph, List.mem_filterMap, Option.map_eq_some_iff]
    exact ⟨listed.id, hid, listed.node, hnode, rfl⟩

instance (P : Program) : Decidable P.HandlesUnique :=
  decidable_of_iff (∀ writer ∈ P.allListed, writer.node.givesHandle → ∀ handle ∈ writer.node.outputs,
      ∀ other ∈ P.allListed, handle ∈ other.node.outputs → other = writer)
    ⟨fun h _ _ _ hwriter hgives hout hother =>
      h _ (mem_allListed.mpr hwriter) hgives _ hout _ (mem_allListed.mpr hother),
    fun h _ hwriter hgives _ hout _ hother =>
      h (mem_allListed.mp hwriter) hgives hout (mem_allListed.mp hother)⟩

instance (P : Program) : Decidable P.HandlesLocal :=
  decidable_of_iff (P.HandlesUnique ∧ ∀ writer ∈ P.allListed, writer.node.givesHandle →
      ∀ handle ∈ writer.node.outputs, ∀ reader ∈ P.allListed, handle ∈ reader.node.inputs →
        reader.owner = writer.owner ∧ P.Precedes writer.owner writer.id reader.id)
    ⟨fun ⟨hunique, h⟩ => ⟨hunique, fun _ _ _ hwriter hgives hout hreader =>
      h _ (mem_allListed.mpr hwriter) hgives _ hout _ (mem_allListed.mpr hreader)⟩,
    fun ⟨hunique, h⟩ => ⟨hunique, fun _ hwriter hgives _ hout _ hreader =>
      h (mem_allListed.mp hwriter) hgives hout (mem_allListed.mp hreader)⟩⟩

theorem HandlesLocal.exists_madeBy (hP : P.WellFormed) (hlocal : P.HandlesLocal)
    {reader : ListedNode} (hreader : P.Lists reader) {handle : TensorId}
    (hread : handle ∈ reader.node.inputs) (hhandle : P.IsHandle handle) :
    ∃ source, P.MadeBy reader.owner handle source := by
  obtain ⟨writer, hwriter, hgives, hout⟩ := hhandle
  obtain ⟨listing, hlist⟩ := hP.exists_listing (ε := ScheduleError)
  obtain ⟨howner, -⟩ := hlocal.behind hwriter hgives hout hreader hread
  exact ⟨writer, listing, hlist, producer?_eq_some hP hlocal.unique hlist hwriter hgives hout,
    howner.symm, hgives⟩

theorem HandlesLocal.ownBranches (hP : P.WellFormed) (hlocal : P.HandlesLocal) : P.OwnBranches :=
  fun _ hswitch _ hbranch hhandle =>
    hlocal.exists_madeBy hP hswitch (Node.mem_inputs_of_mem_branches hbranch) hhandle

/-- A handle that a binder flows into is made by the subgraph of the call that reads it. -/
theorem HandlesLocal.ownsHandle (hP : P.WellFormed) (hlocal : P.HandlesLocal)
    {binder call : NodeId} (hreaches : P.Reaches binder call) : P.OwnsHandle call := by
  obtain ⟨handle, hflows, hcalls⟩ := hreaches
  obtain ⟨owner, node, hlists, hcall, hhead⟩ := callsHandle_iff.mp hcalls
  obtain ⟨source, hmade⟩ := hlocal.exists_madeBy hP hlists
    (List.mem_of_mem_head? (Option.mem_def.mpr hhead)) hflows.isHandle
  exact ⟨owner, handle, source, ⟨node, hlists, hcall, hhead⟩, hmade⟩

theorem mem_earlier_of_sublist {earlier later : List NodeId} {first second : NodeId}
    (hnodup : (earlier ++ later).Nodup) (hbefore : [first, second].Sublist (earlier ++ later))
    (hsecond : second ∈ earlier) : first ∈ earlier := by
  obtain ⟨front, back, hsplit, hfront, hback⟩ := List.sublist_append_iff.mp hbefore
  match front, hsplit with
  | [], hsplit =>
    obtain rfl : [first, second] = back := hsplit
    have hlater : second ∈ later := hback.mem (by simp)
    exact absurd rfl ((List.nodup_append.mp hnodup).2.2 second hsecond second hlater)
  | [_], hsplit =>
    obtain ⟨rfl, -⟩ := List.cons.inj hsplit
    exact hfront.mem List.mem_cons_self
  | _ :: _ :: _, hsplit =>
    obtain ⟨rfl, -⟩ := List.cons.inj hsplit
    exact hfront.mem List.mem_cons_self

theorem mem_earlier_of_sublist_cons {earlier later : List NodeId} {first second : NodeId}
    (hnodup : (earlier ++ second :: later).Nodup)
    (hbefore : [first, second].Sublist (earlier ++ second :: later)) : first ∈ earlier := by
  have hassoc : earlier ++ second :: later = (earlier ++ [second]) ++ later := by simp
  rw [hassoc] at hnodup hbefore
  have hmem := mem_earlier_of_sublist hnodup hbefore (by simp)
  rcases List.mem_append.mp hmem with hearlier | hsame
  · exact hearlier
  · obtain rfl := List.mem_singleton.mp hsame
    have htwice := hbefore.nodup hnodup
    simp at htwice

theorem idxOf_lt_of_precedes (hP : P.WellFormed) {owner : SubgraphId} {subgraph : Subgraph}
    (hsubgraph : P.subgraphs[owner]? = some subgraph) {first second : NodeId}
    (hbefore : P.Precedes owner first second) :
    subgraph.nodes.idxOf first < subgraph.nodes.idxOf second := by
  obtain ⟨subgraph', hsubgraph', hsublist⟩ := hbefore
  obtain rfl := Option.some.inj (hsubgraph.symm.trans hsubgraph')
  have hnodup := hP.nodup hsubgraph
  have hsecond : second ∈ subgraph.nodes := hsublist.mem (by simp)
  obtain ⟨earlier, later, hsplit⟩ := List.append_of_mem hsecond
  rw [hsplit] at hnodup hsublist ⊢
  have hfirst := mem_earlier_of_sublist_cons hnodup hsublist
  have habsent : second ∉ earlier := fun hmem =>
    (List.nodup_append.mp hnodup).2.2 second hmem second List.mem_cons_self rfl
  rw [List.idxOf_append_of_mem hfirst, List.idxOf_append_of_notMem habsent, List.idxOf_cons_self]
  exact List.idxOf_lt_length_of_mem hfirst

end Program

namespace Rewiring

open Program

variable {r : Rewiring} {P : Program}

section Handles

variable (hP : P.WellFormed) (hlocal : P.HandlesLocal) (hr : r.Applies P)

include hP hlocal hr

/-- Everything that is copied stands before the call. -/
theorem source_mem_earlier {tensor : TensorId} (hup : HandleCopy.Upstream r.listing r.owner
    r.handle tensor) {source : ListedNode}
    (hsource : HandleCopy.Local r.listing r.owner tensor source) : source.id ∈ r.earlier := by
  induction hup generalizing source with
  | root =>
    obtain ⟨hproducer, howner, hgives⟩ := hsource
    obtain ⟨hlists, houtput⟩ := lists_of_producer? hP hr.listing_eq hproducer
    have hreads : r.handle ∈ r.node.inputs := by simp [hr.inputs_eq]
    obtain ⟨-, subgraph, hsubgraph, hbefore⟩ :=
      hlocal.behind hlists hgives houtput hr.lists_call hreads
    rw [howner, hr.subgraph_eq] at hsubgraph
    obtain rfl := Option.some.inj hsubgraph
    rw [hr.nodes_eq] at hbefore
    exact mem_earlier_of_sublist_cons (hr.nodup hP) hbefore
  | branch _ hreader hbranch ih =>
    obtain ⟨hproducer, howner, hgives⟩ := hsource
    obtain ⟨hlists, houtput⟩ := lists_of_producer? hP hr.listing_eq hproducer
    obtain ⟨hreads, -⟩ := lists_of_producer? hP hr.listing_eq hreader.1
    obtain ⟨-, subgraph, hsubgraph, hbefore⟩ :=
      hlocal.behind hlists hgives houtput hreads (Node.mem_inputs_of_mem_branches hbranch)
    rw [howner, hr.subgraph_eq] at hsubgraph
    obtain rfl := Option.some.inj hsubgraph
    rw [hr.nodes_eq] at hbefore
    exact mem_earlier_of_sublist (hr.nodup hP) hbefore (ih hreader)

theorem source_of_copy_mem_earlier {place : Nat} {copy : HandleCopy}
    (hcopy : r.copies[place]? = some copy) : copy.source.id ∈ r.earlier :=
  source_mem_earlier hP hlocal hr (hr.copies_ok.added hcopy).upstream
    (hr.copies_ok.added hcopy).isLocal

omit hlocal in
theorem precedes_after_of_precedes {owner : SubgraphId} {first second : NodeId}
    (hbefore : P.Precedes owner first second) : (r.after P).Precedes owner first second := by
  obtain ⟨subgraph, hsubgraph, hsublist⟩ := hbefore
  by_cases howner : owner = r.owner
  · subst howner
    obtain rfl := Option.some.inj (hr.subgraph_eq.symm.trans hsubgraph)
    refine ⟨_, subgraph_after_owner hP hr, hsublist.trans ?_⟩
    simp only [relisted, hr.nodes_eq, List.append_assoc]
    exact (List.sublist_append_right _ _).append_left _
  · exact ⟨subgraph, by rw [subgraph_after_other howner, hsubgraph], hsublist⟩

omit hlocal in
theorem precedes_after_copy {id : NodeId} (hid : id ∈ r.earlier) {place : Nat}
    (hplace : place < r.copies.length) :
    (r.after P).Precedes r.owner id (P.nodes.size + place) := by
  refine ⟨_, subgraph_after_owner hP hr, ?_⟩
  have hadded : P.nodes.size + place ∈ r.added P := mem_added.mpr ⟨place, hplace, rfl⟩
  have hpair : [id, P.nodes.size + place].Sublist (r.earlier ++ r.added P) :=
    (List.singleton_sublist.mpr hid).append (List.singleton_sublist.mpr hadded)
  exact hpair.trans (List.sublist_append_left _ _)

omit hlocal in
theorem copy_precedes_copy {first second : Nat} (hlt : first < second)
    (hsecond : second < r.copies.length) :
    (r.after P).Precedes r.owner (P.nodes.size + first) (P.nodes.size + second) := by
  refine ⟨_, subgraph_after_owner hP hr, ?_⟩
  have hsplit : r.added P = List.range' P.nodes.size second
      ++ List.range' (P.nodes.size + second) (r.copies.length - second) := by
    rw [added, List.range'_append_1, Nat.add_sub_cancel' (Nat.le_of_lt hsecond)]
  have hpair : [P.nodes.size + first, P.nodes.size + second].Sublist (r.added P) := by
    rw [hsplit]
    refine (List.singleton_sublist.mpr ?_).append (List.singleton_sublist.mpr ?_) <;>
      rw [List.mem_range'_1] <;> omega
  rw [relisted, List.append_assoc]
  exact hpair.trans ((List.sublist_append_left _ _).trans (List.sublist_append_right _ _))

omit hlocal in
theorem copy_precedes_call {place : Nat} (hplace : place < r.copies.length) :
    (r.after P).Precedes r.owner (P.nodes.size + place) r.call := by
  refine ⟨_, subgraph_after_owner hP hr, ?_⟩
  have hadded : P.nodes.size + place ∈ r.added P := mem_added.mpr ⟨place, hplace, rfl⟩
  have hpair : [P.nodes.size + place, r.call].Sublist (r.added P ++ r.call :: r.later) :=
    (List.singleton_sublist.mpr hadded).append (List.singleton_sublist.mpr List.mem_cons_self)
  rw [relisted, List.append_assoc]
  exact hpair.trans (List.sublist_append_right _ _)

theorem handlesUnique_after : (r.after P).HandlesUnique := by
  intro writer other handle hwriter hgives hout hother hout'
  rcases writer_after hP hr hwriter hgives with ⟨hold, hne⟩ | ⟨place, copy, hcopy, rfl, houtputs⟩
  · have hlt := hP.outputs_lt hold hout
    rcases (lists_after_iff hP hr).mp hother with ⟨hold', -⟩ | rfl | ⟨place, copy, hcopy, rfl⟩
    · exact hlocal.unique hold hgives hout hold' hout'
    · have hsame := hlocal.unique hold hgives hout hr.lists_call hout'
      exact absurd (congrArg ListedNode.id hsame).symm hne
    · rw [hr.outputs_of_copy hcopy, List.mem_singleton] at hout'
      rw [hout'] at hlt
      exact absurd hlt (Nat.not_lt.mpr (Nat.le_add_right _ _))
  · rw [houtputs, List.mem_singleton] at hout
    subst hout
    have hge : ¬ P.tensors.size + place < P.tensors.size := Nat.not_lt.mpr (Nat.le_add_right _ _)
    rcases (lists_after_iff hP hr).mp hother with ⟨hold', -⟩ | rfl | ⟨place', copy', hcopy', rfl⟩
    · exact absurd (hP.outputs_lt hold' hout') hge
    · exact absurd (hP.outputs_lt hr.lists_call hout') hge
    · rw [hr.outputs_of_copy hcopy', List.mem_singleton] at hout'
      obtain rfl : place = place' := Nat.add_left_cancel hout'
      obtain rfl := Option.some.inj (hcopy.symm.trans hcopy')
      rfl

theorem handlesLocal_after : (r.after P).HandlesLocal := by
  refine ⟨handlesUnique_after hP hlocal hr, ?_⟩
  intro writer reader handle hwriter hgives hout hreader hin
  rcases writer_after hP hr hwriter hgives with ⟨hold, -⟩ | ⟨place, copy, hcopy, rfl, houtputs⟩
  · have hlt := hP.outputs_lt hold hout
    rcases (lists_after_iff hP hr).mp hreader with ⟨hold', -⟩ | rfl | ⟨place, copy, hcopy, rfl⟩
    · obtain ⟨howner, hbefore⟩ := hlocal.behind hold hgives hout hold' hin
      exact ⟨howner, precedes_after_of_precedes hP hr hbefore⟩
    · have hread : handle ∈ r.node.inputs := by
        rw [hr.inputs_eq]
        rcases List.mem_cons.mp hin with rfl | hother
        · exact absurd hlt (Nat.not_lt.mpr (Nat.le_add_right _ _))
        · exact .tail _ hother
      obtain ⟨howner, hbefore⟩ := hlocal.behind hold hgives hout hr.lists_call hread
      exact ⟨howner, precedes_after_of_precedes hP hr hbefore⟩
    · have hplace := (List.getElem?_eq_some_iff.mp hcopy).1
      rcases hr.input_of_copy hcopy hin with hread | ⟨earlier, -, rfl⟩
      · obtain ⟨hlists, howner, -⟩ := hr.source hP hcopy
        obtain ⟨hsame, subgraph, hsubgraph, hbefore⟩ :=
          hlocal.behind hold hgives hout hlists hread
        rw [howner] at hsame
        rw [← hsame, hr.subgraph_eq] at hsubgraph
        obtain rfl := Option.some.inj hsubgraph
        rw [hr.nodes_eq] at hbefore
        have hsource := source_of_copy_mem_earlier hP hlocal hr hcopy
        have hmem := mem_earlier_of_sublist (hr.nodup hP) hbefore hsource
        exact ⟨hsame, hsame ▸ precedes_after_copy hP hr hmem hplace⟩
      · exact absurd hlt (Nat.not_lt.mpr (Nat.le_add_right _ _))
  · have hplace := (List.getElem?_eq_some_iff.mp hcopy).1
    rw [houtputs, List.mem_singleton] at hout
    subst hout
    have hge : ¬ P.tensors.size + place < P.tensors.size := Nat.not_lt.mpr (Nat.le_add_right _ _)
    rcases (lists_after_iff hP hr).mp hreader with ⟨hold', -⟩ | rfl | ⟨place', copy', hcopy', rfl⟩
    · exact absurd (hP.inputs_lt hold' hin) hge
    · exact ⟨rfl, copy_precedes_call hP hr hplace⟩
    · have hplace' := (List.getElem?_eq_some_iff.mp hcopy').1
      rcases hr.input_of_copy hcopy' hin with hread | ⟨earlier, hearlier, hsame⟩
      · exact absurd (hP.inputs_lt (hr.source hP hcopy').1 hread) hge
      · obtain rfl : place = earlier := Nat.add_left_cancel hsame
        exact ⟨rfl, copy_precedes_copy hP hr hearlier hplace'⟩

theorem reaches_after {binder call : NodeId} (hreaches : (r.after P).Reaches binder call) :
    (binder < P.nodes.size ∧ P.Reaches binder call ∧ call ≠ r.call)
      ∨ (P.nodes.size ≤ binder ∧ call = r.call) :=
  (reaches_after_cases hP hr hreaches).imp_left fun ⟨hlt, hbefore, hin⟩ =>
    ⟨hlt, hbefore, fun hsame => (hlocal.ownBranches hP).not_reachesIn hP (hin hsame)⟩

end Handles

end Rewiring

end TailFlow
