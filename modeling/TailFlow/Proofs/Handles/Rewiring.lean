import TailFlow.Proofs.Handles.Cloning

/-!
# Giving a call a handle of its own

A call that gets a handle of its own stands behind the copies that this takes, and it reads the copy
of its handle. Everything else about the program stays as it is: the copies are new nodes and write
new tensors. `Rewiring` collects what there is to say about one such change, and the lemmas read the
listed nodes of the changed program off it.
-/

namespace TailFlow

open Program

/-- A call that gets a handle of its own, and the copies in front of it. -/
structure Rewiring where
  listing : List ListedNode
  owner : SubgraphId
  subgraph : Subgraph
  /-- The nodes before the call, and those behind it. -/
  earlier : List NodeId
  call : NodeId
  later : List NodeId
  node : Node
  handle : TensorId
  others : List TensorId
  extra : List Tensor
  copies : List HandleCopy
  /-- The place of the copy of the handle among the copies. -/
  place : Nat

namespace Rewiring

variable (r : Rewiring) (P : Program)

/-- The call with the handle of its own. -/
def rewired : Node := { r.node with inputs := (P.tensors.size + r.place) :: r.others }

/-- The numbers of the copies. -/
def added : List NodeId := List.range' P.nodes.size r.copies.length

/-- The list with the copies right in front of the call. -/
def relisted : Subgraph :=
  { r.subgraph with nodes := r.earlier ++ r.added P ++ r.call :: r.later }

def after : Program :=
  ((HandleCopy.extend P r.extra r.copies).updateSubgraph r.owner fun subgraph =>
    { subgraph with nodes := insertNodes r.call (r.added P) subgraph.nodes }).updateNode r.call
      fun node => { node with inputs := (P.tensors.size + r.place) :: node.inputs.drop 1 }

/-- The call stands where the change says, and the copies are those of its handle. -/
structure Applies : Prop where
  listing_eq : (P.listing : Outcome ScheduleError (List ListedNode)) = .ok r.listing
  subgraph_eq : P.subgraphs[r.owner]? = some r.subgraph
  nodes_eq : r.subgraph.nodes = r.earlier ++ r.call :: r.later
  node_eq : P.nodes[r.call]? = some r.node
  isCall : r.node.isCall
  inputs_eq : r.node.inputs = r.handle :: r.others
  copies_ok : HandleCopy.Copies P r.listing r.owner r.handle r.copies
  length_eq : r.extra.length = r.copies.length
  plain : ∀ tensor ∈ r.extra, tensor.constant = none
  place_eq : ∃ copy, r.copies[r.place]? = some copy ∧ copy.handle = r.handle

variable {r P}

theorem Applies.lists_call (hr : r.Applies P) : P.Lists ⟨r.owner, r.call, r.node⟩ :=
  ⟨r.subgraph, hr.subgraph_eq, by simp [hr.nodes_eq], hr.node_eq⟩

theorem Applies.place_lt (hr : r.Applies P) : r.place < r.copies.length := by
  obtain ⟨copy, hcopy, -⟩ := hr.place_eq
  exact (List.getElem?_eq_some_iff.mp hcopy).1

@[simp] theorem after_tensors : (r.after P).tensors = P.tensors ++ r.extra.toArray := rfl

@[simp] theorem after_order : (r.after P).order = P.order := rfl

@[simp] theorem after_entry : (r.after P).entry = P.entry := rfl

@[simp] theorem after_outputs : (r.after P).outputs = P.outputs := rfl

@[simp] theorem after_links : (r.after P).links = P.links := rfl

theorem size_tensors_after (hr : r.Applies P) :
    (r.after P).tensors.size = P.tensors.size + r.copies.length := by
  simp [hr.length_eq]

theorem size_nodes_after : (r.after P).nodes.size = P.nodes.size + r.copies.length := by
  simp [after, updateNode, updateSubgraph, HandleCopy.extend]

@[simp] theorem size_subgraphs_after : (r.after P).subgraphs.size = P.subgraphs.size := by
  simp [after, updateNode, updateSubgraph, HandleCopy.extend]

theorem mem_added {id : NodeId} :
    id ∈ r.added P ↔ ∃ place < r.copies.length, id = P.nodes.size + place := by
  rw [added, List.mem_range'_1]
  constructor
  · rintro ⟨hle, hlt⟩
    exact ⟨id - P.nodes.size, Nat.sub_lt_left_of_lt_add hle hlt, (Nat.add_sub_of_le hle).symm⟩
  · rintro ⟨place, hlt, rfl⟩
    exact ⟨Nat.le_add_right _ _, Nat.add_lt_add_left hlt _⟩

section Lookups

theorem node_after_call (hr : r.Applies P) : (r.after P).nodes[r.call]? = some (r.rewired P) := by
  have hlt := node_lt hr.node_eq
  have hold : (P.nodes ++ (r.copies.map HandleCopy.node).toArray)[r.call]? = some r.node := by
    rw [Array.getElem?_append_left hlt, hr.node_eq]
  simp [after, updateNode, updateSubgraph, HandleCopy.extend, Array.getElem?_modify, hold,
    rewired, hr.inputs_eq]

theorem node_after_old {id : NodeId} (hlt : id < P.nodes.size) (hne : id ≠ r.call) :
    (r.after P).nodes[id]? = P.nodes[id]? := by
  simp only [after, updateNode, updateSubgraph, HandleCopy.extend, Array.getElem?_modify,
    if_neg hne.symm]
  exact Array.getElem?_append_left hlt

theorem node_after_copy (hr : r.Applies P) (place : Nat) :
    (r.after P).nodes[P.nodes.size + place]? = (r.copies[place]?).map HandleCopy.node := by
  have hne : r.call ≠ P.nodes.size + place :=
    Nat.ne_of_lt (Nat.lt_add_right place (node_lt hr.node_eq))
  simp only [after, updateNode, updateSubgraph, HandleCopy.extend, Array.getElem?_modify,
    if_neg hne]
  rw [Array.getElem?_append_right (Nat.le_add_right _ _), Nat.add_sub_cancel_left]
  simp

theorem subgraph_after_other {id : SubgraphId} (hne : id ≠ r.owner) :
    (r.after P).subgraphs[id]? = P.subgraphs[id]? := by
  simp [after, updateNode, updateSubgraph, HandleCopy.extend, Array.getElem?_modify, hne.symm]

theorem insertNodes_eq {call : NodeId} {earlier later added : List NodeId}
    (habsent : call ∉ earlier) :
    insertNodes call added (earlier ++ call :: later) = earlier ++ added ++ call :: later := by
  have hne : ∀ id ∈ earlier, (id != call) = true := fun id hid =>
    bne_iff_ne.mpr fun h => habsent (h ▸ hid)
  rw [insertNodes, List.takeWhile_append_of_pos hne, List.dropWhile_append_of_pos hne]
  simp

theorem Applies.nodup (hP : P.WellFormed) (hr : r.Applies P) :
    (r.earlier ++ r.call :: r.later).Nodup :=
  hr.nodes_eq ▸ hP.nodup hr.subgraph_eq

theorem Applies.call_notMem_earlier (hP : P.WellFormed) (hr : r.Applies P) :
    r.call ∉ r.earlier := fun hmem =>
  (List.nodup_append.mp (hr.nodup hP)).2.2 _ hmem _ List.mem_cons_self rfl

theorem subgraph_after_owner (hP : P.WellFormed) (hr : r.Applies P) :
    (r.after P).subgraphs[r.owner]? = some (r.relisted P) := by
  simp [after, updateNode, updateSubgraph, HandleCopy.extend, Array.getElem?_modify,
    hr.subgraph_eq, relisted, hr.nodes_eq, insertNodes_eq (hr.call_notMem_earlier hP)]

/-- The subgraphs of the changed program are those of the program, apart from the list of one. -/
theorem subgraph_of_after (hP : P.WellFormed) (hr : r.Applies P) {id : SubgraphId}
    {subgraph : Subgraph} (hsubgraph : (r.after P).subgraphs[id]? = some subgraph) :
    ∃ before, P.subgraphs[id]? = some before
      ∧ subgraph = { before with nodes := subgraph.nodes }
      ∧ (∀ n ∈ subgraph.nodes, n ∈ before.nodes ∨ id = r.owner ∧ n ∈ r.added P)
      ∧ before.nodes.Sublist subgraph.nodes := by
  by_cases hid : id = r.owner
  · subst hid
    rw [subgraph_after_owner hP hr] at hsubgraph
    obtain rfl := Option.some.inj hsubgraph
    refine ⟨r.subgraph, hr.subgraph_eq, rfl, fun n hn => ?_, ?_⟩
    · simp only [relisted, List.mem_append, List.mem_cons, hr.nodes_eq] at hn ⊢
      tauto
    · simp only [relisted, hr.nodes_eq, List.append_assoc]
      exact (List.sublist_append_right _ _).append_left _
  · rw [subgraph_after_other hid] at hsubgraph
    exact ⟨subgraph, hsubgraph, rfl, fun n hn => .inl hn, .refl _⟩

/-- The copies stand in front of a call, so no subgraph gets another last node. -/
theorem exists_subgraph_after (hP : P.WellFormed) (hr : r.Applies P) {id : SubgraphId}
    {subgraph : Subgraph} (hsubgraph : P.subgraphs[id]? = some subgraph) :
    ∃ after, (r.after P).subgraphs[id]? = some after ∧ after.lastNode? = subgraph.lastNode?
      ∧ after.kind = subgraph.kind ∧ after.outputs = subgraph.outputs
      ∧ after.nodes.filter (· < P.nodes.size) = subgraph.nodes := by
  have hold : ∀ node ∈ subgraph.nodes, node < P.nodes.size := hP.inArena hsubgraph
  by_cases hid : id = r.owner
  · subst hid
    obtain rfl := Option.some.inj (hr.subgraph_eq.symm.trans hsubgraph)
    refine ⟨r.relisted P, subgraph_after_owner hP hr, ?_, rfl, rfl, ?_⟩
    · rw [Subgraph.lastNode?, Subgraph.lastNode?, hr.nodes_eq, relisted,
        List.getLast?_append_of_ne_nil _ (List.cons_ne_nil _ _),
        List.getLast?_append_of_ne_nil _ (List.cons_ne_nil _ _)]
    · have hadded : (r.added P).filter (· < P.nodes.size) = [] := by
        refine List.filter_eq_nil_iff.mpr fun node hnode => ?_
        obtain ⟨place, -, rfl⟩ := mem_added.mp hnode
        simp
      rw [hr.nodes_eq] at hold ⊢
      rw [relisted, List.filter_append, List.filter_append, hadded, List.append_nil,
        ← List.filter_append]
      exact List.filter_eq_self.mpr fun node hnode => decide_eq_true (hold node hnode)
  · refine ⟨subgraph, (subgraph_after_other hid).trans hsubgraph, rfl, rfl, rfl, ?_⟩
    exact List.filter_eq_self.mpr fun node hnode => decide_eq_true (hold node hnode)

theorem exists_node_after (hr : r.Applies P) {id : NodeId} {node : Node}
    (hnode : P.nodes[id]? = some node) : ∃ after, (r.after P).nodes[id]? = some after
      ∧ after.kind = node.kind ∧ after.outputs = node.outputs := by
  by_cases hid : id = r.call
  · subst hid
    obtain rfl := Option.some.inj (hr.node_eq.symm.trans hnode)
    exact ⟨_, node_after_call hr, rfl, rfl⟩
  · exact ⟨node, (node_after_old (node_lt hnode) hid).trans hnode, rfl, rfl⟩

theorem keepsFormals_after (hP : P.WellFormed) (hr : r.Applies P) :
    P.KeepsFormals (r.after P) := by
  intro id subgraph hsubgraph
  by_cases hid : id = r.owner
  · subst hid
    obtain rfl := Option.some.inj (hr.subgraph_eq.symm.trans hsubgraph)
    exact ⟨_, subgraph_after_owner hP hr, rfl, rfl⟩
  · exact ⟨subgraph, by rw [subgraph_after_other hid, hsubgraph], rfl, rfl⟩

end Lookups

/-! ### The copies -/

theorem Applies.source (hP : P.WellFormed) (hr : r.Applies P) {place : Nat} {copy : HandleCopy}
    (hcopy : r.copies[place]? = some copy) : P.Lists copy.source ∧ copy.source.owner = r.owner
      ∧ copy.source.node.givesHandle ∧ copy.source.node.outputs = [copy.handle] := by
  obtain ⟨hproducer, howner, hgives⟩ := (hr.copies_ok.added hcopy).isLocal
  obtain ⟨hlists, houtput⟩ := lists_of_producer? hP hr.listing_eq hproducer
  exact ⟨hlists, howner, hgives, hP.outputs_of_mem hlists hgives houtput⟩

theorem Applies.isCall_of_copy (hP : P.WellFormed) (hr : r.Applies P) {place : Nat}
    {copy : HandleCopy} (hcopy : r.copies[place]? = some copy) : copy.node.isCall = false := by
  obtain ⟨-, -, hgives, -⟩ := hr.source hP hcopy
  refine Node.givesHandle_ne_call ?_
  simpa [Node.givesHandle, Node.callee?, (hr.copies_ok.added hcopy).kind_eq] using hgives

theorem Applies.outputs_of_copy (hr : r.Applies P) {place : Nat} {copy : HandleCopy}
    (hcopy : r.copies[place]? = some copy) :
    copy.node.outputs = [P.tensors.size + place] := by
  have hplace := (List.getElem?_eq_some_iff.mp hcopy).1
  rw [(hr.copies_ok.added hcopy).outputs_eq, List.length_take,
    Nat.min_eq_left (Nat.le_of_lt hplace)]

/-- A copied switch picks from what its source picks from, redirected to earlier copies. -/
theorem Applies.branches_of_copy (hP : P.WellFormed) (hr : r.Applies P) {place : Nat}
    {copy : HandleCopy} (hcopy : r.copies[place]? = some copy) :
    List.Forall₂ (HandleCopy.Redirected P r.listing r.owner (r.copies.take place))
      copy.source.node.branches copy.node.branches := by
  obtain ⟨hlists, -⟩ := hr.source hP hcopy
  obtain ⟨-, -, hkind, -, branches, hinputs, hredirected⟩ := hr.copies_ok.added hcopy
  have hsame : copy.node.branches = branches := by
    rw [Node.branches, hinputs, hkind]
    split
    · rename_i hswitch
      have htwo := Fits.two_le_inputs (hP.fits hlists) hswitch
      have hone : (copy.source.node.inputs.take 1).length = 1 := by
        rw [List.length_take]
        omega
      rw [List.drop_append_of_le_length (Nat.le_of_eq hone.symm),
        List.drop_eq_nil_of_le (Nat.le_of_eq hone), List.nil_append]
    · rename_i hswitch
      have hnone : copy.source.node.branches = [] := by
        rw [Node.branches, if_neg hswitch]
      rw [hnone, List.forall₂_nil_left_iff] at hredirected
      exact hredirected.symm
  rwa [hsame]

/-- A copy reads what its source reads, or the tensor of an earlier copy. -/
theorem Applies.input_of_copy (hr : r.Applies P) {place : Nat} {copy : HandleCopy}
    (hcopy : r.copies[place]? = some copy) {tensor : TensorId}
    (htensor : tensor ∈ copy.node.inputs) : tensor ∈ copy.source.node.inputs
      ∨ ∃ earlier < place, tensor = P.tensors.size + earlier := by
  obtain ⟨-, -, -, -, branches, hinputs, hredirected⟩ := hr.copies_ok.added hcopy
  rw [hinputs] at htensor
  split at htensor
  · rcases List.mem_append.mp htensor with hkept | hbranch
    · exact .inl (List.mem_of_mem_take hkept)
    · obtain ⟨branch, hmem, hone⟩ := Outcome.exists_left_of_forall₂ hredirected hbranch
      rcases hone with ⟨rfl, -⟩ | ⟨earlier, _, hearlier, -, rfl⟩
      · exact .inl (Node.mem_inputs_of_mem_branches hmem)
      · have hlt := (List.getElem?_eq_some_iff.mp hearlier).1
        rw [List.length_take] at hlt
        exact .inr ⟨earlier, by omega, rfl⟩
  · exact .inl htensor

/-! ### The listed nodes -/

/-- A listed node of the changed program is an old one, the call, or a copy. -/
theorem lists_after_iff (hP : P.WellFormed) (hr : r.Applies P) {listed : ListedNode} :
    (r.after P).Lists listed ↔ (P.Lists listed ∧ listed.id ≠ r.call)
      ∨ listed = ⟨r.owner, r.call, r.rewired P⟩
      ∨ ∃ place copy, r.copies[place]? = some copy
        ∧ listed = ⟨r.owner, P.nodes.size + place, copy.node⟩ := by
  constructor
  · intro hlists
    obtain ⟨owner, id, node⟩ := listed
    obtain ⟨subgraph, hsubgraph, hid, hnode⟩ := hlists
    obtain ⟨before, hbefore, -, hnodes, -⟩ := subgraph_of_after hP hr hsubgraph
    rcases hnodes id hid with hold | ⟨rfl, hadded⟩
    · by_cases hcall : id = r.call
      · subst hcall
        have howner : owner = r.owner :=
          hP.apart hbefore hr.subgraph_eq r.call hold (by simp [hr.nodes_eq])
        have hsame : node = r.rewired P :=
          Option.some.inj (hnode.symm.trans (node_after_call hr))
        exact .inr (.inl (by rw [howner, hsame]))
      · have hlt := hP.inArena hbefore id hold
        exact .inl ⟨⟨before, hbefore, hold, node_after_old hlt hcall ▸ hnode⟩, hcall⟩
    · obtain ⟨place, hplace, rfl⟩ := mem_added.mp hadded
      have hcopy := List.getElem?_eq_getElem hplace
      have hnode' := node_after_copy hr place
      rw [hcopy] at hnode'
      have hsame : node = r.copies[place].node := Option.some.inj (hnode.symm.trans hnode')
      exact .inr (.inr ⟨place, _, hcopy, by rw [hsame]⟩)
  · intro hcases
    have howner := subgraph_after_owner hP hr
    rcases hcases with ⟨⟨subgraph, hsubgraph, hid, hnode⟩, hne⟩ | rfl | ⟨place, copy, hcopy, rfl⟩
    · have hnode' := (node_after_old (node_lt hnode) hne).trans hnode
      by_cases hsame : listed.owner = r.owner
      · rw [hsame, hr.subgraph_eq] at hsubgraph
        obtain rfl := Option.some.inj hsubgraph
        refine ⟨r.relisted P, hsame ▸ howner, ?_, hnode'⟩
        simp only [relisted, hr.nodes_eq, List.mem_append, List.mem_cons] at hid ⊢
        tauto
      · exact ⟨subgraph, by rw [subgraph_after_other hsame, hsubgraph], hid, hnode'⟩
    · exact ⟨_, howner, by simp [relisted], node_after_call hr⟩
    · have hplace := (List.getElem?_eq_some_iff.mp hcopy).1
      refine ⟨_, howner, ?_, by rw [node_after_copy hr, hcopy]; rfl⟩
      have : P.nodes.size + place ∈ r.added P := mem_added.mpr ⟨place, hplace, rfl⟩
      simp [relisted, this]

theorem lists_after_old (hP : P.WellFormed) (hr : r.Applies P) {listed : ListedNode}
    (hlists : P.Lists listed) (hne : listed.id ≠ r.call) : (r.after P).Lists listed :=
  (lists_after_iff hP hr).mpr (.inl ⟨hlists, hne⟩)

theorem lists_after_call (hP : P.WellFormed) (hr : r.Applies P) :
    (r.after P).Lists ⟨r.owner, r.call, r.rewired P⟩ :=
  (lists_after_iff hP hr).mpr (.inr (.inl rfl))

theorem lists_after_copy (hP : P.WellFormed) (hr : r.Applies P) {place : Nat} {copy : HandleCopy}
    (hcopy : r.copies[place]? = some copy) :
    (r.after P).Lists ⟨r.owner, P.nodes.size + place, copy.node⟩ :=
  (lists_after_iff hP hr).mpr (.inr (.inr ⟨place, copy, hcopy, rfl⟩))

/-- The binders and switches of the changed program are the old ones and the copies. -/
theorem writer_after (hP : P.WellFormed) (hr : r.Applies P) {writer : ListedNode}
    (hwriter : (r.after P).Lists writer) (hgives : writer.node.givesHandle) :
    (P.Lists writer ∧ writer.id ≠ r.call)
      ∨ ∃ place copy, r.copies[place]? = some copy
        ∧ writer = ⟨r.owner, P.nodes.size + place, copy.node⟩
        ∧ writer.node.outputs = [P.tensors.size + place] := by
  rcases (lists_after_iff hP hr).mp hwriter with hold | rfl | ⟨place, copy, hcopy, rfl⟩
  · exact .inl hold
  · have hcall : (r.rewired P).isCall := hr.isCall
    rw [Node.givesHandle_ne_call hgives] at hcall
    exact nomatch hcall
  · exact .inr ⟨place, copy, hcopy, rfl, hr.outputs_of_copy hcopy⟩

theorem fits_copy (hP : P.WellFormed) (hr : r.Applies P) {place : Nat} {copy : HandleCopy}
    (hcopy : r.copies[place]? = some copy) : (r.after P).Fits copy.node := by
  obtain ⟨hlists, -, -, houtputs⟩ := hr.source hP hcopy
  obtain ⟨-, -, hkind, houtput, branches, hinputs, hredirected⟩ := hr.copies_ok.added hcopy
  refine (keepsFormals_after hP hr).fits (hP.fits hlists) hkind ?_ (by rw [houtput, houtputs]; rfl)
  rw [hinputs]
  split
  · rename_i hswitch
    have htwo := Fits.two_le_inputs (hP.fits hlists) hswitch
    have hbranches := hredirected.length_eq
    rw [Node.branches, if_pos hswitch, List.length_drop] at hbranches
    rw [List.length_append, List.length_take]
    omega
  · rfl

theorem wellFormed_after (hP : P.WellFormed) (hr : r.Applies P) : (r.after P).WellFormed where
  order := by
    show P.order.Perm (List.range _)
    rw [size_subgraphs_after]
    exact hP.order
  entry := by
    rw [size_subgraphs_after]
    exact hP.entry
  inArena := by
    intro owner subgraph hsubgraph id hid
    rw [size_nodes_after]
    obtain ⟨before, hbefore, -, hnodes, -⟩ := subgraph_of_after hP hr hsubgraph
    rcases hnodes id hid with hold | ⟨-, hadded⟩
    · exact Nat.lt_add_right _ (hP.inArena hbefore id hold)
    · obtain ⟨place, hplace, rfl⟩ := mem_added.mp hadded
      exact Nat.add_lt_add_left hplace _
  nodup := by
    intro owner subgraph hsubgraph
    by_cases howner : owner = r.owner
    · subst howner
      rw [subgraph_after_owner hP hr] at hsubgraph
      obtain rfl := Option.some.inj hsubgraph
      have hfresh : ∀ id ∈ r.added P, id ∉ r.earlier ++ r.call :: r.later := by
        intro id hadded hold
        obtain ⟨place, -, rfl⟩ := mem_added.mp hadded
        have hlt := hP.inArena hr.subgraph_eq _ (hr.nodes_eq ▸ hold)
        exact Nat.not_lt.mpr (Nat.le_add_right _ _) hlt
      have hadded : (r.added P).Nodup := List.nodup_range'
      have hall := hr.nodup hP
      simp only [relisted, List.nodup_append, List.append_assoc, List.mem_append] at hall hfresh ⊢
      grind
    · rw [subgraph_after_other howner] at hsubgraph
      exact hP.nodup hsubgraph
  apart := by
    intro first second a b ha hb id hida hidb
    obtain ⟨a', ha', -, hnodesa, -⟩ := subgraph_of_after hP hr ha
    obtain ⟨b', hb', -, hnodesb, -⟩ := subgraph_of_after hP hr hb
    have hfresh {owner : SubgraphId} {subgraph : Subgraph}
        (hsubgraph : P.subgraphs[owner]? = some subgraph) (hold : id ∈ subgraph.nodes)
        (hadded : id ∈ r.added P) : False := by
      obtain ⟨place, -, rfl⟩ := mem_added.mp hadded
      exact Nat.not_lt.mpr (Nat.le_add_right _ _) (hP.inArena hsubgraph _ hold)
    rcases hnodesa id hida with holda | ⟨rfl, haddeda⟩ <;>
      rcases hnodesb id hidb with holdb | ⟨rfl, haddedb⟩
    · exact hP.apart ha' hb' id holda holdb
    · exact (hfresh ha' holda haddedb).elim
    · exact (hfresh hb' holdb haddeda).elim
    · rfl
  interface := by
    intro owner subgraph hsubgraph tensor htensor
    rw [size_tensors_after hr]
    obtain ⟨before, hbefore, hsame, -⟩ := subgraph_of_after hP hr hsubgraph
    rw [hsame] at htensor
    exact Nat.lt_add_right _ (hP.interface hbefore tensor htensor)
  operands := by
    intro listed hlists tensor htensor
    rw [size_tensors_after hr]
    rcases (lists_after_iff hP hr).mp hlists with ⟨hold, -⟩ | rfl | ⟨place, copy, hcopy, rfl⟩
    · exact Nat.lt_add_right _ (hP.operands hold tensor htensor)
    · have hplace := hr.place_lt
      have hcall := hP.operands hr.lists_call tensor
      simp only [rewired, hr.inputs_eq, List.mem_append, List.mem_cons] at htensor hcall
      rcases htensor with (rfl | hother) | houtput
      · exact Nat.add_lt_add_left hplace _
      · exact Nat.lt_add_right _ (hcall (.inl (.inr hother)))
      · exact Nat.lt_add_right _ (hcall (.inr houtput))
    · have hplace := (List.getElem?_eq_some_iff.mp hcopy).1
      rcases List.mem_append.mp htensor with hinput | houtput
      · rcases hr.input_of_copy hcopy hinput with hold | ⟨earlier, hearlier, rfl⟩
        · exact Nat.lt_add_right _ (hP.inputs_lt (hr.source hP hcopy).1 hold)
        · exact Nat.add_lt_add_left (Nat.lt_trans hearlier hplace) _
      · rw [hr.outputs_of_copy hcopy, List.mem_singleton] at houtput
        rw [houtput]
        exact Nat.add_lt_add_left hplace _
  fits := by
    intro listed hlists
    rcases (lists_after_iff hP hr).mp hlists with ⟨hold, -⟩ | rfl | ⟨place, copy, hcopy, rfl⟩
    · exact (keepsFormals_after hP hr).fits (hP.fits hold) rfl rfl rfl
    · refine (keepsFormals_after hP hr).fits (hP.fits hr.lists_call) rfl ?_ rfl
      simp [rewired, hr.inputs_eq]
    · exact fits_copy hP hr hcopy

end Rewiring

end TailFlow
