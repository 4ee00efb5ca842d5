import TailFlow.Proofs.Schedule.TailCalls
import TailFlow.Proofs.Handles.Flow
import TailFlow.Schedule.Split

/-!
# Cutting a subgraph

A cut moves what stands behind a call into a new subgraph, which starts by copying the results of
the call from fresh tensors to where the call used to write. `Cut` collects what there is to say
about one cut. No other node changes, so handles flow as before, and the only call whose being a
tail call changes is the one that the subgraph is cut after.
-/

namespace TailFlow

open Program

/-- A subgraph, and the call that it is cut after. -/
structure Cut where
  owner : SubgraphId
  subgraph : Subgraph
  /-- The nodes before the call, and those behind it. -/
  earlier : List NodeId
  call : NodeId
  later : List NodeId
  node : Node
  extra : List Tensor
  /-- The fresh tensors that the call hands its results over in. -/
  handover : List TensorId
  resumeName : String
  segmentName : String

namespace Cut

variable (c : Cut) (P : Program)

/-- The call, writing the fresh tensors. -/
def calling : Node := { c.node with outputs := c.handover }

/-- The node that the segment starts with. -/
def resuming : Node := ⟨c.resumeName, .kernel .copy, c.handover, c.node.outputs⟩

/-- What is left of the subgraph. -/
def head : Subgraph :=
  { c.subgraph with nodes := c.earlier ++ [c.call], outputs := c.handover }

def segment : Subgraph :=
  ⟨c.segmentName, .segment (segmentOrigin c.owner c.subgraph.kind), c.handover, c.subgraph.outputs,
    P.nodes.size :: c.later⟩

def after : Program where
  tensors := P.tensors ++ c.extra.toArray
  nodes := (P.nodes.modify c.call fun node => { node with outputs := c.handover }).push c.resuming
  subgraphs := (P.subgraphs.modify c.owner fun subgraph =>
    { subgraph with
      nodes := subgraph.nodes.takeWhile (· != c.call) ++ [c.call]
      outputs := c.handover }).push (c.segment P)
  order := insertAfter c.owner P.subgraphs.size P.order
  entry := P.entry
  outputs := P.outputs
  links := P.links

def link : Link := ⟨c.call, P.subgraphs.size, P.nodes.size, c.handover⟩

/-- The call stands where the cut says and is the first that is not a tail call. -/
structure Applies : Prop where
  subgraph_eq : P.subgraphs[c.owner]? = some c.subgraph
  nodes_eq : c.subgraph.nodes = c.earlier ++ c.call :: c.later
  node_eq : P.nodes[c.call]? = some c.node
  isCall : c.node.isCall
  fresh : P.Fresh c.extra c.handover
  length_eq : c.handover.length = c.node.outputs.length
  nonTail : P.NonTail c.owner c.call
  noneEarlier : ∀ id ∈ c.earlier, ∀ node, P.nodes[id]? = some node → node.isCall = false

variable {c P}

theorem splitAt_eq {ε : Type} (hP : P.WellFormed) {owner : SubgraphId} {subgraph stem : Subgraph}
    {earlier later : List NodeId} {call : NodeId} (hsubgraph : P.subgraphs[owner]? = some subgraph)
    (hnodes : subgraph.nodes = earlier ++ call :: later) (hnonTail : P.NonTail owner call)
    (hnone : ∀ id ∈ earlier, ∀ node, P.nodes[id]? = some node → node.isCall = false) {node : Node}
    (hnode : P.nodes[call]? = some node) {handover : List TensorId} {middle : Program}
    (hlikes : (P.addLikes (numberedNames (node.name ++ "_link") node.outputs)
      : Outcome ε (List TensorId × Program)) = .ok (handover, middle))
    (hstem : P.subgraphs[segmentOrigin owner subgraph.kind]? = some stem) :
    ∃ c : Cut, c.Applies P ∧ c.owner = owner ∧ c.call = call
      ∧ (P.splitAt owner call : Outcome ε (SplitOutcome × Program)) = (do
        let calls ← (c.after P).nonTailCalls P.subgraphs.size
        return (⟨owner, P.subgraphs.size, call, c.link P, calls.length⟩, c.after P)) := by
  obtain ⟨extra, hfresh, hlength, rfl⟩ := addLikes_eq_ok hlikes
  rw [length_numberedNames] at hlength
  obtain ⟨_, node', -, -, hnode', hcall, -⟩ := id hnonTail
  obtain rfl := Option.some.inj (hnode.symm.trans hnode')
  have habsent : call ∉ earlier := fun hmem => by
    have hnodup := hP.nodup hsubgraph
    rw [hnodes] at hnodup
    exact (List.nodup_append.mp hnodup).2.2 call hmem call List.mem_cons_self rfl
  have hlater : (subgraph.nodes.dropWhile (· != call)).drop 1 = later := by
    have hne : ∀ id ∈ earlier, (id != call) = true := fun id hid =>
      bne_iff_ne.mpr fun h => habsent (h ▸ hid)
    rw [hnodes, List.dropWhile_append_of_pos hne]
    simp
  refine ⟨⟨owner, subgraph, earlier, call, later, node, extra, handover,
    s!"{stem.name}_resume{P.segmentCount (segmentOrigin owner subgraph.kind) + 1}",
    s!"{stem.name}_seg{P.segmentCount (segmentOrigin owner subgraph.kind) + 1}"⟩,
    ⟨hsubgraph, hnodes, hnode, hcall, hfresh, by rw [hfresh.length_eq, hlength], hnonTail, hnone⟩,
    rfl, rfl, ?_⟩
  unfold splitAt
  rw [subgraph_eq_ok.mpr hsubgraph, Outcome.ok_bind, node_eq_ok.mpr hnode, Outcome.ok_bind, hlikes,
    Outcome.ok_bind]
  have hstem' : ({ P with tensors := P.tensors ++ extra.toArray }.updateNode call
      fun node => { node with outputs := handover }).subgraph (segmentOrigin owner subgraph.kind)
        = (.ok stem : Outcome ε Subgraph) :=
    subgraph_eq_ok.mpr hstem
  dsimp only
  rw [hstem', Outcome.ok_bind, hlater]
  simp [after, segment, resuming, link, updateNode, updateSubgraph, placeAfter, segmentCount, addNode,
    addSubgraph]

theorem splitAt_eq_ok {ε : Type} (hP : P.WellFormed) {owner : SubgraphId} {subgraph : Subgraph}
    {earlier later : List NodeId} {call : NodeId} (hsubgraph : P.subgraphs[owner]? = some subgraph)
    (hnodes : subgraph.nodes = earlier ++ call :: later) (hnonTail : P.NonTail owner call)
    (hnone : ∀ id ∈ earlier, ∀ node, P.nodes[id]? = some node → node.isCall = false)
    {outcome : SplitOutcome} {P' : Program}
    (hsplit : (P.splitAt owner call : Outcome ε (SplitOutcome × Program)) = .ok (outcome, P')) :
    ∃ c : Cut, c.Applies P ∧ c.owner = owner ∧ c.call = call ∧ P' = c.after P
      ∧ ∃ calls, (P'.nonTailCalls P.subgraphs.size : Outcome ε (List NodeId)) = .ok calls
        ∧ outcome = ⟨owner, P.subgraphs.size, call, c.link P, calls.length⟩ := by
  obtain ⟨subgraph', hsubgraph', hbody⟩ := Outcome.bind_eq_ok.mp hsplit
  obtain ⟨node, hnode, hbody⟩ := Outcome.bind_eq_ok.mp hbody
  obtain ⟨⟨handover, middle⟩, hlikes, hbody⟩ := Outcome.bind_eq_ok.mp hbody
  obtain ⟨stem, hstem, -⟩ := Outcome.bind_eq_ok.mp hbody
  obtain rfl := Option.some.inj (hsubgraph.symm.trans (subgraph_eq_ok.mp hsubgraph'))
  have hfound : P.subgraphs[segmentOrigin owner subgraph.kind]? = some stem := by
    obtain ⟨extra, -, -, rfl⟩ := addLikes_eq_ok hlikes
    exact subgraph_eq_ok.mp hstem
  obtain ⟨c, hc, howner, hcall, hequal⟩ := splitAt_eq hP hsubgraph hnodes hnonTail hnone
    (node_eq_ok.mp hnode) hlikes hfound
  rw [hequal] at hsplit
  obtain ⟨calls, hcalls, hpure⟩ := Outcome.bind_eq_ok.mp hsplit
  obtain ⟨rfl, rfl⟩ := Prod.mk.inj (Outcome.pure_eq_ok.mp hpure)
  exact ⟨c, hc, howner, hcall, rfl, calls, hcalls, rfl⟩

theorem splitFirst_eq_ok {ε : Type} (hP : P.WellFormed) {owner : SubgraphId}
    {answer : Option (SplitOutcome × Program)}
    (hsplit : (P.splitFirst owner : Outcome ε (Option (SplitOutcome × Program))) = .ok answer) :
    (answer = none ∧ P.AllTail owner)
      ∨ ∃ c : Cut, c.Applies P ∧ c.owner = owner
        ∧ ∃ calls, ((c.after P).nonTailCalls P.subgraphs.size : Outcome ε (List NodeId)) = .ok calls
          ∧ answer
            = some (⟨owner, P.subgraphs.size, c.call, c.link P, calls.length⟩, c.after P) := by
  obtain ⟨first, hfirst, hbody⟩ := Outcome.bind_eq_ok.mp hsplit
  obtain ⟨subgraph, hfound, -⟩ := Outcome.bind_eq_ok.mp hfirst
  have hsubgraph := subgraph_eq_ok.mp hfound
  cases first with
  | none =>
    obtain rfl := Outcome.pure_eq_ok.mp hbody
    exact .inl ⟨rfl, firstNonTailCall?_eq_none hP hsubgraph hfirst⟩
  | some call =>
    obtain ⟨⟨outcome, P'⟩, hat, hpure⟩ := Outcome.bind_eq_ok.mp hbody
    obtain rfl := Outcome.pure_eq_ok.mp hpure
    obtain ⟨hnonTail, earlier, later, hnodes, hnone⟩ :=
      firstNonTailCall?_eq_some hP hsubgraph hfirst
    obtain ⟨c, hc, howner, rfl, rfl, calls, hcalls, rfl⟩ :=
      splitAt_eq_ok hP hsubgraph hnodes hnonTail hnone hat
    exact .inr ⟨c, hc, howner, calls, hcalls, rfl⟩

/-! ### Looking things up after a cut -/

@[simp] theorem after_tensors : (c.after P).tensors = P.tensors ++ c.extra.toArray := rfl

@[simp] theorem after_entry : (c.after P).entry = P.entry := rfl

@[simp] theorem after_outputs : (c.after P).outputs = P.outputs := rfl

@[simp] theorem after_links : (c.after P).links = P.links := rfl

@[simp] theorem size_nodes_after : (c.after P).nodes.size = P.nodes.size + 1 := by
  simp [after]

@[simp] theorem size_subgraphs_after : (c.after P).subgraphs.size = P.subgraphs.size + 1 := by
  simp [after]

theorem Applies.lists_call (hc : c.Applies P) : P.Lists ⟨c.owner, c.call, c.node⟩ :=
  ⟨c.subgraph, hc.subgraph_eq, by simp [hc.nodes_eq], hc.node_eq⟩

theorem Applies.nodup (hP : P.WellFormed) (hc : c.Applies P) :
    (c.earlier ++ c.call :: c.later).Nodup :=
  hc.nodes_eq ▸ hP.nodup hc.subgraph_eq

theorem Applies.mem_nodes (hc : c.Applies P) {id : NodeId} :
    id ∈ c.subgraph.nodes ↔ id ∈ c.earlier ∨ id = c.call ∨ id ∈ c.later := by
  rw [hc.nodes_eq, List.mem_append, List.mem_cons]

theorem Applies.ne_of_mem_earlier (hP : P.WellFormed) (hc : c.Applies P) {id : NodeId}
    (hid : id ∈ c.earlier) : id ≠ c.call ∧ id ∉ c.later := by
  have hapart := (List.nodup_append.mp (hc.nodup hP)).2.2 id hid
  exact ⟨hapart c.call List.mem_cons_self, fun hmem => hapart id (.tail _ hmem) rfl⟩

theorem Applies.call_notMem_later (hP : P.WellFormed) (hc : c.Applies P) : c.call ∉ c.later :=
  (List.nodup_cons.mp (List.nodup_append.mp (hc.nodup hP)).2.1).1

theorem node_after_call (hc : c.Applies P) : (c.after P).nodes[c.call]? = some c.calling := by
  have hlt := node_lt hc.node_eq
  have hne : c.call ≠ (P.nodes.modify c.call fun node => { node with outputs := c.handover }).size :=
    by simpa using Nat.ne_of_lt hlt
  simp only [after, Array.getElem?_push, if_neg hne, Array.getElem?_modify, if_pos, hc.node_eq,
    Option.map_some, calling]

theorem node_after_old {id : NodeId} (hlt : id < P.nodes.size) (hne : id ≠ c.call) :
    (c.after P).nodes[id]? = P.nodes[id]? := by
  have hold : id ≠ (P.nodes.modify c.call fun node => { node with outputs := c.handover }).size := by
    simpa using Nat.ne_of_lt hlt
  simp only [after, Array.getElem?_push, if_neg hold, Array.getElem?_modify, if_neg hne.symm]

theorem node_after_resume : (c.after P).nodes[P.nodes.size]? = some c.resuming := by
  simp only [after, Array.getElem?_push, Array.size_modify, if_pos]

theorem subgraph_after_owner (hP : P.WellFormed) (hc : c.Applies P) :
    (c.after P).subgraphs[c.owner]? = some c.head := by
  have hlt := subgraph_lt hc.subgraph_eq
  have hne (change : Subgraph → Subgraph) : c.owner ≠ (P.subgraphs.modify c.owner change).size := by
    simpa using Nat.ne_of_lt hlt
  have hfront : c.subgraph.nodes.takeWhile (· != c.call) = c.earlier := by
    have hall : ∀ id ∈ c.earlier, (id != c.call) = true := fun id hid =>
      bne_iff_ne.mpr (hc.ne_of_mem_earlier hP hid).1
    rw [hc.nodes_eq, List.takeWhile_append_of_pos hall]
    simp
  simp only [after, Array.getElem?_push, if_neg (hne _), Array.getElem?_modify, if_pos,
    hc.subgraph_eq, Option.map_some, hfront, head]

theorem subgraph_after_other {id : SubgraphId} (hlt : id < P.subgraphs.size) (hne : id ≠ c.owner) :
    (c.after P).subgraphs[id]? = P.subgraphs[id]? := by
  have hold (change : Subgraph → Subgraph) : id ≠ (P.subgraphs.modify c.owner change).size := by
    simpa using Nat.ne_of_lt hlt
  simp only [after, Array.getElem?_push, if_neg (hold _), Array.getElem?_modify, if_neg hne.symm]

theorem subgraph_after_segment : (c.after P).subgraphs[P.subgraphs.size]? = some (c.segment P) := by
  simp only [after, Array.getElem?_push, Array.size_modify, if_pos]

/-- The subgraphs after a cut are the others, what is left of the one, and the segment. -/
theorem subgraph_after_cases (hP : P.WellFormed) (hc : c.Applies P) {id : SubgraphId}
    {subgraph : Subgraph} (hsubgraph : (c.after P).subgraphs[id]? = some subgraph) :
    (id ≠ c.owner ∧ P.subgraphs[id]? = some subgraph) ∨ (id = c.owner ∧ subgraph = c.head)
      ∨ (id = P.subgraphs.size ∧ subgraph = c.segment P) := by
  have hlt := subgraph_lt hsubgraph
  rw [size_subgraphs_after] at hlt
  by_cases howner : id = c.owner
  · subst howner
    rw [subgraph_after_owner hP hc] at hsubgraph
    exact .inr (.inl ⟨rfl, (Option.some.inj hsubgraph).symm⟩)
  · rcases Nat.lt_succ_iff_lt_or_eq.mp hlt with hold | rfl
    · rw [subgraph_after_other hold howner] at hsubgraph
      exact .inl ⟨howner, hsubgraph⟩
    · rw [subgraph_after_segment] at hsubgraph
      exact .inr (.inr ⟨rfl, (Option.some.inj hsubgraph).symm⟩)

theorem keepsFormals_after (hP : P.WellFormed) (hc : c.Applies P) :
    P.KeepsFormals (c.after P) := by
  intro id subgraph hsubgraph
  by_cases howner : id = c.owner
  · subst howner
    obtain rfl := Option.some.inj (hc.subgraph_eq.symm.trans hsubgraph)
    exact ⟨_, subgraph_after_owner hP hc, rfl, rfl⟩
  · exact ⟨subgraph, by rw [subgraph_after_other (subgraph_lt hsubgraph) howner, hsubgraph], rfl,
      rfl⟩

/-! ### The listed nodes -/

/-- Where a node that was listed before the cut is listed after it. -/
def moved (c : Cut) (P : Program) (listed : ListedNode) : ListedNode :=
  if listed.owner = c.owner ∧ listed.id ∈ c.later then { listed with owner := P.subgraphs.size }
  else listed

@[simp] theorem moved_id (listed : ListedNode) : (c.moved P listed).id = listed.id := by
  unfold moved
  split <;> rfl

@[simp] theorem moved_node (listed : ListedNode) : (c.moved P listed).node = listed.node := by
  unfold moved
  split <;> rfl

theorem lists_after_moved (hP : P.WellFormed) (hc : c.Applies P) {listed : ListedNode}
    (hlists : P.Lists listed) (hne : listed.id ≠ c.call) :
    (c.after P).Lists (c.moved P listed) := by
  obtain ⟨subgraph, hsubgraph, hid, hnode⟩ := hlists
  have hnode' : (c.after P).nodes[listed.id]? = some listed.node := by
    rw [node_after_old (node_lt hnode) hne, hnode]
  unfold moved
  split
  · rename_i hlater
    exact ⟨_, subgraph_after_segment, .tail _ hlater.2, hnode'⟩
  · rename_i hstays
    by_cases howner : listed.owner = c.owner
    · rw [howner, hc.subgraph_eq] at hsubgraph
      obtain rfl := Option.some.inj hsubgraph
      refine ⟨c.head, howner ▸ subgraph_after_owner hP hc, ?_, hnode'⟩
      rcases hc.mem_nodes.mp hid with hearlier | hcall | hlater
      · exact List.mem_append_left _ hearlier
      · exact absurd hcall hne
      · exact absurd ⟨howner, hlater⟩ hstays
    · exact ⟨subgraph, by rw [subgraph_after_other (subgraph_lt hsubgraph) howner, hsubgraph], hid,
        hnode'⟩

theorem lists_after_call (hP : P.WellFormed) (hc : c.Applies P) :
    (c.after P).Lists ⟨c.owner, c.call, c.calling⟩ :=
  ⟨c.head, subgraph_after_owner hP hc, by simp [head], node_after_call hc⟩

/-- A listed node after a cut is one that was there before, the call, or the node that the segment
starts with. -/
theorem lists_after_cases (hP : P.WellFormed) (hc : c.Applies P) {listed : ListedNode}
    (hlists : (c.after P).Lists listed) :
    (∃ old, P.Lists old ∧ old.id ≠ c.call ∧ listed = c.moved P old)
      ∨ listed = ⟨c.owner, c.call, c.calling⟩
      ∨ listed = ⟨P.subgraphs.size, P.nodes.size, c.resuming⟩ := by
  obtain ⟨owner, id, node⟩ := listed
  obtain ⟨subgraph, hsubgraph, hid, hnode⟩ := hlists
  dsimp only at hsubgraph hid hnode
  have hcallOwner {owner : SubgraphId} {subgraph : Subgraph}
      (hsubgraph : P.subgraphs[owner]? = some subgraph) (hmem : c.call ∈ subgraph.nodes) :
      owner = c.owner :=
    hP.apart hsubgraph hc.subgraph_eq c.call hmem (hc.mem_nodes.mpr (.inr (.inl rfl)))
  have hold {owner : SubgraphId} {subgraph : Subgraph}
      (hsubgraph : P.subgraphs[owner]? = some subgraph) (hmem : id ∈ subgraph.nodes)
      (hne : id ≠ c.call) : P.Lists ⟨owner, id, node⟩ :=
    ⟨subgraph, hsubgraph, hmem, by rw [← hnode, node_after_old (hP.inArena hsubgraph id hmem) hne]⟩
  rcases subgraph_after_cases hP hc hsubgraph with ⟨howner, hbefore⟩ | ⟨rfl, rfl⟩ | ⟨rfl, rfl⟩
  · have hne : id ≠ c.call := fun h => howner (hcallOwner hbefore (h ▸ hid))
    refine .inl ⟨⟨owner, id, node⟩, hold hbefore hid hne, hne, ?_⟩
    simp [moved, howner]
  · rcases List.mem_append.mp hid with hearlier | hcall
    · obtain ⟨hne, hlater⟩ := hc.ne_of_mem_earlier hP hearlier
      refine .inl ⟨⟨c.owner, id, node⟩, hold hc.subgraph_eq (hc.mem_nodes.mpr (.inl hearlier)) hne,
        hne, ?_⟩
      simp [moved, hlater]
    · obtain rfl := List.mem_singleton.mp hcall
      obtain rfl := Option.some.inj (hnode.symm.trans (node_after_call hc))
      exact .inr (.inl rfl)
  · rcases List.mem_cons.mp hid with rfl | hlater
    · obtain rfl := Option.some.inj (hnode.symm.trans node_after_resume)
      exact .inr (.inr rfl)
    · have hne : id ≠ c.call := fun h => hc.call_notMem_later hP (h ▸ hlater)
      refine .inl ⟨⟨c.owner, id, node⟩,
        hold hc.subgraph_eq (hc.mem_nodes.mpr (.inr (.inr hlater))) hne, hne, ?_⟩
      simp [moved, hlater]

theorem mem_nodes_after (hP : P.WellFormed) (hc : c.Applies P) {owner : SubgraphId}
    {subgraph : Subgraph} (hsubgraph : (c.after P).subgraphs[owner]? = some subgraph) {id : NodeId}
    (hid : id ∈ subgraph.nodes) : (∃ before, P.subgraphs[owner]? = some before ∧ id ∈ before.nodes
        ∧ (owner = c.owner → id ∉ c.later))
      ∨ (owner = P.subgraphs.size ∧ (id = P.nodes.size ∨ id ∈ c.later)) := by
  rcases subgraph_after_cases hP hc hsubgraph with ⟨howner, hbefore⟩ | ⟨rfl, rfl⟩ | ⟨rfl, rfl⟩
  · exact .inl ⟨subgraph, hbefore, hid, fun h => absurd h howner⟩
  · refine .inl ⟨c.subgraph, hc.subgraph_eq, ?_, fun _ => ?_⟩
    · rw [hc.mem_nodes]
      rcases List.mem_append.mp hid with hearlier | hcall
      · exact .inl hearlier
      · exact .inr (.inl (List.mem_singleton.mp hcall))
    · rcases List.mem_append.mp hid with hearlier | hcall
      · exact (hc.ne_of_mem_earlier hP hearlier).2
      · rw [List.mem_singleton.mp hcall]
        exact hc.call_notMem_later hP
  · exact .inr ⟨rfl, List.mem_cons.mp hid⟩

theorem lt_of_mem_later (hP : P.WellFormed) (hc : c.Applies P) {id : NodeId} (hid : id ∈ c.later) :
    id < P.nodes.size :=
  hP.inArena hc.subgraph_eq id (hc.mem_nodes.mpr (.inr (.inr hid)))

theorem lt_tensors_after {tensor : TensorId} (hlt : tensor < P.tensors.size) :
    tensor < (c.after P).tensors.size := by
  rw [after_tensors, Array.size_append]
  exact Nat.lt_add_right _ hlt

/-- A cut keeps a program well-formed. -/
theorem wellFormed_after (hP : P.WellFormed) (hc : c.Applies P) : (c.after P).WellFormed where
  order := by
    show (insertAfter c.owner P.subgraphs.size P.order).Perm (List.range _)
    rw [size_subgraphs_after, List.range_succ]
    refine (insertAfter_perm _ _ _).trans ?_
    exact (hP.order.cons _).trans (List.perm_append_singleton _ _).symm
  entry := by
    rw [size_subgraphs_after]
    exact Nat.lt_succ_of_lt hP.entry
  inArena := by
    intro owner subgraph hsubgraph id hid
    rw [size_nodes_after]
    rcases mem_nodes_after hP hc hsubgraph hid with ⟨before, hbefore, hmem, -⟩ | ⟨-, rfl | hlater⟩
    · exact Nat.lt_succ_of_lt (hP.inArena hbefore id hmem)
    · exact Nat.lt_succ_self _
    · exact Nat.lt_succ_of_lt (lt_of_mem_later hP hc hlater)
  nodup := by
    intro owner subgraph hsubgraph
    have hall := List.nodup_append.mp (hc.nodup hP)
    rcases subgraph_after_cases hP hc hsubgraph with ⟨-, hbefore⟩ | ⟨-, rfl⟩ | ⟨-, rfl⟩
    · exact hP.nodup hbefore
    · refine List.nodup_append.mpr ⟨hall.1, by simp, fun a ha b hb => ?_⟩
      rw [List.mem_singleton.mp hb]
      exact (hc.ne_of_mem_earlier hP ha).1
    · refine List.nodup_cons.mpr ⟨fun hmem => ?_, (List.nodup_cons.mp hall.2.1).2⟩
      exact Nat.lt_irrefl _ (lt_of_mem_later hP hc hmem)
  apart := by
    intro first second a b ha hb id hida hidb
    -- A node that was listed before and one of the segment are apart in either order.
    have hmixed {owner : SubgraphId} {before : Subgraph} (hbefore : P.subgraphs[owner]? = some before)
        (hmem : id ∈ before.nodes) (hstays : owner = c.owner → id ∉ c.later)
        (hsegment : id = P.nodes.size ∨ id ∈ c.later) : False := by
      rcases hsegment with rfl | hlater
      · exact Nat.lt_irrefl _ (hP.inArena hbefore _ hmem)
      · have howner := hP.apart hbefore hc.subgraph_eq id hmem
          (hc.mem_nodes.mpr (.inr (.inr hlater)))
        exact hstays howner hlater
    rcases mem_nodes_after hP hc ha hida with ⟨a', ha', hmema, hstaysa⟩ | ⟨hfirst, hsegmenta⟩
    · rcases mem_nodes_after hP hc hb hidb with ⟨b', hb', hmemb, -⟩ | ⟨-, hsegmentb⟩
      · exact hP.apart ha' hb' id hmema hmemb
      · exact (hmixed ha' hmema hstaysa hsegmentb).elim
    · rcases mem_nodes_after hP hc hb hidb with ⟨b', hb', hmemb, hstaysb⟩ | ⟨hsecond, -⟩
      · exact (hmixed hb' hmemb hstaysb hsegmenta).elim
      · exact hfirst.trans hsecond.symm
  interface := by
    intro owner subgraph hsubgraph tensor htensor
    have hof := hP.interface hc.subgraph_eq
    rcases subgraph_after_cases hP hc hsubgraph with ⟨-, hbefore⟩ | ⟨-, rfl⟩ | ⟨-, rfl⟩
    · exact lt_tensors_after (hP.interface hbefore tensor htensor)
    · rcases List.mem_append.mp htensor with hinput | houtput
      · exact lt_tensors_after (hof tensor (List.mem_append_left _ hinput))
      · exact hc.fresh.lt_of_mem houtput
    · rcases List.mem_append.mp htensor with hinput | houtput
      · exact hc.fresh.lt_of_mem hinput
      · exact lt_tensors_after (hof tensor (List.mem_append_right _ houtput))
  operands := by
    intro listed hlists tensor htensor
    have hcall := hP.operands hc.lists_call
    rcases lists_after_cases hP hc hlists with ⟨old, hbefore, -, rfl⟩ | rfl | rfl
    · rw [moved_node] at htensor
      exact lt_tensors_after (hP.operands hbefore tensor htensor)
    · rcases List.mem_append.mp htensor with hinput | houtput
      · exact lt_tensors_after (hcall tensor (List.mem_append_left _ hinput))
      · exact hc.fresh.lt_of_mem houtput
    · rcases List.mem_append.mp htensor with hinput | houtput
      · exact hc.fresh.lt_of_mem hinput
      · exact lt_tensors_after (hcall tensor (List.mem_append_right _ houtput))
  fits := by
    intro listed hlists
    have hformals := keepsFormals_after hP hc
    rcases lists_after_cases hP hc hlists with ⟨old, hbefore, -, rfl⟩ | rfl | rfl
    · rw [moved_node]
      exact hformals.fits (hP.fits hbefore) rfl rfl rfl
    · exact hformals.fits (hP.fits hc.lists_call) rfl rfl hc.length_eq
    · exact hc.length_eq

/-! ### How handles flow after a cut -/

theorem writer_after (hP : P.WellFormed) (hc : c.Applies P) {listed : ListedNode}
    (hlists : (c.after P).Lists listed) (hgives : listed.node.givesHandle) :
    ∃ old, P.Lists old ∧ old.id ≠ c.call ∧ listed = c.moved P old := by
  rcases lists_after_cases hP hc hlists with hold | rfl | rfl
  · exact hold
  · have hcall : c.calling.isCall := hc.isCall
    rw [Node.givesHandle_ne_call hgives] at hcall
    exact nomatch hcall
  · exact nomatch hgives

theorem ne_call_of_givesHandle (hP : P.WellFormed) (hc : c.Applies P) {listed : ListedNode}
    (hlists : P.Lists listed) (hgives : listed.node.givesHandle) : listed.id ≠ c.call := by
  intro hsame
  obtain rfl := hP.lists_unique hlists hc.lists_call hsame
  have hcall : c.node.isCall := hc.isCall
  rw [Node.givesHandle_ne_call hgives] at hcall
  exact nomatch hcall

theorem flows_after_iff (hP : P.WellFormed) (hc : c.Applies P) {binder : NodeId}
    {tensor : TensorId} : (c.after P).Flows binder tensor ↔ P.Flows binder tensor := by
  constructor
  · intro hflows
    induction hflows with
    | made hlists hid hbinder houtput =>
      obtain ⟨old, hold, -, rfl⟩ := writer_after hP hc hlists (Node.givesHandle_of_callee? hbinder)
      rw [moved_id] at hid
      rw [moved_node] at hbinder houtput
      exact .made hold hid hbinder houtput
    | picked _ hlists hreads houtput ih =>
      obtain ⟨old, hold, -, rfl⟩ :=
        writer_after hP hc hlists (Node.givesHandle_of_mem_branches hreads)
      rw [moved_node] at hreads houtput
      exact .picked ih hold hreads houtput
  · intro hflows
    induction hflows with
    | @made listed _ hlists hid hbinder houtput =>
      have hne := ne_call_of_givesHandle hP hc hlists (Node.givesHandle_of_callee? hbinder)
      exact .made (lists_after_moved hP hc hlists hne) (by rw [moved_id, hid])
        (by rwa [moved_node]) (by rwa [moved_node])
    | @picked listed _ _ _ hlists hreads houtput ih =>
      have hne := ne_call_of_givesHandle hP hc hlists (Node.givesHandle_of_mem_branches hreads)
      exact .picked ih (lists_after_moved hP hc hlists hne) (by rwa [moved_node])
        (by rwa [moved_node])

theorem callsHandle_after_iff (hP : P.WellFormed) (hc : c.Applies P) {call : NodeId}
    {handle : TensorId} : (c.after P).CallsHandle call handle ↔ P.CallsHandle call handle := by
  constructor
  · intro ⟨listed, hlists, hid, hcall, hhead⟩
    rcases lists_after_cases hP hc hlists with ⟨old, hold, -, rfl⟩ | rfl | rfl
    · rw [moved_id] at hid
      rw [moved_node] at hcall hhead
      exact ⟨old, hold, hid, hcall, hhead⟩
    · exact ⟨_, hc.lists_call, hid, hcall, hhead⟩
    · exact nomatch hcall
  · intro ⟨listed, hlists, hid, hcall, hhead⟩
    by_cases hsame : listed.id = c.call
    · obtain rfl := hP.lists_unique hlists hc.lists_call hsame
      exact ⟨_, lists_after_call hP hc, hid, hcall, hhead⟩
    · refine ⟨_, lists_after_moved hP hc hlists hsame, ?_, ?_, ?_⟩
      · rw [moved_id, hid]
      · rwa [moved_node]
      · rwa [moved_node]

theorem reaches_after_iff (hP : P.WellFormed) (hc : c.Applies P) {binder call : NodeId} :
    (c.after P).Reaches binder call ↔ P.Reaches binder call := by
  unfold Reaches
  simp only [flows_after_iff hP hc, callsHandle_after_iff hP hc]

theorem handlesUnique_after (hP : P.WellFormed) (hc : c.Applies P) (hunique : P.HandlesUnique) :
    (c.after P).HandlesUnique := by
  intro writer other handle hwriter hgives hout hother hout'
  obtain ⟨old, hold, hne, rfl⟩ := writer_after hP hc hwriter hgives
  rw [moved_node] at hgives hout
  rcases lists_after_cases hP hc hother with ⟨old', hold', -, rfl⟩ | rfl | rfl
  · rw [moved_node] at hout'
    rw [hunique hold hgives hout hold' hout']
  · exact absurd (hP.outputs_lt hold hout) (Nat.not_lt.mpr (hc.fresh.le_of_mem hout'))
  · have hsame := hunique hold hgives hout hc.lists_call hout'
    exact absurd (congrArg ListedNode.id hsame).symm hne

theorem isHandle_after_iff (hP : P.WellFormed) (hc : c.Applies P) {tensor : TensorId} :
    (c.after P).IsHandle tensor ↔ P.IsHandle tensor := by
  constructor
  · intro ⟨listed, hlists, hgives, hout⟩
    obtain ⟨old, hold, -, rfl⟩ := writer_after hP hc hlists hgives
    rw [moved_node] at hgives hout
    exact ⟨old, hold, hgives, hout⟩
  · intro ⟨listed, hlists, hgives, hout⟩
    have hne := ne_call_of_givesHandle hP hc hlists hgives
    exact ⟨_, lists_after_moved hP hc hlists hne, by rwa [moved_node], by rwa [moved_node]⟩

theorem comesFrom_after (hP : P.WellFormed) (hc : c.Applies P) :
    (c.after P).ComesFrom = P.ComesFrom := by
  funext handle source
  refine propext ⟨?_, ?_⟩
  · intro ⟨listed, hlists, hout, hbranch⟩
    obtain ⟨old, hold, -, rfl⟩ :=
      writer_after hP hc hlists (Node.givesHandle_of_mem_branches hbranch)
    rw [moved_node] at hout hbranch
    exact ⟨old, hold, hout, hbranch⟩
  · intro ⟨listed, hlists, hout, hbranch⟩
    have hne := ne_call_of_givesHandle hP hc hlists (Node.givesHandle_of_mem_branches hbranch)
    exact ⟨_, lists_after_moved hP hc hlists hne, by rwa [moved_node], by rwa [moved_node]⟩

theorem resolves_after (hP : P.WellFormed) (hc : c.Applies P) {handle : TensorId}
    (hresolves : P.Resolves handle) : (c.after P).Resolves handle := by
  unfold Resolves at hresolves ⊢
  simp only [comesFrom_after hP hc, isHandle_after_iff hP hc]
  obtain ⟨hall, source, listed, hsource, hlists, hbinder, hout⟩ := hresolves
  have hne := ne_call_of_givesHandle hP hc hlists (Node.givesHandle_of_callee? hbinder)
  exact ⟨hall, source, _, hsource, lists_after_moved hP hc hlists hne, by rwa [moved_node],
    by rwa [moved_node]⟩

theorem allResolve_after (hP : P.WellFormed) (hc : c.Applies P) (hall : P.AllResolve) :
    (c.after P).AllResolve := fun _ _ hcalls =>
  resolves_after hP hc (hall ((callsHandle_after_iff hP hc).mp hcalls))

/-! ### Which calls are tail calls after a cut -/

theorem allTail_head (hP : P.WellFormed) (hc : c.Applies P) : (c.after P).AllTail c.owner := by
  intro call ⟨subgraph, node, hsubgraph, hmem, hnode, hcall, hnot⟩
  obtain rfl := Option.some.inj (hsubgraph.symm.trans (subgraph_after_owner hP hc))
  rcases List.mem_append.mp hmem with hearlier | hlast
  · have hne := (hc.ne_of_mem_earlier hP hearlier).1
    have hlt := hP.inArena hc.subgraph_eq call (hc.mem_nodes.mpr (.inl hearlier))
    rw [node_after_old hlt hne] at hnode
    rw [hc.noneEarlier call hearlier node hnode] at hcall
    exact nomatch hcall
  · obtain rfl := List.mem_singleton.mp hlast
    obtain rfl := Option.some.inj (hnode.symm.trans (node_after_call hc))
    exact hnot ⟨by simp [Subgraph.lastNode?, head], rfl⟩

/-- The calls behind the cut that are not tail calls in the segment were none before. -/
theorem nonTail_of_segment (hP : P.WellFormed) (hc : c.Applies P) {call : NodeId}
    (hnonTail : (c.after P).NonTail P.subgraphs.size call) : P.NonTail c.owner call := by
  obtain ⟨subgraph, node, hsubgraph, hmem, hnode, hcall, hnot⟩ := hnonTail
  obtain rfl := Option.some.inj (hsubgraph.symm.trans subgraph_after_segment)
  rcases List.mem_cons.mp hmem with rfl | hlater
  · obtain rfl := Option.some.inj (hnode.symm.trans node_after_resume)
    exact nomatch hcall
  · have hne : call ≠ c.call := fun h => hc.call_notMem_later hP (h ▸ hlater)
    rw [node_after_old (lt_of_mem_later hP hc hlater) hne] at hnode
    refine ⟨c.subgraph, node, hc.subgraph_eq, hc.mem_nodes.mpr (.inr (.inr hlater)), hnode, hcall,
      fun htail => hnot ⟨?_, htail.2⟩⟩
    have hlast := htail.1
    have hsome : c.later ≠ [] := List.ne_nil_of_mem hlater
    rw [Subgraph.lastNode?, hc.nodes_eq, List.getLast?_append_of_ne_nil _ (List.cons_ne_nil _ _),
      List.getLast?_cons_of_ne_nil hsome] at hlast
    rw [Subgraph.lastNode?, segment, List.getLast?_cons_of_ne_nil hsome, hlast]

theorem nonTail_other_iff (hP : P.WellFormed) (hc : c.Applies P) {owner : SubgraphId}
    (hlt : owner < P.subgraphs.size) (hne : owner ≠ c.owner) {call : NodeId} :
    (c.after P).NonTail owner call ↔ P.NonTail owner call := by
  have hsame {subgraph : Subgraph} (hsubgraph : P.subgraphs[owner]? = some subgraph)
      (hmem : call ∈ subgraph.nodes) : (c.after P).nodes[call]? = P.nodes[call]? := by
    refine node_after_old (hP.inArena hsubgraph call hmem) fun h => hne ?_
    exact hP.apart hsubgraph hc.subgraph_eq call hmem (hc.mem_nodes.mpr (.inr (.inl h)))
  unfold NonTail
  rw [subgraph_after_other hlt hne]
  constructor
  · rintro ⟨subgraph, node, hsubgraph, hmem, hnode, hrest⟩
    exact ⟨subgraph, node, hsubgraph, hmem, (hsame hsubgraph hmem).symm.trans hnode, hrest⟩
  · rintro ⟨subgraph, node, hsubgraph, hmem, hnode, hrest⟩
    exact ⟨subgraph, node, hsubgraph, hmem, (hsame hsubgraph hmem).trans hnode, hrest⟩

theorem allTail_other (hP : P.WellFormed) (hc : c.Applies P) {owner : SubgraphId}
    (hlt : owner < P.subgraphs.size) (hne : owner ≠ c.owner) (hall : P.AllTail owner) :
    (c.after P).AllTail owner :=
  fun call hnonTail => hall call ((nonTail_other_iff hP hc hlt hne).mp hnonTail)

end Cut

end TailFlow
