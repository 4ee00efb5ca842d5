import Mathlib.Data.List.Nodup
import TailFlow.Proofs.Runs.Ownership

/-!
# Closed programs in single assignment form

A program is in single assignment form if no tensor occurs twice among all formals and outputs and
no constant occurs there. It is closed if nodes read constants, formals and what nodes before them in
the same subgraph write. Handles of such a program have one writer each and stay behind it, and no
tensor is written in two bodies.
-/

namespace TailFlow

namespace Program

variable {P : Program}

/-- No tensor is written twice in the whole program, and none that is written is constant. -/
structure SingleAssignment (P : Program) : Prop where
  nodup : (P.subgraphs.toList.flatMap P.written).Nodup
  plain : ∀ subgraph ∈ P.subgraphs, ∀ tensor ∈ P.written subgraph, P.Plain tensor

instance (P : Program) : Decidable P.SingleAssignment :=
  decidable_of_iff ((P.subgraphs.toList.flatMap P.written).Nodup
      ∧ ∀ subgraph ∈ P.subgraphs, ∀ tensor ∈ P.written subgraph, P.Plain tensor)
    ⟨fun ⟨hnodup, hplain⟩ => ⟨hnodup, hplain⟩, fun h => ⟨h.nodup, h.plain⟩⟩

/-- A tensor can be read by a node: it is a constant, a formal of the subgraph, or an output of a
node that stands before. -/
def Readable (P : Program) (reader : ListedNode) (tensor : TensorId) : Prop :=
  ¬ P.Plain tensor
    ∨ (∃ subgraph ∈ P.subgraphs[reader.owner]?, tensor ∈ subgraph.inputs)
    ∨ ∃ writer ∈ P.allListed, writer.owner = reader.owner ∧ tensor ∈ writer.node.outputs
      ∧ P.Precedes reader.owner writer.id reader.id

instance (P : Program) (reader : ListedNode) (tensor : TensorId) :
    Decidable (P.Readable reader tensor) :=
  inferInstanceAs (Decidable (_ ∨ _ ∨ _))

/-- Nodes read what they can read. -/
def Closed (P : Program) : Prop :=
  ∀ reader ∈ P.allListed, ∀ tensor ∈ reader.node.inputs, P.Readable reader tensor

instance (P : Program) : Decidable P.Closed :=
  inferInstanceAs (Decidable (∀ reader ∈ P.allListed, ∀ tensor ∈ reader.node.inputs, _))

/-- Where nodes write different tensors, a tensor is written by one of them. -/
theorem eq_of_mem_outputs {nodes : List NodeId} (hnodup : (P.writes nodes).Nodup) {id id' : NodeId}
    (hid : id ∈ nodes) (hid' : id' ∈ nodes) {node node' : Node} (hnode : P.nodes[id]? = some node)
    (hnode' : P.nodes[id']? = some node') {tensor : TensorId} (hout : tensor ∈ node.outputs)
    (hout' : tensor ∈ node'.outputs) : id = id' := by
  induction nodes with
  | nil => exact nomatch hid
  | cons first rest ih =>
    have hsplit : P.writes (first :: rest) = P.writes [first] ++ P.writes rest :=
      writes_append [first] rest
    rw [hsplit] at hnodup
    obtain ⟨-, hrest, hapart⟩ := List.nodup_append.mp hnodup
    have hwrites {nodes : List NodeId} (hmem : id ∈ nodes) : tensor ∈ P.writes nodes :=
      mem_writes.mpr ⟨id, hmem, node, hnode, hout⟩
    have hwrites' {nodes : List NodeId} (hmem : id' ∈ nodes) : tensor ∈ P.writes nodes :=
      mem_writes.mpr ⟨id', hmem, node', hnode', hout'⟩
    rcases List.mem_cons.mp hid with rfl | hlater <;> rcases List.mem_cons.mp hid' with hsame | hlater'
    · exact hsame.symm
    · exact absurd rfl (hapart tensor (hwrites (List.mem_singleton_self id)) tensor (hwrites' hlater'))
    · subst hsame
      exact absurd rfl (hapart tensor (hwrites' (List.mem_singleton_self id')) tensor (hwrites hlater))
    · exact ih hrest hlater hlater'

namespace SingleAssignment

variable (honce : P.SingleAssignment)

include honce

theorem writesOnce : P.WritesOnce where
  nodup := fun subgraph hmem =>
    (List.nodup_flatMap.mp honce.nodup).1 subgraph (Array.mem_toList_iff.mpr hmem)
  plain := honce.plain

theorem eq_of_mem_written {first second : SubgraphId} {subgraph subgraph' : Subgraph}
    (hfirst : P.subgraphs[first]? = some subgraph) (hsecond : P.subgraphs[second]? = some subgraph')
    {tensor : TensorId} (hmem : tensor ∈ P.written subgraph)
    (hmem' : tensor ∈ P.written subgraph') : first = second := by
  have hapart := List.pairwise_iff_getElem.mp (List.nodup_flatMap.mp honce.nodup).2
  obtain ⟨hlt, rfl⟩ := Array.getElem?_eq_some_iff.mp hfirst
  obtain ⟨hlt', rfl⟩ := Array.getElem?_eq_some_iff.mp hsecond
  rcases Nat.lt_trichotomy first second with hless | hsame | hless
  · exact absurd hmem' (hapart first second hlt hlt' hless hmem)
  · exact hsame
  · exact absurd hmem (hapart second first hlt' hlt hless hmem')

theorem ownsApart (hbody : P.AllBodies) : P.OwnsApart where
  plain := fun _ _ ⟨_, subgraph, hsubgraph, _, hmem⟩ =>
    honce.plain subgraph (Array.mem_of_getElem? hsubgraph) _ hmem
  apart := by
    rintro _ _ tensor ⟨first, subgraph, hfirst, rfl, hmem⟩ ⟨second, subgraph', hsecond, rfl, hmem'⟩
    rw [hbody hfirst, hbody hsecond]
    exact honce.eq_of_mem_written hfirst hsecond hmem hmem'

theorem writer_unique {writer other : ListedNode} (hwriter : P.Lists writer) (hother : P.Lists other)
    {tensor : TensorId} (hout : tensor ∈ writer.node.outputs)
    (hout' : tensor ∈ other.node.outputs) : other = writer := by
  obtain ⟨owner, id, node⟩ := writer
  obtain ⟨owner', id', node'⟩ := other
  obtain ⟨subgraph, hsubgraph, hid, hnode⟩ := hwriter
  obtain ⟨subgraph', hsubgraph', hid', hnode'⟩ := hother
  dsimp only at hsubgraph hid hnode hsubgraph' hid' hnode' hout hout'
  have hwrites := mem_writes.mpr ⟨id, hid, node, hnode, hout⟩
  have hwrites' := mem_writes.mpr ⟨id', hid', node', hnode', hout'⟩
  obtain rfl := honce.eq_of_mem_written hsubgraph hsubgraph' (List.mem_append_right _ hwrites)
    (List.mem_append_right _ hwrites')
  obtain rfl := Option.some.inj (hsubgraph.symm.trans hsubgraph')
  have hnodup := (List.nodup_append.mp
    (honce.writesOnce.nodup subgraph (Array.mem_of_getElem? hsubgraph))).2.1
  obtain rfl := eq_of_mem_outputs hnodup hid hid' hnode hnode' hout hout'
  rw [Option.some.inj (hnode.symm.trans hnode')]

/-- Handles of a closed program have one writer each and are read behind it. -/
theorem handlesLocal (hclosed : P.Closed) : P.HandlesLocal where
  unique := fun _ _ _ hwriter _ hout hother hout' => honce.writer_unique hwriter hother hout hout'
  behind := by
    intro writer reader handle hwriter _ hout hreader hin
    rcases hclosed reader (mem_allListed.mpr hreader) handle hin with hconstant | hformal | hwritten
    · obtain ⟨subgraph, hsubgraph, hid, hnode⟩ := hwriter
      refine absurd (honce.plain subgraph (Array.mem_of_getElem? hsubgraph) handle ?_) hconstant
      exact List.mem_append_right _ (mem_writes.mpr ⟨_, hid, _, hnode, hout⟩)
    · obtain ⟨subgraph, hsubgraph, hformal⟩ := hformal
      obtain ⟨subgraph', hsubgraph', hid, hnode⟩ := hwriter
      have hwrites := mem_writes.mpr ⟨_, hid, _, hnode, hout⟩
      have howner := honce.eq_of_mem_written hsubgraph hsubgraph' (List.mem_append_left _ hformal)
        (List.mem_append_right _ hwrites)
      rw [howner, hsubgraph', Option.mem_some] at hsubgraph
      subst hsubgraph
      have hnodup := honce.writesOnce.nodup subgraph' (Array.mem_of_getElem? hsubgraph')
      exact absurd rfl ((List.nodup_append.mp hnodup).2.2 handle hformal handle hwrites)
    · obtain ⟨other, hother, howner, hout', hbefore⟩ := hwritten
      obtain rfl := honce.writer_unique hwriter (mem_allListed.mp hother) hout hout'
      exact ⟨howner.symm, howner ▸ hbefore⟩

end SingleAssignment

end Program

end TailFlow
