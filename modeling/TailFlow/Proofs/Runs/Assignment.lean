import TailFlow.Proofs.Handles.Rewiring
import TailFlow.Proofs.Runs.Simulation

/-!
# Subgraphs that write every tensor once

What a subgraph writes are its formals and the outputs of its nodes. If these differ and none of them
is constant, then the subgraph starts in an environment in which nothing that its nodes are going to
write can be read yet.
-/

namespace TailFlow

namespace Program

/-- What a subgraph writes: its formals and the outputs of its nodes. -/
def written (P : Program) (subgraph : Subgraph) : List TensorId :=
  subgraph.inputs ++ P.writes subgraph.nodes

/-- A tensor carries no elements. -/
def Plain (P : Program) (id : TensorId) : Prop :=
  P.tensors[id]?.all fun tensor => !tensor.isConstant

instance (P : Program) (id : TensorId) : Decidable (P.Plain id) :=
  inferInstanceAs (Decidable (_ = true))

/-- Every subgraph writes different tensors, and none of them is constant. -/
structure WritesOnce (P : Program) : Prop where
  nodup : ∀ subgraph ∈ P.subgraphs, (P.written subgraph).Nodup
  plain : ∀ subgraph ∈ P.subgraphs, ∀ tensor ∈ P.written subgraph, P.Plain tensor

instance (P : Program) : Decidable P.WritesOnce :=
  decidable_of_iff ((∀ subgraph ∈ P.subgraphs, (P.written subgraph).Nodup)
      ∧ ∀ subgraph ∈ P.subgraphs, ∀ tensor ∈ P.written subgraph, P.Plain tensor)
    ⟨fun ⟨hnodup, hplain⟩ => ⟨hnodup, hplain⟩, fun h => ⟨h.nodup, h.plain⟩⟩

variable {P : Program}

theorem plain_append {P' : Program} {extra : List Tensor}
    (htensors : P'.tensors = P.tensors ++ extra.toArray)
    (hextra : ∀ tensor ∈ extra, tensor.constant = none) {id : TensorId} (hplain : P.Plain id) :
    P'.Plain id := by
  unfold Plain at hplain ⊢
  rw [htensors, Array.getElem?_append]
  split
  · exact hplain
  · rw [Option.all_eq_true]
    intro tensor htensor
    have hmem := Array.mem_of_getElem? htensor
    rw [Tensor.isConstant, hextra tensor (by simpa using hmem)]
    rfl

theorem not_reads_of_plain {env : Environment} {id : TensorId} (hplain : P.Plain id)
    (hbound : env.get? id = none) (value : Value) : ¬ P.Reads env id value := by
  intro hreads
  rcases hreads.cases with hsome | ⟨-, -, tensor, htensor, hconstant⟩
  · exact nomatch hbound.symm.trans hsome
  · rw [Plain, htensor, Option.all_some, hconstant] at hplain
    exact nomatch hplain

theorem WritesOnce.awaits (honce : P.WritesOnce) {id : SubgraphId} {subgraph : Subgraph}
    (hsubgraph : P.subgraphs[id]? = some subgraph) {values : List Value} {env : Environment}
    (hbind : Environment.bindAll .empty subgraph.inputs values = .ok env) :
    Awaits P env subgraph.nodes := by
  have hmem := Array.mem_of_getElem? hsubgraph
  obtain ⟨-, hnodup, hapart⟩ := List.nodup_append.mp (honce.nodup subgraph hmem)
  refine ⟨hnodup, fun tensor hwrites => ?_⟩
  refine not_reads_of_plain (honce.plain subgraph hmem tensor (List.mem_append_right _ hwrites)) ?_
  have habsent : tensor ∉ subgraph.inputs := fun hformal => hapart tensor hformal tensor hwrites rfl
  rw [Environment.get?_bindAll_of_notMem hbind habsent]
  rfl

theorem WritesOnce.outputs_nodup (honce : P.WritesOnce) {listed : ListedNode}
    (hlists : P.Lists listed) : listed.node.outputs.Nodup := by
  obtain ⟨subgraph, hsubgraph, hid, hnode⟩ := hlists
  obtain ⟨-, hnodup, -⟩ :=
    List.nodup_append.mp (honce.nodup subgraph (Array.mem_of_getElem? hsubgraph))
  obtain ⟨earlier, later, hsplit⟩ := List.append_of_mem hid
  rw [hsplit, writes_append, writes_cons hnode] at hnodup
  exact (List.nodup_append.mp (List.nodup_append.mp hnodup).2.1).1

end Program

theorem Covers.refl {P P' : Program} (htensors : ∀ id < P.tensors.size,
    P'.tensors[id]? = P.tensors[id]?) (env : Environment) : Covers Unchanged P env P' env :=
  fun id value hlt hreads => ⟨value, (Program.reads_congr rfl (htensors id hlt)).mpr hreads, rfl⟩

namespace Rewiring

open Program

variable {r : Rewiring} {P : Program}

theorem writes_old (hP : P.WellFormed) (hr : r.Applies P) {owner : SubgraphId} {subgraph : Subgraph}
    (hsubgraph : P.subgraphs[owner]? = some subgraph) {nodes : List NodeId}
    (hsub : ∀ id ∈ nodes, id ∈ subgraph.nodes) : (r.after P).writes nodes = P.writes nodes := by
  refine writes_congr fun id hmem => ?_
  by_cases hcall : id = r.call
  · rw [hcall, node_after_call hr, hr.node_eq]
    rfl
  · rw [node_after_old (hP.inArena hsubgraph id (hsub id hmem)) hcall]

theorem writes_added (hr : r.Applies P) :
    (r.after P).writes (r.added P) = List.range' P.tensors.size r.copies.length := by
  have hfrom (count : Nat) (hle : count ≤ r.copies.length) :
      (r.after P).writes (List.range' P.nodes.size count) = List.range' P.tensors.size count := by
    induction count with
    | zero => rfl
    | succ count ih =>
      have hcopy := List.getElem?_eq_getElem (l := r.copies) (i := count) hle
      have hnode := node_after_copy hr count
      rw [hcopy] at hnode
      rw [List.range'_1_concat, List.range'_1_concat, writes_append, ih (Nat.le_of_succ_le hle),
        writes_cons hnode, hr.outputs_of_copy hcopy]
      rfl
  exact hfrom _ (Nat.le_refl _)

/-- The subgraph of the call writes what it wrote before and the fresh tensors. -/
theorem written_after_owner (hP : P.WellFormed) (hr : r.Applies P) :
    ((r.after P).written (r.relisted P)).Perm
      (P.written r.subgraph ++ List.range' P.tensors.size r.copies.length) := by
  have hearlier : (r.after P).writes r.earlier = P.writes r.earlier :=
    writes_old hP hr hr.subgraph_eq fun id hmem => by simp [hr.nodes_eq, hmem]
  have hlater : (r.after P).writes (r.call :: r.later) = P.writes (r.call :: r.later) :=
    writes_old hP hr hr.subgraph_eq fun id hmem => by simp [hr.nodes_eq, List.mem_cons.mp hmem]
  have hinputs : (r.relisted P).inputs = r.subgraph.inputs := rfl
  have hnodes : (r.relisted P).nodes = r.earlier ++ r.added P ++ r.call :: r.later := rfl
  rw [written, written, hinputs, hnodes, hr.nodes_eq, writes_append, writes_append, writes_append,
    hearlier, hlater, writes_added hr]
  simp only [List.append_assoc]
  exact (List.perm_append_comm.append_left _).append_left _

theorem written_after_other (hP : P.WellFormed) (hr : r.Applies P) {id : SubgraphId}
    {subgraph : Subgraph} (hsubgraph : P.subgraphs[id]? = some subgraph) :
    (r.after P).written subgraph = P.written subgraph := by
  rw [written, written, writes_old hP hr hsubgraph fun _ hmem => hmem]

theorem plain_after (hr : r.Applies P) {id : TensorId} (hplain : P.Plain id) :
    (r.after P).Plain id :=
  plain_append after_tensors hr.plain hplain

theorem plain_fresh (hr : r.Applies P) {id : TensorId} (hge : P.tensors.size ≤ id) :
    (r.after P).Plain id := by
  refine plain_after hr ?_
  rw [Plain, Array.getElem?_eq_none hge]
  rfl

/-- A call that gets a handle of its own leaves subgraphs that write every tensor once. -/
theorem writesOnce_after (hP : P.WellFormed) (honce : P.WritesOnce) (hr : r.Applies P) :
    (r.after P).WritesOnce := by
  have hcases : ∀ subgraph ∈ (r.after P).subgraphs, subgraph = r.relisted P
      ∨ ∃ id : SubgraphId, P.subgraphs[id]? = some subgraph := by
    intro subgraph hmem
    obtain ⟨id, hid⟩ := Array.getElem?_of_mem hmem
    by_cases howner : id = r.owner
    · rw [howner, subgraph_after_owner hP hr] at hid
      exact .inl (Option.some.inj hid).symm
    · rw [subgraph_after_other howner] at hid
      exact .inr ⟨id, hid⟩
  have hmem := Array.mem_of_getElem? hr.subgraph_eq
  constructor
  · intro subgraph hsubgraph
    rcases hcases subgraph hsubgraph with rfl | ⟨id, hold⟩
    · refine (written_after_owner hP hr).nodup_iff.mpr (List.nodup_append.mpr
        ⟨honce.nodup _ hmem, List.nodup_range', fun first hfirst second hsecond hsame => ?_⟩)
      subst hsame
      refine Nat.not_lt.mpr (List.mem_range'_1.mp hsecond).1 ?_
      rcases List.mem_append.mp hfirst with hformal | hwrites
      · exact hP.interface hr.subgraph_eq _ (List.mem_append_left _ hformal)
      · obtain ⟨id, hid, node, hnode, hout⟩ := mem_writes.mp hwrites
        have hlists : P.Lists ⟨r.owner, id, node⟩ := ⟨r.subgraph, hr.subgraph_eq, hid, hnode⟩
        exact hP.outputs_lt hlists hout
    · rw [written_after_other hP hr hold]
      exact honce.nodup _ (Array.mem_of_getElem? hold)
  · intro subgraph hsubgraph tensor htensor
    rcases hcases subgraph hsubgraph with rfl | ⟨id, hold⟩
    · rcases List.mem_append.mp ((written_after_owner hP hr).mem_iff.mp htensor) with hbefore | hfresh
      · exact plain_after hr (honce.plain _ hmem tensor hbefore)
      · exact plain_fresh hr (List.mem_range'_1.mp hfresh).1
    · rw [written_after_other hP hr hold] at htensor
      exact plain_after hr (honce.plain _ (Array.mem_of_getElem? hold) tensor htensor)

end Rewiring

end TailFlow
