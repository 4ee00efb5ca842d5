import TailFlow.CallGraph.Detection
import TailFlow.Proofs.Program.WellFormed

/-!
# Calls that are not tail calls

A call of a subgraph is a tail call if it stands last and writes the results of the subgraph. In a
well-formed program every question about tail calls has an answer, and the answers are read off
`Program.IsTail` and `Program.NonTail`.
-/

namespace TailFlow

namespace Program

variable {ε : Type} {P : Program}

/-- A node stands last in a subgraph and writes the results of the subgraph. -/
def IsTail (subgraph : Subgraph) (call : NodeId) (node : Node) : Prop :=
  subgraph.lastNode? = some call ∧ node.outputs = subgraph.outputs

instance (subgraph : Subgraph) (call : NodeId) (node : Node) :
    Decidable (IsTail subgraph call node) :=
  inferInstanceAs (Decidable (_ ∧ _))

/-- A subgraph lists the call, and it is not a tail call. -/
def NonTail (P : Program) (owner : SubgraphId) (call : NodeId) : Prop :=
  ∃ subgraph node, P.subgraphs[owner]? = some subgraph ∧ call ∈ subgraph.nodes
    ∧ P.nodes[call]? = some node ∧ node.isCall ∧ ¬ IsTail subgraph call node

theorem NonTail.lt {owner : SubgraphId} {call : NodeId} (hnonTail : P.NonTail owner call) :
    owner < P.subgraphs.size := by
  obtain ⟨subgraph, -, hsubgraph, -⟩ := hnonTail
  exact subgraph_lt hsubgraph

def AllTail (P : Program) (owner : SubgraphId) : Prop := ∀ call, ¬ P.NonTail owner call

theorem nonTail_iff {listed : ListedNode} (hlists : P.Lists listed) (hcall : listed.node.isCall)
    {subgraph : Subgraph} (hsubgraph : P.subgraphs[listed.owner]? = some subgraph) :
    P.NonTail listed.owner listed.id ↔ ¬ IsTail subgraph listed.id listed.node := by
  obtain ⟨subgraph', hsubgraph', hmem, hnode⟩ := hlists
  obtain rfl := Option.some.inj (hsubgraph.symm.trans hsubgraph')
  constructor
  · intro ⟨other, node, hother, _, hnode', _, hnot⟩
    obtain rfl := Option.some.inj (hsubgraph.symm.trans hother)
    obtain rfl := Option.some.inj (hnode.symm.trans hnode')
    exact hnot
  · exact fun hnot => ⟨subgraph, _, hsubgraph, hmem, hnode, hcall, hnot⟩

theorem isTailCall_eq_ok {owner : SubgraphId} {subgraph : Subgraph} {call : NodeId} {node : Node}
    (hsubgraph : P.subgraphs[owner]? = some subgraph) (hnode : P.nodes[call]? = some node) :
    (P.isTailCall owner call : Outcome ε Bool) = .ok (decide (IsTail subgraph call node)) := by
  unfold isTailCall
  rw [subgraph_eq_ok.mpr hsubgraph, Outcome.ok_bind]
  by_cases hlast : subgraph.lastNode? = some call
  · rw [if_pos hlast, node_eq_ok.mpr hnode, Outcome.ok_bind]
    simp only [IsTail, hlast, true_and]
    rfl
  · rw [if_neg hlast]
    simp only [IsTail, hlast, false_and, decide_false]
    rfl

theorem isNonTailCall_eq_ok {owner : SubgraphId} {subgraph : Subgraph} {call : NodeId}
    {node : Node} (hsubgraph : P.subgraphs[owner]? = some subgraph)
    (hnode : P.nodes[call]? = some node) :
    (P.isNonTailCall owner call : Outcome ε Bool)
      = .ok (decide (node.isCall ∧ ¬ IsTail subgraph call node)) := by
  unfold isNonTailCall
  rw [node_eq_ok.mpr hnode, Outcome.ok_bind]
  cases hcall : node.isCall with
  | false => simp [pure, Except.pure]
  | true =>
    rw [if_pos rfl, isTailCall_eq_ok hsubgraph hnode, Outcome.ok_bind]
    simp [pure, Except.pure]

section WellFormed

variable (hP : P.WellFormed) {owner : SubgraphId} {subgraph : Subgraph}
  (hsubgraph : P.subgraphs[owner]? = some subgraph)

include hP hsubgraph

theorem isNonTailCall_of_mem {call : NodeId} (hmem : call ∈ subgraph.nodes) :
    ∃ answer, (P.isNonTailCall owner call : Outcome ε Bool) = .ok answer
      ∧ (answer = true ↔ P.NonTail owner call) := by
  obtain ⟨node, hnode, -⟩ := hP.exists_lists hsubgraph hmem
  refine ⟨_, isNonTailCall_eq_ok hsubgraph hnode, ?_⟩
  rw [decide_eq_true_iff]
  constructor
  · intro ⟨hcall, hnot⟩
    exact ⟨subgraph, node, hsubgraph, hmem, hnode, hcall, hnot⟩
  · intro ⟨subgraph', node', hsubgraph', _, hnode', hcall, hnot⟩
    obtain rfl := Option.some.inj (hsubgraph.symm.trans hsubgraph')
    obtain rfl := Option.some.inj (hnode.symm.trans hnode')
    exact ⟨hcall, hnot⟩

theorem exists_nonTailCalls : ∃ calls, (P.nonTailCalls owner : Outcome ε (List NodeId)) = .ok calls
    ∧ ∀ call, call ∈ calls ↔ P.NonTail owner call := by
  have hall : ∀ id ∈ subgraph.nodes, ∃ keep, (P.isNonTailCall owner id : Outcome ε Bool) = .ok keep :=
    fun id hmem => (isNonTailCall_of_mem hP hsubgraph hmem).imp fun _ h => h.1
  rw [nonTailCalls, subgraph_eq_ok.mpr hsubgraph, Outcome.ok_bind]
  refine ⟨_, Outcome.filterM_eq_ok.mpr ⟨hall, rfl⟩, fun call => ?_⟩
  rw [List.mem_filter]
  constructor
  · intro ⟨hmem, hholds⟩
    obtain ⟨answer, hanswer, hiff⟩ := isNonTailCall_of_mem (ε := ε) hP hsubgraph hmem
    rw [hanswer] at hholds
    exact hiff.mp hholds
  · intro hnonTail
    obtain ⟨subgraph', _, hsubgraph', hmem, -⟩ := id hnonTail
    obtain rfl := Option.some.inj (hsubgraph.symm.trans hsubgraph')
    obtain ⟨answer, hanswer, hiff⟩ := isNonTailCall_of_mem (ε := ε) hP hsubgraph hmem
    rw [hanswer]
    exact ⟨hmem, hiff.mpr hnonTail⟩

omit hsubgraph in
theorem nodup_nonTailCalls {calls : List NodeId}
    (hcalls : (P.nonTailCalls owner : Outcome ε (List NodeId)) = .ok calls) : calls.Nodup := by
  obtain ⟨subgraph, hsubgraph, hfilter⟩ := Outcome.bind_eq_ok.mp hcalls
  rw [(Outcome.filterM_eq_ok.mp hfilter).2]
  exact (hP.nodup (subgraph_eq_ok.mp hsubgraph)).filter _

/-- Subgraphs with the same calls that are not tail calls have as many of them. -/
theorem exists_nonTailCalls_of_iff {P' : Program} (hP' : P'.WellFormed) {owner' : SubgraphId}
    {calls : List NodeId} (hiff : ∀ call, P.NonTail owner call ↔ P'.NonTail owner' call)
    (hcalls : (P'.nonTailCalls owner' : Outcome ε (List NodeId)) = .ok calls) :
    ∃ others, (P.nonTailCalls owner : Outcome ε (List NodeId)) = .ok others
      ∧ others.length = calls.length := by
  obtain ⟨subgraph', hsubgraph', -⟩ := Outcome.bind_eq_ok.mp hcalls
  obtain ⟨calls', hcalls', hmem'⟩ :=
    exists_nonTailCalls (ε := ε) hP' (subgraph_eq_ok.mp hsubgraph')
  obtain rfl := Except.ok.inj (hcalls.symm.trans hcalls')
  obtain ⟨others, hothers, hmem⟩ := exists_nonTailCalls (ε := ε) hP hsubgraph
  refine ⟨others, hothers, List.Perm.length_eq ?_⟩
  refine (List.perm_ext_iff_of_nodup (nodup_nonTailCalls hP hothers)
    (nodup_nonTailCalls hP' hcalls)).mpr fun call => ?_
  rw [hmem, hmem', hiff]

theorem nonTailCalls_eq_nil_iff :
    (P.nonTailCalls owner : Outcome ε (List NodeId)) = .ok [] ↔ P.AllTail owner := by
  obtain ⟨calls, hcalls, hmem⟩ := exists_nonTailCalls (ε := ε) hP hsubgraph
  rw [hcalls]
  constructor
  · intro hnil call hnonTail
    obtain rfl := Except.ok.inj hnil
    exact nomatch (hmem call).mpr hnonTail
  · intro hall
    have hnil : calls = [] := List.eq_nil_iff_forall_not_mem.mpr fun call hcall =>
      hall call ((hmem call).mp hcall)
    rw [hnil]

theorem firstNonTailCall?_eq_none
    (hfirst : (P.firstNonTailCall? owner : Outcome ε (Option NodeId)) = .ok none) :
    P.AllTail owner := by
  obtain ⟨subgraph', hsubgraph', hfind⟩ := Outcome.bind_eq_ok.mp hfirst
  obtain rfl := Option.some.inj (hsubgraph.symm.trans (subgraph_eq_ok.mp hsubgraph'))
  intro call hnonTail
  obtain ⟨subgraph', _, hsubgraph', hmem, -⟩ := id hnonTail
  obtain rfl := Option.some.inj (hsubgraph.symm.trans hsubgraph')
  obtain ⟨answer, hanswer, hiff⟩ := isNonTailCall_of_mem (ε := ε) hP hsubgraph hmem
  have hno := Outcome.findM?_eq_ok_none.mp hfind call hmem
  rw [hiff.mpr hnonTail, hno] at hanswer
  exact nomatch Except.ok.inj hanswer

/-- In front of the first call that is not a tail call there is no call at all, because a call that
something follows is not a tail call. -/
theorem firstNonTailCall?_eq_some {call : NodeId}
    (hfirst : (P.firstNonTailCall? owner : Outcome ε (Option NodeId)) = .ok (some call)) :
    P.NonTail owner call ∧ ∃ earlier later, subgraph.nodes = earlier ++ call :: later
      ∧ ∀ id ∈ earlier, ∀ node, P.nodes[id]? = some node → node.isCall = false := by
  obtain ⟨subgraph', hsubgraph', hfind⟩ := Outcome.bind_eq_ok.mp hfirst
  obtain rfl := Option.some.inj (hsubgraph.symm.trans (subgraph_eq_ok.mp hsubgraph'))
  obtain ⟨earlier, later, hsplit, hfound, hearlier⟩ := Outcome.findM?_eq_ok_some hfind
  have hmem : call ∈ subgraph.nodes := by simp [hsplit]
  obtain ⟨answer, hanswer, hiff⟩ := isNonTailCall_of_mem (ε := ε) hP hsubgraph hmem
  obtain rfl := Except.ok.inj (hfound.symm.trans hanswer)
  refine ⟨hiff.mp rfl, earlier, later, hsplit, fun id hid node hnode => ?_⟩
  have hfalse := hearlier id hid
  rw [isNonTailCall_eq_ok hsubgraph hnode, Except.ok.injEq, decide_eq_false_iff_not] at hfalse
  rw [← Bool.not_eq_true]
  refine fun hcall => hfalse ⟨hcall, fun htail => ?_⟩
  have hlast : id ∈ call :: later := by
    have hlast := htail.1
    rw [Subgraph.lastNode?, hsplit, List.getLast?_append_of_ne_nil _ (List.cons_ne_nil _ _)] at hlast
    exact List.mem_of_getLast? hlast
  have hnodup := hP.nodup hsubgraph
  rw [hsplit] at hnodup
  exact (List.nodup_append.mp hnodup).2.2 id hid id hlast rfl

end WellFormed

end Program

end TailFlow
