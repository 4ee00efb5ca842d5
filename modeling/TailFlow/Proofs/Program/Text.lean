import TailFlow.Program.Text
import TailFlow.Proofs.CallGraph.Catalog

/-!
# Every well-formed program has a text

Nothing that a text shows is missing in a well-formed program: the tensors that are read and written,
the subgraphs that binders name, and the nodes and subgraphs themselves are all there.
-/

namespace TailFlow.Program

variable {ε : Type} {P : Program}

theorem exists_tensorsText {ids : List TensorId} (hids : ∀ id ∈ ids, id < P.tensors.size) :
    ∃ text, (P.tensorsText ids : Outcome ε String) = .ok text := by
  obtain ⟨texts, htexts⟩ : ∃ texts, ids.mapM (fun id => do
      return TensorId.label id ++ ":" ++ (← P.tensor id).typeText) = (.ok texts : Outcome ε _) := by
    refine Outcome.exists_mapM_eq_ok fun id hmem => ?_
    rw [tensor_eq_ok.mpr (Array.getElem?_eq_getElem (hids id hmem)), Outcome.ok_bind]
    exact ⟨_, rfl⟩
  rw [tensorsText, htexts, Outcome.ok_bind]
  exact ⟨_, rfl⟩

namespace WellFormed

theorem exists_nodeText (hP : P.WellFormed) {listed : ListedNode} (hlists : P.Lists listed) :
    ∃ text, (P.nodeText listed.id : Outcome ε String) = .ok text := by
  obtain ⟨subgraph, -, -, hnode⟩ := id hlists
  have hoperands := hP.operands hlists
  obtain ⟨outputs, houtputs⟩ := exists_tensorsText (ε := ε) fun tensor hmem =>
    hoperands tensor (List.mem_append_right _ hmem)
  obtain ⟨inputs, hinputs⟩ := exists_tensorsText (ε := ε) fun tensor hmem =>
    hoperands tensor (List.mem_append_left _ hmem)
  rw [nodeText, node_eq_ok.mpr hnode, Outcome.ok_bind, houtputs, hinputs]
  cases hcallee : listed.node.callee? with
  | none => exact ⟨_, rfl⟩
  | some callee =>
    have hlt := callee_lt hP hlists (callee?_eq_some.mp hcallee)
    dsimp only
    rw [subgraph_eq_ok.mpr (Array.getElem?_eq_getElem hlt)]
    exact ⟨_, rfl⟩

theorem exists_subgraphText (hP : P.WellFormed) {id : SubgraphId} (hid : id < P.subgraphs.size) :
    ∃ text, (P.subgraphText id : Outcome ε String) = .ok text := by
  have hsubgraph := Array.getElem?_eq_getElem hid
  have hinterface := hP.interface hsubgraph
  obtain ⟨inputs, hinputs⟩ := exists_tensorsText (ε := ε) fun tensor hmem =>
    hinterface tensor (List.mem_append_left _ hmem)
  obtain ⟨outputs, houtputs⟩ := exists_tensorsText (ε := ε) fun tensor hmem =>
    hinterface tensor (List.mem_append_right _ hmem)
  obtain ⟨nodes, hnodes⟩ : ∃ nodes,
      P.subgraphs[id].nodes.mapM P.nodeText = (.ok nodes : Outcome ε (List String)) := by
    refine Outcome.exists_mapM_eq_ok fun node hmem => ?_
    obtain ⟨_, -, hlists⟩ := hP.exists_lists hsubgraph hmem
    exact hP.exists_nodeText hlists
  rw [subgraphText, subgraph_eq_ok.mpr hsubgraph, Outcome.ok_bind, hinputs, Outcome.ok_bind, houtputs,
    Outcome.ok_bind, hnodes, Outcome.ok_bind]
  exact ⟨_, rfl⟩

theorem exists_text (hP : P.WellFormed) : ∃ text, (P.text : Outcome ε String) = .ok text := by
  obtain ⟨subgraphs, hsubgraphs⟩ : ∃ subgraphs,
      P.order.mapM P.subgraphText = (.ok subgraphs : Outcome ε (List String)) :=
    Outcome.exists_mapM_eq_ok fun _ hmem => hP.exists_subgraphText (hP.mem_order.mp hmem)
  rw [text, hsubgraphs, Outcome.ok_bind]
  exact ⟨_, rfl⟩

end WellFormed

end TailFlow.Program
