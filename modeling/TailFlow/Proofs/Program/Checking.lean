import TailFlow.Proofs.Program.WellFormed

/-!
# What is checked of a program

Besides being well-formed a checked program has results that are there, constants that fill their
shapes, and links that are kept under their calls and lead to where they say. Nothing else is checked,
so whoever changes a program may show these facts instead of running the checks.
-/

namespace TailFlow.Program

variable {P : Program}

/-- What is checked of the link that is kept under a call. -/
structure LinkFits (P : Program) (call : NodeId) (link : Link) : Prop where
  keyed : call = link.call
  calls : ∃ node, P.nodes[call]? = some node ∧ node.isCall
  resumes : ∃ continuation, P.subgraphs[link.continuation]? = some continuation
    ∧ continuation.nodes.head? = some link.consumer
  tensors : ∀ tensor ∈ link.tensors, tensor < P.tensors.size

def ConstantsFilled (P : Program) : Prop :=
  ∀ ⦃id : TensorId⦄ ⦃tensor : Tensor⦄ ⦃values : List Float32⦄, P.tensors[id]? = some tensor →
    tensor.constant = some values → values.length = elementCount tensor.shape

/-! ### Checks that pass -/

theorem checkOrder_of_perm (horder : P.order.Perm P.subgraphIds) : P.checkOrder = .ok () := by
  refine require_eq_ok.mpr ?_
  simp only [Bool.and_eq_true, beq_iff_eq, List.all_eq_true, List.contains_iff_mem]
  refine ⟨?_, fun id hid => horder.mem_iff.mpr hid⟩
  rw [horder.length_eq, subgraphIds, List.length_range]

theorem exists_checkList {owner : SubgraphId} {name : String} {ids : List NodeId}
    {owners : IdMap SubgraphId}
    (hids : ∀ id ∈ ids, owners.get? id = none ∧ ∃ node, P.nodes[id]? = some node
      ∧ P.checkNode owner name id node = .ok ())
    (hnodup : ids.Nodup) : ∃ owners', P.checkList owner name ids owners = .ok owners' := by
  induction ids generalizing owners with
  | nil => exact ⟨owners, rfl⟩
  | cons id rest ih =>
    obtain ⟨⟨hfree, node, hnode, hcheck⟩, hothers⟩ := List.forall_mem_cons.mp hids
    obtain ⟨habsent, hnodup⟩ := List.nodup_cons.mp hnodup
    obtain ⟨owners', hrest⟩ := @ih (owners.insert id owner) (fun other hmem => by
      obtain ⟨hfree, hother⟩ := hothers other hmem
      have hne : id ≠ other := fun hsame => habsent (hsame ▸ hmem)
      exact ⟨by rw [IdMap.get?_insert, if_neg hne, hfree], hother⟩) hnodup
    refine ⟨owners', ?_⟩
    simp only [checkList, hnode, hfree]
    rw [hcheck, Outcome.ok_bind]
    exact hrest

theorem checkSubgraphs_of_apart {id : SubgraphId} {subgraphs : List Subgraph}
    {owners : IdMap SubgraphId}
    (hall : ∀ subgraph ∈ subgraphs,
      (∀ tensor ∈ subgraph.inputs ++ subgraph.outputs, tensor < P.tensors.size)
        ∧ subgraph.nodes.Nodup ∧ ∀ n ∈ subgraph.nodes, owners.get? n = none
          ∧ ∃ node, P.nodes[n]? = some node
            ∧ (∀ tensor ∈ node.inputs ++ node.outputs, tensor < P.tensors.size) ∧ P.Fits node)
    (hapart : subgraphs.Pairwise fun a b => ∀ n ∈ a.nodes, n ∉ b.nodes) :
    P.checkSubgraphs id subgraphs owners = .ok () := by
  induction subgraphs generalizing id owners with
  | nil => rfl
  | cons subgraph rest ih =>
    obtain ⟨⟨hinterface, hnodup, hnodes⟩, hothers⟩ := List.forall_mem_cons.mp hall
    obtain ⟨hfirst, hpairs⟩ := List.pairwise_cons.mp hapart
    obtain ⟨owners', hlist⟩ : ∃ owners',
        P.checkList id subgraph.name subgraph.nodes owners = .ok owners' := by
      refine exists_checkList (fun n hn => ?_) hnodup
      obtain ⟨hfree, node, hnode, hok⟩ := hnodes n hn
      exact ⟨hfree, node, hnode, checkNode_eq_ok.mpr hok⟩
    obtain ⟨-, -, hget⟩ := checkList_eq_ok hlist
    rw [checkSubgraphs, checkTensors_eq_ok.mpr hinterface, Outcome.ok_bind, hlist, Outcome.ok_bind]
    refine ih (fun other hother => ?_) hpairs
    obtain ⟨hinterface', hnodup', hnodes'⟩ := hothers other hother
    refine ⟨hinterface', hnodup', fun n hn => ⟨?_, (hnodes' n hn).2⟩⟩
    rw [hget, if_neg fun hmem => hfirst other hother n hmem hn]
    exact (hnodes' n hn).1

theorem checkConstant_eq_ok {id : TensorId} {tensor : Tensor} : checkConstant id tensor = .ok ()
    ↔ ∀ values, tensor.constant = some values → values.length = elementCount tensor.shape := by
  unfold checkConstant
  cases tensor.constant with
  | none => exact ⟨fun _ => nofun, fun _ => rfl⟩
  | some values => simp only [require_eq_ok, beq_iff_eq, Option.some.injEq, forall_eq']

theorem checkLink_eq_ok {call : NodeId} {link : Link} :
    P.checkLink call link = .ok () ↔ P.LinkFits call link := by
  have hcalls : (P.nodes[call]?.map Node.isCall).getD false = true
      ↔ ∃ node, P.nodes[call]? = some node ∧ node.isCall := by
    cases P.nodes[call]? <;> simp
  unfold checkLink
  rw [Outcome.check_bind_eq_ok, require_eq_ok, Bool.and_eq_true, beq_iff_eq, hcalls]
  cases hcontinuation : P.subgraphs[link.continuation]? with
  | none =>
    refine ⟨fun h => (nomatch h.2), fun h => ?_⟩
    obtain ⟨continuation, hsome, -⟩ := h.resumes
    exact nomatch hcontinuation.symm.trans hsome
  | some continuation =>
    simp only [Outcome.check_bind_eq_ok, require_eq_ok, beq_iff_eq, checkTensors_eq_ok]
    constructor
    · exact fun ⟨⟨hkeyed, hcalls⟩, hhead, htensors⟩ =>
        ⟨hkeyed, hcalls, ⟨continuation, hcontinuation, hhead⟩, htensors⟩
    · intro ⟨hkeyed, hcalls, ⟨found, hfound, hhead⟩, htensors⟩
      obtain rfl := Option.some.inj (hcontinuation.symm.trans hfound)
      exact ⟨⟨hkeyed, hcalls⟩, hhead, htensors⟩

/-! ### The whole check -/

theorem WellFormed.checkSubgraphs_eq_ok (hP : P.WellFormed) :
    P.checkSubgraphs 0 P.subgraphs.toList .empty = .ok () := by
  refine checkSubgraphs_of_apart (fun subgraph hmem => ?_) ?_
  · obtain ⟨owner, hsubgraph⟩ := Array.getElem?_of_mem (Array.mem_toList_iff.mp hmem)
    refine ⟨hP.interface hsubgraph, hP.nodup hsubgraph, fun n hn => ⟨rfl, ?_⟩⟩
    obtain ⟨node, hnode, hlists⟩ := hP.exists_lists hsubgraph hn
    exact ⟨node, hnode, hP.operands hlists, hP.fits hlists⟩
  · refine List.pairwise_iff_getElem.mpr fun first second hfirst hsecond hlt n hn hn' => ?_
    have hget {id : SubgraphId} (hid : id < P.subgraphs.toList.length) :
        P.subgraphs[id]? = some P.subgraphs.toList[id] := by
      rw [Array.getElem_toList, Array.getElem?_eq_getElem]
    exact Nat.ne_of_lt hlt (hP.apart (hget hfirst) (hget hsecond) n hn hn')

/-- A program passes the checks if it is well-formed, its results are there, its constants fill their
shapes and its links fit. -/
theorem validate_eq_ok : P.validate = .ok () ↔ P.WellFormed
    ∧ (∀ tensor ∈ P.outputs, tensor < P.tensors.size) ∧ P.ConstantsFilled
    ∧ ∀ call link, P.links.get? call = some link → P.LinkFits call link := by
  have hconstants : (P.tensors.toList.zipIdx.forM fun entry => checkConstant entry.2 entry.1)
      = .ok () ↔ P.ConstantsFilled := by
    rw [Outcome.forM_eq_ok]
    simp only [Prod.forall, List.mem_zipIdx_iff_getElem?, checkConstant_eq_ok, Array.getElem?_toList]
    exact ⟨fun h id tensor values hid => h tensor id hid values,
      fun h tensor id hid values => h hid⟩
  have hlinks : (P.links.entries.forM fun entry => P.checkLink entry.1 entry.2) = .ok ()
      ↔ ∀ call link, P.links.get? call = some link → P.LinkFits call link := by
    rw [Outcome.forM_eq_ok]
    simp only [Prod.forall, checkLink_eq_ok, IdMap.get?_eq_some_iff]
  constructor
  · intro hvalid
    refine ⟨wellFormed_of_validate hvalid, ?_⟩
    simp only [validate, Outcome.check_bind_eq_ok] at hvalid
    obtain ⟨-, houtputs, hfilled, -, -, hfits⟩ := hvalid
    exact ⟨checkTensors_eq_ok.mp houtputs, hconstants.mp hfilled, hlinks.mp hfits⟩
  · rintro ⟨hP, houtputs, hfilled, hfits⟩
    simp only [validate, Outcome.check_bind_eq_ok]
    exact ⟨require_eq_ok.mpr (decide_eq_true hP.entry), checkTensors_eq_ok.mpr houtputs,
      hconstants.mpr hfilled, checkOrder_of_perm hP.order, hP.checkSubgraphs_eq_ok, hlinks.mpr hfits⟩

end TailFlow.Program
