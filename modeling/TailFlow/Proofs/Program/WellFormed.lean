import TailFlow.Proofs.Collection
import TailFlow.Proofs.Program.Arena
import TailFlow.Program.Validity

/-!
# Well-formed programs

What a checked program promises to everything that works on it: the order holds every subgraph once,
a node stands in one list at most and only once there, every number names an entry of its arena, and
nodes have the operands that their kind asks for. The steps of the scheduler keep all of this, and
they rely on nothing else that is checked.
-/

namespace TailFlow.Program

/-- A node has the inputs and outputs that its kind asks for. -/
def Fits (P : Program) (node : Node) : Prop :=
  match node.kind with
  | .kernel op =>
    match op.arity with
    | some arity => node.inputs.length = arity ∧ node.outputs.length = 1
    | none => node.inputs.length = node.outputs.length
  | .bind callee => ∃ target, P.subgraphs[callee]? = some target
      ∧ node.inputs.length = target.inputs.length ∧ node.outputs.length = 1
  | .call => node.inputs ≠ []
  | .switch => node.inputs.length = 3 ∧ node.outputs.length = 1
  | .switchLayer => 2 ≤ node.inputs.length ∧ node.outputs.length = 1

structure WellFormed (P : Program) : Prop where
  order : P.order.Perm P.subgraphIds
  entry : P.entry < P.subgraphs.size
  inArena : ∀ {owner : SubgraphId} {subgraph : Subgraph}, P.subgraphs[owner]? = some subgraph →
    ∀ id ∈ subgraph.nodes, id < P.nodes.size
  nodup : ∀ {owner : SubgraphId} {subgraph : Subgraph}, P.subgraphs[owner]? = some subgraph →
    subgraph.nodes.Nodup
  apart : ∀ {first second : SubgraphId} {a b : Subgraph}, P.subgraphs[first]? = some a →
    P.subgraphs[second]? = some b → ∀ id ∈ a.nodes, id ∈ b.nodes → first = second
  interface : ∀ {owner : SubgraphId} {subgraph : Subgraph}, P.subgraphs[owner]? = some subgraph →
    ∀ tensor ∈ subgraph.inputs ++ subgraph.outputs, tensor < P.tensors.size
  operands : ∀ {listed : ListedNode}, P.Lists listed →
    ∀ tensor ∈ listed.node.inputs ++ listed.node.outputs, tensor < P.tensors.size
  fits : ∀ {listed : ListedNode}, P.Lists listed → P.Fits listed.node

/-- No subgraph has come from scheduling. -/
def AllBodies (P : Program) : Prop :=
  ∀ ⦃id : SubgraphId⦄ ⦃subgraph : Subgraph⦄, P.subgraphs[id]? = some subgraph →
    subgraph.kind = .body

instance (P : Program) : Decidable P.AllBodies :=
  decidable_of_iff (∀ subgraph ∈ P.subgraphs, subgraph.kind = .body)
    ⟨fun h _ _ hsubgraph => h _ (Array.mem_of_getElem? hsubgraph), fun h _ hmem =>
      let ⟨_, hid⟩ := Array.getElem?_of_mem hmem
      h hid⟩

/-- Every subgraph of the first program is one of the second, with the same formals and of the same
kind. -/
def KeepsFormals (P P' : Program) : Prop :=
  ∀ ⦃id : SubgraphId⦄ ⦃subgraph : Subgraph⦄, P.subgraphs[id]? = some subgraph →
    ∃ subgraph', P'.subgraphs[id]? = some subgraph' ∧ subgraph'.inputs = subgraph.inputs
      ∧ subgraph'.kind = subgraph.kind

theorem KeepsFormals.trans {P P' P'' : Program} (h : P.KeepsFormals P')
    (h' : P'.KeepsFormals P'') : P.KeepsFormals P'' := by
  intro id subgraph hsubgraph
  obtain ⟨middle, hmiddle, hinputs, hkind⟩ := h hsubgraph
  obtain ⟨last, hlast, hinputs', hkind'⟩ := h' hmiddle
  exact ⟨last, hlast, hinputs'.trans hinputs, hkind'.trans hkind⟩

theorem KeepsFormals.fits {P P' : Program} (hformals : P.KeepsFormals P') {node node' : Node}
    (hfits : P.Fits node) (hkind : node'.kind = node.kind)
    (hinputs : node'.inputs.length = node.inputs.length)
    (houtputs : node'.outputs.length = node.outputs.length) : P'.Fits node' := by
  have hsome : node.inputs ≠ [] → node'.inputs ≠ [] := by
    simp only [ne_eq, ← List.length_eq_zero_iff, hinputs, imp_self]
  unfold Fits at hfits ⊢
  rw [hkind]
  split at hfits
  · split at hfits <;> simp_all
  · obtain ⟨target, htarget, hlength, hone⟩ := hfits
    obtain ⟨target', htarget', hsame, -⟩ := hformals htarget
    exact ⟨target', htarget', by rw [hinputs, hlength, hsame], by rw [houtputs, hone]⟩
  · exact hsome hfits
  · rwa [hinputs, houtputs]
  · rwa [hinputs, houtputs]

namespace WellFormed

variable {P : Program}

/-- The links of a program do not matter for its being well-formed. -/
theorem withLinks (hP : P.WellFormed) (links : IdMap Link) : { P with links }.WellFormed where
  order := hP.order
  entry := hP.entry
  inArena := hP.inArena
  nodup := hP.nodup
  apart := hP.apart
  interface := hP.interface
  operands := hP.operands
  fits := hP.fits

theorem mem_order (hP : P.WellFormed) {id : SubgraphId} :
    id ∈ P.order ↔ id < P.subgraphs.size :=
  hP.order.mem_iff.trans mem_subgraphIds

theorem order_nodup (hP : P.WellFormed) : P.order.Nodup :=
  hP.order.nodup_iff.mpr List.nodup_range

theorem exists_lists (hP : P.WellFormed) {owner : SubgraphId} {subgraph : Subgraph}
    (hsubgraph : P.subgraphs[owner]? = some subgraph) {id : NodeId} (hid : id ∈ subgraph.nodes) :
    ∃ node, P.nodes[id]? = some node ∧ P.Lists ⟨owner, id, node⟩ := by
  have hlt := hP.inArena hsubgraph id hid
  have hnode := Array.getElem?_eq_getElem hlt
  exact ⟨P.nodes[id], hnode, subgraph, hsubgraph, hid, hnode⟩

theorem lists_unique (hP : P.WellFormed) {first second : ListedNode} (hfirst : P.Lists first)
    (hsecond : P.Lists second) (hid : first.id = second.id) : first = second := by
  obtain ⟨owner, id, node⟩ := first
  obtain ⟨owner', id', node'⟩ := second
  obtain ⟨a, ha, hmema, hnode⟩ := hfirst
  obtain ⟨b, hb, hmemb, hnode'⟩ := hsecond
  obtain rfl : id = id' := hid
  obtain rfl : node = node' := Option.some.inj (hnode.symm.trans hnode')
  obtain rfl : owner = owner' := hP.apart ha hb id hmema hmemb
  rfl

theorem inputs_lt (hP : P.WellFormed) {listed : ListedNode} (hlists : P.Lists listed)
    {tensor : TensorId} (hmem : tensor ∈ listed.node.inputs) : tensor < P.tensors.size :=
  hP.operands hlists tensor (List.mem_append_left _ hmem)

theorem outputs_lt (hP : P.WellFormed) {listed : ListedNode} (hlists : P.Lists listed)
    {tensor : TensorId} (hmem : tensor ∈ listed.node.outputs) : tensor < P.tensors.size :=
  hP.operands hlists tensor (List.mem_append_right _ hmem)

theorem exists_listedIn {ε : Type} (hP : P.WellFormed) {owner : SubgraphId}
    (howner : owner < P.subgraphs.size) :
    ∃ answers, (P.listedIn owner : Outcome ε (List ListedNode)) = .ok answers := by
  have hsubgraph := Array.getElem?_eq_getElem howner
  obtain ⟨answers, hanswers⟩ : ∃ answers, (P.subgraphs[owner].nodes.mapM fun id => do
      return ⟨owner, id, ← P.node id⟩ : Outcome ε (List ListedNode)) = .ok answers := by
    refine Outcome.exists_mapM_eq_ok fun id hid => ?_
    obtain ⟨node, hnode, -⟩ := hP.exists_lists hsubgraph hid
    rw [node_eq_ok.mpr hnode, Outcome.ok_bind]
    exact ⟨_, rfl⟩
  rw [listedIn, subgraph_eq_ok.mpr hsubgraph, Outcome.ok_bind]
  exact ⟨answers, hanswers⟩

theorem exists_listing {ε : Type} (hP : P.WellFormed) :
    ∃ listing, (P.listing : Outcome ε (List ListedNode)) = .ok listing := by
  obtain ⟨lists, hlists⟩ : ∃ lists, P.order.mapM (P.listedIn (ε := ε)) = .ok lists :=
    Outcome.exists_mapM_eq_ok fun owner howner => hP.exists_listedIn (hP.mem_order.mp howner)
  rw [listing, hlists, Outcome.ok_bind]
  exact ⟨_, rfl⟩

theorem mem_listing {ε : Type} (hP : P.WellFormed) {listing : List ListedNode}
    (hlist : (P.listing : Outcome ε (List ListedNode)) = .ok listing) {listed : ListedNode} :
    listed ∈ listing ↔ P.Lists listed := by
  rw [Program.mem_listing hlist, hP.mem_order]
  exact and_iff_right_of_imp fun ⟨_, hsubgraph, _⟩ => subgraph_lt hsubgraph

theorem owner?_eq (hP : P.WellFormed) {listed : ListedNode} (hlists : P.Lists listed) :
    P.owner? listed.id = some listed.owner := by
  obtain ⟨subgraph, hsubgraph, hid, -⟩ := hlists
  unfold owner?
  have hlt := subgraph_lt hsubgraph
  have hall : ∀ owner ∈ P.subgraphIds.reverse,
      ((P.subgraphs[owner]?.map fun subgraph => subgraph.nodes.contains listed.id).getD false
        = true) ↔ owner = listed.owner := by
    intro owner howner
    have hfound := Array.getElem?_eq_getElem
      (mem_subgraphIds.mp (List.mem_reverse.mp howner))
    constructor
    · intro hcontains
      rw [hfound] at hcontains
      exact hP.apart hfound hsubgraph listed.id (by simpa using hcontains) hid
    · rintro rfl
      simpa [hsubgraph] using hid
  cases hfind : P.subgraphIds.reverse.find? fun owner =>
      (P.subgraphs[owner]?.map fun subgraph => subgraph.nodes.contains listed.id).getD false with
  | none =>
    have hmem : listed.owner ∈ P.subgraphIds.reverse :=
      List.mem_reverse.mpr (mem_subgraphIds.mpr hlt)
    exact absurd ((hall _ hmem).mpr rfl) (List.find?_eq_none.mp hfind _ hmem)
  | some owner =>
    have hcontains := List.find?_some
      (p := fun owner : SubgraphId => (P.subgraphs[owner]?.map fun subgraph : Subgraph =>
        subgraph.nodes.contains listed.id).getD false) hfind
    exact congrArg some ((hall owner (List.mem_of_find?_eq_some hfind)).mp hcontains)

end WellFormed

/-! ### A checked program is well-formed -/

section Validate

variable {P : Program}

theorem require_eq_ok {condition : Bool} {defect : Defect} :
    require condition defect = .ok () ↔ condition = true := by
  cases condition <;> simp [require]

theorem checkTensors_eq_ok {place : Place} {ids : List TensorId} :
    P.checkTensors place ids = .ok () ↔ ∀ id ∈ ids, id < P.tensors.size := by
  simp only [checkTensors, Outcome.forM_eq_ok, require_eq_ok, decide_eq_true_eq]

theorem checkShape_eq_ok {place : Place} {node : Node} :
    P.checkShape place node = .ok () ↔ P.Fits node := by
  obtain ⟨name, kind, inputs, outputs⟩ := node
  cases kind with
  | kernel op => cases op <;> simp [checkShape, Fits, KernelOp.arity, require_eq_ok]
  | bind callee =>
    unfold checkShape Fits
    cases hfound : P.subgraphs[callee]? with
    | none => simp [hfound]
    | some target =>
      simp only [hfound, Outcome.check_bind_eq_ok, require_eq_ok, beq_iff_eq, Option.some.injEq,
        exists_eq_left']
  | call => simp [checkShape, Fits, require_eq_ok]
  | switch => simp [checkShape, Fits, require_eq_ok]
  | switchLayer => simp [checkShape, Fits, require_eq_ok]

theorem checkNode_eq_ok {owner : SubgraphId} {name : String} {id : NodeId} {node : Node} :
    P.checkNode owner name id node = .ok ()
      ↔ (∀ tensor ∈ node.inputs ++ node.outputs, tensor < P.tensors.size) ∧ P.Fits node := by
  simp only [checkNode, Outcome.check_bind_eq_ok, checkTensors_eq_ok, checkShape_eq_ok]

theorem checkList_eq_ok {owner : SubgraphId} {name : String} {ids : List NodeId}
    {owners owners' : IdMap SubgraphId}
    (hcheck : P.checkList owner name ids owners = .ok owners') :
    (∀ id ∈ ids, owners.get? id = none ∧ ∃ node, P.nodes[id]? = some node
        ∧ P.checkNode owner name id node = .ok ())
      ∧ ids.Nodup
      ∧ ∀ id, owners'.get? id = if id ∈ ids then some owner else owners.get? id := by
  induction ids generalizing owners with
  | nil =>
    obtain rfl := Except.ok.inj hcheck
    exact ⟨List.forall_mem_nil _, .nil, fun id => by simp⟩
  | cons id rest ih =>
    unfold checkList at hcheck
    split at hcheck
    · exact nomatch hcheck
    · rename_i node hnode
      split at hcheck
      · exact nomatch hcheck
      · rename_i hnew
        obtain ⟨hok, hrest⟩ := Outcome.check_bind_eq_ok.mp hcheck
        obtain ⟨hall, hnodup, hget⟩ := ih hrest
        have habsent : id ∉ rest := fun hmem => by
          have := (hall id hmem).1
          simp at this
        refine ⟨List.forall_mem_cons.mpr ⟨⟨hnew, node, hnode, hok⟩, fun other hmem => ?_⟩,
          List.nodup_cons.mpr ⟨habsent, hnodup⟩, fun other => ?_⟩
        · obtain ⟨hfree, hother⟩ := hall other hmem
          have hne : id ≠ other := fun h => habsent (h ▸ hmem)
          rw [IdMap.get?_insert, if_neg hne] at hfree
          exact ⟨hfree, hother⟩
        · rw [hget, IdMap.get?_insert]
          by_cases hmem : other ∈ rest
          · simp [hmem]
          · by_cases hid : id = other
            · simp [hid]
            · simp [hmem, hid, Ne.symm hid]

theorem checkSubgraphs_eq_ok {id : SubgraphId} {subgraphs : List Subgraph}
    {owners : IdMap SubgraphId} (hcheck : P.checkSubgraphs id subgraphs owners = .ok ()) :
    (∀ subgraph ∈ subgraphs,
        (∀ tensor ∈ subgraph.inputs ++ subgraph.outputs, tensor < P.tensors.size)
          ∧ subgraph.nodes.Nodup ∧ ∀ n ∈ subgraph.nodes, owners.get? n = none
            ∧ ∃ node, P.nodes[n]? = some node
              ∧ (∀ tensor ∈ node.inputs ++ node.outputs, tensor < P.tensors.size)
              ∧ P.Fits node)
      ∧ subgraphs.Pairwise fun a b => ∀ n ∈ a.nodes, n ∉ b.nodes := by
  induction subgraphs generalizing id owners with
  | nil => exact ⟨List.forall_mem_nil _, .nil⟩
  | cons subgraph rest ih =>
    obtain ⟨htensors, hcheck⟩ := Outcome.check_bind_eq_ok.mp hcheck
    obtain ⟨owners', hlist, hrest⟩ := Outcome.bind_eq_ok.mp hcheck
    obtain ⟨hnodes, hnodup, hget⟩ := checkList_eq_ok hlist
    obtain ⟨hall, hpairs⟩ := ih hrest
    have hfree {other : Subgraph} (hother : other ∈ rest) {n : NodeId} (hn : n ∈ other.nodes) :
        n ∉ subgraph.nodes ∧ owners.get? n = none := by
      have hnone := ((hall other hother).2.2 n hn).1
      rw [hget] at hnone
      by_cases hmem : n ∈ subgraph.nodes
      · simp [hmem] at hnone
      · exact ⟨hmem, by simpa [hmem] using hnone⟩
    refine ⟨List.forall_mem_cons.mpr ⟨⟨checkTensors_eq_ok.mp htensors, hnodup, fun n hn => ?_⟩,
      fun other hother => ?_⟩, List.pairwise_cons.mpr ⟨fun other hother n hn hn' => ?_, hpairs⟩⟩
    · obtain ⟨hnone, node, hnode, hok⟩ := hnodes n hn
      exact ⟨hnone, node, hnode, checkNode_eq_ok.mp hok⟩
    · obtain ⟨hinterface, hnodup', hothers⟩ := hall other hother
      exact ⟨hinterface, hnodup', fun n hn => ⟨(hfree hother hn).2, (hothers n hn).2⟩⟩
    · exact (hfree hother hn').1 hn

theorem checkOrder_eq_ok (hcheck : P.checkOrder = .ok ()) : P.order.Perm P.subgraphIds := by
  have hcondition := require_eq_ok.mp hcheck
  simp only [Bool.and_eq_true, beq_iff_eq, List.all_eq_true, List.contains_iff_mem] at hcondition
  obtain ⟨hlength, hall⟩ := hcondition
  have hsub : P.subgraphIds.Subperm P.order := List.subperm_of_subset List.nodup_range hall
  refine (hsub.perm_of_length_le ?_).symm
  simp [subgraphIds, hlength]

/-- Everything that is checked apart from constants, program results and links. -/
theorem wellFormed_of_validate (hvalid : P.validate = .ok ()) : P.WellFormed := by
  simp only [validate, Outcome.check_bind_eq_ok] at hvalid
  obtain ⟨hentry, -, -, horder, hsubgraphs, -⟩ := hvalid
  obtain ⟨hall, hpairs⟩ := checkSubgraphs_eq_ok hsubgraphs
  have hmem {owner : SubgraphId} {subgraph : Subgraph}
      (hsubgraph : P.subgraphs[owner]? = some subgraph) : subgraph ∈ P.subgraphs.toList :=
    Array.mem_toList_iff.mpr (Array.mem_of_getElem? hsubgraph)
  refine ⟨checkOrder_eq_ok horder, by simpa using require_eq_ok.mp hentry, ?_, ?_, ?_, ?_, ?_, ?_⟩
  · intro owner subgraph hsubgraph id hid
    obtain ⟨-, node, hnode, -⟩ := (hall subgraph (hmem hsubgraph)).2.2 id hid
    exact node_lt hnode
  · exact fun hsubgraph => (hall _ (hmem hsubgraph)).2.1
  · intro first second a b ha hb id hida hidb
    have hget {i : SubgraphId} {s : Subgraph} (hs : P.subgraphs[i]? = some s) :
        ∃ h : i < P.subgraphs.toList.length, P.subgraphs.toList[i] = s := by
      simpa [Array.getElem?_eq_some_iff] using hs
    obtain ⟨hi, rfl⟩ := hget ha
    obtain ⟨hj, rfl⟩ := hget hb
    rcases Nat.lt_trichotomy first second with hlt | heq | hgt
    · exact absurd hidb (List.pairwise_iff_getElem.mp hpairs _ _ hi hj hlt id hida)
    · exact heq
    · exact absurd hida (List.pairwise_iff_getElem.mp hpairs _ _ hj hi hgt id hidb)
  · exact fun hsubgraph => (hall _ (hmem hsubgraph)).1
  · rintro ⟨owner, id, node⟩ ⟨subgraph, hsubgraph, hid, hnode⟩
    obtain ⟨-, node', hnode', htensors, -⟩ := (hall subgraph (hmem hsubgraph)).2.2 id hid
    obtain rfl : node = node' := Option.some.inj (hnode.symm.trans hnode')
    exact htensors
  · rintro ⟨owner, id, node⟩ ⟨subgraph, hsubgraph, hid, hnode⟩
    obtain ⟨-, node', hnode', -, hfits⟩ := (hall subgraph (hmem hsubgraph)).2.2 id hid
    obtain rfl : node = node' := Option.some.inj (hnode.symm.trans hnode')
    exact hfits

end Validate

end TailFlow.Program
