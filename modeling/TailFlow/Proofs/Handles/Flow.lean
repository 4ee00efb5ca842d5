import TailFlow.CallGraph.Resolution
import TailFlow.Proofs.Program.WellFormed

/-!
# How handles flow

A handle is written by a binder and passed on by switches until a call reads it. The searches that
follow handles forwards and backwards are matched here with relations on the nodes that subgraphs
list: `Program.Reaches` from a binder to a call, and `Program.Resolves` for a handle that leads back
to nothing but binders. Forwards the search is exact for every well-formed program. Backwards it
follows the first writer of a tensor only, so there every handle has to have one writer.
-/

namespace TailFlow

/-- Whether a node writes a handle: it is a binder or a switch. -/
def Node.givesHandle (node : Node) : Bool := node.kind.isSwitch || node.callee?.isSome

theorem Node.givesHandle_of_callee? {node : Node} (hbinder : node.callee?.isSome) :
    node.givesHandle := by
  simp [givesHandle, hbinder]

theorem Node.mem_branches {node : Node} {branch : TensorId} :
    branch ∈ node.branches ↔ node.kind.isSwitch ∧ branch ∈ node.inputs.drop 1 := by
  unfold branches
  split <;> simp [*]

theorem Node.givesHandle_of_mem_branches {node : Node} {branch : TensorId}
    (hbranch : branch ∈ node.branches) : node.givesHandle := by
  simp [givesHandle, (mem_branches.mp hbranch).1]

theorem Node.mem_inputs_of_mem_branches {node : Node} {branch : TensorId}
    (hbranch : branch ∈ node.branches) : branch ∈ node.inputs :=
  List.mem_of_mem_drop (mem_branches.mp hbranch).2

theorem Node.givesHandle_ne_call {node : Node} (hhandle : node.givesHandle) :
    node.isCall = false := by
  obtain ⟨name, kind, inputs, outputs⟩ := node
  cases kind <;> simp_all [givesHandle, isCall, callee?, NodeKind.callee?, NodeKind.isSwitch]

namespace Program

variable {ε : Type} {P : Program}

theorem Fits.length_outputs {node : Node} (hfits : P.Fits node) (hhandle : node.givesHandle) :
    node.outputs.length = 1 := by
  obtain ⟨name, kind, inputs, outputs⟩ := node
  cases kind with
  | kernel op => simp [Node.givesHandle, Node.callee?, NodeKind.callee?, NodeKind.isSwitch] at hhandle
  | bind callee => exact hfits.choose_spec.2.2
  | call => simp [Node.givesHandle, Node.callee?, NodeKind.callee?, NodeKind.isSwitch] at hhandle
  | switch => exact hfits.2
  | switchLayer => exact hfits.2

theorem Fits.two_le_inputs {node : Node} (hfits : P.Fits node) (hswitch : node.kind.isSwitch) :
    2 ≤ node.inputs.length := by
  obtain ⟨name, kind, inputs, outputs⟩ := node
  cases kind with
  | kernel op => exact nomatch hswitch
  | bind callee => exact nomatch hswitch
  | call => exact nomatch hswitch
  | switch => exact hfits.1 ▸ Nat.le_succ 2
  | switchLayer => exact hfits.1

theorem WellFormed.exists_handle (hP : P.WellFormed) {listed : ListedNode} (hlists : P.Lists listed)
    (hcall : listed.node.isCall) : ∃ handle, listed.node.inputs.head? = some handle := by
  have hfits := hP.fits hlists
  have hkind : listed.node.kind = .call := of_decide_eq_true hcall
  rw [Fits, hkind] at hfits
  exact ⟨_, List.head?_eq_some_head hfits⟩

theorem WellFormed.outputs_of_mem (hP : P.WellFormed) {listed : ListedNode}
    (hlists : P.Lists listed) (hhandle : listed.node.givesHandle) {handle : TensorId}
    (houtput : handle ∈ listed.node.outputs) : listed.node.outputs = [handle] := by
  obtain ⟨only, honly⟩ :=
    List.length_eq_one_iff.mp (Fits.length_outputs (hP.fits hlists) hhandle)
  rw [honly, List.mem_singleton] at houtput
  rw [honly, houtput]

/-- A listed binder or switch writes the tensor. -/
def IsHandle (P : Program) (tensor : TensorId) : Prop :=
  ∃ listed, P.Lists listed ∧ listed.node.givesHandle ∧ tensor ∈ listed.node.outputs

/-- The handle of a binder is passed on into a tensor. -/
inductive Flows (P : Program) (binder : NodeId) : TensorId → Prop where
  | made {listed : ListedNode} {handle : TensorId} (hlists : P.Lists listed)
      (hid : listed.id = binder) (hbinder : listed.node.callee?.isSome)
      (houtput : handle ∈ listed.node.outputs) : Flows P binder handle
  | picked {listed : ListedNode} {branch handle : TensorId} (hbranch : Flows P binder branch)
      (hlists : P.Lists listed) (hreads : branch ∈ listed.node.branches)
      (houtput : handle ∈ listed.node.outputs) : Flows P binder handle

theorem Flows.isHandle {binder : NodeId} {handle : TensorId} (hflows : P.Flows binder handle) :
    P.IsHandle handle := by
  cases hflows with
  | made hlists _ hbinder houtput =>
    exact ⟨_, hlists, Node.givesHandle_of_callee? hbinder, houtput⟩
  | picked _ hlists hreads houtput =>
    exact ⟨_, hlists, Node.givesHandle_of_mem_branches hreads, houtput⟩

/-- The call that reads a tensor as its handle. -/
def CallsHandle (P : Program) (call : NodeId) (handle : TensorId) : Prop :=
  ∃ listed, P.Lists listed ∧ listed.id = call ∧ listed.node.isCall
    ∧ listed.node.inputs.head? = some handle

/-- The handle of a binder is passed on to a call. -/
def Reaches (P : Program) (binder call : NodeId) : Prop :=
  ∃ handle, P.Flows binder handle ∧ P.CallsHandle call handle

/-! ### Forwards -/

section Forwards

variable {listing : List ListedNode}

/-- Tensors of which each node has at most as many as it names are at most as many as are named. -/
theorem length_flatMap_le_mentions (listing : List ListedNode) {named : Node → List TensorId}
    (hle : ∀ node, (named node).length ≤ node.inputs.length + node.outputs.length) :
    (listing.flatMap fun listed => named listed.node).length ≤ ListedNode.mentions listing := by
  induction listing with
  | nil => simp
  | cons listed rest ih =>
    have hhead := hle listed.node
    simp only [ListedNode.mentions, List.map_cons, sumOf_cons, List.flatMap_cons,
      List.length_append] at ih ⊢
    omega

theorem mem_copies {handle copy : TensorId} :
    copy ∈ ListedNode.copies listing handle
      ↔ ∃ listed ∈ listing, handle ∈ listed.node.branches ∧ copy ∈ listed.node.outputs := by
  unfold ListedNode.copies
  rw [List.mem_flatMap]
  refine exists_congr fun listed => and_congr_right fun _ => ?_
  split <;> simp_all

theorem mem_destinations {handles : List TensorId} {tensor : TensorId} :
    tensor ∈ ListedNode.destinations listing handles
      ↔ ∃ handle ∈ handles, Reach.Leads (ListedNode.copies listing) handle tensor := by
  unfold ListedNode.destinations
  rw [Reach.mem_closure_iff (listing.flatMap fun listed => listed.node.outputs)]
  · simp only [IdSet.mem_ofList]
  · intro origin tensor hcopy
    obtain ⟨listed, hlisted, -, houtput⟩ := mem_copies.mp hcopy
    exact List.mem_flatMap.mpr ⟨listed, hlisted, houtput⟩
  · exact Nat.lt_succ_of_le (length_flatMap_le_mentions listing fun _ => Nat.le_add_left _ _)

theorem flows_iff (hP : P.WellFormed)
    (hlist : (P.listing : Outcome ε (List ListedNode)) = .ok listing) {listed : ListedNode}
    (hlists : P.Lists listed) (hbinder : listed.node.callee?.isSome) {tensor : TensorId} :
    P.Flows listed.id tensor ↔ tensor ∈ ListedNode.destinations listing listed.node.outputs := by
  rw [mem_destinations]
  constructor
  · intro hflows
    induction hflows with
    | made hother hid _ houtput =>
      obtain rfl := hP.lists_unique hother hlists hid
      exact ⟨_, houtput, .refl⟩
    | picked _ hother hreads houtput ih =>
      obtain ⟨handle, hhandle, hleads⟩ := ih
      exact ⟨handle, hhandle, hleads.tail
        (mem_copies.mpr ⟨_, (hP.mem_listing hlist).mpr hother, hreads, houtput⟩)⟩
  · rintro ⟨handle, hhandle, hleads⟩
    induction hleads with
    | refl => exact .made hlists rfl hbinder hhandle
    | tail _ hstep ih =>
      obtain ⟨other, hother, hreads, houtput⟩ := mem_copies.mp hstep
      exact .picked ih ((hP.mem_listing hlist).mp hother) hreads houtput

theorem mem_callsReached (hP : P.WellFormed)
    (hlist : (P.listing : Outcome ε (List ListedNode)) = .ok listing) {listed : ListedNode}
    (hlists : P.Lists listed) (hbinder : listed.node.callee?.isSome) {calls : IdSet}
    (hcalls : (P.callsReached listing listed.id : Outcome ε IdSet) = .ok calls) {call : NodeId} :
    call ∈ calls ↔ P.Reaches listed.id call := by
  obtain ⟨node, hnode, hpure⟩ := Outcome.bind_eq_ok.mp hcalls
  obtain ⟨-, -, -, hnode'⟩ := id hlists
  obtain rfl : listed.node = node := Option.some.inj (hnode'.symm.trans (node_eq_ok.mp hnode))
  obtain rfl := Outcome.pure_eq_ok.mp hpure
  unfold ListedNode.reachedCalls
  rw [IdSet.mem_ofList, List.mem_map]
  have hcallsOne (reader : ListedNode) :
      ListedNode.callsOneOf (ListedNode.destinations listing listed.node.outputs) reader = true
        ↔ reader.node.isCall ∧ ∃ handle, reader.node.inputs.head? = some handle
          ∧ P.Flows listed.id handle := by
    unfold ListedNode.callsOneOf
    rw [Bool.and_eq_true]
    refine and_congr_right fun _ => ?_
    cases reader.node.inputs.head? with
    | none => simp
    | some handle => simp [flows_iff hP hlist hlists hbinder]
  constructor
  · rintro ⟨reader, hmem, rfl⟩
    obtain ⟨hreader, hcondition⟩ := List.mem_filter.mp hmem
    obtain ⟨hcall, handle, hhead, hflows⟩ := (hcallsOne reader).mp hcondition
    exact ⟨handle, hflows, reader, (hP.mem_listing hlist).mp hreader, rfl, hcall, hhead⟩
  · rintro ⟨handle, hflows, reader, hreader, rfl, hcall, hhead⟩
    exact ⟨reader, List.mem_filter.mpr ⟨(hP.mem_listing hlist).mpr hreader,
      (hcallsOne reader).mpr ⟨hcall, handle, hhead, hflows⟩⟩, rfl⟩

end Forwards

/-! ### Backwards -/

/-- Every handle has one writer among the listed nodes. -/
def HandlesUnique (P : Program) : Prop :=
  ∀ ⦃writer other : ListedNode⦄ ⦃handle : TensorId⦄, P.Lists writer → writer.node.givesHandle →
    handle ∈ writer.node.outputs → P.Lists other → handle ∈ other.node.outputs → other = writer

/-- A switch picks the second tensor into the first one. -/
def ComesFrom (P : Program) (handle source : TensorId) : Prop :=
  ∃ listed, P.Lists listed ∧ handle ∈ listed.node.outputs ∧ source ∈ listed.node.branches

/-- A handle leads back to tensors that binders and switches write, and to a binder. -/
def Resolves (P : Program) (handle : TensorId) : Prop :=
  (∀ source, Relation.ReflTransGen P.ComesFrom handle source → P.IsHandle source)
    ∧ ∃ source listed, Relation.ReflTransGen P.ComesFrom handle source ∧ P.Lists listed
      ∧ listed.node.callee?.isSome ∧ source ∈ listed.node.outputs

def AllResolve (P : Program) : Prop :=
  ∀ ⦃call : NodeId⦄ ⦃handle : TensorId⦄, P.CallsHandle call handle → P.Resolves handle

section Backwards

variable {listing : List ListedNode}

theorem lists_of_producer? (hP : P.WellFormed)
    (hlist : (P.listing : Outcome ε (List ListedNode)) = .ok listing) {tensor : TensorId}
    {listed : ListedNode} (hproducer : ListedNode.producer? listing tensor = some listed) :
    P.Lists listed ∧ tensor ∈ listed.node.outputs := by
  have hwrites := List.find?_some
    (p := fun listed : ListedNode => listed.node.outputs.contains tensor) hproducer
  exact ⟨(hP.mem_listing hlist).mp (List.mem_of_find?_eq_some hproducer), by simpa using hwrites⟩

theorem producer?_eq_some (hP : P.WellFormed) (hunique : P.HandlesUnique)
    (hlist : (P.listing : Outcome ε (List ListedNode)) = .ok listing) {tensor : TensorId}
    {listed : ListedNode} (hlists : P.Lists listed) (hhandle : listed.node.givesHandle)
    (houtput : tensor ∈ listed.node.outputs) :
    ListedNode.producer? listing tensor = some listed := by
  cases hproducer : ListedNode.producer? listing tensor with
  | none =>
    have hnone := List.find?_eq_none.mp hproducer listed ((hP.mem_listing hlist).mpr hlists)
    simp [houtput] at hnone
  | some other =>
    obtain ⟨hother, hwrites⟩ := lists_of_producer? hP hlist hproducer
    rw [hunique hlists hhandle houtput hother hwrites]

theorem mem_sources (hP : P.WellFormed) (hunique : P.HandlesUnique)
    (hlist : (P.listing : Outcome ε (List ListedNode)) = .ok listing)
    {handle source : TensorId} :
    source ∈ ListedNode.sources listing handle ↔ P.ComesFrom handle source := by
  unfold ListedNode.sources
  constructor
  · intro hsource
    cases hproducer : ListedNode.producer? listing handle with
    | none => simp [hproducer] at hsource
    | some listed =>
      obtain ⟨hlists, hwrites⟩ := lists_of_producer? hP hlist hproducer
      exact ⟨listed, hlists, hwrites, by simpa [hproducer] using hsource⟩
  · rintro ⟨listed, hlists, houtput, hbranch⟩
    have hhandle := Node.givesHandle_of_mem_branches hbranch
    simpa [producer?_eq_some hP hunique hlist hlists hhandle houtput] using hbranch

theorem isHandle_iff (hP : P.WellFormed) (hunique : P.HandlesUnique)
    (hlist : (P.listing : Outcome ε (List ListedNode)) = .ok listing) {tensor : TensorId} :
    ListedNode.isHandle listing tensor = true ↔ P.IsHandle tensor := by
  unfold ListedNode.isHandle
  constructor
  · intro hhandle
    cases hproducer : ListedNode.producer? listing tensor with
    | none => simp [hproducer] at hhandle
    | some listed =>
      obtain ⟨hlists, hwrites⟩ := lists_of_producer? hP hlist hproducer
      exact ⟨listed, hlists, by simpa [hproducer, Node.givesHandle] using hhandle, hwrites⟩
  · rintro ⟨listed, hlists, hhandle, houtput⟩
    rw [producer?_eq_some hP hunique hlist hlists hhandle houtput]
    exact hhandle

theorem binder?_eq_some_iff (hP : P.WellFormed) (hunique : P.HandlesUnique)
    (hlist : (P.listing : Outcome ε (List ListedNode)) = .ok listing) {tensor : TensorId}
    {binder : NodeId} : ListedNode.binder? listing tensor = some binder
      ↔ ∃ listed, P.Lists listed ∧ listed.id = binder ∧ listed.node.callee?.isSome
        ∧ tensor ∈ listed.node.outputs := by
  unfold ListedNode.binder?
  constructor
  · intro hbinder
    obtain ⟨listed, hproducer, hsome⟩ := Option.bind_eq_some_iff.mp hbinder
    obtain ⟨hlists, hwrites⟩ := lists_of_producer? hP hlist hproducer
    split at hsome
    · exact ⟨listed, hlists, Option.some.inj hsome, ‹_›, hwrites⟩
    · exact nomatch hsome
  · rintro ⟨listed, hlists, rfl, hbinder, houtput⟩
    have hhandle := Node.givesHandle_of_callee? hbinder
    simp [producer?_eq_some hP hunique hlist hlists hhandle houtput, hbinder]

theorem mem_origins_iff_leads {handle source : TensorId} :
    source ∈ ListedNode.origins listing handle
      ↔ Reach.Leads (ListedNode.sources listing) handle source := by
  unfold ListedNode.origins
  rw [Reach.mem_closure_iff (listing.flatMap fun listed => listed.node.inputs)]
  · constructor
    · rintro ⟨start, hstart, hleads⟩
      rcases IdSet.mem_insert.mp hstart with rfl | hempty
      · exact hleads
      · exact absurd hempty (IdSet.not_mem_empty start)
    · exact fun hleads => ⟨handle, IdSet.mem_insert.mpr (.inl rfl), hleads⟩
  · intro origin source hsource
    unfold ListedNode.sources at hsource
    cases hproducer : ListedNode.producer? listing origin with
    | none => simp [hproducer] at hsource
    | some listed =>
      rw [hproducer] at hsource
      exact List.mem_flatMap.mpr
        ⟨listed, List.mem_of_find?_eq_some hproducer, Node.mem_inputs_of_mem_branches hsource⟩
  · exact Nat.lt_succ_of_le (length_flatMap_le_mentions listing fun _ => Nat.le_add_right _ _)

theorem mem_origins (hP : P.WellFormed) (hunique : P.HandlesUnique)
    (hlist : (P.listing : Outcome ε (List ListedNode)) = .ok listing)
    {handle source : TensorId} : source ∈ ListedNode.origins listing handle
      ↔ Relation.ReflTransGen P.ComesFrom handle source := by
  have hsources : (fun origin target => target ∈ ListedNode.sources listing origin)
      = P.ComesFrom := by
    funext origin target
    exact propext (mem_sources hP hunique hlist)
  rw [mem_origins_iff_leads, Reach.Leads, hsources]

theorem Flows.exists_comesFrom {binder : NodeId} {handle : TensorId}
    (hflows : P.Flows binder handle) : ∃ source listed,
      Relation.ReflTransGen P.ComesFrom handle source ∧ P.Lists listed ∧ listed.id = binder
        ∧ listed.node.callee?.isSome ∧ source ∈ listed.node.outputs := by
  induction hflows with
  | made hlists hid hbinder houtput => exact ⟨_, _, .refl, hlists, hid, hbinder, houtput⟩
  | picked _ hlists hreads houtput ih =>
    obtain ⟨source, binder, hsource, hbinder⟩ := ih
    exact ⟨source, binder, .head ⟨_, hlists, houtput, hreads⟩ hsource, hbinder⟩

theorem flows_of_comesFrom {binder : NodeId} {handle source : TensorId}
    (hsource : Relation.ReflTransGen P.ComesFrom handle source) (hflows : P.Flows binder source) :
    P.Flows binder handle := by
  induction hsource using Relation.ReflTransGen.head_induction_on with
  | refl => exact hflows
  | head hstep _ ih =>
    obtain ⟨listed, hlists, houtput, hbranch⟩ := hstep
    exact .picked ih hlists hbranch houtput

theorem mem_resolveCall (hP : P.WellFormed) (hunique : P.HandlesUnique)
    (hlist : (P.listing : Outcome ε (List ListedNode)) = .ok listing) {owner : SubgraphId}
    {call : NodeId} {binders : IdSet}
    (hresolve : P.resolveCall listing owner call = .ok binders) {node : Node} {handle : TensorId}
    (hnode : P.nodes[call]? = some node) (hhead : node.inputs.head? = some handle)
    {binder : NodeId} : binder ∈ binders ↔ P.Flows binder handle := by
  simp only [resolveCall, Outcome.bind_eq_ok, node_eq_ok, Outcome.orRefuse_eq_ok,
    Outcome.ensure_eq_ok, exists_const, Outcome.pure_eq_ok] at hresolve
  obtain ⟨node', hnode', handle', hhead', -, -, rfl⟩ := hresolve
  obtain rfl : node = node' := Option.some.inj (hnode.symm.trans hnode')
  obtain rfl : handle = handle' := Option.some.inj (hhead.symm.trans hhead')
  rw [IdSet.mem_ofList, List.mem_filterMap]
  constructor
  · rintro ⟨source, hsource, hbinder⟩
    obtain ⟨listed, hlists, hid, hbinds, houtput⟩ :=
      (binder?_eq_some_iff hP hunique hlist).mp hbinder
    exact flows_of_comesFrom ((mem_origins hP hunique hlist).mp hsource)
      (.made hlists hid hbinds houtput)
  · intro hflows
    obtain ⟨source, listed, hsource, hlists, hid, hbinds, houtput⟩ := hflows.exists_comesFrom
    exact ⟨source, (mem_origins hP hunique hlist).mpr hsource,
      (binder?_eq_some_iff hP hunique hlist).mpr ⟨listed, hlists, hid, hbinds, houtput⟩⟩

theorem exists_resolveCall_iff (hP : P.WellFormed) (hunique : P.HandlesUnique)
    (hlist : (P.listing : Outcome ε (List ListedNode)) = .ok listing) {owner : SubgraphId}
    {call : NodeId} {node : Node} {handle : TensorId} (hnode : P.nodes[call]? = some node)
    (hhead : node.inputs.head? = some handle) :
    (∃ binders, P.resolveCall listing owner call = .ok binders) ↔ P.Resolves handle := by
  have hall : ((ListedNode.origins listing handle).members.all (ListedNode.isHandle listing)
      = true) ↔ ∀ source, Relation.ReflTransGen P.ComesFrom handle source → P.IsHandle source := by
    rw [List.all_eq_true]
    refine forall_congr' fun source => ?_
    rw [IdSet.mem_members, mem_origins hP hunique hlist, isHandle_iff hP hunique hlist]
  have hsome : ((!(IdSet.ofList ((ListedNode.origins listing handle).members.filterMap
      (ListedNode.binder? listing))).isEmpty) = true) ↔ ∃ source listed,
        Relation.ReflTransGen P.ComesFrom handle source ∧ P.Lists listed
          ∧ listed.node.callee?.isSome ∧ source ∈ listed.node.outputs := by
    rw [Bool.not_eq_true', IdSet.isEmpty, List.isEmpty_eq_false_iff_exists_mem]
    simp only [IdSet.mem_members, IdSet.mem_ofList, List.mem_filterMap,
      mem_origins hP hunique hlist, binder?_eq_some_iff hP hunique hlist]
    constructor
    · rintro ⟨_, source, hsource, listed, hlists, -, hbinds, houtput⟩
      exact ⟨source, listed, hsource, hlists, hbinds, houtput⟩
    · rintro ⟨source, listed, hsource, hlists, hbinds, houtput⟩
      exact ⟨listed.id, source, hsource, listed, hlists, rfl, hbinds, houtput⟩
  simp only [resolveCall, Outcome.bind_eq_ok, node_eq_ok, Outcome.orRefuse_eq_ok,
    Outcome.ensure_eq_ok, exists_const, Outcome.pure_eq_ok, hnode, Option.some.injEq,
    exists_eq_left', hhead, hall, hsome, Resolves]
  constructor
  · rintro ⟨_, hhandles, hbinder, -⟩
    exact ⟨hhandles, hbinder⟩
  · rintro ⟨hhandles, hbinder⟩
    exact ⟨_, hhandles, hbinder, rfl⟩

end Backwards

end Program

end TailFlow
