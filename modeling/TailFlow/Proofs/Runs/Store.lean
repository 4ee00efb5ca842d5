import TailFlow.Proofs.Runs.Assignment
import TailFlow.Proofs.Runs.Node

/-!
# One store for all bodies

A recursive run binds the formals of a body in an environment of its own. If they are bound in a store
instead that other bodies have used before, the store still holds what those have bound. As long as no
constant is bound it reads whatever the environment of the body reads, and the nodes of the body keep
it that way.
-/

namespace TailFlow

open Program

variable {P : Program}

/-- No constant is bound. -/
def Environment.SparesConstants (P : Program) (store : Environment) : Prop :=
  ∀ ⦃id : TensorId⦄, ¬ P.Plain id → store.get? id = none

namespace Environment

variable {env env' store after : Environment}

theorem sparesConstants_empty (P : Program) : SparesConstants P .empty := fun _ _ => rfl

theorem SparesConstants.of_unchanged (hspares : store.SparesConstants P) {ids : List TensorId}
    (hplain : ∀ id ∈ ids, P.Plain id) (hsame : ∀ id ∉ ids, after.get? id = store.get? id) :
    after.SparesConstants P := by
  intro id hconstant
  rw [hsame id fun hmem => hconstant (hplain id hmem)]
  exact hspares hconstant

/-- The formals of a subgraph are bound in an environment of its own. A store that spares constants and
in which they are bound too reads the same. -/
theorem covers_of_bindAll (hspares : store.SparesConstants P) {ids : List TensorId}
    {values : List Value} (hbind : Environment.bindAll .empty ids values = .ok env)
    (hbind' : store.bindAll ids values = .ok after) : Covers Unchanged P env P after := by
  refine Covers.bindAll_both (fun id value _ _ hreads => ?_) (fun _ _ _ _ => rfl) hbind hbind'
  refine ⟨value, ?_, rfl⟩
  rcases hreads.cases with hsome | ⟨-, -, tensor, htensor, hconstant⟩
  · exact nomatch hsome
  · have hnot : ¬ P.Plain id := by
      rw [Plain, htensor, Option.all_some, hconstant]
      exact Bool.false_ne_true
    exact (reads_congr (hspares hnot) rfl).mpr hreads

section Reading

variable (hcovers : Covers Unchanged P env P store)

include hcovers

theorem array_of_covers {id : TensorId} (hlt : id < P.tensors.size) {array : DenseArray}
    (harray : env.array P id = .ok array) : store.array P id = .ok array := by
  obtain ⟨_, hreads, rfl⟩ := hcovers hlt (array_eq_ok.mp harray)
  exact array_eq_ok.mpr hreads

theorem arrays_of_covers {ids : List TensorId} (hlt : ∀ id ∈ ids, id < P.tensors.size)
    {arrays : List DenseArray} (harrays : ids.mapM (env.array P) = .ok arrays) :
    ids.mapM (store.array P) = .ok arrays := by
  have hreads := (Outcome.mapM_eq_ok.mp harrays).imp fun _ _ => array_eq_ok.mp
  have hreads' := forall₂_array.mpr (hcovers.forall₂ hlt (forall₂_array.mp hreads))
  exact Outcome.mapM_eq_ok.mpr (hreads'.imp fun _ _ => array_eq_ok.mpr)

theorem values_of_covers {ids : List TensorId} (hlt : ∀ id ∈ ids, id < P.tensors.size)
    {values : List Value} (hvalues : env.values P ids = .ok values) :
    store.values P ids = .ok values :=
  values_eq_ok.mpr (hcovers.forall₂ hlt (values_eq_ok.mp hvalues))

theorem insert_covers {outputs : List TensorId} {place : Nat} {handle : TensorId}
    (hhandle : outputs[place]? = some handle) (value : Value) :
    Covers Unchanged P (env.insert handle value) P (store.insert handle value)
      ∧ ∀ id ∉ outputs, (store.insert handle value).get? id = store.get? id := by
  refine ⟨hcovers.insert rfl, fun id habsent => ?_⟩
  rw [IdMap.get?_insert, if_neg]
  rintro rfl
  exact habsent (List.mem_of_getElem? hhandle)

section Kinds

variable {node : Node} (hlt : ∀ input ∈ node.inputs, input < P.tensors.size)

include hlt

theorem runKernel_covers {op : KernelOp} (hrun : env.runKernel P op node = .ok env') :
    ∃ store', store.runKernel P op node = .ok store' ∧ Covers Unchanged P env' P store'
      ∧ ∀ id ∉ node.outputs, store'.get? id = store.get? id := by
  obtain ⟨operands, hoperands, hrun⟩ := Outcome.bind_eq_ok.mp hrun
  obtain ⟨results, hresults, hbind⟩ := Outcome.bind_eq_ok.mp hrun
  obtain ⟨after, hbind', hcovers'⟩ := hcovers.bindAll (fun _ _ _ _ => rfl) hbind
  refine ⟨after, ?_, hcovers', fun id habsent => get?_bindAll_of_notMem hbind' habsent⟩
  rw [runKernel, arrays_of_covers hcovers hlt hoperands, Outcome.ok_bind, hresults, Outcome.ok_bind]
  exact hbind'

theorem runBinder_covers {callee : SubgraphId} (hrun : env.runBinder P callee node = .ok env') :
    ∃ store', store.runBinder P callee node = .ok store' ∧ Covers Unchanged P env' P store'
      ∧ ∀ id ∉ node.outputs, store'.get? id = store.get? id := by
  obtain ⟨arguments, harguments, hrun⟩ := Outcome.bind_eq_ok.mp hrun
  obtain ⟨handle, hhandle, hpure⟩ := Outcome.bind_eq_ok.mp hrun
  obtain rfl := Outcome.pure_eq_ok.mp hpure
  rw [runBinder, values_of_covers hcovers hlt harguments, Outcome.ok_bind, hhandle, Outcome.ok_bind]
  exact ⟨_, rfl, insert_covers hcovers (Outcome.following_eq_ok.mp hhandle) _⟩

omit hlt in
/-- Both kinds of switch pass the branch that they take on in the same way. -/
theorem passOn_covers {taken : TensorId} (htaken : taken < P.tensors.size)
    (hrun : (do
      let value ← env.value P taken
      let handle ← Outcome.following node.outputs[0]?
      return env.insert handle value) = (.ok env' : Evaluation Environment)) :
    ∃ store', (do
      let value ← store.value P taken
      let handle ← Outcome.following node.outputs[0]?
      return store.insert handle value) = (.ok store' : Evaluation Environment)
      ∧ Covers Unchanged P env' P store' ∧ ∀ id ∉ node.outputs, store'.get? id = store.get? id := by
  obtain ⟨value, hvalue, hrun⟩ := Outcome.bind_eq_ok.mp hrun
  obtain ⟨handle, hhandle, hpure⟩ := Outcome.bind_eq_ok.mp hrun
  obtain rfl := Outcome.pure_eq_ok.mp hpure
  obtain ⟨value', hvalue', rfl⟩ := hcovers htaken hvalue
  have hread : store.value P taken = .ok value' := hvalue'
  rw [hread, Outcome.ok_bind, hhandle, Outcome.ok_bind]
  exact ⟨_, rfl, insert_covers hcovers (Outcome.following_eq_ok.mp hhandle) _⟩

theorem runSwitch_covers (hrun : env.runSwitch P node = .ok env') :
    ∃ store', store.runSwitch P node = .ok store' ∧ Covers Unchanged P env' P store'
      ∧ ∀ id ∉ node.outputs, store'.get? id = store.get? id := by
  obtain ⟨condition, hcondition, hrun⟩ := Outcome.bind_eq_ok.mp hrun
  obtain ⟨truth, htruth, hrun⟩ := Outcome.bind_eq_ok.mp hrun
  obtain ⟨taken, htaken, hrun⟩ := Outcome.bind_eq_ok.mp hrun
  have hmem := List.mem_of_getElem? (Outcome.following_eq_ok.mp hcondition)
  have hbranch : taken ∈ node.inputs := by
    have hfound := Outcome.following_eq_ok.mp htaken
    split at hfound <;> exact List.mem_of_getElem? hfound
  rw [runSwitch, hcondition, Outcome.ok_bind, array_of_covers hcovers (hlt condition hmem) htruth,
    Outcome.ok_bind, htaken, Outcome.ok_bind]
  exact passOn_covers hcovers (hlt taken hbranch) hrun

theorem runSwitchLayer_covers (hrun : env.runSwitchLayer P node = .ok env') :
    ∃ store', store.runSwitchLayer P node = .ok store' ∧ Covers Unchanged P env' P store'
      ∧ ∀ id ∉ node.outputs, store'.get? id = store.get? id := by
  obtain ⟨condition, hcondition, hrun⟩ := Outcome.bind_eq_ok.mp hrun
  obtain ⟨index, hindex, hrun⟩ := Outcome.bind_eq_ok.mp hrun
  obtain ⟨place, hplace, hrun⟩ := Outcome.bind_eq_ok.mp hrun
  obtain ⟨taken, htaken, hrun⟩ := Outcome.bind_eq_ok.mp hrun
  have hmem := List.mem_of_getElem? (Outcome.following_eq_ok.mp hcondition)
  have hbranch : taken ∈ node.inputs :=
    Node.mem_inputs_of_mem_branches (List.mem_of_getElem? (Outcome.following_eq_ok.mp htaken))
  rw [runSwitchLayer, hcondition, Outcome.ok_bind,
    array_of_covers hcovers (hlt condition hmem) hindex, Outcome.ok_bind, hplace, Outcome.ok_bind,
    htaken, Outcome.ok_bind]
  exact passOn_covers hcovers (hlt taken hbranch) hrun

end Kinds

theorem runNode_covers (hP : P.WellFormed) {listed : ListedNode} (hlists : P.Lists listed)
    (hrun : env.runNode P listed.id = .ok env') :
    ∃ store', store.runNode P listed.id = .ok store' ∧ Covers Unchanged P env' P store'
      ∧ ∀ id ∉ listed.node.outputs, store'.get? id = store.get? id := by
  have hlt : ∀ tensor ∈ listed.node.inputs, tensor < P.tensors.size :=
    fun tensor hmem => hP.inputs_lt hlists hmem
  obtain ⟨-, -, -, hnode⟩ := hlists
  rw [runNode, node_eq_ok.mpr hnode, Outcome.ok_bind] at hrun ⊢
  cases hkind : listed.node.kind with rw [hkind] at hrun
  | kernel op => exact runKernel_covers hcovers hlt hrun
  | bind callee => exact runBinder_covers hcovers hlt hrun
  | switch => exact runSwitch_covers hcovers hlt hrun
  | switchLayer => exact runSwitchLayer_covers hcovers hlt hrun
  | call => exact (Outcome.refuse_ne_ok hrun).elim

end Reading

end Environment

def Program.WritesPlain (P : Program) : Prop :=
  ∀ subgraph ∈ P.subgraphs, ∀ tensor ∈ P.written subgraph, P.Plain tensor

instance (P : Program) : Decidable P.WritesPlain :=
  inferInstanceAs (Decidable (∀ subgraph ∈ P.subgraphs, _))

theorem Program.WritesPlain.outputs (hplain : P.WritesPlain) {listed : ListedNode}
    (hlists : P.Lists listed) : ∀ tensor ∈ listed.node.outputs, P.Plain tensor := by
  intro tensor hmem
  obtain ⟨subgraph, hsubgraph, hid, hnode⟩ := hlists
  refine hplain subgraph (Array.mem_of_getElem? hsubgraph) tensor (List.mem_append_right _ ?_)
  exact mem_writes.mpr ⟨listed.id, hid, listed.node, hnode, hmem⟩

theorem Program.WritesPlain.inputs (hplain : P.WritesPlain) {id : SubgraphId} {subgraph : Subgraph}
    (hsubgraph : P.subgraphs[id]? = some subgraph) : ∀ tensor ∈ subgraph.inputs, P.Plain tensor :=
  fun tensor hmem => hplain subgraph (Array.mem_of_getElem? hsubgraph) tensor
    (List.mem_append_left _ hmem)

end TailFlow
