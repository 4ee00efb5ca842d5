import TailFlow.Eval.Kernel
import TailFlow.Proofs.Handles.Flow
import TailFlow.Proofs.Runs.Environment

/-!
# What a node comes to

`NodeKind.Gives` says what values a node that is not a call comes to, from what its inputs are read
as. A node runs in an environment exactly if it comes to values there, provided that its binders bind
arrays only. What a node comes to depends on what is read alone, so it can be carried over to other
tensors and to other environments.
-/

namespace TailFlow

open Environment

/-- The values that a node which is not a call comes to. Handles take arrays along only. -/
inductive NodeKind.Gives (reads : TensorId → Value → Prop) :
    NodeKind → List TensorId → List Value → Prop where
  | kernel {op : KernelOp} {inputs : List TensorId} {operands results : List DenseArray}
      (hread : List.Forall₂ (fun id operand => reads id (.array operand)) inputs operands)
      (happly : op.apply operands = .ok results) :
      Gives reads (.kernel op) inputs (results.map .array)
  | bind {callee : SubgraphId} {inputs : List TensorId} {arguments : List DenseArray}
      (hread : List.Forall₂ (fun id argument => reads id (.array argument)) inputs arguments) :
      Gives reads (.bind callee) inputs [.closure callee (arguments.map .array)]
  | switch {condition taken : TensorId} {branches : List TensorId} {truth : DenseArray}
      {value : Value} (hcondition : reads condition (.array truth))
      (htaken : branches[if isTruthy truth then 0 else 1]? = some taken)
      (hread : reads taken value) : Gives reads .switch (condition :: branches) [value]
  | switchLayer {condition taken : TensorId} {branches : List TensorId} {index : DenseArray}
      {place : Nat} {value : Value} (hcondition : reads condition (.array index))
      (hplace : branchIndex index branches.length = .ok place)
      (htaken : branches[place]? = some taken) (hread : reads taken value) :
      Gives reads .switchLayer (condition :: branches) [value]

namespace NodeKind.Gives

variable {reads reads' : TensorId → Value → Prop} {kind : NodeKind} {inputs : List TensorId}
  {values : List Value}

theorem ne_call (hgives : Gives reads kind inputs values) : kind ≠ .call := by
  cases hgives <;> nofun

/-- Other tensors may be read instead, if they are read as what the inputs are read as. -/
theorem redirect (hgives : Gives reads kind inputs values) {inputs' : List TensorId}
    (hinputs : List.Forall₂ (fun id id' => ∀ value, reads id value → reads' id' value) inputs
      inputs') : Gives reads' kind inputs' values := by
  have hall {inputs inputs' : List TensorId} {arrays : List DenseArray}
      (hread : List.Forall₂ (fun id array => reads id (.array array)) inputs arrays)
      (hinputs : List.Forall₂ (fun id id' => ∀ value, reads id value → reads' id' value) inputs
        inputs') : List.Forall₂ (fun id array => reads' id (.array array)) inputs' arrays := by
    induction hinputs generalizing arrays with
    | nil =>
      rw [List.forall₂_nil_left_iff.mp hread]
      exact .nil
    | cons hhead _ ih =>
      cases hread with
      | cons hfirst hrest => exact .cons (hhead _ hfirst) (ih hrest)
  -- The branch that is taken stands where it stood.
  have hbranch {branches branches' : List TensorId} {place : Nat} {taken : TensorId} {value : Value}
      (hbranches : List.Forall₂ (fun id id' => ∀ value, reads id value → reads' id' value) branches
        branches') (htaken : branches[place]? = some taken) (hread : reads taken value) :
      ∃ taken', branches'[place]? = some taken' ∧ reads' taken' value := by
    obtain ⟨hlt, rfl⟩ := List.getElem?_eq_some_iff.mp htaken
    have hlt' : place < branches'.length := hbranches.length_eq ▸ hlt
    refine ⟨branches'[place], List.getElem?_eq_getElem hlt', ?_⟩
    exact hbranches.get hlt hlt' value hread
  cases hgives with
  | kernel hread happly => exact .kernel (hall hread hinputs) happly
  | bind hread => exact .bind (hall hread hinputs)
  | switch hcondition htaken hread =>
    cases hinputs with
    | cons hfirst hrest =>
      obtain ⟨taken', htaken', hread'⟩ := hbranch hrest htaken hread
      exact .switch (hfirst _ hcondition) htaken' hread'
  | switchLayer hcondition hplace htaken hread =>
    cases hinputs with
    | cons hfirst hrest =>
      obtain ⟨taken', htaken', hread'⟩ := hbranch hrest htaken hread
      exact .switchLayer (hfirst _ hcondition) (hrest.length_eq ▸ hplace) htaken' hread'

theorem mono (hgives : Gives reads kind inputs values)
    (hmono : ∀ id ∈ inputs, ∀ value, reads id value → reads' id value) :
    Gives reads' kind inputs values :=
  hgives.redirect (List.forall₂_same.mpr hmono)

/-- If related values are read, and arrays are related to themselves alone, then a kernel comes to
the same arrays, a binder to a handle with the same arguments, and a switch to a related handle. -/
theorem related (hgives : Gives reads kind inputs values)
    {related : TensorId → Value → Value → Prop}
    (hread : ∀ id ∈ inputs, ∀ value, reads id value → ∃ value', reads' id value'
      ∧ related id value value')
    (harray : ∀ id array value', related id (.array array) value' → value' = .array array) :
    (∃ results : List DenseArray, values = results.map .array ∧ Gives reads' kind inputs values)
      ∨ (∃ (callee : SubgraphId) (arguments : List DenseArray), kind = .bind callee
        ∧ values = [.closure callee (arguments.map .array)]
        ∧ ∀ callee', Gives reads' (.bind callee') inputs [.closure callee' (arguments.map .array)])
      ∨ (kind.isSwitch ∧ ∃ taken ∈ inputs.drop 1, ∃ value value', values = [value]
        ∧ reads taken value ∧ related taken value value' ∧ Gives reads' kind inputs [value']) := by
  have hsame {id : TensorId} (hmem : id ∈ inputs) {array : DenseArray}
      (hreads : reads id (.array array)) : reads' id (.array array) := by
    obtain ⟨value', hreads', hrelated⟩ := hread id hmem _ hreads
    rwa [harray id array value' hrelated] at hreads'
  have hall {ids : List TensorId} (hsub : ∀ id ∈ ids, id ∈ inputs) {arrays : List DenseArray}
      (hreads : List.Forall₂ (fun id array => reads id (.array array)) ids arrays) :
      List.Forall₂ (fun id array => reads' id (.array array)) ids arrays := by
    induction hreads with
    | nil => exact .nil
    | cons hhead _ ih =>
      obtain ⟨hfirst, hrest⟩ := List.forall_mem_cons.mp hsub
      exact .cons (hsame hfirst hhead) (ih hrest)
  cases hgives with
  | kernel hread happly =>
    exact .inl ⟨_, rfl, .kernel (hall (fun _ hmem => hmem) hread) happly⟩
  | bind hread =>
    exact .inr (.inl ⟨_, _, rfl, rfl, fun _ => .bind (hall (fun _ hmem => hmem) hread)⟩)
  | switch hcondition htaken hreads =>
    have hmem := List.mem_of_getElem? htaken
    obtain ⟨value', hreads', hrelated⟩ := hread _ (.tail _ hmem) _ hreads
    exact .inr (.inr ⟨rfl, _, hmem, _, value', rfl, hreads, hrelated,
      .switch (hsame List.mem_cons_self hcondition) htaken hreads'⟩)
  | switchLayer hcondition hplace htaken hreads =>
    have hmem := List.mem_of_getElem? htaken
    obtain ⟨value', hreads', hrelated⟩ := hread _ (.tail _ hmem) _ hreads
    exact .inr (.inr ⟨rfl, _, hmem, _, value', rfl, hreads, hrelated,
      .switchLayer (hsame List.mem_cons_self hcondition) hplace htaken hreads'⟩)

end NodeKind.Gives

namespace Environment

variable {P : Program} {env env' : Environment} {node : Node} {values : List Value}

/-! ### Running a node -/

theorem array_eq_ok {id : TensorId} {array : DenseArray} :
    env.array P id = .ok array ↔ P.Reads env id (.array array) := by
  unfold Environment.array
  rw [Outcome.bind_eq_ok]
  constructor
  · intro ⟨value, hvalue, harray⟩
    cases value with
    | array found => rwa [← Outcome.pure_eq_ok.mp harray]
    | closure _ _ => exact (Outcome.refuse_ne_ok harray).elim
  · exact fun hreads => ⟨_, hreads, rfl⟩

theorem closure_eq_ok {id : TensorId} {callee : SubgraphId} {arguments : List Value} :
    env.closure P id = .ok (callee, arguments) ↔ P.Reads env id (.closure callee arguments) := by
  unfold Environment.closure
  rw [Outcome.bind_eq_ok]
  constructor
  · intro ⟨value, hvalue, hclosure⟩
    cases value with
    | array _ => exact (Outcome.refuse_ne_ok hclosure).elim
    | closure _ _ =>
      obtain ⟨rfl, rfl⟩ := Prod.mk.inj (Outcome.pure_eq_ok.mp hclosure)
      exact hvalue
  · exact fun hreads => ⟨_, hreads, rfl⟩

theorem values_eq_ok {ids : List TensorId} :
    env.values P ids = .ok values ↔ List.Forall₂ (P.Reads env) ids values :=
  Outcome.mapM_eq_ok

theorem forall₂_array {reads : TensorId → Value → Prop} {ids : List TensorId}
    {arrays : List DenseArray} :
    List.Forall₂ (fun id array => reads id (.array array)) ids arrays
      ↔ List.Forall₂ reads ids (arrays.map .array) :=
  List.forall₂_map_right_iff.symm

theorem bindAll_one {outputs : List TensorId} {value : Value}
    (hbind : env.bindAll outputs [value] = .ok env') :
    ∃ handle, outputs = [handle] ∧ env' = env.insert handle value := by
  obtain ⟨handle, hone⟩ := List.length_eq_one_iff.mp (length_eq_of_bindAll hbind)
  rw [hone, bindAll_singleton] at hbind
  exact ⟨handle, hone, (Except.ok.inj hbind).symm⟩

theorem runNode_of_gives {id : NodeId} (hnode : P.nodes[id]? = some node)
    (hgives : node.kind.Gives (P.Reads env) node.inputs values)
    (hbind : env.bindAll node.outputs values = .ok env') : env.runNode P id = .ok env' := by
  rw [runNode, Program.node_eq_ok.mpr hnode, Outcome.ok_bind]
  obtain ⟨name, kind, inputs, outputs⟩ := node
  dsimp only at hgives hbind ⊢
  cases hgives with
  | @kernel op _ operands results hread happly =>
    have hoperands : inputs.mapM (env.array P) = .ok operands :=
      Outcome.mapM_eq_ok.mpr (hread.imp fun _ _ => array_eq_ok.mpr)
    dsimp only
    rw [runKernel, hoperands, Outcome.ok_bind, happly, Outcome.ok_bind]
    exact hbind
  | @bind callee _ arguments hread =>
    obtain ⟨handle, rfl, rfl⟩ := bindAll_one hbind
    have harguments : env.values P inputs = .ok (arguments.map .array) :=
      values_eq_ok.mpr (forall₂_array.mp hread)
    dsimp only
    rw [runBinder, harguments, Outcome.ok_bind]
    rfl
  | @switch condition taken branches truth value hcondition htaken hread =>
    obtain ⟨handle, rfl, rfl⟩ := bindAll_one hbind
    have htruth : env.array P condition = .ok truth := array_eq_ok.mpr hcondition
    have htaken' : (if isTruthy truth then branches[0]? else branches[1]?) = some taken := by
      rwa [apply_ite (branches[·]?)] at htaken
    have hvalue : env.value P taken = .ok value := hread
    show (env.array P condition >>= fun truth =>
      Outcome.following (if isTruthy truth then branches[0]? else branches[1]?) >>= fun taken =>
        env.value P taken >>= fun value => pure (env.insert handle value)) = _
    rw [htruth, Outcome.ok_bind, htaken', Outcome.following_some, Outcome.ok_bind, hvalue,
      Outcome.ok_bind]
    rfl
  | @switchLayer condition taken branches index place value hcondition hplace htaken hread =>
    obtain ⟨handle, rfl, rfl⟩ := bindAll_one hbind
    have hindex : env.array P condition = .ok index := array_eq_ok.mpr hcondition
    have hvalue : env.value P taken = .ok value := hread
    show (env.array P condition >>= fun index =>
      branchIndex index branches.length >>= fun place =>
        Outcome.following branches[place]? >>= fun taken =>
          env.value P taken >>= fun value => pure (env.insert handle value)) = _
    rw [hindex, Outcome.ok_bind, hplace, Outcome.ok_bind, htaken, Outcome.following_some,
      Outcome.ok_bind, hvalue, Outcome.ok_bind]
    rfl

/-- A node that runs comes to values, if a binder among them binds arrays only. -/
theorem gives_of_runNode {id : NodeId} (hnode : P.nodes[id]? = some node) (hfits : P.Fits node)
    (harrays : node.callee?.isSome → ∀ input ∈ node.inputs, ∀ value, P.Reads env input value →
      value.isArray) (hrun : env.runNode P id = .ok env') :
    ∃ values, node.kind.Gives (P.Reads env) node.inputs values
      ∧ env.bindAll node.outputs values = .ok env' := by
  obtain ⟨found, hfound, hrun⟩ := Outcome.bind_eq_ok.mp hrun
  obtain rfl := Option.some.inj (hnode.symm.trans (Program.node_eq_ok.mp hfound))
  obtain ⟨name, kind, inputs, outputs⟩ := node
  dsimp only at harrays hrun ⊢
  cases kind with
  | kernel op =>
    obtain ⟨operands, hoperands, hrun⟩ := Outcome.bind_eq_ok.mp hrun
    obtain ⟨results, hresults, hbind⟩ := Outcome.bind_eq_ok.mp hrun
    refine ⟨_, .kernel ?_ hresults, hbind⟩
    exact (Outcome.mapM_eq_ok.mp hoperands).imp fun _ _ => array_eq_ok.mp
  | bind callee =>
    obtain ⟨arguments, harguments, hrun⟩ := Outcome.bind_eq_ok.mp hrun
    obtain ⟨handle, hhandle, hpure⟩ := Outcome.bind_eq_ok.mp hrun
    obtain ⟨-, -, -, hone⟩ := hfits
    obtain ⟨only, rfl⟩ := List.length_eq_one_iff.mp hone
    obtain rfl := Option.some.inj (Outcome.following_eq_ok.mp hhandle)
    have hread := values_eq_ok.mp harguments
    have hall : ∀ value ∈ arguments, value.isArray := by
      intro value hmem
      obtain ⟨input, hinput, hreads⟩ := Outcome.exists_left_of_forall₂ hread hmem
      exact harrays rfl input hinput value hreads
    obtain ⟨arrays, rfl⟩ := exists_arrays hall
    exact ⟨_, .bind (forall₂_array.mpr hread), hpure⟩
  | call => exact (Outcome.refuse_ne_ok hrun).elim
  | switch =>
    obtain ⟨hthree, hone⟩ := hfits
    obtain ⟨only, rfl⟩ := List.length_eq_one_iff.mp hone
    obtain ⟨first, second, third, rfl⟩ := List.length_eq_three.mp hthree
    obtain ⟨condition, hcondition, hrun⟩ := Outcome.bind_eq_ok.mp hrun
    obtain ⟨truth, htruth, hrun⟩ := Outcome.bind_eq_ok.mp hrun
    obtain ⟨taken, htaken, hrun⟩ := Outcome.bind_eq_ok.mp hrun
    obtain ⟨value, hvalue, hrun⟩ := Outcome.bind_eq_ok.mp hrun
    obtain ⟨handle, hhandle, hpure⟩ := Outcome.bind_eq_ok.mp hrun
    obtain rfl := Option.some.inj (Outcome.following_eq_ok.mp hcondition)
    obtain rfl := Option.some.inj (Outcome.following_eq_ok.mp hhandle)
    refine ⟨[value], .switch (array_eq_ok.mp htruth) ?_ hvalue, hpure⟩
    have htaken := Outcome.following_eq_ok.mp htaken
    cases hcase : isTruthy truth <;> simpa [hcase] using htaken
  | switchLayer =>
    obtain ⟨htwo, hone⟩ := hfits
    obtain ⟨only, rfl⟩ := List.length_eq_one_iff.mp hone
    cases inputs with
    | nil => exact nomatch htwo
    | cons first branches =>
      obtain ⟨condition, hcondition, hrun⟩ := Outcome.bind_eq_ok.mp hrun
      obtain ⟨index, hindex, hrun⟩ := Outcome.bind_eq_ok.mp hrun
      obtain ⟨place, hplace, hrun⟩ := Outcome.bind_eq_ok.mp hrun
      obtain ⟨taken, htaken, hrun⟩ := Outcome.bind_eq_ok.mp hrun
      obtain ⟨value, hvalue, hrun⟩ := Outcome.bind_eq_ok.mp hrun
      obtain ⟨handle, hhandle, hpure⟩ := Outcome.bind_eq_ok.mp hrun
      obtain rfl := Option.some.inj (Outcome.following_eq_ok.mp hcondition)
      obtain rfl := Option.some.inj (Outcome.following_eq_ok.mp hhandle)
      exact ⟨[value], .switchLayer (array_eq_ok.mp hindex) hplace
        (Outcome.following_eq_ok.mp htaken) hvalue, hpure⟩

end Environment

end TailFlow
