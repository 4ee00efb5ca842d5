import TailFlow.Proofs.Suite.LayeredPrograms

/-!
# Runs of layered programs

A recursive run of a layered program succeeds. Each layer runs at most eight nodes and makes at most
four calls, all of layers behind it, so both the number of entries and the number of steps are
bounded by the number of layers that are left.
-/

namespace TailFlow

open Program

/-- The arrays that all tensors but handles hold. -/
def DenseArray.Uniform (array : DenseArray) : Prop := array.shape = RandomProgram.shape

theorem KernelOp.exists_apply {op : KernelOp} {operands : List DenseArray}
    (harity : op.arity = some operands.length) (hoperands : ∀ operand ∈ operands, operand.Uniform) :
    ∃ result, op.apply operands = .ok [result] ∧ result.Uniform := by
  have hcombine (f : Float32 → Float32 → Float32) {left right : DenseArray}
      (hleft : left.Uniform) (hright : right.Uniform) :
      ∃ result, op.combine f left right = .ok [result] ∧ result.Uniform :=
    ⟨_, dif_pos (hleft.trans hright.symm), hleft⟩
  match op, operands, harity with
  | .neg, [operand], _ => exact ⟨_, rfl, hoperands operand (.head _)⟩
  | .add, [left, right], _ | .sub, [left, right], _ | .mul, [left, right], _
  | .less, [left, right], _ => exact hcombine _ (hoperands left (by simp)) (hoperands right (by simp))

def Program.BindsArrays (env : Environment) (tensors : List TensorId) : Prop :=
  ∀ tensor ∈ tensors, ∃ array : DenseArray, env.get? tensor = some (.array array) ∧ array.Uniform

namespace Program.BindsArrays

variable {P : Program} {env : Environment} {tensors : List TensorId}

theorem reads (h : BindsArrays env tensors) {ids : List TensorId} (hids : ∀ id ∈ ids, id ∈ tensors) :
    ∃ arrays : List DenseArray, arrays.length = ids.length ∧ (∀ array ∈ arrays, array.Uniform)
      ∧ List.Forall₂ (fun id array => P.Reads env id (.array array)) ids arrays := by
  induction ids with
  | nil => exact ⟨[], rfl, nofun, .nil⟩
  | cons id rest ih =>
    obtain ⟨hhead, hrest⟩ := List.forall_mem_cons.mp hids
    obtain ⟨array, hbound, huniform⟩ := h id hhead
    obtain ⟨arrays, hlength, hall, hreads⟩ := ih hrest
    exact ⟨array :: arrays, congrArg (· + 1) hlength, List.forall_mem_cons.mpr ⟨huniform, hall⟩,
      .cons (reads_of_get? hbound) hreads⟩

theorem insert_array (h : BindsArrays env tensors) (id : TensorId) {array : DenseArray}
    (huniform : array.Uniform) :
    BindsArrays (env.insert id (.array array)) (tensors ++ [id]) := by
  intro tensor hmem
  rw [IdMap.get?_insert]
  split
  · exact ⟨array, rfl, huniform⟩
  · rename_i hne
    rcases List.mem_append.mp hmem with hold | hnew
    · exact h tensor hold
    · exact absurd (List.mem_singleton.mp hnew).symm hne

theorem insert_other (h : BindsArrays env tensors) {id : TensorId} (hnew : id ∉ tensors)
    (value : Value) : BindsArrays (env.insert id value) tensors := by
  intro tensor hmem
  rw [IdMap.get?_insert, if_neg fun hsame : id = tensor => hnew (hsame ▸ hmem)]
  exact h tensor hmem

end Program.BindsArrays

namespace Recursive

/-- What may run on any uniform arguments does so, to a uniform result. It enters a number of bodies
at most, each at the price of eight steps. -/
def Succeeds (invoke : Invoke) (limits : RunLimits) (inputs : List TensorId) (entries : Nat)
    (id : SubgraphId) : Prop :=
  ∀ (arguments : List DenseArray) (counters : Counters), arguments.length = inputs.length →
    (∀ argument ∈ arguments, argument.Uniform) → counters.steps + 8 * entries ≤ limits.maxSteps →
      ∃ (result : DenseArray) (entered : List SubgraphId) (steps : Nat),
        invoke id (arguments.map .array) counters
          = .ok ([.array result], ⟨countAll counters.calls entered, steps⟩)
        ∧ result.Uniform ∧ entered.length ≤ entries ∧ steps ≤ counters.steps + 8 * entries

theorem placed_behind {P : Program} {first : NodeId} (front : List Node) {nodes : List Node}
    (h : ∀ place < (front ++ nodes).length, P.nodes[first + place]? = (front ++ nodes)[place]?) :
    ∀ place < nodes.length, P.nodes[first + front.length + place]? = nodes[place]? := by
  intro place hplace
  have hlt : front.length + place < (front ++ nodes).length := by
    rw [List.length_append]
    omega
  rw [Nat.add_assoc, h _ hlt, List.getElem?_append_right (Nat.le_add_right _ _),
    Nat.add_sub_cancel_left]

theorem lt_concat {live : List TensorId} {next fresh : TensorId}
    (hlt : ∀ tensor ∈ live, tensor < next) (hle : next ≤ fresh) :
    ∀ tensor ∈ live ++ [fresh], tensor < fresh + 1 := by
  intro tensor hmem
  rcases List.mem_append.mp hmem with hold | hnew
  · exact Nat.lt_succ_of_lt (Nat.lt_of_lt_of_le (hlt tensor hold) hle)
  · exact Nat.lt_succ_of_le (Nat.le_of_eq (List.mem_singleton.mp hnew))

theorem runNodes_of_steps {P : Program} {formals : List (List TensorId)} {index : SubgraphId}
    {live live' : List TensorId} {next : TensorId} {nodes : List Node} {count : Nat}
    (hsteps : Steps formals index live next nodes live' count) {invoke : Invoke} {limits : RunLimits}
    {entries : Nat} (hinvoke : ∀ callee inputs, index < callee → formals[callee]? = some inputs →
      Succeeds invoke limits inputs entries callee)
    {first : NodeId} (hnodes : ∀ place < nodes.length, P.nodes[first + place]? = nodes[place]?)
    (hlt : ∀ tensor ∈ live, tensor < next) {env : Environment} (hbinds : BindsArrays env live)
    {counters : Counters}
    (hroom : counters.steps + (nodes.length + 8 * (count * entries)) ≤ limits.maxSteps) :
    ∃ (env' : Environment) (entered : List SubgraphId) (steps : Nat),
      runNodes invoke P limits (List.range' first nodes.length) env counters
        = .ok (env', ⟨countAll counters.calls entered, steps⟩)
      ∧ BindsArrays env' live' ∧ entered.length ≤ count * entries
      ∧ steps ≤ counters.steps + (nodes.length + 8 * (count * entries)) := by
  induction hsteps generalizing first env counters with
  | done => exact ⟨env, [], _, rfl, hbinds, Nat.zero_le _, Nat.le_add_right _ _⟩
  | @kernel live live' next nodes count name op operands harity hlive _ ih =>
    obtain ⟨arrays, hlength, huniform, hreads⟩ := hbinds.reads (P := P) hlive
    obtain ⟨result, happly, hresult⟩ := KernelOp.exists_apply (hlength ▸ harity) huniform
    rw [List.length_cons] at hnodes hroom ⊢
    rw [Nat.add_mul, Nat.one_mul] at hroom ⊢
    have hnode : P.nodes[first]? = some (.ofKernel name op operands [next]) :=
      hnodes 0 (Nat.succ_pos _)
    have hnodes' := placed_behind [_] hnodes
    have hroom' : counters.steps + 1 + (nodes.length + 8 * (count * entries)) ≤ limits.maxSteps := by
      omega
    obtain ⟨env', entered, steps, hrest, hbinds', hentered, htaken⟩ :=
      @ih _ hnodes' (lt_concat hlt (Nat.le_refl next)) _ (hbinds.insert_array next hresult)
        ⟨counters.calls, _⟩ hroom'
    refine ⟨env', entered, steps, ?_, hbinds', Nat.le_trans hentered ?_, ?_⟩
    · rw [List.range'_succ, runNodes_inline hnode (by omega) (.kernel hreads happly)
        Environment.bindAll_singleton]
      exact hrest
    · exact Nat.le_add_right _ _
    · dsimp only at htaken
      omega
  | @call live live' next nodes count bindName callName callee inputs arguments hlater hcallee hlength
      hlive _ ih =>
    obtain ⟨arrays, hsame, huniform, hreads⟩ := hbinds.reads (P := P) hlive
    rw [List.length_cons, List.length_cons] at hnodes hroom ⊢
    rw [Nat.add_mul, Nat.one_mul] at hroom ⊢
    have hbinder : P.nodes[first]? = some (.ofBinding bindName callee arguments next) :=
      hnodes 0 (Nat.succ_pos _)
    have hcall : P.nodes[first + 1]? = some (.ofCall callName next [next + 1]) :=
      hnodes 1 (by omega)
    have hnodes' := placed_behind [_, _] hnodes
    have hnew : next ∉ live := fun hmem => Nat.lt_irrefl _ (hlt next hmem)
    obtain ⟨result, inside, reached, hinside, hresult, hcount, hreached⟩ := hinvoke callee inputs hlater
      hcallee arrays ⟨counters.calls, counters.steps + 1 + 1⟩ (hsame.trans hlength) huniform
      (by dsimp only; omega)
    dsimp only at hreached
    have hroom' : reached + (nodes.length + 8 * (count * entries)) ≤ limits.maxSteps := by omega
    obtain ⟨env', entered, steps, hrest, hbinds', hentered, htaken⟩ :=
      @ih _ hnodes' (lt_concat hlt (Nat.le_succ next)) _
        ((hbinds.insert_other hnew _).insert_array (next + 1) hresult)
        ⟨countAll counters.calls inside, _⟩ hroom'
    refine ⟨env', inside ++ entered, steps, ?_, hbinds', ?_, ?_⟩
    · rw [List.range'_succ, List.range'_succ, runNodes_inline hbinder (by omega) (.bind hreads)
        Environment.bindAll_singleton, runNodes_call hcall (by dsimp only; omega) rfl rfl
        reads_insert_self hinside Environment.bindAll_singleton, countAll_append]
      exact hrest
    · rw [List.length_append]
      omega
    · dsimp only at htaken
      omega

end Recursive

/-- How many bodies are entered at most where a number of layers is left. -/
def mostEntries : Nat → Nat
  | 0 => 0
  | left + 1 => 4 * mostEntries left + 1

theorem Program.BindsArrays.of_bindAll {env : Environment} {ids : List TensorId}
    {arrays : List DenseArray} (huniform : ∀ array ∈ arrays, array.Uniform)
    (hbind : Environment.bindAll .empty ids (arrays.map .array) = .ok env) : BindsArrays env ids := by
  intro id hmem
  obtain ⟨-, value, hpair, hbound⟩ := Environment.get?_bindAll_of_mem hbind hbind hmem
  obtain ⟨array, hmem', rfl⟩ := List.mem_map.mp (List.of_mem_zip hpair).2
  exact ⟨array, hbound, huniform array hmem'⟩

namespace Layered

variable {formals : List (List TensorId)} {layers : List Layer} {P : Program}
  (h : Layered formals layers P)

include h

/-- Every layer can be invoked. The induction is on the number of layers that are left. -/
theorem succeeds (limits : RunLimits) {left levels index : Nat} (hleft : layers.length ≤ index + left)
    (hlevels : left ≤ levels) {inputs : List TensorId} (hinputs : formals[index]? = some inputs) :
    Recursive.Succeeds (Recursive.invoke P limits levels) limits inputs (mostEntries left) index := by
  induction left generalizing levels index inputs with
  | zero =>
    obtain ⟨hlt, -⟩ := List.getElem?_eq_some_iff.mp hinputs
    have := h.length_eq
    omega
  | succ left ih =>
    obtain ⟨further, rfl⟩ : ∃ further, levels = further + 1 := ⟨levels - 1, by omega⟩
    obtain ⟨layer, hlayer, rfl⟩ := h.exists_layer hinputs
    have hstands := h.stands hlayer
    have hcount := hstands.steps_le
    have hlength := hstands.length_nodes_le
    have hmost := Nat.mul_le_mul_right (mostEntries left) hcount
    intro arguments counters hsame huniform hroom
    rw [mostEntries] at hroom ⊢
    obtain ⟨env, hbind⟩ : ∃ env,
        Environment.bindAll .empty layer.inputs (arguments.map .array) = .ok env :=
      Environment.exists_bindAll _ (by rw [List.length_map, hsame])
    have hroom' : (counters.enter index .body).steps
        + (layer.nodes.length + 8 * (layer.steps * mostEntries left)) ≤ limits.maxSteps := by
      rw [Counters.enter_eq]
      dsimp only
      omega
    have hcalls : ∀ callee inputs, index < callee → formals[callee]? = some inputs →
        Recursive.Succeeds (Recursive.invoke P limits further) limits inputs (mostEntries left)
          callee := by
      intro callee inputs hlater hcallee
      have hbehind : (index : Nat) + 1 ≤ callee := hlater
      exact ih (by omega) (Nat.le_of_succ_le_succ hlevels) hcallee
    obtain ⟨env', entered, steps, hrun, hbinds, hentered, hsteps⟩ :=
      Recursive.runNodes_of_steps hstands.steps_eq hcalls hstands.nodes_eq
        (fun tensor hmem => Nat.lt_of_lt_of_le (h.input_lt hinputs hmem) hstands.tensors_ge)
        (.of_bindAll huniform hbind) hroom'
    -- The result is the last tensor that can be read, and there is one because there are formals.
    have hlive : layer.live ≠ [] := List.ne_nil_of_mem (hstands.steps_eq.subset_live
      (List.head_mem (h.built.formals_ne _ (List.mem_of_getElem? hinputs))))
    obtain ⟨result, hbound, hresult⟩ := hbinds _ (List.getLast_mem hlive)
    have hcounted : countAll (counters.enter index .body).calls entered
        = countAll counters.calls (index :: entered) := by
      rw [Counters.enter_eq]
      rfl
    rw [hcounted] at hrun
    rw [Counters.enter_eq] at hsteps
    refine ⟨result, index :: entered, steps, ?_, hresult, ?_, ?_⟩
    · have hreads : List.Forall₂ (P.Reads env') layer.subgraph.outputs [.array result] := by
        rw [Layer.subgraph, List.getLast?_eq_some_getLast hlive]
        exact .cons (reads_of_get? hbound) .nil
      exact (Recursive.invoke_succ_eq_ok h.links_eq).mpr
        ⟨layer.subgraph, env, env', hstands.subgraph_eq, hbind, hrun, hreads⟩
    · rw [List.length_cons]
      omega
    · dsimp only at hsteps
      omega

theorem exists_entry : ∃ formal, formals[0]? = some formal :=
  ⟨_, List.getElem?_eq_getElem (h.length_eq ▸ h.length_pos)⟩

theorem entryInputs_eq_ok {ε : Type} {entry : List TensorId} (hentry : formals[0]? = some entry) :
    (P.entryInputs : Outcome ε (List TensorId)) = .ok entry := by
  obtain ⟨layer, hlayer, rfl⟩ := h.exists_layer hentry
  rw [entryInputs, h.entry_eq, subgraph_eq_ok.mpr (h.stands hlayer).subgraph_eq, Outcome.ok_bind]
  rfl

/-- The entry takes as many arrays as it has inputs, and they are uniform. -/
theorem entryArguments_eq_ok_iff {entry : List TensorId} (hentry : formals[0]? = some entry)
    {inputs : List DenseArray} : entryArguments P inputs = .ok (inputs.map .array)
      ↔ inputs.length = entry.length ∧ ∀ input ∈ inputs, input.Uniform := by
  have hargument {formal : TensorId} (hmem : formal ∈ entry) {input : DenseArray} :
      entryArgument P formal input = .ok (.array input) ↔ input.Uniform := by
    obtain ⟨tensor, htensor, hshape⟩ := h.built.shapes formal (h.input_lt hentry hmem)
    have hfound : (P.tensor formal : Evaluation Tensor) = .ok tensor := tensor_eq_ok.mpr htensor
    unfold entryArgument
    rw [hfound, Outcome.ok_bind, Outcome.check_bind_eq_ok, Outcome.ensure_eq_ok, beq_iff_eq, hshape]
    exact and_iff_left rfl
  have hall {formals : List TensorId} {inputs : List DenseArray}
      (hlength : inputs.length = formals.length) (hformals : ∀ formal ∈ formals, formal ∈ entry) :
      (formals.zip inputs).mapM (fun pair => entryArgument P pair.1 pair.2)
          = .ok (inputs.map .array) ↔ ∀ input ∈ inputs, input.Uniform := by
    rw [Outcome.mapM_eq_ok]
    induction inputs generalizing formals with
    | nil => simp
    | cons input others ih =>
      obtain ⟨formal, rest, rfl⟩ := List.exists_cons_of_length_eq_add_one hlength.symm
      obtain ⟨hformal, hrest⟩ := List.forall_mem_cons.mp hformals
      rw [List.zip_cons_cons, List.map_cons, List.forall₂_cons, List.forall_mem_cons,
        hargument hformal, ih (Nat.succ.inj hlength) hrest]
  unfold entryArguments
  rw [h.entryInputs_eq_ok hentry, Outcome.ok_bind, Outcome.check_bind_eq_ok, Outcome.ensure_eq_ok,
    beq_iff_eq, eq_comm]
  exact and_congr_right fun hlength => hall hlength fun _ hmem => hmem

/-- A layered program runs on what its entry takes, if five calls and some steps are allowed. -/
theorem exists_run {inputs : List DenseArray}
    (hinputs : entryArguments P inputs = .ok (inputs.map .array)) {limits : RunLimits}
    (hdepth : 5 ≤ limits.maxCallDepth + 1) (hsteps : 8 * mostEntries 5 ≤ limits.maxSteps) :
    ∃ result entered steps, Recursive.run P limits inputs
        = .ok ⟨[result], countAll .empty entered, steps⟩
      ∧ entered.length ≤ mostEntries 5 := by
  obtain ⟨entry, hentry⟩ := h.exists_entry
  obtain ⟨hlength, huniform⟩ := (h.entryArguments_eq_ok_iff hentry).mp hinputs
  have hlayers : layers.length ≤ 0 + 5 := Nat.le_trans h.length_le (Nat.le_refl _)
  obtain ⟨result, entered, steps, hinvoke, -, hentered, -⟩ :=
    h.succeeds limits hlayers hdepth hentry inputs .zero hlength huniform
      (Nat.le_trans (Nat.le_of_eq (Nat.zero_add _)) hsteps)
  rw [← h.entry_eq] at hinvoke
  refine ⟨result, entered, steps, ?_, hentered⟩
  rw [Recursive.run, hinputs, Outcome.ok_bind, hinvoke, Outcome.ok_bind]
  rfl

end Layered

end TailFlow
