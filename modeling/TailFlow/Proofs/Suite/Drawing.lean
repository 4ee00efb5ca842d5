import TailFlow.Proofs.Suite.LayeredPrograms

/-!
# Random programs are layered

`Yields` says what drawing comes to whatever the source is: it always succeeds, and something holds of
what it gives and of the builder after it. Only the numbers drawn have to be in range. Every way of
drawing a program yields a layered one.
-/

namespace TailFlow

/-- Numbers are drawn below their bounds. -/
def RandomSource.InRange (σ : Type) [RandomSource σ] : Prop :=
  ∀ (bound : Nat) (source : σ), 0 < bound → (RandomSource.below bound source).1 < bound

namespace RandomStream

theorem word_lt (stream : RandomStream) : stream.word.1 < wordCount := by
  have hmixed := Nat.mul_lt_mul'' (stream.state + increment).toNat_lt
    ((stream.state + increment) ^^^ mixer).toNat_lt
  exact Nat.xor_lt_two_pow (Nat.mod_lt _ (twoTo_pos 64)) (Nat.div_lt_of_lt_mul hmixed)

theorem redraw_lt {bound threshold : Nat} (hpos : 0 < bound) (draws : Nat) {product : Nat}
    (hlt : product < wordCount * bound) (stream : RandomStream) :
    (redraw bound threshold draws product stream).1 < wordCount * bound := by
  induction draws generalizing product stream with
  | zero => exact hlt
  | succ draws ih =>
    rw [redraw]
    split
    · exact ih (Nat.mul_lt_mul_of_pos_right stream.word_lt hpos) _
    · exact hlt

theorem inRange : RandomSource.InRange RandomStream := by
  intro bound stream hpos
  have hdrawn := Nat.mul_lt_mul_of_pos_right stream.word_lt hpos
  exact Nat.div_lt_of_lt_mul (redraw_lt hpos patience hdrawn stream.word.2)

end RandomStream

namespace RandomProgram

section Yields

variable {σ α β ι : Type}

/-- Whatever the source is, drawing succeeds, and the property holds of what is drawn and of the
builder after it. -/
def Yields (drawing : Drawing σ α) (builder : ProgramBuilder)
    (holds : α → ProgramBuilder → Prop) : Prop :=
  ∀ source, ∃ answer source' builder', StateT.run (StateT.run drawing source) builder
    = .ok ((answer, source'), builder') ∧ holds answer builder'

variable {builder : ProgramBuilder} {holds : α → ProgramBuilder → Prop}

theorem yields_pure {answer : α} (h : holds answer builder) :
    Yields (pure answer : Drawing σ α) builder holds :=
  fun source => ⟨answer, source, builder, rfl, h⟩

theorem Yields.bind {drawing : Drawing σ α} {next : α → Drawing σ β}
    {holds' : β → ProgramBuilder → Prop} (h : Yields drawing builder holds)
    (hnext : ∀ answer builder', holds answer builder' → Yields (next answer) builder' holds') :
    Yields (drawing >>= next) builder holds' := by
  intro source
  obtain ⟨answer, source', builder', hrun, hholds⟩ := h source
  obtain ⟨answer', source'', builder'', hrun', hholds'⟩ := hnext answer builder' hholds source'
  refine ⟨answer', source'', builder'', ?_, hholds'⟩
  rw [StateT.run_bind, StateT.run_bind, hrun, Outcome.ok_bind]
  exact hrun'

theorem Yields.mono {drawing : Drawing σ α} {holds' : α → ProgramBuilder → Prop}
    (h : Yields drawing builder holds)
    (himp : ∀ answer builder', holds answer builder' → holds' answer builder') :
    Yields drawing builder holds' := by
  intro source
  obtain ⟨answer, source', builder', hrun, hholds⟩ := h source
  exact ⟨answer, source', builder', hrun, himp answer builder' hholds⟩

theorem yields_mapM {draw : ι → Drawing σ α} {items : List ι}
    (kept : List α → ProgramBuilder → Prop) (hstart : kept [] builder)
    (hstep : ∀ answers item builder, kept answers builder →
      Yields (draw item) builder fun answer => kept (answers ++ [answer])) :
    Yields (items.mapM draw) builder fun answers after =>
      answers.length = items.length ∧ kept answers after := by
  induction items generalizing kept builder with
  | nil => exact yields_pure ⟨rfl, hstart⟩
  | cons item rest ih =>
    rw [List.mapM_cons]
    refine (hstep [] item builder hstart).bind fun answer middle hmiddle => ?_
    refine (ih (fun answers => kept (answer :: answers)) hmiddle fun answers =>
      hstep (answer :: answers)).bind ?_
    rintro answers after ⟨hlength, hkept⟩
    exact yields_pure ⟨congrArg (· + 1) hlength, hkept⟩

theorem yields_foldlM {draw : α → ι → Drawing σ α} {items : List ι}
    (kept : Nat → α → ProgramBuilder → Prop) {done : Nat} {state : α}
    (hstart : kept done state builder)
    (hstep : ∀ done state item builder, kept done state builder →
      Yields (draw state item) builder (kept (done + 1))) :
    Yields (items.foldlM draw state) builder (kept (done + items.length)) := by
  induction items generalizing done state builder with
  | nil => exact yields_pure hstart
  | cons item rest ih =>
    rw [List.foldlM_cons]
    refine (hstep done state item builder hstart).bind fun next middle hmiddle => ?_
    refine (ih hmiddle).mono fun answer after hkept => ?_
    rwa [List.length_cons, Nat.add_comm rest.length, ← Nat.add_assoc]

theorem yields_forM {draw : ι → Drawing σ Unit} {items : List ι} (kept : Nat → ProgramBuilder → Prop)
    (hstart : kept 0 builder) (hstep : ∀ place item builder, items[place]? = some item →
      kept place builder → Yields (draw item) builder fun _ => kept (place + 1)) :
    Yields (items.forM draw) builder fun _ => kept items.length := by
  induction items generalizing kept builder with
  | nil => exact yields_pure hstart
  | cons item rest ih =>
    refine (hstep 0 item builder rfl hstart).bind fun _ middle hmiddle => ?_
    exact ih (fun place => kept (place + 1)) hmiddle fun place item builder hitem =>
      hstep (place + 1) item builder hitem

theorem yields_lift {building : Building α} {answer : α} {builder' : ProgramBuilder}
    (hrun : StateT.run building builder = .ok (answer, builder')) :
    Yields (liftM building : Drawing σ α) builder fun given after =>
      given = answer ∧ after = builder' := by
  intro source
  refine ⟨answer, source, builder', ?_, rfl, rfl⟩
  show (StateT.run building builder >>= fun given => pure ((given.1, source), given.2)) = _
  rw [hrun, Outcome.ok_bind]
  rfl

theorem yields_tensor {name : String} {shape : List Nat} :
    Yields (Building.tensor name shape : Drawing σ TensorId) builder fun id after =>
      id = builder.tensors.size
        ∧ after = { builder with tensors := builder.tensors.push ⟨name, shape, .f32, none⟩ } :=
  fun source => ⟨_, source, _, rfl, rfl, rfl⟩

end Yields

section Choices

variable {σ : Type} [RandomSource σ] (hrange : RandomSource.InRange σ) {builder : ProgramBuilder}

include hrange

theorem yields_below {bound : Nat} (hpos : 0 < bound) :
    Yields (below bound : Drawing σ Nat) builder fun n after => n < bound ∧ after = builder :=
  fun source => ⟨_, _, builder, rfl, hrange bound source hpos, rfl⟩

theorem yields_between {first last : Nat} (hle : first ≤ last) :
    Yields (between first last : Drawing σ Nat) builder fun n after =>
      (first ≤ n ∧ n ≤ last) ∧ after = builder := by
  refine (yields_below hrange (Nat.succ_pos _)).bind ?_
  rintro n _ ⟨hlt, rfl⟩
  exact yields_pure ⟨⟨Nat.le_add_right _ _, by omega⟩, rfl⟩

theorem yields_pick {live : List TensorId} (hsome : live ≠ []) :
    Yields (pick live : Drawing σ TensorId) builder fun tensor after =>
      tensor ∈ live ∧ after = builder := by
  refine (yields_below hrange (List.length_pos_iff.mpr hsome)).bind ?_
  rintro n _ ⟨hlt, rfl⟩
  refine yields_pure ⟨?_, rfl⟩
  rw [List.getD_eq_getElem?_getD, List.getElem?_eq_getElem hlt, Option.getD_some]
  exact List.getElem_mem hlt

theorem yields_picks {ι : Type} (items : List ι) {live : List TensorId} (hsome : live ≠ []) :
    Yields (items.mapM fun _ => (pick live : Drawing σ TensorId)) builder fun tensors after =>
      tensors.length = items.length ∧ (∀ tensor ∈ tensors, tensor ∈ live) ∧ after = builder := by
  refine yields_mapM (fun tensors after => (∀ tensor ∈ tensors, tensor ∈ live) ∧ after = builder)
    ⟨nofun, rfl⟩ ?_
  rintro tensors item _ ⟨hall, rfl⟩
  refine (yields_pick hrange hsome).mono ?_
  rintro tensor _ ⟨hmem, rfl⟩
  exact ⟨by simpa [or_imp, forall_and] using ⟨hall, hmem⟩, rfl⟩

omit hrange in
theorem yields_drawsCall (index count : Nat) :
    Yields (drawsCall index count : Drawing σ Bool) builder fun answer after =>
      (answer → index + 1 < count) ∧ after = builder := by
  unfold drawsCall
  split
  · exact fun source => ⟨_, _, builder, rfl, fun _ => ‹_›, rfl⟩
  · exact yields_pure ⟨nofun, rfl⟩

end Choices

/-! ### Steps -/

def Adds (builder after : ProgramBuilder) (count : Nat) : Prop :=
  ∃ extra : List Tensor, extra.length = count ∧ (∀ tensor ∈ extra, tensor.constant = none)
    ∧ after = { builder with tensors := builder.tensors ++ extra.toArray }

section Steps

variable {builder after : ProgramBuilder} {count : Nat}

theorem Adds.nothing (builder : ProgramBuilder) : Adds builder builder 0 :=
  ⟨[], rfl, nofun, by rw [Array.append_empty]⟩

theorem Adds.size_eq (h : Adds builder after count) :
    after.tensors.size = builder.tensors.size + count := by
  obtain ⟨extra, rfl, -, rfl⟩ := h
  simp

theorem Adds.push (h : Adds builder after count) {tensor : Tensor} (hplain : tensor.constant = none) :
    Adds builder { after with tensors := after.tensors.push tensor } (count + 1) := by
  obtain ⟨extra, rfl, hall, rfl⟩ := h
  refine ⟨extra ++ [tensor], by simp, ?_, by simp⟩
  simpa [or_imp, forall_and] using ⟨hall, hplain⟩

theorem Adds.trans {final : ProgramBuilder} {more : Nat} (h : Adds builder after count)
    (h' : Adds after final more) : Adds builder final (count + more) := by
  obtain ⟨extra, rfl, hall, rfl⟩ := h
  obtain ⟨extra', rfl, hall', rfl⟩ := h'
  refine ⟨extra ++ extra', List.length_append, fun tensor hmem => ?_, by simp⟩
  exact (List.mem_append.mp hmem).elim (hall tensor) (hall' tensor)

def OneStep (formals : List (List TensorId)) (index : SubgraphId) (live : List TensorId)
    (builder : ProgramBuilder) (added : List Node × TensorId) (after : ProgramBuilder) : Prop :=
  Steps formals index live builder.tensors.size added.1 (live ++ [added.2]) 1
    ∧ Adds builder after added.1.length

theorem OneStep.behind {formals : List (List TensorId)} {index : SubgraphId}
    {live live' : List TensorId} {nodes : List Node} {done : Nat}
    {middle after : ProgramBuilder} {added : List Node × TensorId}
    (h : OneStep formals index live' middle added after)
    (hsteps : Steps formals index live builder.tensors.size nodes live' done)
    (hadds : Adds builder middle nodes.length) :
    Steps formals index live builder.tensors.size (nodes ++ added.1) (live' ++ [added.2]) (done + 1)
      ∧ Adds builder after (nodes ++ added.1).length := by
  obtain ⟨hone, hadds'⟩ := h
  rw [hadds.size_eq] at hone
  rw [Nat.add_comm, List.length_append]
  exact ⟨hsteps.trans hone, hadds.trans hadds'⟩

variable {σ : Type} [RandomSource σ] (hrange : RandomSource.InRange σ)
  {formals : List (List TensorId)} {index : SubgraphId} {live : List TensorId} (hsome : live ≠ [])

include hrange hsome

theorem yields_addKernel (formals : List (List TensorId)) (index : SubgraphId) (stem : String) :
    Yields (addKernel stem live : Drawing σ _) builder (OneStep formals index live builder) := by
  refine (yields_below hrange (Nat.succ_pos 3)).bind ?_
  rintro n _ ⟨-, rfl⟩
  refine (yields_picks hrange _ hsome).bind ?_
  rintro operands _ ⟨hlength, hmem, rfl⟩
  refine yields_tensor.bind ?_
  rintro _ _ ⟨rfl, rfl⟩
  refine yields_pure ⟨.kernel ?_ hmem .done, (Adds.nothing _).push rfl⟩
  rw [hlength, List.length_range]
  unfold kernelOf
  split <;> rfl

theorem yields_addCall (stem : String) {callee : SubgraphId} {inputs : List TensorId}
    (hlater : index < callee) (hcallee : formals[callee]? = some inputs) :
    Yields (addCall stem callee inputs live : Drawing σ _) builder
      (OneStep formals index live builder) := by
  refine (yields_picks hrange inputs hsome).bind ?_
  rintro arguments _ ⟨hlength, hmem, rfl⟩
  refine yields_tensor.bind ?_
  rintro _ _ ⟨rfl, rfl⟩
  refine yields_tensor.bind ?_
  rintro _ _ ⟨rfl, rfl⟩
  refine yields_pure ⟨?_, ((Adds.nothing _).push rfl).push rfl⟩
  rw [Array.size_push]
  exact .call hlater hcallee hlength hmem .done

theorem yields_addStep (step : Nat) {nodes : List Node} {inputs : List TensorId} {done : Nat}
    {middle : ProgramBuilder}
    (hsteps : Steps formals index inputs builder.tensors.size nodes live done)
    (hadds : Adds builder middle nodes.length) :
    Yields (addStep formals index (nodes, live) step : Drawing σ _) middle fun state after =>
      Steps formals index inputs builder.tensors.size state.1 state.2 (done + 1)
        ∧ Adds builder after state.1.length := by
  unfold addStep
  refine (yields_drawsCall index formals.length).bind ?_
  rintro calls _ ⟨hcalls, rfl⟩
  dsimp only
  split
  · rename_i hcall
    have hlt := hcalls hcall
    refine (yields_between hrange (by omega)).bind ?_
    rintro callee _ ⟨⟨hfirst, hlast⟩, rfl⟩
    have hcallee : formals[callee]? = some (formals.getD callee []) := by
      rw [List.getD_eq_getElem?_getD, List.getElem?_eq_getElem (by omega), Option.getD_some]
    refine (yields_addCall hrange hsome _ hfirst hcallee).bind fun added after hone => ?_
    exact yields_pure (hone.behind hsteps hadds)
  · refine (yields_addKernel hrange hsome formals index _).bind fun added after hone => ?_
    exact yields_pure (hone.behind hsteps hadds)

end Steps

/-! ### Subgraphs -/

theorem formals_le {formals : List (List TensorId)} {layers : List Layer}
    {builder : ProgramBuilder} (h : Built formals layers builder) :
    formals.flatten.length ≤ builder.tensors.size := by
  by_contra hlt
  obtain ⟨tensor, hsome, -⟩ := h.shapes builder.tensors.size (Nat.not_le.mp hlt)
  exact Nat.lt_irrefl _ (Array.getElem?_eq_some_iff.mp hsome).1

def defineLayer (layer : Layer) (index : SubgraphId) (builder : ProgramBuilder) : ProgramBuilder :=
  { builder with
    nodes := builder.nodes ++ layer.nodes.toArray
    subgraphs := builder.subgraphs.modify index fun subgraph =>
      { subgraph with
        inputs := layer.inputs
        outputs := layer.live.getLast?.toList
        nodes := List.range' builder.nodes.size layer.nodes.length } }

section Defining

variable {formals : List (List TensorId)} {layer : Layer} {index : SubgraphId}
  {builder middle : ProgramBuilder} (hinputs : formals[index]? = some layer.inputs)
  (hnode : layer.firstNode = builder.nodes.size) (htensor : layer.firstTensor = builder.tensors.size)
  (hsteps : Steps formals index layer.inputs layer.firstTensor layer.nodes layer.live layer.steps)
  (hle : layer.steps ≤ 4) (hadds : Adds builder middle layer.nodes.length)

include hinputs hnode htensor hsteps hle hadds

theorem stands_defineLayer {subgraph : Subgraph}
    (hsubgraph : builder.subgraphs[index]? = some subgraph) (hname : subgraph.name = layer.name)
    (hbody : subgraph.kind = .body) (hformals : formals.flatten.length ≤ builder.tensors.size) :
    layer.Stands formals index (defineLayer layer index middle) := by
  obtain ⟨extra, hlength, -, rfl⟩ := hadds
  refine ⟨hsteps, hle, hinputs, ?_, ?_, ?_, htensor ▸ hformals, ?_⟩
  · rw [defineLayer, Array.getElem?_modify, if_pos rfl, hsubgraph, Option.map_some, hname, hbody,
      Layer.subgraph, hnode]
  · intro place hlt
    rw [defineLayer, hnode, Array.getElem?_append_right (Nat.le_add_right _ _),
      Nat.add_sub_cancel_left, List.getElem?_toArray]
  · rw [defineLayer, hnode, Array.size_append]
    exact Nat.le_refl _
  · rw [defineLayer, htensor, Array.size_append, ← hlength]
    exact Nat.le_refl _

theorem built_cons {layers : List Layer} (h : Built formals layers builder)
    (hindex : layers.length + index + 1 = formals.length)
    (hname : builder.subgraphs[index]?.map Subgraph.name = some layer.name) :
    Built formals (layer :: layers) (defineLayer layer index middle) := by
  obtain ⟨subgraph, hsubgraph, hnamed⟩ := Option.map_eq_some_iff.mp hname
  have hstands := stands_defineLayer hinputs hnode htensor hsteps hle hadds hsubgraph hnamed
    (h.bodies subgraph (Array.mem_of_getElem? hsubgraph)) (formals_le h)
  obtain ⟨extra, -, hplain, rfl⟩ := hadds
  refine ⟨h.formals_eq, h.formals_ne, ?_, ?_, ?_, ?_, ?_, ?_, ?_⟩
  · intro id hlt
    obtain ⟨tensor, hsome, hshape⟩ := h.shapes id hlt
    refine ⟨tensor, ?_, hshape⟩
    rw [defineLayer, Array.getElem?_append_left (Nat.lt_of_lt_of_le hlt (formals_le h)), hsome]
  · intro tensor hmem
    exact (Array.mem_append.mp hmem).elim (h.plain tensor)
      fun hnew => hplain tensor (List.mem_toArray.mp hnew)
  · rw [defineLayer, Array.size_modify]
    exact h.size_eq
  · rw [List.length_cons]
    omega
  · intro subgraph hmem
    obtain ⟨place, hplace⟩ := Array.getElem?_of_mem hmem
    rw [defineLayer, Array.getElem?_modify] at hplace
    split at hplace
    · obtain ⟨before, hbefore, rfl⟩ := Option.map_eq_some_iff.mp hplace
      exact h.bodies before (Array.mem_of_getElem? hbefore)
    · exact h.bodies subgraph (Array.mem_of_getElem? hplace)
  · -- The layers that have been there are counted from the last one, so they keep their numbers.
    intro place other hother
    cases place with
    | zero =>
      obtain rfl := Option.some.inj hother
      have hplace : formals.length - (layer :: layers).length + 0 = index := by
        rw [List.length_cons]
        omega
      rwa [hplace]
    | succ place =>
      have hplace : formals.length - (layer :: layers).length + (place + 1)
          = formals.length - layers.length + place := by
        rw [List.length_cons]
        omega
      have hgrown : builder.tensors.size ≤ (builder.tensors ++ extra.toArray).size := by
        rw [Array.size_append]
        exact Nat.le_add_right _ _
      rw [hplace]
      refine (h.stands hother).grow hgrown rfl ?_
      rw [defineLayer, Array.getElem?_modify, if_neg (by omega)]
  · refine List.pairwise_cons.mpr ⟨fun other hmem => ?_, h.apart⟩
    obtain ⟨place, hother⟩ := List.getElem?_of_mem hmem
    rw [Layer.Behind, hnode, htensor]
    exact ⟨(h.stands hother).nodes_le, (h.stands hother).tensors_le⟩

end Defining

theorem define_eq_ok {builder : ProgramBuilder} {index : SubgraphId}
    (hlt : index < builder.subgraphs.size) (body : SubgraphBody) :
    StateT.run (Building.define index body) builder = .ok ((), { builder with
      nodes := builder.nodes ++ body.nodes.toArray
      subgraphs := builder.subgraphs.modify index fun subgraph =>
        { subgraph with
          inputs := body.inputs
          outputs := body.outputs
          nodes := List.range' builder.nodes.size body.nodes.length } }) := by
  have hdefine : (builder.define index body : Outcome BuildError ProgramBuilder)
      = (Outcome.following builder.subgraphs[index]? >>= fun _ => pure _) := rfl
  rw [Array.getElem?_eq_getElem hlt, Outcome.following_some, Outcome.ok_bind] at hdefine
  show ((builder.define index body >>= fun after => pure (after, builder)) >>= fun made =>
    pure ((), made.1) : Outcome BuildError (Unit × ProgramBuilder)) = _
  rw [hdefine]
  rfl

def finished (builder : ProgramBuilder) (entry : Subgraph) : Program :=
  ⟨builder.tensors, builder.nodes, builder.subgraphs, List.range builder.subgraphs.size, 0,
    entry.outputs, .empty⟩

theorem finish_eq_ok {builder : ProgramBuilder} {entry : Subgraph}
    (hentry : builder.subgraphs[0]? = some entry)
    (hvalid : (finished builder entry).validate = .ok ()) :
    StateT.run (Building.finish 0) builder = .ok (finished builder entry, builder) := by
  have hbuild : builder.build 0 = .ok (finished builder entry) := by
    unfold finished at hvalid ⊢
    unfold ProgramBuilder.build
    rw [hentry]
    dsimp only
    rw [hvalid]
  simp only [Building.finish, StateT.run_bind, StateT.run_get, pure_bind, hbuild]
  rfl

section Subgraphs

variable {σ : Type} [RandomSource σ] (hrange : RandomSource.InRange σ)

include hrange

theorem yields_addSubgraph {formals : List (List TensorId)} {layers : List Layer}
    {builder : ProgramBuilder} (h : Built formals layers builder) {index : Nat}
    (hindex : layers.length + index + 1 = formals.length) :
    Yields (addSubgraph formals index : Drawing σ Unit) builder fun _ after =>
      ∃ layer, Built formals (layer :: layers) after := by
  have hlt : index < formals.length := by omega
  obtain ⟨subgraph, hsubgraph⟩ : ∃ subgraph, builder.subgraphs[index]? = some subgraph :=
    ⟨_, Array.getElem?_eq_getElem (h.size_eq ▸ hlt)⟩
  have hinputs : formals[index]? = some (formals.getD index []) := by
    rw [List.getD_eq_getElem?_getD, List.getElem?_eq_getElem hlt, Option.getD_some]
  unfold addSubgraph
  generalize formals.getD index [] = inputs at hinputs ⊢
  refine (yields_between hrange (by decide)).bind ?_
  rintro steps builder ⟨⟨-, hle⟩, rfl⟩
  have hsome : inputs ≠ [] := h.formals_ne _ (List.mem_of_getElem? hinputs)
  have hdrawn : Yields ((List.range steps).foldlM (addStep formals index) ([], inputs) : Drawing σ _)
      builder fun state after => Steps formals index inputs builder.tensors.size state.1 state.2 steps
        ∧ Adds builder after state.1.length := by
    refine (yields_foldlM (fun done (state : List Node × List TensorId) after =>
      Steps formals index inputs builder.tensors.size state.1 state.2 done
        ∧ Adds builder after state.1.length) ⟨.done, .nothing builder⟩ ?_).mono ?_
    · rintro done ⟨nodes, live⟩ step middle ⟨hsteps, hadds⟩
      exact yields_addStep hrange (List.ne_nil_of_mem (hsteps.subset_live (List.head_mem hsome)))
        step hsteps hadds
    · rintro state after h
      rwa [List.length_range, Nat.zero_add] at h
  refine hdrawn.bind ?_
  rintro ⟨nodes, live⟩ middle ⟨hsteps, hadds⟩
  have hmiddle : index < middle.subgraphs.size := by
    obtain ⟨_, -, -, rfl⟩ := hadds
    exact h.size_eq ▸ hlt
  refine (yields_lift (define_eq_ok hmiddle _)).mono ?_
  rintro _ _ ⟨-, rfl⟩
  exact ⟨⟨subgraph.name, inputs, nodes, live, steps, builder.nodes.size, builder.tensors.size⟩,
    built_cons hinputs rfl rfl hsteps hle hadds h hindex (by rw [hsubgraph]; rfl)⟩

/-! ### Programs -/

structure Opened (formals : List (List TensorId)) (count : Nat) (builder : ProgramBuilder) : Prop where
  formals_eq : formals.flatten = List.range builder.tensors.size
  formals_ne : ∀ inputs ∈ formals, inputs ≠ []
  tensors : ∀ tensor ∈ builder.tensors, tensor.constant = none ∧ tensor.shape = shape
  size_eq : builder.subgraphs.size = count
  bodies : ∀ subgraph ∈ builder.subgraphs, subgraph.kind = .body

omit hrange [RandomSource σ] in
theorem yields_declare {count : Nat} {builder : ProgramBuilder} (h : Opened [] count builder)
    (name : String) : Yields (do let _ ← (Building.declare name : Drawing σ _)) builder
      fun _ => Opened [] (count + 1) := by
  refine (yields_lift rfl).bind ?_
  rintro _ _ ⟨-, rfl⟩
  refine yields_pure ⟨h.formals_eq, h.formals_ne, h.tensors, ?_, fun subgraph hmem => ?_⟩
  · exact (Array.size_push _).trans (congrArg (· + 1) h.size_eq)
  · rcases Array.mem_push.mp hmem with hold | rfl
    · exact h.bodies subgraph hold
    · rfl

theorem yields_addFormals {formals : List (List TensorId)} {count : Nat} {builder : ProgramBuilder}
    (h : Opened formals count builder) (index : Nat) :
    Yields (addFormals index : Drawing σ _) builder fun inputs =>
      Opened (formals ++ [inputs]) count := by
  refine (yields_between hrange (by decide)).bind ?_
  rintro slots builder ⟨⟨hpos, -⟩, rfl⟩
  refine (yields_mapM (fun inputs after => (formals ++ [inputs]).flatten = List.range after.tensors.size
    ∧ (∀ tensor ∈ after.tensors, tensor.constant = none ∧ tensor.shape = shape)
    ∧ after.subgraphs = builder.subgraphs) ⟨?_, h.tensors, rfl⟩ ?_).mono ?_
  · simpa using h.formals_eq
  · rintro inputs slot middle ⟨hformals, htensors, hsubgraphs⟩
    refine yields_tensor.mono ?_
    rintro _ _ ⟨rfl, rfl⟩
    refine ⟨?_, fun tensor hmem => ?_, hsubgraphs⟩
    · rw [Array.size_push, List.range_succ, ← hformals]
      simp
    · rcases Array.mem_push.mp hmem with hold | rfl
      · exact htensors tensor hold
      · exact ⟨rfl, rfl⟩
  · rintro inputs after ⟨hlength, hformals, htensors, hsubgraphs⟩
    refine ⟨hformals, fun some hmem => ?_, htensors, hsubgraphs ▸ h.size_eq, hsubgraphs ▸ h.bodies⟩
    rcases List.mem_append.mp hmem with hold | hlast
    · exact h.formals_ne some hold
    · rw [List.mem_singleton.mp hlast, ← List.length_pos_iff, hlength, List.length_range]
      exact hpos

theorem yields_draw : Yields (draw : Drawing σ _) .empty fun answer _ =>
    ∃ formals layers, Layered formals layers answer.1 := by
  refine (yields_between hrange (by decide)).bind ?_
  rintro count _ ⟨⟨hfirst, hlast⟩, rfl⟩
  have hempty : Opened [] 0 .empty := ⟨rfl, nofun, nofun, rfl, nofun⟩
  refine (yields_forM (fun place => Opened [] place) hempty fun place name builder _ h =>
    yields_declare h _).bind ?_
  intro _ builder hdeclared
  rw [List.length_range] at hdeclared
  refine (yields_mapM (fun formals => Opened formals count) hdeclared fun formals index builder h =>
    yields_addFormals hrange h index).bind ?_
  rintro formals builder ⟨hlength, hopened⟩
  rw [List.length_range] at hlength
  have hstart : Built formals [] builder := by
    refine ⟨?_, hopened.formals_ne, ?_, fun tensor hmem => (hopened.tensors tensor hmem).1,
      hopened.size_eq.trans hlength.symm, Nat.zero_le _, hopened.bodies, nofun, .nil⟩
    · rw [hopened.formals_eq, List.length_range]
    · intro id hlt
      rw [hopened.formals_eq, List.length_range] at hlt
      exact ⟨_, Array.getElem?_eq_getElem hlt, (hopened.tensors _ (Array.getElem_mem hlt)).2⟩
  refine (yields_forM (fun place after => ∃ layers, layers.length = place ∧ Built formals layers after)
    ⟨[], rfl, hstart⟩ ?_).bind ?_
  · rintro place index builder hindex ⟨layers, rfl, hbuilt⟩
    obtain ⟨hlt, hat⟩ := List.getElem?_eq_some_iff.mp hindex
    rw [List.getElem_reverse, List.getElem_range, List.length_range] at hat
    rw [List.length_reverse, List.length_range] at hlt
    refine (yields_addSubgraph hrange hbuilt (by omega)).mono ?_
    rintro _ after ⟨layer, hbuilt⟩
    exact ⟨layer :: layers, rfl, hbuilt⟩
  · rintro _ builder ⟨layers, hcount, hbuilt⟩
    rw [List.length_reverse, List.length_range] at hcount
    have hpos : 0 < builder.subgraphs.size := by
      rw [hbuilt.size_eq]
      omega
    have hentry := Array.getElem?_eq_getElem hpos
    have hlayered : Layered formals layers (finished builder builder.subgraphs[0]) :=
      ⟨hbuilt, hcount.trans hlength.symm, by omega, by omega, rfl, rfl, congrArg _ hentry, rfl⟩
    refine (yields_lift (finish_eq_ok hentry hlayered.validate_eq_ok)).bind ?_
    rintro _ _ ⟨rfl, rfl⟩
    exact yields_pure ⟨formals, layers, hlayered⟩

end Subgraphs

end RandomProgram

end TailFlow
