import TailFlow.Proofs.Boundary.Building
import TailFlow.Proofs.Schedule.Progress

/-!
# Wrapping comes to an end

Everything that is looked up while a body is wrapped has been there when wrapping began, and the
wrappers are subgraphs that have not been there. So a body can be wrapped if its callers reach one call
each, and no move of a stage is refused: a body is moved once, from where splitting has left it, and
wrappers are tracked in their final form.
-/

namespace TailFlow

open Program

/-! ### One body -/

namespace Wrapping

variable {ε : Type} {W : Program} {state : Wrapping}

/-- While a body is wrapped nothing is taken from the program, and the wrappers are new. -/
structure Grown (W : Program) (state : Wrapping) : Prop where
  extends_program : W.Extends state.program
  entrances_ge : ∀ id ∈ state.boundary.entrances.map EntranceWrapper.entrance, W.subgraphs.size ≤ id
  exits_ge : ∀ id ∈ state.boundary.exits, W.subgraphs.size ≤ id

theorem addEntrance_grown {stem : String} {formals handover : List TensorId} {exit : SubgraphId}
    {consumer caller : NodeId} {state' : Wrapping} (hgrown : Grown W state)
    (hadd : (addEntrance stem formals exit consumer handover state caller : Outcome ε Wrapping)
      = .ok state') : Grown W state' := by
  obtain ⟨extra, binderName, callName, name, arguments, handle, -, -, rfl⟩ := addEntrance_eq_ok hadd
  refine ⟨hgrown.extends_program.after _, fun id hid => ?_, hgrown.exits_ge⟩
  rw [List.map_append, List.mem_append] at hid
  rcases hid with hold | hnew
  · exact hgrown.entrances_ge id hold
  · rw [List.mem_singleton.mp hnew]
    exact hgrown.extends_program.subgraphs_le

theorem exists_addEntrance {stem : String} {formals handover : List TensorId} {exit : SubgraphId}
    {consumer caller : NodeId} (hgrown : Grown W state)
    (hformals : ∀ tensor ∈ formals, tensor < W.tensors.size) (hcaller : caller < W.nodes.size) :
    ∃ state', (addEntrance stem formals exit consumer handover state caller : Outcome ε Wrapping)
      = .ok state' ∧ Grown W state' := by
  let name := s!"{stem}_entrance{state.boundary.entrances.length}"
  obtain ⟨arguments, program, hlikes⟩ : ∃ arguments program,
      (state.program.addLikes (numberedNames (name ++ "_arg") formals)
        : Outcome ε (List TensorId × Program)) = .ok (arguments, program) :=
    exists_addNumbered _ fun tensor hmem =>
      Nat.lt_of_lt_of_le (hformals tensor hmem) hgrown.extends_program.tensors_le
  obtain ⟨extra, -, -, rfl⟩ := addLikes_eq_ok hlikes
  obtain ⟨state', hadd⟩ : ∃ state', (addEntrance stem formals exit consumer handover state caller
      : Outcome ε Wrapping) = .ok state' := by
    have hlt := Nat.lt_of_lt_of_le hcaller hgrown.extends_program.nodes_le
    rw [addEntrance, hlikes, Outcome.ok_bind]
    dsimp only
    rw [node_eq_ok.mpr (Array.getElem?_eq_getElem ?_), Outcome.ok_bind]
    · exact ⟨_, rfl⟩
    -- The call of the entrance is put in the place of the caller, which is still in the arena.
    simp only [placeBefore, addTensor, addNode, addSubgraph, Array.size_push]
    omega
  exact ⟨state', hadd, addEntrance_grown hgrown hadd⟩

theorem exists_addGroup {stem : String} {formals : List TensorId} {group : CallerGroup}
    (hgrown : Grown W state) (hformals : ∀ tensor ∈ formals, tensor < W.tensors.size)
    (hdestination : ∀ tensor ∈ group.destination, tensor < W.tensors.size)
    (hcallers : ∀ caller ∈ group.callers, caller < W.nodes.size) :
    ∃ state', (addGroup stem formals state group : Outcome ε Wrapping) = .ok state'
      ∧ Grown W state' := by
  let name := s!"{stem}_exit{state.boundary.exits.length}"
  obtain ⟨handover, program, hlikes⟩ : ∃ handover program,
      (state.program.addLikes (numberedNames (name ++ "_link") group.destination)
        : Outcome ε (List TensorId × Program)) = .ok (handover, program) :=
    exists_addNumbered _ fun tensor hmem =>
      Nat.lt_of_lt_of_le (hdestination tensor hmem) hgrown.extends_program.tensors_le
  obtain ⟨extra, -, -, rfl⟩ := addLikes_eq_ok hlikes
  let middle : Wrapping := { state with
    program := (exitAddition state.program extra (name ++ "_copy") name state.boundary.body state.anchor
      handover group.destination).after state.program
    anchor := state.program.subgraphs.size
    boundary := { state.boundary with
      exits := state.boundary.exits ++ [state.program.subgraphs.size] } }
  have hmiddle : Grown W middle := by
    refine ⟨hgrown.extends_program.after _, hgrown.entrances_ge, fun id hid => ?_⟩
    rcases List.mem_append.mp hid with hold | hnew
    · exact hgrown.exits_ge id hold
    · rw [List.mem_singleton.mp hnew]
      exact hgrown.extends_program.subgraphs_le
  obtain ⟨state', hfold, hgrown'⟩ := Outcome.exists_foldlM_eq_ok
    (f := addEntrance (ε := ε) stem formals state.program.subgraphs.size state.program.nodes.size
      handover)
    (Grown W) (fun _ caller hmem hstate => exists_addEntrance hstate hformals (hcallers caller hmem))
    hmiddle
  refine ⟨state', ?_, hgrown'⟩
  rw [addGroup, hlikes, Outcome.ok_bind]
  exact hfold

end Wrapping

/-- A body can be wrapped for callers that are there and go to where there is something to write. -/
theorem Program.exists_wrap {ε : Type} {W : Program} (hW : W.WellFormed) {body : SubgraphId}
    (hbody : body < W.subgraphs.size) {groups : List CallerGroup}
    (hgroups : ∀ group ∈ groups, (∀ tensor ∈ group.destination, tensor < W.tensors.size)
      ∧ ∀ caller ∈ group.callers, caller < W.nodes.size) (recorder : LinkRecorder) :
    ∃ wrapping, (W.wrap body groups recorder : Outcome ε Wrapping) = .ok wrapping
      ∧ wrapping.Grown W := by
  have hsubgraph := Array.getElem?_eq_getElem hbody
  have hformals : ∀ tensor ∈ (W.subgraphs[body]).inputs, tensor < W.tensors.size := fun tensor hmem =>
    hW.interface hsubgraph tensor (List.mem_append_left _ hmem)
  have hstart : Wrapping.Grown W ⟨W, recorder, ⟨body, [], []⟩, body⟩ :=
    ⟨.refl W, List.forall_mem_nil _, List.forall_mem_nil _⟩
  obtain ⟨wrapping, hfold, hgrown⟩ := Outcome.exists_foldlM_eq_ok (Wrapping.Grown W)
    (f := Wrapping.addGroup (ε := ε) (W.subgraphs[body]).name (W.subgraphs[body]).inputs)
    (fun state group hmem hstate => Wrapping.exists_addGroup hstate hformals (hgroups group hmem).1
      (hgroups group hmem).2) hstart
  refine ⟨wrapping, ?_, hgrown⟩
  rw [wrap, subgraph_eq_ok.mpr hsubgraph, Outcome.ok_bind]
  exact hfold

/-! ### All bodies -/

namespace ScheduleRun

variable {P W : Program} {links : IdMap Link} {bodies : List SubgraphId} {sharing : ExitSharing}
  {catalog : Catalog} {run : ScheduleRun} {body : SubgraphId}

theorem get?_trackWrappers (states : ProgressTable) (boundary : Boundary) (id : SubgraphId) :
    (trackWrappers states boundary).get? id
      = if id ∈ boundary.exits ∨ id ∈ boundary.entrances.map EntranceWrapper.entrance
        then some .final else states.get? id := by
  have hentrances : boundary.entrances.foldl (fun states wrapper => states.trackFinal wrapper.entrance)
      states = (boundary.entrances.map EntranceWrapper.entrance).foldl ProgressTable.trackFinal states :=
    (List.foldl_map ..).symm
  rw [trackWrappers, hentrances, ProgressTable.get?_foldl_trackFinal,
    ProgressTable.get?_foldl_trackFinal, ite_or]

/-- The moves of a body that is wrapped are lawful, no other subgraph that was there is moved, and the
wrappers are tracked. -/
theorem exists_bounded {states : ProgressTable} (hready : states.Ready) {size : Nat}
    (hlt : body < size) {boundary : Boundary}
    (hentrances : ∀ id ∈ boundary.entrances.map EntranceWrapper.entrance, size ≤ id)
    (hexits : ∀ id ∈ boundary.exits, size ≤ id) :
    ∃ states', (trackWrappers ⟨states.stages.insert body .pendingBoundary⟩ boundary).move body .bounded
        = .ok states'
      ∧ states'.Ready ∧ (∀ id < size, id ≠ body → states'.get? id = states.get? id)
      ∧ ∀ id, (states'.get? id).isSome ↔ (id ∈ boundary.exits
          ∨ id ∈ boundary.entrances.map EntranceWrapper.entrance)
        ∨ id = body ∨ (states.get? id).isSome := by
  have hold {id : SubgraphId} (hid : id < size) :
      ¬ (id ∈ boundary.exits ∨ id ∈ boundary.entrances.map EntranceWrapper.entrance) := fun hwrapper =>
    Nat.not_lt.mpr (hwrapper.elim (hexits id) (hentrances id)) hid
  have htracked (id : SubgraphId) := get?_trackWrappers
    ⟨states.stages.insert body .pendingBoundary⟩ boundary id
  simp only [ProgressTable.get?_insert] at htracked
  have hpending := (htracked body).trans ((if_neg (hold hlt)).trans (if_pos rfl))
  refine ⟨_, ProgressTable.move_eq_ok hpending .bounded rfl, fun id stage hstage => ?_,
    fun id hid hne => ?_, fun id => ?_⟩
  · rw [ProgressTable.get?_insert] at hstage
    by_cases hbody : body = id
    · rw [if_pos hbody] at hstage
      exact .inr (Option.some.inj hstage ▸ rfl)
    · rw [if_neg hbody, htracked, if_neg hbody] at hstage
      split at hstage
      · exact .inl (Option.some.inj hstage).symm
      · exact hready hstage
  · rw [ProgressTable.get?_insert, if_neg hne.symm, htracked, if_neg (hold hid), if_neg hne.symm]
  · rw [ProgressTable.get?_insert]
    by_cases hbody : body = id
    · simp [hbody]
    · rw [if_neg hbody, htracked, if_neg hbody, or_iff_right (Ne.symm hbody)]
      split
      · rename_i hwrapper
        exact iff_of_true rfl (.inl hwrapper)
      · rename_i hwrapper
        rw [or_iff_right hwrapper]

theorem exists_wrapBody (hP : P.WellFormed) (hone : ∀ binder, P.ReachesOne binder)
    (hcatalog : ∀ binder, binder ∈ catalog.callers body ↔ P.Names binder body)
    (hlt : body < P.subgraphs.size) (hwraps : Wraps P links bodies W run.recorder.links)
    (hold : ∀ binder, P.Names binder body → W.nodes[binder]? = P.nodes[binder]?)
    (hready : run.states.Ready) (hstable : run.states.get? body = some .stable) :
    ∃ run' W', wrapBody sharing catalog (run, W) body = .ok (run', W') ∧ run'.states.Ready
      ∧ ∀ id < P.subgraphs.size, id ≠ body → run'.states.get? id = run.states.get? id := by
  have hW := hwraps.wellFormed hP
  have hextends := hwraps.extends_program hP
  have hbinders : ∀ caller ∈ catalog.callers body, W.ListsBinder caller := by
    intro caller hcaller
    have hnames := (hcatalog caller).mp hcaller
    exact hwraps.listsBinder_of_names hP hnames (hold caller hnames)
  obtain ⟨⟨groups, dead⟩, hgroup⟩ : ∃ answer,
      W.groupCallers sharing body (catalog.callers body) = .ok answer :=
    exists_groupCallers hW fun caller hcaller =>
      ⟨hbinders caller hcaller, hwraps.reachesOne hP hone caller⟩
  obtain ⟨hgrouped, -⟩ := groupCallers_eq_ok hW hbinders hgroup
  unfold wrapBody
  dsimp only
  rw [hgroup, Outcome.ok_bind]
  dsimp only
  split
  · exact ⟨_, _, rfl, hready, fun _ _ _ => rfl⟩
  split
  · exact ⟨_, _, rfl, hready, fun _ _ _ => rfl⟩
  have hgroups := hgrouped.lt hW fun caller hcaller =>
    Nat.lt_of_lt_of_le ((hcatalog caller).mp hcaller).lt hextends.nodes_le
  obtain ⟨wrapping, hwrap, hgrown⟩ := exists_wrap (ε := ScheduleError) hW
    (Nat.lt_of_lt_of_le hlt hextends.subgraphs_le) hgroups run.recorder
  obtain ⟨states, hmove, hready', hothers, -⟩ := exists_bounded hready
    (Nat.lt_of_lt_of_le hlt hextends.subgraphs_le) hgrown.entrances_ge hgrown.exits_ge
  rw [ProgressTable.track_eq_self hstable, ProgressTable.move_eq_ok hstable .pendingBoundary rfl,
    Outcome.ok_bind, hwrap, Outcome.ok_bind]
  rw [hmove, Outcome.ok_bind]
  exact ⟨_, _, rfl, hready', fun id hid => hothers id (Nat.lt_of_lt_of_le hid hextends.subgraphs_le)⟩

theorem exists_wrapBodies (hP : P.WellFormed) (hplain : P.Unwrapped)
    (hone : ∀ binder, P.ReachesOne binder)
    (hcatalog : ∀ body binder, binder ∈ catalog.callers body ↔ P.Names binder body)
    (hnone : run.boundaries = []) (hready : run.states.Ready)
    (hstable : ∀ id < P.subgraphs.size, run.states.get? id = some .stable)
    (hnodup : bodies.Nodup) (hlt : ∀ body ∈ bodies, body < P.subgraphs.size) :
    ∃ run' W, bodies.foldlM (wrapBody sharing catalog) (run, P) = .ok (run', W) ∧ run'.states.Ready
      ∧ ∀ id < P.subgraphs.size, id ∉ bodies → run'.states.get? id = some .stable := by
  -- By induction on the last body: what the earlier ones have done is told by `wrapBodies_eq_ok`.
  induction bodies using List.reverseRecOn with
  | nil => exact ⟨run, P, rfl, hready, fun id hid _ => hstable id hid⟩
  | append_singleton earlier body ih =>
    obtain ⟨hearlier, -, hapart⟩ := List.nodup_append.mp hnodup
    have habsent : body ∉ earlier := fun hmem => hapart _ hmem _ (List.mem_singleton.mpr rfl) rfl
    have hbody := hlt body (by simp)
    obtain ⟨middle, W, hfold, hready', hstable'⟩ :=
      ih hearlier fun other hmem => hlt other (List.mem_append_left _ hmem)
    have hstart : Bounded sharing P [] run.boundaries P run.recorder.links := hnone ▸ .nil
    have hfirst : ([] ++ earlier).Nodup := hearlier
    obtain ⟨hwraps, hwrapped, -⟩ := wrapBodies_eq_ok hP hplain hcatalog (fun _ hmem => hmem) hfirst
      .none (fun _ _ _ _ => rfl) hstart hfold
    have hold : ∀ binder, P.Names binder body → W.nodes[binder]? = P.nodes[binder]? := by
      refine fun binder hnames => hwrapped.others binder hnames.lt ?_
      rintro ⟨⟨other, hmem, hother⟩, -⟩
      exact habsent (hnames.unique hP hother ▸ hmem)
    obtain ⟨run', W', hwrap, hready'', hothers⟩ := exists_wrapBody hP hone (hcatalog body) hbody hwraps
      hold hready' (hstable' body hbody habsent)
    refine ⟨run', W', ?_, hready'', fun id hid hnot => ?_⟩
    · rw [List.foldlM_append, hfold, Outcome.ok_bind]
      exact Outcome.foldlM_cons_eq_ok.mpr ⟨_, hwrap, rfl⟩
    · rw [List.mem_append, not_or, List.mem_singleton] at hnot
      rw [hothers id hid hnot.2]
      exact hstable' id hid hnot.1

/-- Wrapping comes to an end if every binder reaches one call at most and every subgraph is stable. -/
theorem exists_wrapAll (hP : P.WellFormed) (hplain : P.Unwrapped)
    (hone : ∀ binder, P.ReachesOne binder) (hnone : run.boundaries = []) (hready : run.states.Ready)
    (hstable : ∀ id < P.subgraphs.size, run.states.get? id = some .stable) :
    ∃ run' W, run.wrapAll sharing P = .ok (run', W) ∧ run'.states.Ready := by
  obtain ⟨catalog, hbuild, -, hcallers⟩ := Catalog.exists_build hP
  have hlt : ∀ body ∈ catalog.multiplyCalled, body < P.subgraphs.size := fun body hmem =>
    Catalog.lt_of_mem_multiplyCalled hP hcallers hmem
  obtain ⟨run', W, hfold, hready', -⟩ :
      ∃ run' W, catalog.multiplyCalled.foldlM (wrapBody sharing catalog) (run, P) = .ok (run', W)
        ∧ run'.states.Ready ∧ _ :=
    exists_wrapBodies hP hplain hone hcallers hnone hready hstable catalog.multiplyCalled_nodup hlt
  refine ⟨run', W, ?_, hready'⟩
  rw [wrapAll, hbuild, Outcome.ok_bind]
  exact hfold

/-! ### All kinds of subgraphs -/

/-- Wrapping is under way. The bodies that are left are stable and have the callers that they had, the
table tracks what there is, and the boundaries tell which binders have been changed. -/
structure Underway (P : Program) (links : IdMap Link) (bodies : List SubgraphId)
    (calls : List NodeId) (rest : List SubgraphId) (run : ScheduleRun) (W : Program) : Prop where
  wraps : Wraps P links bodies W run.recorder.links
  callers : ∀ body ∈ rest, ∀ binder, P.Names binder body → W.nodes[binder]? = P.nodes[binder]?
  stable : ∀ body ∈ rest, run.states.get? body = some .stable
  ready : run.states.Ready
  tracked : ∀ id, (run.states.get? id).isSome ↔ id < W.subgraphs.size
  told : ∀ ⦃id : NodeId⦄ ⦃node : Node⦄, P.nodes[id]? = some node → W.nodes[id]? = some node
    ∨ ∃ b ∈ run.boundaries, ∃ w ∈ b.entrances, w.caller = id ∧ node.kind = .bind b.body
      ∧ W.nodes[id]? = some { node with kind := .bind w.entrance }
  calls_eq : run.nonTailCalls = calls

theorem Underway.tail {calls : List NodeId} {rest : List SubgraphId}
    (h : Underway P links bodies calls (body :: rest) run W) :
    Underway P links bodies calls rest run W :=
  { h with
    callers := fun other hmem => h.callers other (.tail _ hmem)
    stable := fun other hmem => h.stable other (.tail _ hmem) }

/-- After wrapping there are the subgraphs that there were, and the wrappers. -/
theorem lt_size_wrap_iff {W : Program} (hW : W.WellFormed) (hlt : body < W.subgraphs.size)
    {groups : List CallerGroup} {recorder : LinkRecorder} {wrapping : Wrapping}
    (hwrap : (W.wrap body groups recorder : Outcome ScheduleError Wrapping) = .ok wrapping)
    (hafter : wrapping.program.WellFormed) (hbody : wrapping.boundary.body = body) (id : SubgraphId) :
    id < wrapping.program.subgraphs.size ↔ (id ∈ wrapping.boundary.exits
        ∨ id ∈ wrapping.boundary.entrances.map EntranceWrapper.entrance)
      ∨ id = body ∨ id < W.subgraphs.size := by
  obtain ⟨before, later, hplace⟩ := List.append_of_mem (hW.mem_order.mpr hlt)
  have horder := wrap_order hW hwrap hplace
  rw [← hafter.mem_order, ← hW.mem_order, horder, hplace]
  simp only [Boundary.block, hbody, List.mem_append, List.mem_cons]
  tauto

/-- Whatever kinds of subgraphs there are, a body is wrapped unless a caller reaches several calls. -/
theorem wrapBody_ends {calls : List NodeId} {rest : List SubgraphId} (hP : P.WellFormed)
    (hcatalog : ∀ binder, binder ∈ catalog.callers body ↔ P.Names binder body) (hmem : body ∈ bodies)
    (hlt : body < P.subgraphs.size) (hnew : body ∉ rest)
    (h : Underway P links bodies calls (body :: rest) run W)
    (hrest : ∀ other ∈ rest, other < P.subgraphs.size) :
    Outcome.Ends (fun state => Underway P links bodies calls rest state.1 state.2)
      Program.IsAmbiguous (wrapBody sharing catalog (run, W) body) := by
  have hwraps := h.wraps
  have hW := hwraps.wellFormed hP
  have hextends := hwraps.extends_program hP
  have hold := h.callers body List.mem_cons_self
  have hstable := h.stable body List.mem_cons_self
  have hbinders : ∀ caller ∈ catalog.callers body, W.ListsBinder caller := by
    intro caller hcaller
    have hnames := (hcatalog caller).mp hcaller
    exact hwraps.listsBinder_of_names hP hnames (hold caller hnames)
  unfold wrapBody
  dsimp only
  refine (groupCallers_ends hW hbinders).bind fun (groups, dead) hgroup _ => ?_
  dsimp only
  split
  · exact { h.tail with }
  split
  · exact { h.tail with }
  obtain ⟨hgrouped, hlive, -⟩ := hwraps.grouped hP hcatalog hold hgroup
  have hgroups := hgrouped.lt hW fun caller hcaller => (hbinders caller hcaller).lt
  have hlt' := Nat.lt_of_lt_of_le hlt hextends.subgraphs_le
  obtain ⟨wrapping, hwrap, hgrown⟩ :=
    exists_wrap (ε := ScheduleError) hW hlt' hgroups run.recorder
  obtain ⟨states, hmove, hready, hothers, htracked⟩ :=
    exists_bounded h.ready hlt' hgrown.entrances_ge hgrown.exits_ge
  obtain ⟨hwraps', hwrapped, hbody, hstands⟩ := hwraps.wrap_wraps hP hmem hlt hold hgrouped
    (groupCallers_shared hgroup) hlive hwrap
  rw [ProgressTable.track_eq_self hstable, ProgressTable.move_eq_ok hstable .pendingBoundary rfl,
    Outcome.ok_bind, hwrap, Outcome.ok_bind, hmove, Outcome.ok_bind]
  refine ⟨hwraps', fun other hother binder hnames => ?_, fun other hother => ?_, hready,
    fun id => ?_, fun id node hnode => ?_, h.calls_eq⟩
  · rw [hwrapped.others binder hnames.lt fun hnamed => hnew (hnamed.1.unique hP hnames ▸ hother)]
    exact h.callers other (.tail _ hother) binder hnames
  · have hne : other ≠ body := fun hsame => hnew (hsame ▸ hother)
    rw [hothers other (Nat.lt_of_lt_of_le (hrest other hother) hextends.subgraphs_le) hne]
    exact h.stable other (.tail _ hother)
  · rw [htracked, h.tracked, lt_size_wrap_iff hW hlt' hwrap (hwraps'.wellFormed hP) hbody]
  · by_cases hnamed : P.Names id body ∧ P.Live id
    · rw [← hbody, ← hstands.mem_iff] at hnamed
      obtain ⟨w, hw, hcaller⟩ := List.mem_map.mp hnamed
      obtain ⟨e, he, hsame, rfl⟩ := hstands.wrapper w hw
      obtain ⟨listed, ⟨_, -, -, hlisted⟩, hid, hkind, hnode'⟩ := he.caller_eq
      have hcaller' : e.caller = id := hcaller
      rw [hid, hcaller', hnode] at hlisted
      obtain rfl := Option.some.inj hlisted
      exact .inr ⟨wrapping.boundary, by simp, _, hw, hcaller', hsame ▸ hkind, hcaller' ▸ hnode'⟩
    · rw [hwrapped.others id (node_lt hnode) hnamed]
      refine (h.told hnode).imp_right fun ⟨b, hb, htold⟩ => ⟨b, List.mem_append_left _ hb, htold⟩

theorem wrapBodies_ends {calls : List NodeId} (hP : P.WellFormed)
    (hcatalog : ∀ body binder, binder ∈ catalog.callers body ↔ P.Names binder body)
    {rest : List SubgraphId} (hrest : ∀ body ∈ rest, body ∈ bodies ∧ body < P.subgraphs.size)
    (hnodup : rest.Nodup) (h : Underway P links bodies calls rest run W) :
    Outcome.Ends (fun state => Underway P links bodies calls [] state.1 state.2)
      Program.IsAmbiguous (rest.foldlM (wrapBody sharing catalog) (run, W)) := by
  induction rest generalizing run W with
  | nil => exact h
  | cons body rest ih =>
    obtain ⟨⟨hmem, hlt⟩, htail⟩ := List.forall_mem_cons.mp hrest
    obtain ⟨habsent, hnodup⟩ := List.nodup_cons.mp hnodup
    rw [List.foldlM_cons]
    refine (wrapBody_ends hP (hcatalog body) hmem hlt habsent h fun other hother =>
      (htail other hother).2).bind fun (middle, program) _ hmiddle => ?_
    exact ih htail hnodup hmiddle

/-- Whatever kinds of subgraphs there are, wrapping ends unless a binder reaches several calls. -/
theorem wrapAll_ends (hP : P.WellFormed)
    (hstages : ∀ id, run.states.get? id = if id < P.subgraphs.size then some .stable else none) :
    Outcome.Ends (fun state => ∃ bodies,
        Underway P run.recorder.links bodies run.nonTailCalls [] state.1 state.2)
      Program.IsAmbiguous (run.wrapAll sharing P) := by
  obtain ⟨catalog, hbuild, -, hcallers⟩ := Catalog.exists_build hP
  have hlt {body : SubgraphId} (hmem : body ∈ catalog.multiplyCalled) :=
    Catalog.lt_of_mem_multiplyCalled hP hcallers hmem
  have hstart : Underway P run.recorder.links catalog.multiplyCalled run.nonTailCalls
      catalog.multiplyCalled run P := by
    refine ⟨.none, fun _ _ _ _ => rfl, fun body hmem => ?_, fun id stage hstage => ?_, fun id => ?_,
      fun _ _ hnode => .inl hnode, rfl⟩
    · rw [hstages, if_pos (hlt hmem)]
    · rw [hstages] at hstage
      split at hstage
      · exact .inr (Option.some.inj hstage ▸ rfl)
      · exact nomatch hstage
    · rw [hstages]
      split <;> simp [*]
  unfold wrapAll
  rw [hbuild, Outcome.ok_bind]
  exact (wrapBodies_ends hP hcallers (fun _ hmem => ⟨hmem, hlt hmem⟩) catalog.multiplyCalled_nodup
    hstart).mono (fun _ _ h => ⟨_, h⟩) fun _ h => h

end ScheduleRun

end TailFlow
