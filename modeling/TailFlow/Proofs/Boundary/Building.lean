import TailFlow.Proofs.Boundary.Gates
import TailFlow.Schedule.Run

/-!
# Building the wrappers

Wrapping is followed here from the entrance of one caller up to the loop over all bodies that are
named more than once. `Wrapped` says what every stretch of it does: some callers get entrances,
wrappers that stand go on standing, and each exit that is added goes with an entrance.
-/

namespace TailFlow

open Program

/-- No subgraph is an exit or an entrance. -/
def Program.Unwrapped (P : Program) : Prop :=
  ∀ ⦃id : SubgraphId⦄ ⦃subgraph : Subgraph⦄, P.subgraphs[id]? = some subgraph →
    subgraph.kind.isWrapper = false

/-- A warning tells the truth about the program before wrapping, if the given bodies are wrapped. No
link is recorded twice. -/
def ScheduleWarning.Founded (P : Program) (bodies : List SubgraphId) : ScheduleWarning → Prop
  | .duplicateLink _ => False
  | .deadCaller binder body => P.Names binder body ∧ ¬ P.Live binder
  | .unusedBoundary body => body ∈ bodies ∧ ∀ binder, P.Names binder body → ¬ P.Live binder

/-- Between two points of wrapping the given callers get entrances, and the other nodes of the first
program stay as they are. -/
structure Wrapped (P : Program) (callers : NodeId → Prop) (W : Program) (links : IdMap Link)
    (W' : Program) (links' : IdMap Link) : Prop where
  keeps : Wraps.Keeps P W links W' links'
  others : ∀ id < P.nodes.size, ¬ callers id → W'.nodes[id]? = W.nodes[id]?
  named : ∀ id, callers id → ∃ e : Entrance, e.Stands P W' links' ∧ e.caller = id
  exits : ∀ id subgraph body, W'.subgraphs[id]? = some subgraph → subgraph.kind = .exit body →
    W.subgraphs[id]? = some subgraph ∨ ∃ e : Entrance, e.Stands P W' links' ∧ e.exit.id = id

namespace Wrapped

variable {P W W' W'' : Program} {links links' links'' : IdMap Link} {first second : NodeId → Prop}

theorem refl (hnone : ∀ id, ¬ first id) : Wrapped P first W links W links where
  keeps := .refl P W links
  others := fun _ _ _ => rfl
  named := fun id hid => absurd hid (hnone id)
  exits := fun _ _ _ hsubgraph _ => .inl hsubgraph

theorem trans {both : NodeId → Prop} (h : Wrapped P first W links W' links')
    (h' : Wrapped P second W' links' W'' links'') (hboth : ∀ id, both id ↔ first id ∨ second id) :
    Wrapped P both W links W'' links'' where
  keeps := h.keeps.trans h'.keeps
  others := by
    intro id hlt hnot
    rw [hboth, not_or] at hnot
    rw [h'.others id hlt hnot.2, h.others id hlt hnot.1]
  named := by
    intro id hid
    rcases (hboth id).mp hid with hfirst | hsecond
    · obtain ⟨e, he, hcaller⟩ := h.named id hfirst
      exact ⟨e, h'.keeps.entrance he, hcaller⟩
    · exact h'.named id hsecond
  exits := by
    intro id subgraph body hsubgraph hkind
    rcases h'.exits id subgraph body hsubgraph hkind with hbefore | hnew
    · rcases h.exits id subgraph body hbefore hkind with hold | ⟨e, he, hid⟩
      · exact .inl hold
      · exact .inr ⟨e, h'.keeps.entrance he, hid⟩
    · exact .inr hnew

end Wrapped

namespace Wraps

variable {P : Program} {links : IdMap Link} {bodies : List SubgraphId} {ε : Type}

/-! ### One group -/

structure Waits (P W : Program) (body : SubgraphId) (destination : List TensorId)
    (caller : NodeId) : Prop where
  names : P.Names caller body
  serves : P.Serves caller destination
  node_eq : W.nodes[caller]? = P.nodes[caller]?

theorem addEntrance_wraps (hP : P.WellFormed) {state state' : Wrapping} {stem : String} {x : Exit}
    {target : Subgraph} {caller : NodeId}
    (hwraps : Wraps P links bodies state.program state.recorder.links)
    (hx : x.Stands P state.program) (hbody : state.boundary.body = x.body)
    (hmem : x.body ∈ bodies) (htarget : P.subgraphs[x.body]? = some target)
    (hwaits : Waits P state.program x.body x.destination caller)
    (hadd : (Wrapping.addEntrance stem target.inputs x.id x.consumer x.handover state caller
      : Outcome ε Wrapping) = .ok state') :
    Wraps P links bodies state'.program state'.recorder.links
      ∧ Wrapped P (· = caller) state.program state.recorder.links state'.program
        state'.recorder.links
      ∧ ∃ e : Entrance, e.Stands P state'.program state'.recorder.links ∧ e.exit = x
        ∧ e.caller = caller ∧ state'.boundary = { state.boundary with
          entrances := state.boundary.entrances ++ [e.wrapper] } := by
  obtain ⟨⟨listed, hlists, rfl, hkind⟩, hserves, hnode⟩ := hwaits
  obtain ⟨extra, binderName, callName, name, arguments, handle, hfresh, hlength, rfl⟩ :=
    Wrapping.addEntrance_eq_ok hadd
  have hextends := hwraps.extends_program hP
  have hold : state.program.nodes[listed.id]? = some listed.node := by
    obtain ⟨-, -, -, hbefore⟩ := hlists
    rw [hnode, hbefore]
  let e : Entrance := ⟨listed.id, state.program.subgraphs.size, name, binderName, callName, x.body,
    state.program.nodes.size, state.program.nodes.size + 1, arguments, handle, x⟩
  have hwraps' : Wraps P links bodies _ _ := .entrance (e := e) hwraps hmem rfl rfl rfl hx rfl
    hfresh ⟨target, htarget, hlength⟩ hlists rfl hkind hold hserves
  have he : e.Stands P _ (state.recorder.links.insert e.call e.link) :=
    entrance_stands_new (e := e) (hwraps.wellFormed hP) hextends rfl rfl rfl hx rfl hfresh
      ⟨target, htarget, hlength⟩ hlists rfl hkind hold hserves
  rw [hbody]
  refine ⟨hwraps', ⟨?_, ?_, ?_, ?_⟩, e, he, rfl, rfl, by rw [← hbody]; rfl⟩
  · exact keeps_entrance (e := e) extra rfl (subgraph_lt htarget) hlists rfl hkind hold
  · intro id hlt hne
    have hlt' := Nat.lt_of_lt_of_le hlt hextends.nodes_le
    have hother : some listed.id ≠ some id := fun h => hne (Option.some.inj h).symm
    have hsame := Array.getElem?_eq_getElem hlt'
    rw [hsame]
    exact node_after_of_ne hsame hother
  · intro id hid
    exact ⟨e, he, hid.symm⟩
  · intro id subgraph body hsubgraph hexit
    rcases Addition.subgraph_after_cases hsubgraph with hbefore | ⟨-, rfl⟩
    · exact .inl hbefore
    · exact nomatch hexit

/-- All callers of a group get entrances that go with the exit of the group. -/
theorem addEntrances_wraps (hP : P.WellFormed) {stem : String} {x : Exit} {target : Subgraph}
    {callers : List NodeId} {state state' : Wrapping}
    (hwraps : Wraps P links bodies state.program state.recorder.links)
    (hx : x.Stands P state.program) (hbody : state.boundary.body = x.body)
    (hmem : x.body ∈ bodies) (htarget : P.subgraphs[x.body]? = some target)
    (hwaits : ∀ caller ∈ callers, Waits P state.program x.body x.destination caller)
    (hnodup : callers.Nodup)
    (hadd : callers.foldlM (Wrapping.addEntrance stem target.inputs x.id x.consumer x.handover)
      state = (.ok state' : Outcome ε Wrapping)) :
    Wraps P links bodies state'.program state'.recorder.links
      ∧ Wrapped P (· ∈ callers) state.program state.recorder.links state'.program
        state'.recorder.links
      ∧ ∃ entrances : List Entrance, entrances.map Entrance.caller = callers
        ∧ (∀ e ∈ entrances, e.Stands P state'.program state'.recorder.links ∧ e.exit = x)
        ∧ state'.boundary = { state.boundary with
          entrances := state.boundary.entrances ++ entrances.map Entrance.wrapper } := by
  induction callers generalizing state with
  | nil =>
    obtain rfl := Outcome.foldlM_nil_eq_ok.mp hadd
    exact ⟨hwraps, .refl (fun _ hid => nomatch hid), [], rfl, List.forall_mem_nil _, by simp⟩
  | cons caller rest ih =>
    obtain ⟨middle, hfirst, hrest⟩ := Outcome.foldlM_cons_eq_ok.mp hadd
    obtain ⟨hhead, htail⟩ := List.forall_mem_cons.mp hwaits
    obtain ⟨habsent, hnodup⟩ := List.nodup_cons.mp hnodup
    obtain ⟨hwraps', hone, e, he, hexit, hcaller, hboundary⟩ :=
      addEntrance_wraps hP hwraps hx hbody hmem htarget hhead hfirst
    have hstill : ∀ other ∈ rest, Waits P middle.program x.body x.destination other := by
      intro other hother
      have hbefore := htail other hother
      have hne : other ≠ caller := fun h => habsent (h ▸ hother)
      exact ⟨hbefore.names, hbefore.serves,
        (hone.others other hbefore.names.lt hne).trans hbefore.node_eq⟩
    have hbody' : middle.boundary.body = x.body := by rw [hboundary, hbody]
    obtain ⟨hwraps'', hmore, entrances, hcallers, hstands, hboundary'⟩ :=
      ih hwraps' (hone.keeps.exit hx) hbody' hstill hnodup hrest
    refine ⟨hwraps'', hone.trans hmore fun id => List.mem_cons, e :: entrances,
      by rw [List.map_cons, hcaller, hcallers], ?_, by rw [hboundary', hboundary]; simp⟩
    exact List.forall_mem_cons.mpr ⟨⟨hmore.keeps.entrance he, hexit⟩, hstands⟩

structure Ready (P W : Program) (body : SubgraphId) (group : CallerGroup) : Prop where
  nonempty : group.callers ≠ []
  waits : ∀ caller ∈ group.callers, Waits P W body group.destination caller
  nodup : group.callers.Nodup

theorem addGroup_wraps (hP : P.WellFormed) {stem : String} {body : SubgraphId} {target : Subgraph}
    {group : CallerGroup} {state state' : Wrapping}
    (hwraps : Wraps P links bodies state.program state.recorder.links)
    (hbody : state.boundary.body = body) (hmem : body ∈ bodies)
    (htarget : P.subgraphs[body]? = some target) (hready : Ready P state.program body group)
    (hadd : (Wrapping.addGroup stem target.inputs state group : Outcome ε Wrapping)
      = .ok state') :
    Wraps P links bodies state'.program state'.recorder.links
      ∧ Wrapped P (· ∈ group.callers) state.program state.recorder.links state'.program
        state'.recorder.links
      ∧ ∃ g : Gate, g.group = group ∧ g.Stands P state'.program state'.recorder.links
        ∧ state'.boundary = ⟨body, state.boundary.entrances ++ g.entrances.map Entrance.wrapper,
          state.boundary.exits ++ [g.exit.id]⟩ := by
  obtain ⟨extra, nodeName, name, handover, hfresh, hlength, hfold⟩ :=
    Wrapping.addGroup_eq_ok hadd
  have hextends := hwraps.extends_program hP
  let x : Exit := ⟨state.program.subgraphs.size, name, nodeName, body, state.program.nodes.size,
    handover, group.destination⟩
  obtain ⟨some, hsome⟩ := List.exists_mem_of_ne_nil _ hready.nonempty
  have hserves : ∃ caller, P.Serves caller x.destination := ⟨some, (hready.waits some hsome).serves⟩
  have hwraps' : Wraps P links bodies ((exitAddition state.program extra nodeName name body
      state.anchor handover group.destination).after state.program) state.recorder.links :=
    .exit (x := x) hwraps hmem rfl rfl hfresh hlength hserves
  have hx : x.Stands P _ := exit_stands_new (x := x) hextends rfl rfl hfresh hlength
    (exit_applies hP hextends state.anchor hfresh hlength hserves)
  have hkeeps : Keeps P state.program state.recorder.links _ state.recorder.links :=
    keeps_exit extra nodeName name body state.anchor handover group.destination
  rw [hbody] at hfold
  have hstill : ∀ caller ∈ group.callers, Waits P ((exitAddition state.program extra nodeName name
      body state.anchor handover group.destination).after state.program) x.body x.destination
      caller := by
    intro caller hcaller
    have hbefore := hready.waits caller hcaller
    obtain ⟨listed, ⟨-, -, -, hnode⟩, rfl, -⟩ := id hbefore.names
    have hold := hbefore.node_eq.trans hnode
    refine ⟨hbefore.names, hbefore.serves, Eq.trans ?_ hnode.symm⟩
    exact node_after_of_ne hold nofun
  rw [← show x.id = state.program.subgraphs.size from rfl,
    ← show x.consumer = state.program.nodes.size from rfl] at hfold
  obtain ⟨hwraps'', hwrapped, entrances, hcallers, hstands, hboundary⟩ :=
    addEntrances_wraps hP hwraps' hx hbody hmem htarget hstill hready.nodup hfold
  refine ⟨hwraps'', ⟨hkeeps.trans hwrapped.keeps, ?_, hwrapped.named, ?_⟩, ⟨group, x, entrances⟩, rfl,
    ⟨hcallers, rfl, hstands⟩, by rw [hboundary, ← hbody]⟩
  · intro id hlt hnot
    have hsame := Array.getElem?_eq_getElem (Nat.lt_of_lt_of_le hlt hextends.nodes_le)
    rw [hwrapped.others id hlt hnot, hsame]
    exact node_after_of_ne hsame nofun
  · intro id subgraph kind hsubgraph hkind
    rcases hwrapped.exits id subgraph kind hsubgraph hkind with hbefore | hnew
    · rcases Addition.subgraph_after_cases hbefore with hold | ⟨hid, -⟩
      · exact .inl hold
      · obtain ⟨caller, hcaller⟩ := List.exists_mem_of_ne_nil _ hready.nonempty
        rw [← hcallers] at hcaller
        obtain ⟨e, hmem, -⟩ := List.mem_map.mp hcaller
        obtain ⟨he, hexit⟩ := hstands e hmem
        exact .inr ⟨e, he, by rw [hexit, hid]⟩
    · exact .inr hnew

/-! ### All groups of a body -/

theorem addGroups_wraps (hP : P.WellFormed) {stem : String} {body : SubgraphId}
    {target : Subgraph} {groups : List CallerGroup} {state state' : Wrapping}
    (hwraps : Wraps P links bodies state.program state.recorder.links)
    (hbody : state.boundary.body = body) (hmem : body ∈ bodies)
    (htarget : P.subgraphs[body]? = some target)
    (hready : ∀ group ∈ groups, group.callers ≠ []
      ∧ ∀ caller ∈ group.callers, Waits P state.program body group.destination caller)
    (hnodup : (groups.flatMap CallerGroup.callers).Nodup)
    (hadd : groups.foldlM (Wrapping.addGroup stem target.inputs) state
      = (.ok state' : Outcome ε Wrapping)) :
    Wraps P links bodies state'.program state'.recorder.links
      ∧ Wrapped P (· ∈ groups.flatMap CallerGroup.callers) state.program state.recorder.links
        state'.program state'.recorder.links
      ∧ ∃ gates : List Gate, gates.map Gate.group = groups
        ∧ (∀ g ∈ gates, g.Stands P state'.program state'.recorder.links)
        ∧ state'.boundary = ⟨body,
          state.boundary.entrances ++ gates.flatMap fun g => g.entrances.map Entrance.wrapper,
          state.boundary.exits ++ gates.map fun g => g.exit.id⟩ := by
  induction groups generalizing state with
  | nil =>
    obtain rfl := Outcome.foldlM_nil_eq_ok.mp hadd
    exact ⟨hwraps, .refl (fun _ hid => nomatch hid), [], rfl, List.forall_mem_nil _,
      by simp [← hbody]⟩
  | cons group rest ih =>
    obtain ⟨middle, hfirst, hrest⟩ := Outcome.foldlM_cons_eq_ok.mp hadd
    obtain ⟨⟨hnonempty, hwaits⟩, htail⟩ := List.forall_mem_cons.mp hready
    rw [List.flatMap_cons, List.nodup_append] at hnodup
    obtain ⟨hgroup, hothers, hapart⟩ := hnodup
    obtain ⟨hwraps', hone, g, hgroupEq, hg, hboundary⟩ :=
      addGroup_wraps hP hwraps hbody hmem htarget ⟨hnonempty, hwaits, hgroup⟩ hfirst
    have hstill : ∀ other ∈ rest, other.callers ≠ []
        ∧ ∀ caller ∈ other.callers, Waits P middle.program body other.destination caller := by
      intro other hother
      refine ⟨(htail other hother).1, fun caller hcaller => ?_⟩
      have hbefore := (htail other hother).2 caller hcaller
      have hlater : caller ∈ rest.flatMap CallerGroup.callers :=
        List.mem_flatMap.mpr ⟨other, hother, hcaller⟩
      have hne : caller ∉ group.callers := fun h => hapart caller h caller hlater rfl
      exact ⟨hbefore.names, hbefore.serves,
        (hone.others caller hbefore.names.lt hne).trans hbefore.node_eq⟩
    have hbody' : middle.boundary.body = body := by rw [hboundary]
    obtain ⟨hwraps'', hmore, gates, hgroups, hgates, hboundary'⟩ :=
      ih hwraps' hbody' hstill hothers hrest
    refine ⟨hwraps'', hone.trans hmore fun id => ?_, g :: gates,
      by rw [List.map_cons, hgroupEq, hgroups],
      List.forall_mem_cons.mpr ⟨hg.keeps hmore.keeps, hgates⟩, by rw [hboundary', hboundary]; simp⟩
    rw [List.flatMap_cons, List.mem_append]

theorem serves_old (hP : P.WellFormed) {W : Program} {links' : IdMap Link}
    (hwraps : Wraps P links bodies W links') {caller : NodeId} (hlt : caller < P.nodes.size)
    {destination : List TensorId} (hserves : W.Serves caller destination) :
    P.Serves caller destination := by
  obtain ⟨call, node, hreaches, hone, hnode, hout⟩ := hserves
  have hbefore := (hwraps.reaches_iff hP hlt).mp hreaches
  obtain ⟨listed, ⟨subgraph, -, -, hold⟩, rfl, -⟩ := id hbefore.listsCall
  refine ⟨listed.id, listed.node, hbefore, fun other hother => ?_, hold, ?_⟩
  · exact hone other ((hwraps.reaches_iff hP hlt).mpr hother)
  · rcases (hwraps.shape hP).node_old hold with hsame | ⟨e, he, hid⟩
    · obtain rfl := Option.some.inj (hnode.symm.trans hsame)
      exact hout
    · obtain ⟨other, ⟨-, -, -, hother⟩, hcaller, -, hnamed⟩ := he.caller_eq
      rw [hid, hnode, Option.some.injEq] at hnamed
      rw [hcaller, hid, hold, Option.some.injEq] at hother
      rw [← hout, hnamed, hother]

/-- The callers of a body are binders still, as long as they are left as they were. -/
theorem listsBinder_of_names (hP : P.WellFormed) {W : Program} {links' : IdMap Link}
    (hwraps : Wraps P links bodies W links') {body : SubgraphId} {binder : NodeId}
    (hnames : P.Names binder body) (hold : W.nodes[binder]? = P.nodes[binder]?) :
    W.ListsBinder binder := by
  obtain ⟨listed, hlists, rfl, hkind⟩ := hnames
  obtain ⟨-, -, -, hnode⟩ := id hlists
  refine ⟨listed, (hwraps.extends_program hP).lists hlists (hold.trans hnode), rfl, ?_⟩
  rw [callee?_eq_some.mpr hkind]
  rfl

/-- The callers of a body that still name it are grouped, apart from the dead ones, which are warned
of. -/
theorem grouped (hP : P.WellFormed) {body : SubgraphId} {W : Program} {links' : IdMap Link}
    (hwraps : Wraps P links bodies W links') {callers : IdSet}
    (hcallers : ∀ binder, binder ∈ callers ↔ P.Names binder body)
    (hold : ∀ binder, P.Names binder body → W.nodes[binder]? = P.nodes[binder]?)
    {sharing : ExitSharing} {groups : List CallerGroup} {dead : List ScheduleWarning}
    (hgroup : W.groupCallers sharing body callers = .ok (groups, dead)) :
    W.Grouped callers.members groups
      ∧ (∀ caller, caller ∈ groups.flatMap CallerGroup.callers
        ↔ P.Names caller body ∧ P.Live caller)
      ∧ ∀ warning ∈ dead, warning.Founded P bodies := by
  obtain ⟨hgrouped, hdead⟩ := groupCallers_eq_ok (hwraps.wellFormed hP) (fun caller hcaller =>
    have hnames := (hcallers caller).mp hcaller
    hwraps.listsBinder_of_names hP hnames (hold caller hnames)) hgroup
  have hlive {caller : NodeId} (hnames : P.Names caller body) : W.Live caller ↔ P.Live caller :=
    exists_congr fun call => hwraps.reaches_iff hP hnames.lt
  refine ⟨hgrouped, fun caller => ?_, fun warning hmem => ?_⟩
  · rw [hgrouped.mem_iff, IdSet.mem_members, hcallers]
    exact and_congr_right hlive
  · obtain ⟨caller, hcaller, rfl⟩ := List.mem_map.mp ((show dead = _ from hdead) ▸ hmem)
    obtain ⟨hcaller, hnot⟩ := mem_deadAmong.mp hcaller
    have hnames := (hcallers caller).mp hcaller
    exact ⟨hnames, mt (hlive hnames).mpr hnot⟩

/-- Wrapping a body gives entrances to its live callers, and they make up its boundary. -/
theorem wrap_wraps (hP : P.WellFormed) {body : SubgraphId} {W : Program} {recorder : LinkRecorder}
    {looked : List NodeId} {groups : List CallerGroup} {sharing : ExitSharing}
    {wrapping : Wrapping} (hwraps : Wraps P links bodies W recorder.links) (hmem : body ∈ bodies)
    (hlt : body < P.subgraphs.size)
    (hold : ∀ binder, P.Names binder body → W.nodes[binder]? = P.nodes[binder]?)
    (hgrouped : W.Grouped looked groups) (hshared : CallerGroup.Shared sharing groups)
    (hlive : ∀ caller, caller ∈ groups.flatMap CallerGroup.callers
      ↔ P.Names caller body ∧ P.Live caller)
    (hbuild : (W.wrap body groups recorder : Outcome ε Wrapping) = .ok wrapping) :
    Wraps P links bodies wrapping.program wrapping.recorder.links
      ∧ Wrapped P (fun id => P.Names id body ∧ P.Live id) W recorder.links wrapping.program
        wrapping.recorder.links
      ∧ wrapping.boundary.body = body
      ∧ wrapping.boundary.Stands sharing P wrapping.program wrapping.recorder.links := by
  have hextends := hwraps.extends_program hP
  have hW := hwraps.wellFormed hP
  obtain ⟨target, htarget, hadd⟩ := Outcome.bind_eq_ok.mp hbuild
  rw [subgraph_eq_ok, hextends.subgraph_old _ hlt] at htarget
  have hready : ∀ group ∈ groups, group.callers ≠ []
      ∧ ∀ caller ∈ group.callers, Waits P W body group.destination caller := by
    intro group hgroup
    refine ⟨hgrouped.nonempty group hgroup, fun caller hcaller => ?_⟩
    have hnames := ((hlive caller).mp (List.mem_flatMap.mpr ⟨group, hgroup, hcaller⟩)).1
    exact ⟨hnames, hwraps.serves_old hP hnames.lt (hgrouped.serves group hgroup caller hcaller),
      hold caller hnames⟩
  have hstart : Wraps P links bodies (Wrapping.mk W recorder ⟨body, [], []⟩ body).program
      (Wrapping.mk W recorder ⟨body, [], []⟩ body).recorder.links := hwraps
  obtain ⟨hwraps', hwrapped, gates, rfl, hgates, hmade⟩ :=
    addGroups_wraps hP hstart rfl hmem htarget hready hgrouped.nodup hadd
  have hboundary : wrapping.boundary = ⟨body, gates.flatMap fun g => g.entrances.map Entrance.wrapper,
      gates.map fun g => g.exit.id⟩ := hmade
  have hexits : wrapping.boundary.exits.Nodup := by
    obtain ⟨before, later, horder⟩ :=
      List.append_of_mem (hW.mem_order.mpr (Nat.lt_of_lt_of_le hlt hextends.subgraphs_le))
    have hnodup := (hwraps'.wellFormed hP).order_nodup
    rw [wrap_order hW hbuild horder] at hnodup
    have hblock : wrapping.boundary.block.Nodup :=
      (hnodup.sublist (List.sublist_append_left _ _)).sublist (List.sublist_append_right _ _)
    exact (hblock.sublist (List.sublist_append_right _ _)).of_cons
  have hcallers : (· ∈ (gates.map Gate.group).flatMap CallerGroup.callers)
      = fun id => P.Names id body ∧ P.Live id := funext fun id => propext (hlive id)
  rw [hboundary] at hexits ⊢
  exact ⟨hwraps', hcallers ▸ hwrapped, rfl, Boundary.stands_of_gates hgates hP
    (fun g hg => hgrouped.nonempty _ (List.mem_map_of_mem hg)) hshared hgrouped.nodup hlive hexits⟩

end Wraps

/-! ### All bodies -/

namespace ScheduleRun

variable {P : Program} {links : IdMap Link} {bodies : List SubgraphId} {sharing : ExitSharing}
  {catalog : Catalog}

/-- Callers that stand in subgraphs without an entrance among them do not go through entrances. -/
theorem isBounded_eq_false {W : Program} {body : SubgraphId} {groups : List CallerGroup}
    (hW : W.WellFormed) {caller : NodeId} (hmem : caller ∈ groups.flatMap CallerGroup.callers)
    {listed : ListedNode} (hlists : W.Lists listed) (hid : listed.id = caller)
    {subgraph : Subgraph} (hsubgraph : W.subgraphs[listed.owner]? = some subgraph)
    (hkind : subgraph.kind ≠ .entrance body) : W.isBounded body groups = false := by
  rw [← Bool.not_eq_true]
  intro hbounded
  unfold isBounded at hbounded
  simp only [Bool.and_eq_true, List.all_eq_true] at hbounded
  have hthis := hbounded.2 caller hmem
  subst hid
  rw [hW.owner?_eq hlists, Option.bind_some, hsubgraph] at hthis
  simp [hkind] at hthis

/-- A body is left as it is, because none of its callers is live or because they go through
entrances already, or it is wrapped. -/
theorem wrapBody_cases {body : SubgraphId} {run run' : ScheduleRun} {W W' : Program}
    (hwrap : wrapBody sharing catalog (run, W) body = .ok (run', W')) :
    ∃ groups dead, W.groupCallers sharing body (catalog.callers body) = .ok (groups, dead)
      ∧ ((groups = [] ∧ W' = W
          ∧ run' = { run with warnings := run.warnings ++ dead ++ [.unusedBoundary body] })
        ∨ (groups ≠ [] ∧ W.isBounded body groups ∧ W' = W
          ∧ run' = { run with warnings := run.warnings ++ dead })
        ∨ (groups ≠ [] ∧ ∃ states wrapping,
          (W.wrap body groups run.recorder : Outcome ScheduleError Wrapping) = .ok wrapping
          ∧ W' = wrapping.program ∧ run' = { run with
            states
            warnings := run.warnings ++ dead
            recorder := wrapping.recorder
            boundaries := run.boundaries ++ [wrapping.boundary] })) := by
  obtain ⟨⟨groups, dead⟩, hgroup, hbody⟩ := Outcome.bind_eq_ok.mp hwrap
  refine ⟨groups, dead, hgroup, ?_⟩
  dsimp only at hbody
  split at hbody
  · rename_i hempty
    obtain ⟨rfl, rfl⟩ := Prod.mk.inj (Outcome.pure_eq_ok.mp hbody)
    exact .inl ⟨List.isEmpty_iff.mp hempty, rfl, rfl⟩
  rename_i hsome
  have hnonempty : groups ≠ [] := mt List.isEmpty_iff.mpr hsome
  split at hbody
  · rename_i hbounded
    obtain ⟨rfl, rfl⟩ := Prod.mk.inj (Outcome.pure_eq_ok.mp hbody)
    exact .inr (.inl ⟨hnonempty, hbounded, rfl, rfl⟩)
  · obtain ⟨states, -, hbody⟩ := Outcome.bind_eq_ok.mp hbody
    obtain ⟨wrapping, hbuild, hbody⟩ := Outcome.bind_eq_ok.mp hbody
    obtain ⟨states', -, hpure⟩ := Outcome.bind_eq_ok.mp hbody
    obtain ⟨rfl, rfl⟩ := Prod.mk.inj (Outcome.pure_eq_ok.mp hpure)
    exact .inr (.inr ⟨hnonempty, states', wrapping, hbuild, rfl, rfl⟩)

/-- Callers that were there before wrapping stand in bodies and segments, so none of them goes through
an entrance. -/
theorem isBounded_eq_false_of_names (hP : P.WellFormed) (hplain : P.Unwrapped) {body : SubgraphId}
    {W : Program} {links' : IdMap Link} (hwraps : Wraps P links bodies W links') {caller : NodeId}
    (hold : W.nodes[caller]? = P.nodes[caller]?) (hnames : P.Names caller body)
    {groups : List CallerGroup} (hmem : caller ∈ groups.flatMap CallerGroup.callers) :
    W.isBounded body groups = false := by
  have hextends := hwraps.extends_program hP
  obtain ⟨listed, hlists, rfl, hkind⟩ := hnames
  obtain ⟨owner, howner, -, hnode⟩ := id hlists
  have hafter := hextends.lists hlists (hold.trans hnode)
  have howner' := (hextends.subgraph_old _ (subgraph_lt howner)).trans howner
  apply isBounded_eq_false (hwraps.wellFormed hP) hmem hafter rfl howner'
  intro h
  have hbody := hplain howner
  rw [h] at hbody
  exact nomatch hbody

/-- One body is wrapped: its live callers get entrances. What is warned of is true. -/
theorem wrapBody_eq_ok (hP : P.WellFormed)
    (hplain : P.Unwrapped)
    {body : SubgraphId} (hcatalog : ∀ binder, binder ∈ catalog.callers body ↔ P.Names binder body)
    (hmem : body ∈ bodies) {run run' : ScheduleRun} {W W' : Program}
    (hwraps : Wraps P links bodies W run.recorder.links)
    (hold : ∀ binder, P.Names binder body → W.nodes[binder]? = P.nodes[binder]?)
    {done : List SubgraphId} (hbounded : Bounded sharing P done run.boundaries W run.recorder.links)
    (hnew : body ∉ done)
    (hwrap : wrapBody sharing catalog (run, W) body = .ok (run', W')) :
    Wraps P links bodies W' run'.recorder.links
      ∧ Wrapped P (fun id => P.Names id body ∧ P.Live id) W run.recorder.links W'
        run'.recorder.links
      ∧ run'.nonTailCalls = run.nonTailCalls
      ∧ Bounded sharing P (done ++ [body]) run'.boundaries W' run'.recorder.links
      ∧ ∀ warning ∈ run'.warnings, warning ∈ run.warnings ∨ warning.Founded P bodies := by
  obtain ⟨groups, dead, hgroup, hcases⟩ := wrapBody_cases hwrap
  obtain ⟨hgrouped, hlive, hwarned⟩ := hwraps.grouped hP hcatalog hold hgroup
  have hcaller (hsome : groups ≠ []) : ∃ caller, caller ∈ groups.flatMap CallerGroup.callers := by
    obtain ⟨group, hfirst⟩ := List.exists_mem_of_ne_nil _ hsome
    obtain ⟨caller, hcaller⟩ := List.exists_mem_of_ne_nil _ (hgrouped.nonempty group hfirst)
    exact ⟨caller, List.mem_flatMap.mpr ⟨group, hfirst, hcaller⟩⟩
  rcases hcases with ⟨rfl, rfl, rfl⟩ | ⟨hsome, hthrough, -⟩ | ⟨hsome, states, wrapping, hbuild, rfl, rfl⟩
  · -- Without live callers there is nothing to wrap.
    have hdead (caller : NodeId) (hnames : P.Names caller body) : ¬ P.Live caller := fun h =>
      nomatch (hlive caller).mpr ⟨hnames, h⟩
    refine ⟨hwraps, .refl fun id hid => hdead id hid.1 hid.2, rfl, hbounded.skip hdead,
      fun warning hwarning => ?_⟩
    rcases List.mem_append.mp hwarning with hfirst | hlast
    · exact (List.mem_append.mp hfirst).imp_right (hwarned warning)
    · exact .inr (List.mem_singleton.mp hlast ▸ ⟨hmem, hdead⟩)
  · obtain ⟨caller, hflat⟩ := hcaller hsome
    obtain ⟨hnames, -⟩ := (hlive caller).mp hflat
    rw [isBounded_eq_false_of_names hP hplain hwraps (hold _ hnames) hnames hflat] at hthrough
    exact nomatch hthrough
  · obtain ⟨caller, hflat⟩ := hcaller hsome
    have hnamed := (hlive caller).mp hflat
    obtain ⟨listed, hbefore, -, hkind⟩ := id hnamed.1
    have hlt := callee_lt hP hbefore hkind
    obtain ⟨hwraps', hwrapped, hbody, hstands⟩ := hwraps.wrap_wraps hP hmem hlt hold hgrouped
      (groupCallers_shared hgroup) hlive hbuild
    refine ⟨hwraps', hwrapped, rfl, ?_, fun warning hwarning =>
      (List.mem_append.mp hwarning).imp_right (hwarned warning)⟩
    have horder {before later : List SubgraphId} (hplace : W.order = before ++ body :: later) :=
      wrap_order (hwraps.wellFormed hP) hbuild hplace
    subst hbody
    exact hbounded.wrap hP hwraps hnew hlt ⟨caller, hnamed⟩ hwrapped.keeps hstands
      fun before later hplace => horder hplace

theorem wrapBodies_eq_ok (hP : P.WellFormed)
    (hplain : P.Unwrapped)
    (hcatalog : ∀ body binder, binder ∈ catalog.callers body ↔ P.Names binder body)
    {done rest : List SubgraphId} (hrest : ∀ body ∈ rest, body ∈ bodies)
    (hnodup : (done ++ rest).Nodup) {run run' : ScheduleRun} {W W' : Program}
    (hwraps : Wraps P links bodies W run.recorder.links)
    (hold : ∀ body ∈ rest, ∀ binder, P.Names binder body → W.nodes[binder]? = P.nodes[binder]?)
    (hbounded : Bounded sharing P done run.boundaries W run.recorder.links)
    (hwrap : rest.foldlM (wrapBody sharing catalog) (run, W) = .ok (run', W')) :
    Wraps P links bodies W' run'.recorder.links
      ∧ Wrapped P (fun id => (∃ body ∈ rest, P.Names id body) ∧ P.Live id) W run.recorder.links W'
        run'.recorder.links
      ∧ run'.nonTailCalls = run.nonTailCalls
      ∧ Bounded sharing P (done ++ rest) run'.boundaries W' run'.recorder.links
      ∧ ∀ warning ∈ run'.warnings, warning ∈ run.warnings ∨ warning.Founded P bodies := by
  induction rest generalizing run W done with
  | nil =>
    obtain ⟨rfl, rfl⟩ := Prod.mk.inj (Outcome.foldlM_nil_eq_ok.mp hwrap)
    rw [List.append_nil]
    exact ⟨hwraps, .refl (fun id ⟨⟨_, hmem, _⟩, _⟩ => nomatch hmem), rfl, hbounded,
      fun _ hmem => .inl hmem⟩
  | cons body rest ih =>
    obtain ⟨⟨middle, program⟩, hfirst, hothers⟩ := Outcome.foldlM_cons_eq_ok.mp hwrap
    obtain ⟨hhead, htail⟩ := List.forall_mem_cons.mp hrest
    have hnew : body ∉ done := fun hmem =>
      (List.nodup_append.mp hnodup).2.2 _ hmem _ List.mem_cons_self rfl
    have habsent : body ∉ rest := (List.nodup_cons.mp (List.nodup_append.mp hnodup).2.1).1
    rw [List.append_cons] at hnodup ⊢
    obtain ⟨hwraps', hone, hcalls, hbounded', hwarned⟩ := wrapBody_eq_ok hP hplain (hcatalog body) hhead hwraps
      (hold body List.mem_cons_self) hbounded hnew hfirst
    have hstill : ∀ other ∈ rest, ∀ binder, P.Names binder other →
        program.nodes[binder]? = P.nodes[binder]? := by
      intro other hother binder hnames
      rw [hone.others binder hnames.lt, hold other (.tail _ hother) binder hnames]
      intro ⟨hnames', _⟩
      exact habsent (hnames.unique hP hnames' ▸ hother)
    obtain ⟨hwraps'', hmore, hcalls', hbounded'', hwarned'⟩ :=
      ih htail hnodup hwraps' hstill hbounded' hothers
    refine ⟨hwraps'', hone.trans hmore fun id => ?_, hcalls'.trans hcalls, hbounded'',
      fun warning hmem => (hwarned' warning hmem).elim (hwarned warning) .inr⟩
    simp only [List.mem_cons, or_and_right, exists_or, exists_eq_left]

/-- Wrapping gives entrances to all live callers of the reached subgraphs that are named more than
once. -/
theorem wrapAll_eq_ok (hP : P.WellFormed)
    (hplain : P.Unwrapped)
    {run run' : ScheduleRun} {W : Program} (hnone : run.boundaries = [])
    (hwrap : run.wrapAll sharing P = .ok (run', W)) :
    ∃ bodies : List SubgraphId, (∀ body, body ∈ bodies
        ↔ ¬ P.NamedOnce body ∧ Reach.Leads P.leadsTo P.entry body)
      ∧ Wraps P run.recorder.links bodies W run'.recorder.links
      ∧ Wrapped P (fun id => (∃ body ∈ bodies, P.Names id body) ∧ P.Live id) P run.recorder.links W
        run'.recorder.links
      ∧ run'.nonTailCalls = run.nonTailCalls
      ∧ Bounded sharing P bodies run'.boundaries W run'.recorder.links
      ∧ ∀ warning ∈ run'.warnings, warning ∈ run.warnings ∨ warning.Founded P bodies := by
  obtain ⟨catalog, hcatalog, hfold⟩ := Outcome.bind_eq_ok.mp hwrap
  obtain ⟨catalog', hbuild, hreachable, hcallers⟩ := Catalog.exists_build hP
  obtain rfl := Except.ok.inj (hcatalog.symm.trans hbuild)
  refine ⟨catalog.multiplyCalled, fun body => ?_, ?_⟩
  · rw [Catalog.mem_multiplyCalled hcallers, hreachable]
  · have hstart : Bounded sharing P [] run.boundaries P run.recorder.links := by
      rw [hnone]
      exact .nil
    exact wrapBodies_eq_ok hP hplain hcallers (fun _ hmem => hmem) catalog.multiplyCalled_nodup .none
      (fun _ _ _ _ => rfl) hstart hfold

end ScheduleRun

end TailFlow
