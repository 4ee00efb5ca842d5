import TailFlow.Proofs.Boundary.Completion
import TailFlow.Proofs.Program.Checking
import TailFlow.Proofs.Schedule.Splitting
import TailFlow.Proofs.Schedule.TailForm

/-!
# Rewriting in any order

A scheduling run takes its steps in a fixed order. Each of them can also be taken alone, and whatever
steps are taken one after the other, the program goes on passing the checks, before and after the links
that have been recorded are put into it.

A step only adds to the program, and it leaves every subgraph starting with the node that it starts
with. The exception is a call, which may get copies of binders put in front of it; but no continuation
starts with a call, so recorded links stay right.
-/

namespace TailFlow

open Program

inductive RewriteStep where
  /-- Every call gets its own handle. -/
  | separate
  /-- A subgraph is cut after its first call that is not a tail call. -/
  | split (id : SubgraphId)
  /-- A body is wrapped for the callers that it has. -/
  | wrap (sharing : ExitSharing) (body : SubgraphId)
  deriving DecidableEq, Repr

/-- A program that is being rewritten, and the links recorded so far. -/
structure RewriteState where
  program : Program
  recorder : LinkRecorder
  deriving DecidableEq

def RewriteState.take (state : RewriteState) : RewriteStep → Outcome ScheduleError RewriteState
  | .separate => do
    let (_, program) ← state.program.separateHandles
    return { state with program }
  | .split id => do
    match ← state.program.splitFirst id with
    | none => return state
    | some (outcome, program) => return ⟨program, state.recorder.record outcome.link⟩
  | .wrap sharing body => do
    let catalog ← Catalog.build state.program
    let (groups, _) ← state.program.groupCallers sharing body (catalog.callers body)
    let wrapping ← state.program.wrap body groups state.recorder
    return ⟨wrapping.program, wrapping.recorder⟩

namespace Program

variable {P P' P'' : Program} {links : IdMap Link}

/-- Segments are cut from subgraphs that are there. -/
def OriginsKnown (P : Program) : Prop :=
  ∀ ⦃id : SubgraphId⦄ ⦃subgraph : Subgraph⦄ ⦃origin : SubgraphId⦄,
    P.subgraphs[id]? = some subgraph → subgraph.kind = .segment origin → origin < P.subgraphs.size

theorem OriginsKnown.stem_lt (horigins : P.OriginsKnown) {id : SubgraphId} {subgraph : Subgraph}
    (hsubgraph : P.subgraphs[id]? = some subgraph) :
    segmentOrigin id subgraph.kind < P.subgraphs.size := by
  unfold segmentOrigin
  split
  · rename_i hsegment
    exact horigins hsubgraph hsegment
  · exact subgraph_lt hsubgraph

/-- The second program is the first one with something added to it. Every subgraph goes on starting
with the node that it starts with, unless that is a call. -/
structure AddsTo (P P' : Program) : Prop where
  outputs_eq : P'.outputs = P.outputs
  links_eq : P'.links = P.links
  tensors : ∃ extra : List Tensor, P'.tensors = P.tensors ++ extra.toArray
    ∧ ∀ tensor ∈ extra, tensor.constant = none
  node : ∀ ⦃id : NodeId⦄ ⦃node : Node⦄, P.nodes[id]? = some node →
    ∃ node', P'.nodes[id]? = some node' ∧ node'.isCall = node.isCall
  start : ∀ ⦃id : SubgraphId⦄ ⦃subgraph : Subgraph⦄ ⦃first : NodeId⦄ ⦃node : Node⦄,
    P.subgraphs[id]? = some subgraph → subgraph.nodes.head? = some first →
      P.nodes[first]? = some node → node.isCall = false →
        ∃ subgraph', P'.subgraphs[id]? = some subgraph' ∧ subgraph'.nodes.head? = some first

theorem AddsTo.size_tensors_le (h : P.AddsTo P') : P.tensors.size ≤ P'.tensors.size := by
  obtain ⟨extra, htensors, -⟩ := h.tensors
  rw [htensors, Array.size_append]
  exact Nat.le_add_right _ _

theorem AddsTo.constantsFilled (h : P.AddsTo P') (hfilled : P.ConstantsFilled) :
    P'.ConstantsFilled := by
  obtain ⟨extra, htensors, hplain⟩ := h.tensors
  intro id tensor values hid hvalues
  rw [htensors] at hid
  rcases Nat.lt_or_ge id P.tensors.size with hold | hnew
  · rw [Array.getElem?_append_left hold] at hid
    exact hfilled hid hvalues
  · rw [Array.getElem?_append_right hnew, List.getElem?_toArray] at hid
    exact nomatch (hplain tensor (List.mem_of_getElem? hid)).symm.trans hvalues

/-- A program that passes the checks and goes on doing so with the recorded links. -/
structure Carries (P : Program) (links : IdMap Link) : Prop where
  wellFormed : P.WellFormed
  origins : P.OriginsKnown
  outputs : ∀ tensor ∈ P.outputs, tensor < P.tensors.size
  filled : P.ConstantsFilled
  noLinks : P.links = .empty
  fits : ∀ call link, links.get? call = some link → P.LinkFits call link
  starts : ∀ call link, links.get? call = some link →
    ∃ node, P.nodes[link.consumer]? = some node ∧ node.isCall = false

theorem Carries.addsTo (h : P.Carries links) (hP' : P'.WellFormed) (horigins : P'.OriginsKnown)
    (hadds : P.AddsTo P') : P'.Carries links where
  wellFormed := hP'
  origins := horigins
  outputs := fun tensor hmem =>
    Nat.lt_of_lt_of_le (h.outputs tensor (hadds.outputs_eq ▸ hmem)) hadds.size_tensors_le
  filled := hadds.constantsFilled h.filled
  noLinks := hadds.links_eq.trans h.noLinks
  fits := by
    intro call link hlink
    obtain ⟨hkeyed, ⟨node, hnode, hcall⟩, ⟨continuation, hfound, hhead⟩, htensors⟩ :=
      h.fits call link hlink
    obtain ⟨first, hfirst, hplain⟩ := h.starts call link hlink
    obtain ⟨node', hnode', hsame⟩ := hadds.node hnode
    exact ⟨hkeyed, ⟨node', hnode', hsame.trans hcall⟩, hadds.start hfound hhead hfirst hplain,
      fun tensor hmem => Nat.lt_of_lt_of_le (htensors tensor hmem) hadds.size_tensors_le⟩
  starts := by
    intro call link hlink
    obtain ⟨first, hfirst, hplain⟩ := h.starts call link hlink
    obtain ⟨first', hfirst', hsame⟩ := hadds.node hfirst
    exact ⟨first', hfirst', hsame.trans hplain⟩

theorem Carries.insert (h : P.Carries links) (link : Link) (hfits : P.LinkFits link.call link)
    {node : Node} (hnode : P.nodes[link.consumer]? = some node) (hplain : node.isCall = false) :
    P.Carries (links.insert link.call link) := by
  have hcases {call : NodeId} {other : Link}
      (hother : (links.insert link.call link).get? call = some other) :
      (call = link.call ∧ other = link) ∨ links.get? call = some other := by
    rw [IdMap.get?_insert] at hother
    split at hother
    · rename_i hsame
      exact .inl ⟨hsame.symm, (Option.some.inj hother).symm⟩
    · exact .inr hother
  refine { h with fits := fun call other hother => ?_, starts := fun call other hother => ?_ }
  · rcases hcases hother with ⟨rfl, rfl⟩ | hold
    · exact hfits
    · exact h.fits call other hold
  · rcases hcases hother with ⟨-, rfl⟩ | hold
    · exact ⟨node, hnode, hplain⟩
    · exact h.starts call other hold

/-- Such a program passes the checks with its own links and with the recorded ones. -/
theorem Carries.validate (h : P.Carries links) : P.validate = .ok ()
    ∧ { P with links := P.links.union links }.validate = .ok () := by
  refine ⟨validate_eq_ok.mpr ⟨h.wellFormed, h.outputs, h.filled, fun call link hlink => ?_⟩,
    validate_eq_ok.mpr ⟨h.wellFormed.withLinks _, h.outputs, h.filled, fun call link hlink => ?_⟩⟩
  · rw [h.noLinks] at hlink
    exact nomatch hlink
  · rw [h.noLinks, IdMap.empty_union] at hlink
    obtain ⟨hkeyed, hcalls, hresumes, htensors⟩ := h.fits call link hlink
    exact ⟨hkeyed, hcalls, hresumes, htensors⟩

end Program

/-! ### One step -/

namespace Rewiring

variable {P : Program} {links : IdMap Link} {r : Rewiring}

theorem addsTo_after (hP : P.WellFormed) (hr : r.Applies P) : P.AddsTo (r.after P) where
  outputs_eq := rfl
  links_eq := rfl
  tensors := ⟨r.extra, rfl, hr.plain⟩
  node := by
    intro id node hnode
    obtain ⟨node', hnode', hkind, -⟩ := exists_node_after hr hnode
    exact ⟨node', hnode', by rw [Node.isCall, hkind, Node.isCall]⟩
  start := by
    intro id subgraph first node hsubgraph hhead hfirst hplain
    by_cases hid : id = r.owner
    · subst hid
      obtain rfl := Option.some.inj (hr.subgraph_eq.symm.trans hsubgraph)
      refine ⟨_, subgraph_after_owner hP hr, ?_⟩
      rw [hr.nodes_eq] at hhead
      rw [relisted, List.append_assoc]
      cases hearlier : r.earlier with
      | nil =>
        -- The call itself would be the first node.
        rw [hearlier] at hhead
        obtain rfl := Option.some.inj hhead
        obtain rfl := Option.some.inj (hr.node_eq.symm.trans hfirst)
        exact absurd (hplain.symm.trans hr.isCall) Bool.false_ne_true
      | cons other rest =>
        rw [hearlier] at hhead
        exact hhead
    · exact ⟨subgraph, (subgraph_after_other hid).trans hsubgraph, hhead⟩

theorem originsKnown_after (hP : P.WellFormed) (hr : r.Applies P) (horigins : P.OriginsKnown) :
    (r.after P).OriginsKnown := by
  intro id subgraph origin hsubgraph hkind
  obtain ⟨before, hbefore, hsame, -⟩ := subgraph_of_after hP hr hsubgraph
  rw [size_subgraphs_after]
  rw [hsame] at hkind
  exact horigins hbefore hkind

end Rewiring

theorem Program.Separates.carries {P P' : Program} {links : IdMap Link} (h : P.Carries links)
    (hseparates : P.Separates P') : P'.Carries links := by
  induction hseparates with
  | refl => exact h
  | tail _ hstep ih =>
    obtain ⟨r, hr, rfl⟩ := hstep
    have hP := ih.wellFormed
    exact ih.addsTo (Rewiring.wellFormed_after hP hr) (Rewiring.originsKnown_after hP hr ih.origins)
      (Rewiring.addsTo_after hP hr)

namespace Cut

variable {P : Program} {links : IdMap Link} {c : Cut}

theorem addsTo_after (hP : P.WellFormed) (hc : c.Applies P) : P.AddsTo (c.after P) where
  outputs_eq := rfl
  links_eq := rfl
  tensors := ⟨c.extra, rfl, hc.fresh.plain⟩
  node := by
    intro id node hnode
    by_cases hid : id = c.call
    · subst hid
      obtain rfl := Option.some.inj (hc.node_eq.symm.trans hnode)
      exact ⟨c.calling, node_after_call hc, rfl⟩
    · exact ⟨node, (node_after_old (node_lt hnode) hid).trans hnode, rfl⟩
  start := by
    intro id subgraph first node hsubgraph hhead hfirst hplain
    by_cases hid : id = c.owner
    · subst hid
      obtain rfl := Option.some.inj (hc.subgraph_eq.symm.trans hsubgraph)
      refine ⟨c.head, subgraph_after_owner hP hc, ?_⟩
      rw [hc.nodes_eq] at hhead
      rw [head]
      cases hearlier : c.earlier <;> rw [hearlier] at hhead <;> exact hhead
    · exact ⟨subgraph, (subgraph_after_other (subgraph_lt hsubgraph) hid).trans hsubgraph, hhead⟩

theorem originsKnown_after (hP : P.WellFormed) (hc : c.Applies P) (horigins : P.OriginsKnown) :
    (c.after P).OriginsKnown := by
  intro id subgraph origin hsubgraph hkind
  rw [size_subgraphs_after]
  refine Nat.lt_succ_of_lt ?_
  rcases subgraph_after_cases hP hc hsubgraph with ⟨-, hbefore⟩ | ⟨-, rfl⟩ | ⟨-, rfl⟩
  · exact horigins hbefore hkind
  · exact horigins hc.subgraph_eq hkind
  · obtain rfl := SubgraphKind.segment.inj hkind
    exact horigins.stem_lt hc.subgraph_eq

theorem carries_after (h : P.Carries links) (hc : c.Applies P) :
    (c.after P).Carries (links.insert c.call (c.link P)) := by
  have hP := h.wellFormed
  refine (h.addsTo (wellFormed_after hP hc) (originsKnown_after hP hc h.origins)
    (addsTo_after hP hc)).insert (c.link P) ?_ node_after_resume rfl
  refine ⟨rfl, ⟨c.calling, node_after_call hc, hc.isCall⟩,
    ⟨c.segment P, subgraph_after_segment, rfl⟩, fun tensor hmem => ?_⟩
  exact hc.fresh.lt_of_mem hmem

end Cut

namespace Addition

variable {P : Program} {links : IdMap Link} {a : Addition}

theorem addsTo_after (ha : a.Applies P) (hplain : ∀ tensor ∈ a.extra, tensor.constant = none) :
    P.AddsTo (a.after P) where
  outputs_eq := rfl
  links_eq := rfl
  tensors := ⟨a.extra, rfl, hplain⟩
  node := by
    intro id node hnode
    refine ⟨a.retargeted P id node, by rw [node_after_old (node_lt hnode), hnode]; rfl, ?_⟩
    unfold retargeted
    split
    · rename_i hcaller
      obtain ⟨listed, body, -, ⟨-, -, -, hnode'⟩, rfl, hkind, -⟩ := ha.caller id hcaller
      obtain rfl := Option.some.inj (hnode'.symm.trans hnode)
      simp [Node.isCall, hkind]
    · rfl
  start := fun _ subgraph _ _ hsubgraph hhead _ _ =>
    ⟨subgraph, (subgraph_after_old (subgraph_lt hsubgraph)).trans hsubgraph, hhead⟩

theorem carries_after (h : P.Carries links) (ha : a.Applies P)
    (hplain : ∀ tensor ∈ a.extra, tensor.constant = none)
    (hkind : ∀ origin, a.kind ≠ .segment origin) : (a.after P).Carries links := by
  refine h.addsTo (wellFormed_after h.wellFormed ha) ?_ (addsTo_after ha hplain)
  intro id subgraph origin hsubgraph hsegment
  rw [size_subgraphs_after]
  rcases subgraph_after_cases hsubgraph with hbefore | ⟨-, rfl⟩
  · exact Nat.lt_succ_of_lt (h.origins hbefore hsegment)
  · exact absurd hsegment (hkind origin)

end Addition

theorem Wraps.carries {P W : Program} {links links' : IdMap Link} {bodies : List SubgraphId}
    (h : P.Carries links) (hwraps : Wraps P links bodies W links') : W.Carries links' := by
  induction hwraps with
  | none => exact h
  | exit hbefore _ _ _ hfresh hlength hserves ih =>
    have hextends := hbefore.extends_program h.wellFormed
    exact Addition.carries_after ih (exit_applies h.wellFormed hextends _ hfresh hlength hserves)
      hfresh.plain nofun
  | @entrance W _ e extra listed hbefore _ _ _ hcall hexit _ hfresh htarget hlists hcaller hkind hnode
      _ ih =>
    have hextends := hbefore.extends_program h.wellFormed
    have ha := entrance_applies ih.wellFormed hextends hexit hfresh htarget hlists hcaller hkind hnode
    have hadded := Addition.carries_after ih ha hfresh.plain nofun
    have hadds := Addition.addsTo_after ha hfresh.plain
    obtain ⟨consumer, hconsumer, hplain⟩ := hadds.node hexit.node_eq
    have hnew := Addition.node_after_new ha 1
    have hcalls : ∃ node, ((entranceAddition W extra e.binderName e.callName e.name e.body listed.id
        e.arguments e.handle e.exit.handover).after W).nodes[e.call]? = some node ∧ node.isCall :=
      ⟨_, hcall ▸ hnew, rfl⟩
    refine hadded.insert e.link ⟨rfl, hcalls, ?_, fun tensor hmem => ?_⟩ hconsumer hplain
    · exact hadds.start hexit.subgraph_eq rfl hexit.node_eq rfl
    · refine Nat.lt_of_lt_of_le ?_ hadds.size_tensors_le
      exact ih.wellFormed.interface hexit.subgraph_eq tensor (List.mem_append_left _ hmem)

/-- A checked program without links whose subgraphs are all bodies carries no links yet. -/
theorem Program.carries_of_validate {P : Program} (hvalid : P.validate = .ok ())
    (hbody : P.AllBodies) (hlinks : P.links = .empty) : P.Carries .empty := by
  obtain ⟨hP, houtputs, hfilled, -⟩ := validate_eq_ok.mp hvalid
  refine ⟨hP, fun id subgraph origin hsubgraph hkind => ?_, houtputs, hfilled, hlinks, nofun, nofun⟩
  exact nomatch (hbody hsubgraph).symm.trans hkind

/-! ### All steps -/

theorem Cuts.carries {P P' : Program} {links : IdMap Link} {calls : List NodeId}
    (h : P.Carries .empty) (hcuts : Cuts P P' links calls) : P'.Carries links := by
  induction hcuts with
  | none => exact h
  | cut _ hc ih => exact Cut.carries_after ih hc

/-- A scheduled program passes the checks, with the links of the run put into it. -/
theorem Stages.Lead.validate_eq_ok {s : Stages} {P Q : Program} {report : ScheduleReport}
    (hvalid : P.validate = .ok ()) (hbody : P.AllBodies) (hlinks : P.links = .empty)
    (h : s.Lead P report Q) : Q.validate = .ok () := by
  obtain ⟨count, hseparate⟩ := h.separates
  have hseparates := separateHandles_separates (wellFormed_of_validate hvalid) hseparate
  have hcarries := hseparates.carries (carries_of_validate hvalid hbody hlinks)
  rw [h.result]
  exact (h.wraps.carries (h.cuts.carries hcarries)).validate.2

namespace RewriteState

variable {state state' : RewriteState}

/-- Every step that is taken leaves a program behind that passes the checks. -/
theorem take_carries (h : state.program.Carries state.recorder.links) {step : RewriteStep}
    (htake : state.take step = .ok state') : state'.program.Carries state'.recorder.links := by
  have hP := h.wellFormed
  cases step with
  | separate =>
    obtain ⟨⟨count, program⟩, hseparate, hpure⟩ := Outcome.bind_eq_ok.mp htake
    obtain rfl := Outcome.pure_eq_ok.mp hpure
    exact (separateHandles_separates hP hseparate).carries h
  | split id =>
    obtain ⟨answer, hsplit, hpure⟩ := Outcome.bind_eq_ok.mp htake
    rcases Cut.splitFirst_eq_ok hP hsplit with ⟨rfl, -⟩ | ⟨c, hc, -, calls, -, rfl⟩
    · obtain rfl := Outcome.pure_eq_ok.mp hpure
      exact h
    · obtain rfl := Outcome.pure_eq_ok.mp hpure
      exact Cut.carries_after h hc
  | wrap sharing body =>
    obtain ⟨catalog, hbuild, htake⟩ := Outcome.bind_eq_ok.mp htake
    obtain ⟨⟨groups, dead⟩, hgroup, htake⟩ := Outcome.bind_eq_ok.mp htake
    obtain ⟨wrapping, hwrap, hpure⟩ := Outcome.bind_eq_ok.mp htake
    obtain rfl := Outcome.pure_eq_ok.mp hpure
    obtain ⟨target, htarget, -⟩ := Outcome.bind_eq_ok.mp hwrap
    obtain ⟨catalog', hbuild', -, hcallers⟩ := Catalog.exists_build hP
    obtain rfl := Except.ok.inj (hbuild.symm.trans hbuild')
    have hstart : Wraps state.program state.recorder.links [body] state.program
      state.recorder.links := .none
    obtain ⟨hgrouped, hlive, -⟩ := hstart.grouped hP (hcallers body) (fun _ _ => rfl) hgroup
    obtain ⟨hwraps, -⟩ := hstart.wrap_wraps hP (List.mem_singleton.mpr rfl)
      (subgraph_lt (subgraph_eq_ok.mp htarget)) (fun _ _ => rfl) hgrouped (groupCallers_shared hgroup)
      hlive hwrap
    exact hwraps.carries h

theorem exists_take_split (h : state.program.Carries state.recorder.links) {id : SubgraphId}
    (hid : id < state.program.subgraphs.size) : ∃ next, state.take (.split id) = .ok next := by
  have hsubgraph := Array.getElem?_eq_getElem hid
  obtain ⟨answer, hsplit⟩ := exists_splitFirst (ε := ScheduleError) h.wellFormed hsubgraph
    (Array.getElem?_eq_getElem (h.origins.stem_lt hsubgraph))
  rw [take, hsplit, Outcome.ok_bind]
  cases answer with
  | none => exact ⟨_, rfl⟩
  | some cut => exact ⟨_, rfl⟩

theorem take_wrap_ends (h : state.program.Carries state.recorder.links) (sharing : ExitSharing)
    {body : SubgraphId} (hbody : body < state.program.subgraphs.size) :
    Outcome.Ends (fun _ => True) IsAmbiguous (state.take (.wrap sharing body)) := by
  have hP := h.wellFormed
  obtain ⟨catalog, hbuild, -, hcallers⟩ := Catalog.exists_build hP
  have hbinders : ∀ caller ∈ catalog.callers body, state.program.ListsBinder caller := by
    intro caller hcaller
    obtain ⟨listed, hlists, hid, hkind⟩ := (hcallers body caller).mp hcaller
    exact ⟨listed, hlists, hid, by rw [callee?_eq_some.mpr hkind]; rfl⟩
  unfold take
  dsimp only
  rw [hbuild, Outcome.ok_bind]
  refine (groupCallers_ends hP hbinders).bind fun (groups, dead) hgroup _ => ?_
  have hgroups := (groupCallers_eq_ok hP hbinders hgroup).1.lt hP
    fun caller hcaller => (hbinders caller hcaller).lt
  obtain ⟨wrapping, hwrap, -⟩ := exists_wrap (ε := ScheduleError) hP hbody hgroups
    state.recorder
  dsimp only
  rw [hwrap, Outcome.ok_bind]
  trivial

end RewriteState

/-- Whatever steps are taken one after the other from a checked program without links whose subgraphs
are all bodies, the program goes on passing the checks, also with the recorded links put into it. Any
subgraph can be split next, and any can be wrapped unless a caller of it reaches several calls. -/
theorem rewriting_validates {P : Program} (hvalid : P.validate = .ok ()) (hbody : P.AllBodies)
    (hlinks : P.links = .empty) {steps : List RewriteStep} {state : RewriteState}
    (htaken : steps.foldlM RewriteState.take ⟨P, .empty⟩ = .ok state) :
    state.program.validate = .ok ()
      ∧ { state.program with
          links := state.program.links.union state.recorder.links }.validate = .ok ()
      ∧ (∀ id < state.program.subgraphs.size, ∃ next, state.take (.split id) = .ok next)
      ∧ ∀ sharing, ∀ body < state.program.subgraphs.size,
        (∃ next, state.take (.wrap sharing body) = .ok next) ∨ ∃ binder calls,
          state.take (.wrap sharing body) = .error (.refused (.ambiguousBinder binder calls)) := by
  have hstart := carries_of_validate hvalid hbody hlinks
  have hcarries : state.program.Carries state.recorder.links :=
    Outcome.foldlM_keeps (fun state => state.program.Carries state.recorder.links)
      (fun _ _ _ _ h htake => RewriteState.take_carries h htake) hstart htaken
  obtain ⟨hvalid', hlinked⟩ := hcarries.validate
  refine ⟨hvalid', hlinked, fun id hid => RewriteState.exists_take_split hcarries hid,
    fun sharing body hlt => ?_⟩
  rcases (RewriteState.take_wrap_ends hcarries sharing hlt).cases with ⟨next, hnext, -⟩ | ⟨stop, hstop, h⟩
  · exact .inl ⟨next, hnext⟩
  · obtain ⟨binder, calls, rfl⟩ := h
    exact .inr ⟨binder, calls, hstop⟩

/-- The body of the relay is wrapped, one call is cut after, handles are separated, the body is wrapped
once more, and what has been cut off is cut. -/
theorem relay_rewritten : ∃ state : RewriteState,
    [.wrap .byDestination 1, .split 0, .separate, .wrap .perCaller 1, .split 6].foldlM
        RewriteState.take ⟨relay, .empty⟩ = .ok state
      ∧ state.recorder.links.keys = [1, 3, 8, 11, 15, 18]
      ∧ state.program.order = [0, 6, 11, 3, 5, 8, 10, 1, 7, 9, 2, 4]
      ∧ state.program.validate = .ok ()
      ∧ { state.program with
          links := state.program.links.union state.recorder.links }.validate = .ok () := by
  obtain ⟨state, htaken, hkeys, horder⟩ := Outcome.exists_of_holds
    (fun state : RewriteState => state.recorder.links.keys = [1, 3, 8, 11, 15, 18]
      ∧ state.program.order = [0, 6, 11, 3, 5, 8, 10, 1, 7, 9, 2, 4])
    (show Outcome.holds (([.wrap .byDestination 1, .split 0, .separate, .wrap .perCaller 1,
      .split 6].foldlM RewriteState.take ⟨relay, .empty⟩).map _) = true by decide +kernel)
  obtain ⟨hvalid, hlinked, -⟩ := rewriting_validates (by decide +kernel) (by decide) rfl htaken
  exact ⟨state, htaken, hkeys, horder, hvalid, hlinked⟩

end TailFlow
