import TailFlow.Proofs.Runs.Replies

/-!
# Runs with continuations follow recursive runs

A recursive run of a program whose bodies have been cut is followed by a run of the plan of the
wrapped program. The environment of the open invocation is covered by the one that all bodies share:
what belongs to the body is not touched while a call waits, because the body is not entered by then.
A call takes one place on the stack, and the entrance that it may go through takes another one.
-/

namespace TailFlow

open Program

namespace Program

/-- What is bound belongs to the body. -/
def Holds (P : Program) (body : SubgraphId) (env : Environment) : Prop :=
  ∀ ⦃tensor value⦄, env.get? tensor = some value → P.Owns body tensor

theorem Lists.owns {P : Program} {listed : ListedNode} (hlists : P.Lists listed)
    {subgraph : Subgraph} (hsubgraph : P.subgraphs[listed.owner]? = some subgraph)
    {tensor : TensorId} (hout : tensor ∈ listed.node.outputs) :
    P.Owns (segmentOrigin listed.owner subgraph.kind) tensor := by
  obtain ⟨found, hfound, hmem, hnode⟩ := hlists
  obtain rfl := Option.some.inj (hsubgraph.symm.trans hfound)
  exact ⟨_, _, hsubgraph, rfl,
    List.mem_append_right _ (mem_writes.mpr ⟨listed.id, hmem, listed.node, hnode, hout⟩)⟩

namespace Holds

variable {P : Program} {body : SubgraphId} {env env' : Environment}

theorem empty (P : Program) (body : SubgraphId) : P.Holds body .empty :=
  fun _ _ hbound => nomatch hbound

theorem bindAll (hholds : P.Holds body env) {ids : List TensorId} {values : List Value}
    (hbind : env.bindAll ids values = .ok env') (howns : ∀ id ∈ ids, P.Owns body id) :
    P.Holds body env' := by
  intro tensor value hbound
  rcases Environment.bound_of_bindAll hbind hbound with hold | ⟨hmem, -⟩
  · exact hholds hold
  · exact howns tensor hmem

theorem passes {owner : SubgraphId} {subgraph : Subgraph}
    (hsubgraph : P.subgraphs[owner]? = some subgraph)
    (hholds : P.Holds (segmentOrigin owner subgraph.kind) env) {nodes : List NodeId}
    (hsub : ∀ id ∈ nodes, id ∈ subgraph.nodes) {links : IdMap Link} {calls : Calls}
    {entered : List SubgraphId} (hpasses : Passes { P with links } calls nodes env env' entered) :
    P.Holds (segmentOrigin owner subgraph.kind) env' := by
  intro tensor value hbound
  rcases hpasses.bound_cases hbound with hold | hwrites
  · exact hholds hold
  · obtain ⟨id, hid, writer, hwriter, hout⟩ := mem_writes.mp hwrites
    have hlists : P.Lists ⟨owner, id, writer⟩ := ⟨subgraph, hsubgraph, hsub id hid, hwriter⟩
    exact hlists.owns hsubgraph hout

end Holds

theorem reads_unique {P : Program} {env : Environment} {ids : List TensorId}
    {values values' : List Value} (hreads : List.Forall₂ (P.Reads env) ids values)
    (hreads' : List.Forall₂ (P.Reads env) ids values') : values = values' := by
  induction hreads generalizing values' with
  | nil => exact (List.forall₂_nil_left_iff.mp hreads').symm
  | cons hhead _ ih =>
    cases hreads' with
    | cons hhead' hrest => rw [hhead'.unique hhead, ih hrest]

end Program

/-- Running nodes that end in a call: the nodes before it, and then the call. -/
theorem Passes.of_concat {P : Program} {calls : Calls} {earlier : List NodeId} {call : NodeId}
    {node : Node} (hnode : P.nodes[call]? = some node) (hcall : node.isCall)
    {env env' : Environment} {entered : List SubgraphId}
    (hpasses : Passes P calls (earlier ++ [call]) env env' entered) :
    ∃ (middle : Environment) (inside outside : List SubgraphId) (handle : TensorId)
      (callee : SubgraphId) (arguments results : List DenseArray),
      Passes P calls earlier env middle inside ∧ entered = inside ++ outside
        ∧ node.inputs.head? = some handle
        ∧ P.Reads middle handle (.closure callee (arguments.map .array))
        ∧ calls call callee arguments results outside
        ∧ middle.bindAll node.outputs (results.map .array) = .ok env' := by
  obtain ⟨middle, inside, outside, hearlier, hlast, rfl⟩ := hpasses.of_append
  cases hlast with
  | inline hnode' hgives _ _ =>
    obtain rfl := Option.some.inj (hnode.symm.trans hnode')
    exact absurd (of_decide_eq_true hcall) hgives.ne_call
  | call hnode' _ hhandle hreads hcalls hbind hrest =>
    obtain rfl := Option.some.inj (hnode.symm.trans hnode')
    cases hrest with
    | nil =>
      refine ⟨middle, inside, _, _, _, _, _, hearlier, ?_, hhandle, hreads, hcalls, hbind⟩
      rw [List.append_nil]

namespace Wraps

variable {P W : Program} {links links' : IdMap Link} {bodies : List SubgraphId}
  {allows : NodeId → List SubgraphId → Prop} {plan : ExecutionPlan} {depth : Nat}
  {env env' other : Environment}

/-- The environment of an open invocation of a body, and the one that all bodies share. -/
structure Shares (P W : Program) (links links' : IdMap Link) (body : SubgraphId)
    (env other : Environment) : Prop where
  holds : P.Holds body env
  traced : Traced P env
  covers : Covers (Enters P W links') { P with links } env { W with links := links' } other
  quiet : P.Quiet other

/-- A call of the program is answered after wrapping, in the subgraph that its handle names then. -/
def CallsAnswered (P W : Program) (links' : IdMap Link) (plan : ExecutionPlan) (depth room : Nat)
    (calls : Calls) : Prop :=
  ∀ ⦃listed⦄, P.Lists listed → listed.node.isCall → ∀ binder handle callee callee' arguments results
    inside, listed.node.inputs.head? = some handle → P.Flows binder handle →
    P.Names binder callee → Enters P W links' handle (.closure callee (arguments.map .array))
      (.closure callee' (arguments.map .array)) → listed.node.outputs.length = results.length →
    calls listed.id callee arguments results inside →
      Machine.Answers plan depth P room listed.node.outputs callee' arguments results inside

/-! ### What is shared -/

section Sharing

variable (hP : P.WellFormed) (hwraps : Wraps P links bodies W links') (hapart : P.OwnsApart)

include hP hwraps hapart

theorem shares_started {callee : SubgraphId} {ids : List TensorId}
    (howns : ∀ id ∈ ids, P.Owns callee id) {arrays : List DenseArray} {started : Environment}
    (hquiet : P.Quiet other) (hbind : Environment.bindAll .empty ids (arrays.map .array) = .ok env)
    (hstart : other.bindAll ids (arrays.map .array) = .ok started) :
    Shares P W links links' callee env started where
  holds := (Holds.empty P callee).bindAll hbind howns
  traced := (Traced.empty P).bindArrays hbind
  covers := by
    refine .bindAll_both (fun id value hlt _ hreads => ⟨value, ?_, .same⟩)
      (fun id _ value _ => .same) hbind hstart
    have hfree : other.get? id = Option.none := by
      refine hquiet fun hplain => ?_
      exact not_reads_of_plain (P := { P with links }) hplain rfl value hreads
    have hsame : { W with links := links' }.Reads other id value
        ↔ { P with links }.Reads .empty id value :=
      reads_congr hfree ((hwraps.extends_program hP).tensor_old id hlt)
    exact hsame.mpr hreads
  quiet := by
    have hkeeps : P.Keeps [callee] [] other started :=
      .bindAll hstart fun id hmem _ => .inr ⟨callee, List.mem_singleton_self _, howns id hmem⟩
    exact hkeeps.quiet hapart nofun hquiet

/-- Nodes without calls are run in the shared environment, which changes within the body. -/
theorem Shares.passes {owner : SubgraphId} {subgraph : Subgraph}
    (hsubgraph : P.subgraphs[owner]? = some subgraph)
    (hshares : Shares P W links links' (segmentOrigin owner subgraph.kind) env other)
    {nodes : List NodeId} (hsub : ∀ id ∈ nodes, id ∈ subgraph.nodes)
    (hnone : ExecutionPlan.NoneCalls { W with links := links' } nodes) {calls : Calls}
    {entered : List SubgraphId} (hpasses : Passes { P with links } calls nodes env env' entered) :
    entered = [] ∧ ∃ other', Passes { W with links := links' } noCalls nodes other other' []
      ∧ Shares P W links links' (segmentOrigin owner subgraph.kind) env' other'
      ∧ P.Keeps [segmentOrigin owner subgraph.kind] [] other other' := by
  have hlists {id : NodeId} (hmem : id ∈ nodes) {node : Node} (hnode : P.nodes[id]? = some node) :
      P.Lists ⟨owner, id, node⟩ := ⟨subgraph, hsubgraph, hsub id hmem, hnode⟩
  obtain ⟨other', hpasses', hcovers⟩ : ∃ other',
      Passes { W with links := links' } noCalls nodes other other' entered
        ∧ Covers (Enters P W links') { P with links } env' { W with links := links' } other' := by
    refine hpasses.simulate relatesArrays_enters ?_ ?_ hshares.covers
    · intro id hmem node hnode
      exact ⟨fun tensor htensor => hP.inputs_lt (hlists hmem hnode) htensor,
        hwraps.matches_wrapped hP (hlists hmem hnode)⟩
    · intro id hmem node hnode hcall
      obtain ⟨node', hnode', hmatches⟩ := hwraps.matches_wrapped hP (hlists hmem hnode)
      have hfalse := hnone id hmem node' hnode'
      rw [hmatches.isCall hcall] at hfalse
      exact nomatch hfalse
  obtain rfl := Machine.entered_eq_nil hpasses'
  have hkeeps : P.Keeps [segmentOrigin owner subgraph.kind] [] other other' := by
    intro tensor hlt howns _
    refine hpasses'.frame fun hmem => ?_
    obtain ⟨id, hid, node', hnode', hout⟩ := mem_writes.mp hmem
    have hnode := Array.getElem?_eq_getElem (hP.inArena hsubgraph id (hsub id hid))
    obtain ⟨found, hfound, hmatches⟩ := hwraps.matches_wrapped hP (hlists hid hnode)
    obtain rfl := Option.some.inj (hfound.symm.trans hnode')
    rw [hmatches.outputs_eq] at hout
    exact howns _ (List.mem_singleton_self _) ((hlists hid hnode).owns hsubgraph hout)
  exact ⟨rfl, other', hpasses', ⟨hshares.holds.passes hsubgraph hsub hpasses,
    hshares.traced.passes hP hsubgraph hsub hpasses, hcovers,
    hkeeps.quiet hapart nofun hshares.quiet⟩, hkeeps⟩

omit hP hwraps in
/-- What an invocation has bound is still shared when a call comes back, because the body has not
been entered from the call. -/
theorem Shares.returned {listed : ListedNode} (hlists : P.Lists listed) {subgraph : Subgraph}
    (hsubgraph : P.subgraphs[listed.owner]? = some subgraph)
    (hshares : Shares P W links links' (segmentOrigin listed.owner subgraph.kind) env other)
    {inside : List SubgraphId} (hout : segmentOrigin listed.owner subgraph.kind ∉ inside)
    {left after : Environment} (hkeeps : P.Keeps inside listed.node.outputs other left)
    {results : List DenseArray}
    (hbind : env.bindAll listed.node.outputs (results.map .array) = .ok env')
    (hreturn : left.bindAll listed.node.outputs (results.map .array) = .ok after) :
    Shares P W links links' (segmentOrigin listed.owner subgraph.kind) env' after := by
  have howns : ∀ tensor ∈ listed.node.outputs,
      P.Owns (segmentOrigin listed.owner subgraph.kind) tensor :=
    fun tensor hmem => hlists.owns hsubgraph hmem
  refine ⟨hshares.holds.bindAll hbind howns, hshares.traced.bindArrays hbind, ?_, ?_⟩
  · refine .bindAll_both (fun tensor value hlt habsent hread => ?_)
      (fun tensor _ value hvalue => ?_) hbind hreturn
    · obtain ⟨value', hread', hrelated⟩ := hshares.covers hlt hread
      have hsame : left.get? tensor = other.get? tensor := by
        refine hkeeps hlt (fun body hbody hother => ?_) habsent
        rcases hread.cases with hbound | ⟨hfree, -⟩
        · exact hout (hapart.apart hother (hshares.holds hbound) ▸ hbody)
        · exact not_reads_of_plain (hapart.plain hother) hfree value hread
      exact ⟨value', (reads_congr hsame rfl).mpr hread', hrelated⟩
    · obtain ⟨array, -, rfl⟩ := List.mem_map.mp hvalue
      exact relatesArrays_enters.self tensor array
  · have hafter : P.Keeps (segmentOrigin listed.owner subgraph.kind :: inside) [] other after := by
      refine (hkeeps.mono (fun _ hmem => .tail _ hmem) fun tensor hmem => ?_).trans
        (.bindAll hreturn fun tensor hmem _ => ?_)
      · exact .inr ⟨_, List.mem_cons_self, howns tensor hmem⟩
      · exact .inr ⟨_, List.mem_cons_self, howns tensor hmem⟩
    exact hafter.quiet hapart nofun hshares.quiet

end Sharing

/-! ### Chains of subgraphs -/

section Chains

variable (hP : P.WellFormed) (hwraps : Wraps P links bodies W links') (hapart : P.OwnsApart)
  (hnodup : ∀ ⦃listed⦄, P.Lists listed → listed.node.outputs.Nodup)
  (hsuspends : P.Suspends links allows) (hlowers : plan.Lowers { W with links := links' })
  (hplain : P.Unwrapped) {calls : Calls} {room : Nat} (hanswered : CallsAnswered P W links' plan depth room calls)
  (hallowed : ∀ id callee arguments results inside,
    calls id callee arguments results inside → allows id inside ∧ 0 < room)

include hP hwraps hapart hanswered hallowed

/-- A subgraph that ends in a call gets to the call, and the call is answered. -/
theorem Shares.exists_call {owner : SubgraphId} {subgraph : Subgraph}
    (hsubgraph : P.subgraphs[owner]? = some subgraph)
    (hshares : Shares P W links links' (segmentOrigin owner subgraph.kind) env other)
    {earlier : List NodeId} {call : NodeId} (hnodes : subgraph.nodes = earlier ++ [call])
    (hnone : ExecutionPlan.NoneCalls { W with links := links' } earlier) {node node' : Node}
    (hlists : P.Lists ⟨owner, call, node⟩) (hcall : node.isCall)
    (hmatches : node.Matches (Enters P W links') node') {entered : List SubgraphId}
    (hpasses : Passes { P with links } calls subgraph.nodes env env' entered) :
    ∃ (handle : TensorId) (callee' : SubgraphId) (arguments results : List DenseArray)
      (middle middle' : Environment), node'.inputs.head? = some handle
        ∧ Passes { W with links := links' } noCalls earlier other middle' []
        ∧ { W with links := links' }.Reads middle' handle (.closure callee' (arguments.map .array))
        ∧ Shares P W links links' (segmentOrigin owner subgraph.kind) middle middle'
        ∧ P.Keeps [segmentOrigin owner subgraph.kind] [] other middle'
        ∧ Machine.Answers plan depth P room node.outputs callee' arguments results entered
        ∧ (allows call entered ∧ 0 < room)
        ∧ middle.bindAll node.outputs (results.map .array) = .ok env' := by
  have hsub : ∀ id ∈ earlier, id ∈ subgraph.nodes := fun id h => by simp [hnodes, h]
  obtain ⟨-, -, -, hnode⟩ := id hlists
  rw [hnodes] at hpasses
  obtain ⟨middle, inside, outside, handle, callee, arguments, results, hearlier, rfl, hhandle,
    hreads, hinside, hbind⟩ := hpasses.of_concat (P := { P with links }) hnode hcall
  obtain ⟨rfl, middle', hearlier', hshares', hkeeps⟩ :=
    hshares.passes hP hwraps hapart hsubgraph hsub hnone hearlier
  obtain ⟨⟨binder, hflows, hnames⟩, -⟩ := hshares'.traced.closure_of_reads hreads
  have hlt := hP.inputs_lt hlists (List.mem_of_mem_head? (Option.mem_def.mpr hhandle))
  obtain ⟨value', hreads', hrelated⟩ := hshares'.covers hlt hreads
  obtain ⟨callee', rfl⟩ := relatesArrays_enters.closure hrelated
  have hlength := Environment.length_eq_of_bindAll hbind
  rw [List.length_map] at hlength
  have hanswers := hanswered hlists hcall binder handle callee callee' arguments results outside
    hhandle hflows hnames hrelated hlength hinside
  exact ⟨handle, callee', arguments, results, middle, middle', hmatches.inputs_eq ▸ hhandle,
    hearlier', hreads', hshares', hkeeps, hanswers, hallowed _ _ _ _ _ hinside, hbind⟩

include hnodup hlowers hplain

/-- A subgraph that is the last of its chain hands its results over to the continuation on top of the
stack, or its callee does. -/
theorem Shares.goesTo_last {id : SubgraphId} {subgraph : Subgraph}
    (hsubgraph : P.subgraphs[id]? = some subgraph)
    (hshares : Shares P W links links' (segmentOrigin id subgraph.kind) env other)
    {entered : List SubgraphId}
    (hpasses : Passes { P with links } calls subgraph.nodes env env' entered)
    (hfree : subgraph.lastNode?.bind { W with links := links' }.linkFor? = Option.none)
    {results : List DenseArray}
    (hreads : List.Forall₂ ({ P with links }.Reads env') subgraph.outputs (results.map .array))
    {frame : Machine.Frame} {frames : List Machine.Frame} (hroom : frames.length + room ≤ depth)
    (hlength : frame.destination.length = results.length) :
    ∃ left after, P.Keeps (segmentOrigin id subgraph.kind :: entered) [] other left
      ∧ left.bindAll frame.destination (results.map .array) = .ok after
      ∧ Machine.GoesTo plan depth ⟨some id, other, frame :: frames⟩
        ⟨frame.continuation, after, frames⟩ entered := by
  have hafter := ((hwraps.extends_program hP).subgraph_old _ (subgraph_lt hsubgraph)).trans hsubgraph
  obtain ⟨lowered, hlowered, hsame, hends⟩ := hlowers.lowered hafter
  have hdue := SubgraphKind.due_of_isWrapper (hplain hsubgraph)
  generalize hterminator : lowered.terminator = terminator at hends
  cases hends with
  | returns hnone =>
    obtain ⟨rfl, left, hpasses', hshares', hkeeps⟩ :=
      hshares.passes hP hwraps hapart hsubgraph (fun _ hmem => hmem) hnone hpasses
    have hreads' := hshares'.covers.arrays relatesArrays_enters
      (fun output hmem => hP.interface hsubgraph output (List.mem_append_right _ hmem)) hreads
    obtain ⟨after, hreturn⟩ : ∃ after,
        left.bindAll frame.destination (results.map .array) = .ok after :=
      Environment.exists_bindAll left (by rw [hlength, List.length_map])
    exact ⟨left, after, hkeeps, hreturn, Machine.goesTo_returns hlowers.program_eq hafter hlowered
      hsame hterminator hdue hpasses' hreads' hreturn⟩
  | @tailCall _ call _ hnodes hnone hnode' hcall' hlink houtputs =>
    have hmem : call ∈ subgraph.nodes := by simp [hnodes]
    obtain ⟨node, -, hlists⟩ := hP.exists_lists hsubgraph hmem
    obtain ⟨found, hfound, hmatches⟩ := hwraps.matches_wrapped hP hlists
    obtain rfl := Option.some.inj (hfound.symm.trans hnode')
    obtain ⟨handle, callee', arguments, answers, middle, middle', hhandle, hearlier, hreads', hshares',
      hkeeps, hanswers, -, hbind⟩ := hshares.exists_call hP hwraps hapart hanswered hallowed hsubgraph
        hnodes hnone hlists (hmatches.isCall_of hcall') hmatches hpasses
    -- The results of the subgraph are those of the call.
    obtain rfl : answers = results := by
      have hanswer := Environment.reads_bindAll (P := { P with links }) (hnodup hlists) hbind
      rw [← houtputs, hmatches.outputs_eq] at hreads
      exact List.map_injective_iff.mpr (fun _ _ => Value.array.inj) (reads_unique hanswer hreads)
    obtain @⟨target, _, left, after, _, htarget, hcallee, hstart, hkeeps', hreturn, hinside, hgoes⟩ :=
      hanswers middle' frame frames hshares'.quiet hroom hlength
    rw [hlowers.subgraph_eq] at htarget
    have hpaid := hcallee.due_le callee'
    have hgo := (Machine.goesTo_tailCall hlowers.program_eq hafter hlowered hsame hnodes hearlier
      hnode' hhandle hreads' htarget hstart hterminator _ (by omega)).trans hgoes
    rw [← hinside] at hgo
    exact ⟨left, after, hkeeps.extend hkeeps' fun _ hmem => hlists.owns hsubgraph hmem, hreturn, hgo⟩
  | linkedCall hnodes hnone hnode' hcall' hlink =>
    rw [Subgraph.lastNode?, hnodes, List.getLast?_concat, Option.bind_some, hlink] at hfree
    exact absurd hfree (Option.some_ne_none _)

include hsuspends

omit hnodup in
/-- A subgraph that ends in a linked call gets to the continuation of the call, where what the
invocation has bound is still shared. -/
theorem Shares.goesTo_continuation {id : SubgraphId} {subgraph : Subgraph}
    (hsubgraph : P.subgraphs[id]? = some subgraph)
    (hshares : Shares P W links links' (segmentOrigin id subgraph.kind) env other)
    {inside : List SubgraphId}
    (hpasses : Passes { P with links } calls subgraph.nodes env env' inside) {link : Link}
    (hlink : subgraph.lastNode?.bind { P with links }.linkFor? = some link)
    {frames : List Machine.Frame} (hroom : frames.length + room ≤ depth) :
    ∃ next after, P.subgraphs[link.continuation]? = some next
      ∧ segmentOrigin link.continuation next.kind = segmentOrigin id subgraph.kind
      ∧ Shares P W links links' (segmentOrigin id subgraph.kind) env' after
      ∧ P.Keeps (segmentOrigin id subgraph.kind :: inside) [] other after
      ∧ Machine.GoesTo plan depth ⟨some id, other, frames⟩ ⟨some link.continuation, after, frames⟩
        inside := by
  obtain ⟨last, hlast, hlink⟩ := Option.bind_eq_some_iff.mp hlink
  have hmem := List.mem_of_getLast? hlast
  obtain ⟨node, -, hlists⟩ := hP.exists_lists hsubgraph hmem
  obtain ⟨hcall, htensors, ⟨next, hnext, hback⟩, hout⟩ := hsuspends hlists hsubgraph hlink
  obtain ⟨node', hnode', hmatches⟩ := hwraps.matches_wrapped hP hlists
  have hlink' : { W with links := links' }.linkFor? last = some link :=
    ((hwraps.shape hP).link_old (hP.inArena hsubgraph last hmem)).trans hlink
  obtain ⟨earlier, hnodes⟩ := List.getLast?_eq_some_iff.mp hlast
  have hafter := ((hwraps.extends_program hP).subgraph_old _ (subgraph_lt hsubgraph)).trans hsubgraph
  obtain ⟨lowered, hlowered, hsame, hends⟩ := hlowers.lowered hafter
  obtain ⟨hnone, hterminator⟩ := hends.eq_linkedCall hnodes hnode' (hmatches.isCall hcall) hlink'
  have hdue := SubgraphKind.due_of_isWrapper (hplain hsubgraph)
  obtain ⟨handle, callee', arguments, answers, middle, middle', hhandle, hearlier, hreads', hshares',
    hkeeps, hanswers, ⟨hallows, hpos⟩, hbind⟩ := hshares.exists_call hP hwraps hapart hanswered
      hallowed hsubgraph hnodes hnone hlists hcall hmatches hpasses
  have hlength : link.tensors.length = answers.length := by
    rw [htensors, Environment.length_eq_of_bindAll hbind, List.length_map]
  obtain @⟨target, _, left, after, _, htarget, hcallee, hstart, hkeeps', hreturn, hinside, hgoes⟩ :=
    hanswers middle'
    ⟨some link.continuation, link.tensors⟩ frames hshares'.quiet hroom hlength
  rw [hlowers.subgraph_eq] at htarget
  have hpush : frames.length < depth := by omega
  have hpaid := hcallee.due_le callee'
  have hgo := (Machine.goesTo_linkedCall hlowers.program_eq hafter hlowered hsame hnodes hearlier hnode'
    hhandle hreads' htarget hstart hlink' hterminator hpush (by omega)).trans hgoes
  rw [← hinside] at hgo
  rw [htensors] at hreturn
  have howns : ∀ tensor ∈ node.outputs, P.Owns (segmentOrigin id subgraph.kind) tensor :=
    fun tensor hmem => hlists.owns hsubgraph hmem
  refine ⟨next, after, hnext, hback, hshares'.returned hapart hlists hsubgraph (hout inside hallows)
    hkeeps' hbind hreturn, (hkeeps.extend hkeeps' howns).trans (.bindAll hreturn ?_), hgo⟩
  exact fun tensor hmem _ => .inr ⟨_, List.mem_cons_self, howns tensor hmem⟩

include hnodup

/-- A chain of subgraphs hands its results over to the continuation on top of the stack. -/
theorem goesTo_of_follows {id : SubgraphId} {results : List DenseArray} {entered : List SubgraphId}
    (hfollows : Follows { P with links } calls id env results entered) {subgraph : Subgraph}
    (hsubgraph : P.subgraphs[id]? = some subgraph)
    (hshares : Shares P W links links' (segmentOrigin id subgraph.kind) env other)
    {frame : Machine.Frame} {frames : List Machine.Frame} (hroom : frames.length + room < depth)
    (hlength : frame.destination.length = results.length) :
    ∃ left after, P.Keeps (segmentOrigin id subgraph.kind :: entered) [] other left
      ∧ left.bindAll frame.destination (results.map .array) = .ok after
      ∧ Machine.GoesTo plan depth ⟨some id, other, frame :: frames⟩
        ⟨frame.continuation, after, frames⟩ entered := by
  induction hfollows generalizing subgraph other with
  | @returns id found env env' results entered hfound hpasses hlast hreads =>
    obtain rfl := Option.some.inj (hsubgraph.symm.trans hfound)
    refine hshares.goesTo_last hP hwraps hapart hnodup hlowers hplain hanswered hallowed hsubgraph hpasses
      ?_ hreads (Nat.le_of_lt hroom) hlength
    cases hnode : subgraph.lastNode? with
    | none => rfl
    | some last =>
      rw [hnode] at hlast
      have hmem := List.mem_of_getLast? hnode
      exact ((hwraps.shape hP).link_old (hP.inArena hsubgraph last hmem)).trans hlast
  | @goesOn id found link env env' results inside entered hfound hpasses hlink _ ih =>
    obtain rfl := Option.some.inj (hsubgraph.symm.trans hfound)
    have hdepth : (frame :: frames).length + room ≤ depth := by
      rw [List.length_cons]
      omega
    obtain ⟨next, middle, hnext, hback, hshares', hkeeps, hgoes⟩ := hshares.goesTo_continuation hP
      hwraps hapart hsuspends hlowers hplain hanswered hallowed hsubgraph hpasses hlink hdepth
    rw [← hback] at hshares'
    obtain ⟨left, after, hkeeps', hreturn, hgoes'⟩ := ih hnext hshares' hlength
    rw [hback] at hkeeps'
    refine ⟨left, after, (hkeeps.mono ?_ nofun).trans (hkeeps'.mono ?_ nofun), hreturn,
      hgoes.trans hgoes'⟩
    · exact fun body hmem => by simpa using (List.mem_cons.mp hmem).imp_right .inl
    · exact fun body hmem => by simpa using (List.mem_cons.mp hmem).imp_right .inr

end Chains

/-! ### Calls -/

variable (hP : P.WellFormed) (hwraps : Wraps P links bodies W links') (hapart : P.OwnsApart)
  (hnodup : ∀ ⦃listed⦄, P.Lists listed → listed.node.outputs.Nodup)
  (hsuspends : P.Suspends links allows) (hlowers : plan.Lowers { W with links := links' })
  (hplain : P.Unwrapped)
  (hnamed : ∀ ⦃binder callee⦄, P.Names binder callee →
    ∃ subgraph, P.subgraphs[callee]? = some subgraph ∧ subgraph.kind = .body)

include hP hwraps hapart hnodup hlowers hnamed

/-- The calls of a body are answered if the bodies are that they run, directly or through the
entrances of their binders. -/
theorem callsAnswered {levels : Nat} (hbodies : ∀ callee subgraph arguments results inside,
      P.subgraphs[callee]? = some subgraph → subgraph.kind = .body →
        Invokes { P with links } allows levels callee arguments results inside →
          Machine.Answers plan depth P (2 * levels - 1) [] callee arguments results inside) :
    CallsAnswered P W links' plan depth (2 * levels)
      (CallsWithin { P with links } allows levels) := by
  intro listed hlists hcall binder handle callee callee' arguments results inside hhead hflows hnames
    hrelated hlength hcalls
  obtain ⟨subgraph, hsubgraph, hkind⟩ := hnamed hnames
  have hanswers := hbodies callee subgraph arguments results inside hsubgraph hkind hcalls.2
  cases levels with
  | zero => exact hcalls.2.elim
  | succ levels =>
    obtain ⟨found, _, _, hfound, hbind, -⟩ := invokes_succ.mp hcalls.2
    obtain rfl := Option.some.inj (hsubgraph.symm.trans hfound)
    have hformals := Environment.length_eq_of_bindAll hbind
    rw [List.length_map] at hformals
    generalize hvalue : Value.closure callee (arguments.map .array) = value at hrelated
    generalize hvalue' : Value.closure callee' (arguments.map .array) = value' at hrelated
    cases hrelated with
    | same =>
      obtain ⟨rfl, -⟩ := Value.closure.inj (hvalue.trans hvalue'.symm)
      exact hanswers.mono (Nat.sub_le _ _) nofun
    | entrance he hflows' =>
      obtain ⟨rfl, -⟩ := Value.closure.inj hvalue
      obtain ⟨rfl, -⟩ := Value.closure.inj hvalue'
      have hdestination := destination_eq he hlists hcall hhead hflows'
      rw [← hdestination] at hlength ⊢
      have hsame := (hwraps.extends_program hP).subgraph_old _ (subgraph_lt hsubgraph)
      exact answers_entrance hlowers hapart he (hdestination ▸ hnodup hlists) hlength hsubgraph
        (fun after hafter => Option.some.inj ((hsame.trans hsubgraph).symm.trans hafter) ▸ hkind)
        hformals hanswers

include hsuspends hplain

/-- A body answers as it is invoked. Its calls take twice as much room on the stack as they take
levels. -/
theorem answers_body {levels : Nat} {callee : SubgraphId} {subgraph : Subgraph}
    (hsubgraph : P.subgraphs[callee]? = some subgraph) (hkind : subgraph.kind = .body)
    {arguments results : List DenseArray} {inside : List SubgraphId}
    (hinvokes : Invokes { P with links } allows levels callee arguments results inside) :
    Machine.Answers plan depth P (2 * levels - 1) [] callee arguments results inside := by
  induction levels generalizing callee subgraph arguments results inside with
  | zero => exact hinvokes.elim
  | succ levels ih =>
    obtain ⟨found, env, entered, hfound, hbind, hfollows, rfl⟩ := invokes_succ.mp hinvokes
    obtain rfl := Option.some.inj (hsubgraph.symm.trans hfound)
    intro other frame frames hquiet hroom hlength
    have hanswered := callsAnswered hP hwraps hapart hnodup hlowers hnamed fun _ _ _ _ _ hsubgraph hkind h =>
      ih hsubgraph hkind h
    have hallowed : ∀ call callee arguments results inside,
        CallsWithin { P with links } allows levels call callee arguments results inside →
          allows call inside ∧ 0 < 2 * levels := by
      intro call callee arguments results inside hcalls
      refine ⟨hcalls.1, ?_⟩
      cases levels with
      | zero => exact hcalls.2.elim
      | succ levels => omega
    have horigin : segmentOrigin callee subgraph.kind = callee := by
      rw [hkind]
      rfl
    have hentering : subgraph.kind.entering callee = [callee] := by
      rw [hkind]
      rfl
    have howns : ∀ formal ∈ subgraph.inputs, P.Owns callee formal := fun formal hmem =>
      ⟨callee, subgraph, hsubgraph, horigin, List.mem_append_left _ hmem⟩
    obtain ⟨started, hstart⟩ := Environment.exists_bindAll other
      (Environment.length_eq_of_bindAll hbind)
    have hshares : Shares P W links links' (segmentOrigin callee subgraph.kind) env started := by
      rw [horigin]
      exact shares_started hP hwraps hapart howns hquiet hbind hstart
    have hdepth : frames.length + 2 * levels < depth := by omega
    obtain ⟨left, after, hkeeps, hreturn, hgoes⟩ := goesTo_of_follows hP hwraps hapart hnodup
      hsuspends hlowers hplain hanswered hallowed hfollows hsubgraph hshares hdepth hlength
    have hafter := (hwraps.extends_program hP).subgraph_old _ (subgraph_lt hsubgraph)
    have hstarted : P.Keeps (callee :: entered) [] other started :=
      .bindAll hstart fun formal hmem _ => .inr ⟨callee, List.mem_cons_self, howns formal hmem⟩
    rw [horigin] at hkeeps
    rw [hentering]
    exact .intro ((hlowers.subgraph_eq callee).trans (hafter.trans hsubgraph)) (.inl hkind) hstart
      (hstarted.trans hkeeps) hreturn (by rw [hentering]) hgoes

end Wraps

end TailFlow
