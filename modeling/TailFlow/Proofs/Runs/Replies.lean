import TailFlow.Proofs.Runs.Machine
import TailFlow.Proofs.Runs.Waiting
import TailFlow.Proofs.Runs.Wrapping

/-!
# What a run with continuations changes

The environment of a run with continuations is shared by all bodies. Running a call changes only
what belongs to the bodies that are entered, what is there for wrappers, and the outputs of the call
itself. `Answers` says that a subgraph can be run on arguments from any environment that leaves
constants alone, and that it hands its results over to the continuation on top of the stack.

An entrance answers if its body does: it puts its exit on the stack, and the exit hands the results
of the body over to where the call that goes through the entrance wants them.
-/

namespace TailFlow

open Program

namespace Program

/-- Nothing is bound to a constant. -/
def Quiet (P : Program) (env : Environment) : Prop :=
  ∀ ⦃tensor : TensorId⦄, ¬ P.Plain tensor → env.get? tensor = none

/-- Of the tensors of the program, those stay as they are that belong to other bodies and are not
among the given ones. -/
def Keeps (P : Program) (bodies : List SubgraphId) (others : List TensorId)
    (env env' : Environment) : Prop :=
  ∀ ⦃tensor : TensorId⦄, tensor < P.tensors.size → (∀ body ∈ bodies, ¬ P.Owns body tensor) →
    tensor ∉ others → env'.get? tensor = env.get? tensor

variable {P : Program} {bodies bodies' : List SubgraphId} {others others' : List TensorId}
  {env env' env'' : Environment}

theorem Keeps.trans (h : P.Keeps bodies others env env') (h' : P.Keeps bodies others env' env'') :
    P.Keeps bodies others env env'' := by
  intro tensor hlt hbodies hothers
  rw [h' hlt hbodies hothers, h hlt hbodies hothers]

theorem Keeps.mono (h : P.Keeps bodies others env env') (hbodies : ∀ body ∈ bodies, body ∈ bodies')
    (hothers : ∀ tensor ∈ others, tensor ∈ others' ∨ ∃ body ∈ bodies', P.Owns body tensor) :
    P.Keeps bodies' others' env env' := by
  intro tensor hlt hapart habsent
  refine h hlt (fun body hmem => hapart body (hbodies body hmem)) fun hmem => ?_
  rcases hothers tensor hmem with hother | ⟨body, hbody, howns⟩
  · exact habsent hother
  · exact hapart body hbody howns

theorem Keeps.bindAll {ids : List TensorId} {values : List Value}
    (hbind : env.bindAll ids values = .ok env') (hothers : ∀ id ∈ ids, id < P.tensors.size →
      id ∈ others ∨ ∃ body ∈ bodies, P.Owns body id) : P.Keeps bodies others env env' := by
  intro tensor hlt hapart habsent
  refine Environment.get?_bindAll_of_notMem hbind fun hmem => ?_
  rcases hothers tensor hmem hlt with hother | ⟨body, hbody, howns⟩
  · exact habsent hother
  · exact hapart body hbody howns

/-- What happens within a body, and then within others and to tensors of the body. -/
theorem Keeps.extend {body : SubgraphId} (h : P.Keeps [body] [] env env')
    (h' : P.Keeps bodies others env' env'') (howns : ∀ tensor ∈ others, P.Owns body tensor) :
    P.Keeps (body :: bodies) [] env env'' := by
  refine (h.mono ?_ nofun).trans (h'.mono (fun _ hmem => .tail _ hmem) ?_)
  · exact fun other hmem => List.mem_singleton.mp hmem ▸ List.mem_cons_self
  · exact fun tensor hmem => .inr ⟨body, List.mem_cons_self, howns tensor hmem⟩

theorem lt_of_not_plain {tensor : TensorId} (hplain : ¬ P.Plain tensor) :
    tensor < P.tensors.size := by
  by_contra hge
  rw [Plain, Array.getElem?_eq_none (Nat.not_lt.mp hge)] at hplain
  exact hplain rfl

theorem Keeps.quiet (hapart : P.OwnsApart) (h : P.Keeps bodies others env env')
    (hothers : ∀ tensor ∈ others, P.Plain tensor) (hquiet : P.Quiet env) : P.Quiet env' := by
  intro tensor hplain
  rw [h (lt_of_not_plain hplain) (fun _ _ howns => hplain (hapart.plain howns))
    fun hmem => hplain (hothers tensor hmem)]
  exact hquiet hplain

end Program

namespace Machine

variable {plan : ExecutionPlan} {depth : Nat}

/-- The subgraph runs on the arguments from the environment, hands the results over to the frame on
top of the stack, and has entered the bodies by then. -/
inductive Replies (plan : ExecutionPlan) (depth : Nat) (P : Program) (others : List TensorId)
    (callee : SubgraphId) (arguments results : List DenseArray) (inside : List SubgraphId)
    (env : Environment) (frame : Frame) (frames : List Frame) : Prop where
  | intro {target : Subgraph} {started left after : Environment} {rest : List SubgraphId}
      (htarget : plan.program.subgraphs[callee]? = some target) (hcallee : target.kind.IsCallee)
      (hstart : env.bindAll target.inputs (arguments.map .array) = .ok started)
      (hkeeps : P.Keeps inside others env left)
      (hreturn : left.bindAll frame.destination (results.map .array) = .ok after)
      (hinside : inside = target.kind.entering callee ++ rest)
      (hgoes : GoesTo plan depth ⟨some callee, started, frame :: frames⟩
        ⟨frame.continuation, after, frames⟩ rest) :
      Replies plan depth P others callee arguments results inside env frame frames

/-- The subgraph replies wherever constants are left alone and there is room on the stack. -/
def Answers (plan : ExecutionPlan) (depth : Nat) (P : Program) (room : Nat)
    (others : List TensorId) (callee : SubgraphId) (arguments results : List DenseArray)
    (inside : List SubgraphId) : Prop :=
  ∀ (env : Environment) (frame : Frame) (frames : List Frame), P.Quiet env →
    frames.length + room ≤ depth → frame.destination.length = results.length →
      Replies plan depth P others callee arguments results inside env frame frames

theorem Answers.mono {P : Program} {room more : Nat} {others others' : List TensorId}
    {callee : SubgraphId} {arguments results : List DenseArray} {inside : List SubgraphId}
    (h : Answers plan depth P room others callee arguments results inside) (hroom : room ≤ more)
    (hothers : ∀ tensor ∈ others, tensor ∈ others') :
    Answers plan depth P more others' callee arguments results inside := by
  intro env frame frames hquiet hmore hlength
  obtain ⟨htarget, hcallee, hstart, hkeeps, hreturn, hinside, hgoes⟩ :=
    h env frame frames hquiet (by omega) hlength
  exact .intro htarget hcallee hstart (hkeeps.mono (fun _ hmem => hmem) fun _ hmem => .inl (hothers _ hmem))
    hreturn hinside hgoes

end Machine

namespace Wraps

variable {P W : Program} {links' : IdMap Link} {plan : ExecutionPlan} {depth : Nat}

section Exits

variable (hlowers : plan.Lowers { W with links := links' })

include hlowers

theorem goesTo_exit {x : Exit} (hx : x.Stands P W) {results : List DenseArray}
    (hdestination : x.destination.Nodup) (hresults : x.destination.length = results.length)
    {left env : Environment} (hhanded : left.bindAll x.handover (results.map .array) = .ok env)
    {frame : Machine.Frame} {frames : List Machine.Frame}
    (hlength : frame.destination.length = results.length) :
    ∃ returned after, env.bindAll x.destination (results.map .array) = .ok returned
      ∧ returned.bindAll frame.destination (results.map .array) = .ok after
      ∧ Machine.GoesTo plan depth ⟨some x.id, env, frame :: frames⟩
        ⟨frame.continuation, after, frames⟩ [] := by
  obtain ⟨returned, hreturned⟩ : ∃ returned,
      env.bindAll x.destination (results.map .array) = .ok returned :=
    Environment.exists_bindAll env (by rw [hresults, List.length_map])
  obtain ⟨after, hafter⟩ : ∃ after,
      returned.bindAll frame.destination (results.map .array) = .ok after :=
    Environment.exists_bindAll returned (by rw [hlength, List.length_map])
  refine ⟨returned, after, hreturned, hafter, ?_⟩
  obtain ⟨lowered, hlowered, hnodes, hends⟩ := hlowers.lowered hx.subgraph_eq
  have hnone : ExecutionPlan.NoneCalls { W with links := links' } [x.consumer] := by
    intro id hmem node hnode
    obtain rfl := List.mem_singleton.mp hmem
    rw [← Option.some.inj (hx.node_eq.symm.trans hnode)]
    rfl
  have hcopy : (NodeKind.kernel .copy).Gives ({ W with links := links' }.Reads env) x.handover
      (results.map .array) :=
    .kernel (Environment.forall₂_array.mpr (Environment.reads_bindAll hx.nodup hhanded)) rfl
  exact Machine.goesTo_returns hlowers.program_eq hx.subgraph_eq hlowered hnodes
    (hends.eq_returns hnone) rfl (.inline hx.node_eq hcopy hreturned .nil)
    (Environment.reads_bindAll hdestination hreturned) hafter

theorem goesTo_entrance {e : Entrance} (he : e.Stands P W links')
    {arguments : List DenseArray} {env started : Environment}
    (hbind : env.bindAll e.arguments (arguments.map .array) = .ok started) {target : Subgraph}
    (htarget : W.subgraphs[e.body]? = some target) (hkind : target.kind = .body)
    {entered : Environment}
    (hentered : Environment.bindAll
      (started.insert e.handle (.closure e.body (arguments.map .array))) target.inputs
        (arguments.map .array) = .ok entered) {frames : List Machine.Frame}
    (hlt : frames.length < depth) :
    Machine.GoesTo plan depth ⟨some e.id, started, frames⟩
      ⟨some e.body, entered, ⟨some e.exit.id, e.exit.handover⟩ :: frames⟩
      (target.kind.entering e.body) := by
  obtain ⟨lowered, hlowered, hnodes, hends⟩ := hlowers.lowered he.subgraph_eq
  have hbinder : (NodeKind.bind e.body).Gives ({ W with links := links' }.Reads started) e.arguments
      [.closure e.body (arguments.map .array)] := by
    have hnodup := (List.nodup_append.mp he.nodup).1
    exact .bind (Environment.forall₂_array.mpr (Environment.reads_bindAll hnodup hbind))
  have hsplit : [e.binder, e.call] = [e.binder] ++ [e.call] := rfl
  have hlinked := (hends.eq_linkedCall hsplit he.call_eq rfl he.link_eq).2
  have hdue : target.kind.due + 2 ≤ 0 + 4 * (target.kind.entering e.body).length := by
    rw [hkind, SubgraphKind.entering, if_pos rfl]
    exact Nat.le_refl 4
  exact Machine.goesTo_linkedCall hlowers.program_eq he.subgraph_eq hlowered hnodes hsplit
    (.inline he.binder_eq hbinder Environment.bindAll_singleton .nil) he.call_eq rfl
    reads_insert_self htarget hentered he.link_eq hlinked hlt hdue

/-- An entrance answers if its body does. It needs room for its exit, and the results stay where the
call that its caller reaches writes them. -/
theorem answers_entrance (hapart : P.OwnsApart) {e : Entrance} (he : e.Stands P W links') {room : Nat}
    {arguments results : List DenseArray} {inside : List SubgraphId}
    (hdestination : e.exit.destination.Nodup)
    (hresults : e.exit.destination.length = results.length) {subgraph : Subgraph}
    (hsubgraph : P.subgraphs[e.body]? = some subgraph)
    (hkind : ∀ ⦃after⦄, W.subgraphs[e.body]? = some after → after.kind = .body)
    (harguments : subgraph.inputs.length = arguments.length)
    (hbody : Machine.Answers plan depth P (room + 1) [] e.body arguments results inside) :
    Machine.Answers plan depth P (room + 2) e.exit.destination e.id arguments results inside := by
  intro env frame frames hquiet hroom hlength
  have hx := he.exit_stands
  obtain ⟨target, htarget, hformals⟩ := he.length_eq
  obtain rfl := Option.some.inj (htarget.symm.trans hsubgraph)
  obtain ⟨started, hstart⟩ : ∃ started,
      env.bindAll e.arguments (arguments.map .array) = .ok started :=
    Environment.exists_bindAll env (by rw [hformals, harguments, List.length_map])
  have hge {tensor : TensorId} (hmem : tensor ∈ e.arguments ++ [e.handle]) :
      ¬ tensor < P.tensors.size := Nat.not_lt.mpr (he.fresh_ge tensor hmem)
  have hstarted : P.Keeps inside [] env started :=
    .bindAll hstart fun id hmem hlt => absurd hlt (hge (List.mem_append_left _ hmem))
  have hbound : P.Keeps inside [] started
      (started.insert e.handle (.closure e.body (arguments.map .array))) := by
    refine .bindAll Environment.bindAll_singleton fun id hmem hlt => ?_
    exact absurd hlt (hge (List.mem_append_right _ hmem))
  have hbefore := hstarted.trans hbound
  have hhanded : e.exit.handover.length = results.length := hx.length_eq.trans hresults
  obtain ⟨htarget', -, hentered, hkeeps, hreturn, hinside, hgoes⟩ :=
    hbody _ ⟨some e.exit.id, e.exit.handover⟩ (frame :: frames)
      (hbefore.quiet hapart (fun _ h => nomatch h) hquiet) (by rw [List.length_cons]; omega) hhanded
  rw [hlowers.subgraph_eq] at htarget'
  obtain ⟨returned, after, hreturned, hafter, hexit⟩ : ∃ returned after, _ ∧ _ ∧
      Machine.GoesTo plan depth _ _ [] :=
    goesTo_exit hlowers hx hdestination hresults hreturn hlength
  have hlt : (frame :: frames).length < depth := by
    rw [List.length_cons]
    omega
  have hentrance := goesTo_entrance hlowers he hstart htarget' (hkind htarget') hentered hlt
  have hleft : P.Keeps inside e.exit.destination _ _ :=
    (hbefore.trans hkeeps).mono (fun _ hmem => hmem) nofun
  have hhand : P.Keeps inside e.exit.destination _ _ :=
    .bindAll hreturn fun id hmem hlt => absurd hlt (Nat.not_lt.mpr (hx.handover_ge id hmem))
  have hwrite : P.Keeps inside e.exit.destination _ _ := .bindAll hreturned fun id hmem _ => .inl hmem
  have hrest := (hentrance.trans hgoes).trans hexit
  rw [← hinside, List.append_nil] at hrest
  have hentry := (hlowers.subgraph_eq e.id).trans he.subgraph_eq
  exact .intro hentry (.inr ⟨e.body, rfl⟩) hstart ((hleft.trans hhand).trans hwrite) hafter rfl hrest

end Exits

end Wraps

end TailFlow
