import TailFlow.Proofs.Boundary.Building

/-!
# Handles and callers after wrapping

Wrapping keeps what is known about handles: they have one writer each, and the handle of every call
leads back to binders. An entrance is reached where its body was reached before, and the live callers
of a body that has several callers are the entrances of the body, because all others have been made
to name an entrance.
-/

namespace TailFlow

open Program

namespace Wraps

variable {P W : Program} {links links' : IdMap Link} {bodies : List SubgraphId}

/-! ### The listed nodes after wrapping -/

theorem node_cases (hP : P.WellFormed) (hwraps : Wraps P links bodies W links')
    {listed : ListedNode} (hlists : P.Lists listed) {node : Node}
    (hnode : W.nodes[listed.id]? = some node) : node = listed.node
      ∨ ∃ e : Entrance, e.Stands P W links' ∧ e.caller = listed.id
        ∧ listed.node.kind = .bind e.body ∧ node = { listed.node with kind := .bind e.id } := by
  obtain ⟨-, -, -, hold⟩ := id hlists
  rcases (hwraps.shape hP).node_old hold with hsame | ⟨e, he, hid⟩
  · exact .inl (Option.some.inj (hnode.symm.trans hsame))
  · obtain ⟨other, hother, hcaller, hkind, hnamed⟩ := he.caller_eq
    obtain rfl := hP.lists_unique hother hlists (hcaller.trans hid)
    rw [hid, hnode] at hnamed
    exact .inr ⟨e, he, hid, hkind, Option.some.inj hnamed⟩

/-- A listed node is one that was listed before, perhaps naming an entrance now, or it belongs to an
exit or to an entrance. -/
theorem lists_cases (hP : P.WellFormed) (hwraps : Wraps P links bodies W links')
    {listed : ListedNode} (hlists : W.Lists listed) :
    (∃ old, P.Lists old ∧ old.owner = listed.owner ∧ old.id = listed.id
        ∧ (listed.node = old.node ∨ ∃ e : Entrance, e.Stands P W links' ∧ e.caller = old.id
          ∧ old.node.kind = .bind e.body ∧ listed.node = { old.node with kind := .bind e.id }))
      ∨ (∃ x : Exit, x.Stands P W ∧ listed.owner = x.id ∧ listed.id = x.consumer
        ∧ listed.node = ⟨x.nodeName, .kernel .copy, x.handover, x.destination⟩)
      ∨ ∃ e : Entrance, e.Stands P W links' ∧ e.body ∈ bodies ∧ listed.owner = e.id
        ∧ (listed.id = e.binder ∧ listed.node = ⟨e.binderName, .bind e.body, e.arguments, [e.handle]⟩
          ∨ listed.id = e.call ∧ listed.node = ⟨e.callName, .call, [e.handle], e.exit.handover⟩) := by
  obtain ⟨owner, id, node⟩ := listed
  obtain ⟨subgraph, hsubgraph, hid, hnode⟩ := hlists
  dsimp only at hsubgraph hid hnode ⊢
  rcases (hwraps.shape hP).subgraph_cases hsubgraph with hold | ⟨x, hx, rfl⟩ | ⟨e, he, rfl, hbody⟩
  · obtain ⟨before, -, hbefore⟩ := hP.exists_lists hold hid
    exact .inl ⟨⟨owner, id, before⟩, hbefore, rfl, rfl, hwraps.node_cases hP hbefore hnode⟩
  · obtain rfl := Option.some.inj (hsubgraph.symm.trans hx.subgraph_eq)
    obtain rfl := List.mem_singleton.mp hid
    exact .inr (.inl ⟨x, hx, rfl, rfl, Option.some.inj (hnode.symm.trans hx.node_eq)⟩)
  · obtain rfl := Option.some.inj (hsubgraph.symm.trans he.subgraph_eq)
    refine .inr (.inr ⟨e, he, hbody, rfl, ?_⟩)
    rcases List.mem_pair.mp hid with rfl | rfl
    · exact .inl ⟨rfl, Option.some.inj (hnode.symm.trans he.binder_eq)⟩
    · exact .inr ⟨rfl, Option.some.inj (hnode.symm.trans he.call_eq)⟩

/-! ### Handles -/

theorem not_isHandle_of_serves (hunique : P.HandlesUnique) {binder : NodeId}
    {destination : List TensorId} (hserves : P.Serves binder destination) {tensor : TensorId}
    (hmem : tensor ∈ destination) : ¬ P.IsHandle tensor := by
  intro ⟨writer, hwriter, hgives, hout⟩
  obtain ⟨call, node, hreaches, -, hnode, rfl⟩ := hserves
  obtain ⟨listed, hlists, rfl, hcall⟩ := hreaches.listsCall
  obtain ⟨-, -, -, hnode'⟩ := id hlists
  obtain rfl := Option.some.inj (hnode.symm.trans hnode')
  obtain rfl := hunique hwriter hgives hout hlists hmem
  rw [Node.givesHandle_ne_call hgives] at hcall
  exact nomatch hcall

/-- What is said about handles while wrappers are added: no wrapper writes to a handle that is
there already. -/
structure HandlesApart (P W : Program) : Prop where
  unique : W.HandlesUnique
  old : ∀ ⦃tensor : TensorId⦄, W.IsHandle tensor → tensor < P.tensors.size → P.IsHandle tensor
  exits : ∀ ⦃id : SubgraphId⦄ ⦃subgraph : Subgraph⦄, W.subgraphs[id]? = some subgraph →
    (∃ body, subgraph.kind = .exit body) → ∀ tensor ∈ subgraph.inputs, ¬ W.IsHandle tensor

theorem handlesApart_exit (hP : P.WellFormed) (hunique : P.HandlesUnique) (hW : W.WellFormed)
    (hapart : HandlesApart P W) {x : Exit} {extra : List Tensor} {anchor : SubgraphId}
    (hfresh : W.Fresh extra x.handover)
    (hserves : ∃ caller, P.Serves caller x.destination)
    (ha : (exitAddition W extra x.nodeName x.name x.body anchor x.handover
      x.destination).Applies W) : HandlesApart P ((exitAddition W extra x.nodeName x.name x.body
        anchor x.handover x.destination).after W) := by
  have hsame {tensor : TensorId} (hhandle : ((exitAddition W extra x.nodeName x.name x.body anchor
      x.handover x.destination).after W).IsHandle tensor) : W.IsHandle tensor := by
    rcases Addition.isHandle_after_cases hW ha hhandle with hold | ⟨node, hnode, hbinder, -⟩
    · exact hold
    · obtain rfl := List.mem_singleton.mp hnode
      exact nomatch hbinder
  have hdestination : ∀ tensor ∈ x.destination, ¬ W.IsHandle tensor := by
    intro tensor hmem hhandle
    obtain ⟨caller, hserves⟩ := hserves
    exact not_isHandle_of_serves hunique hserves hmem (hapart.old hhandle (hserves.lt hP hmem))
  refine ⟨Addition.handlesUnique_after hW ha hapart.unique ?_ ?_, ?_, ?_⟩
  · intro node hnode tensor hmem
    obtain rfl := List.mem_singleton.mp hnode
    exact hdestination tensor hmem
  · intro first second b c hb _ hbinder
    obtain rfl := List.mem_singleton.mp (List.mem_of_getElem? hb)
    exact nomatch hbinder
  · exact fun tensor hhandle hlt => hapart.old (hsame hhandle) hlt
  · intro id subgraph hsubgraph hexit tensor hmem hhandle
    rcases Addition.subgraph_after_cases hsubgraph with hold | ⟨-, rfl⟩
    · exact hapart.exits hold hexit tensor hmem (hsame hhandle)
    · obtain ⟨writer, hwriter, -, hout⟩ := hsame hhandle
      exact Nat.not_lt.mpr (hfresh.le_of_mem hmem) (hW.outputs_lt hwriter hout)

theorem handlesApart_entrance (hW : W.WellFormed) (hextends : P.Extends W)
    (hapart : HandlesApart P W) {e : Entrance} {extra : List Tensor} {caller : NodeId}
    (hexit : e.exit.Stands P W) (hfresh : W.Fresh extra (e.arguments ++ [e.handle]))
    (ha : (entranceAddition W extra e.binderName e.callName e.name e.body caller e.arguments e.handle
      e.exit.handover).Applies W) : HandlesApart P ((entranceAddition W extra e.binderName e.callName
        e.name e.body caller e.arguments e.handle e.exit.handover).after W) := by
  have hhandle : W.tensors.size ≤ e.handle := hfresh.le_of_mem (by simp)
  have hhandover {tensor : TensorId} (hmem : tensor ∈ e.exit.handover) : tensor < W.tensors.size :=
    hW.interface hexit.subgraph_eq tensor (List.mem_append_left _ hmem)
  have hcases {tensor : TensorId} (h : ((entranceAddition W extra e.binderName e.callName e.name
      e.body caller e.arguments e.handle e.exit.handover).after W).IsHandle tensor) :
      W.IsHandle tensor ∨ tensor = e.handle := by
    rcases Addition.isHandle_after_cases hW ha h with hold | ⟨node, hnode, hbinder, hout⟩
    · exact .inl hold
    · rcases List.mem_pair.mp hnode with rfl | rfl
      · exact .inr (List.mem_singleton.mp hout)
      · exact nomatch hbinder
  refine ⟨Addition.handlesUnique_after hW ha hapart.unique ?_ ?_, ?_, ?_⟩
  · intro node hnode tensor hmem hold
    rcases List.mem_pair.mp hnode with rfl | rfl
    · obtain rfl := List.mem_singleton.mp hmem
      obtain ⟨writer, hwriter, -, hout⟩ := hold
      exact Nat.not_lt.mpr hhandle (hW.outputs_lt hwriter hout)
    · exact hapart.exits hexit.subgraph_eq ⟨_, rfl⟩ tensor hmem hold
  · intro first second b c hb hc hbinder tensor hmem hmem'
    match first, hb with
    | 0, hb =>
      obtain rfl := Option.some.inj hb
      obtain rfl := List.mem_singleton.mp hmem
      match second, hc with
      | 0, _ => rfl
      | 1, hc =>
        obtain rfl := Option.some.inj hc
        exact absurd (hhandover hmem') (Nat.not_lt.mpr hhandle)
    | 1, hb =>
      obtain rfl := Option.some.inj hb
      exact nomatch hbinder
  · intro tensor h hlt
    rcases hcases h with hold | rfl
    · exact hapart.old hold hlt
    · exact absurd (Nat.lt_of_lt_of_le hlt hextends.tensors_le) (Nat.not_lt.mpr hhandle)
  · intro id subgraph hsubgraph hkind tensor hmem h
    rcases Addition.subgraph_after_cases hsubgraph with hold | ⟨-, rfl⟩
    · rcases hcases h with hbefore | rfl
      · exact hapart.exits hold hkind tensor hmem hbefore
      · exact Nat.not_lt.mpr hhandle (hW.interface hold _ (List.mem_append_left _ hmem))
    · obtain ⟨body, hkind⟩ := hkind
      exact nomatch hkind

theorem handlesApart (hP : P.WellFormed) (hunique : P.HandlesUnique)
    (hplain : P.Unwrapped)
    (hwraps : Wraps P links bodies W links') : HandlesApart P W := by
  induction hwraps with
  | none =>
    refine ⟨hunique, fun _ hhandle _ => hhandle, fun id subgraph hsubgraph ⟨body, hkind⟩ => ?_⟩
    have hnone := hplain hsubgraph
    rw [hkind] at hnone
    exact nomatch hnone
  | exit hwraps _ _ _ hfresh hlength hserves ih =>
    have hextends := hwraps.extends_program hP
    exact handlesApart_exit hP hunique (hwraps.wellFormed hP) ih hfresh hserves
      (exit_applies hP hextends _ hfresh hlength hserves)
  | entrance hwraps _ _ _ _ hexit _ hfresh htarget hlists hcaller hkind hnode _ ih =>
    have hW := hwraps.wellFormed hP
    have hextends := hwraps.extends_program hP
    exact handlesApart_entrance hW hextends ih hexit hfresh
      (entrance_applies hW hextends hexit hfresh htarget hlists hcaller hkind hnode)

/-- The calls of the wrapped program are resolved, and so are those that entrances make. -/
theorem allResolve (hP : P.WellFormed) (hunique : P.HandlesUnique) (hplain : P.Unwrapped)
    (hresolve : P.AllResolve) (hwraps : Wraps P links bodies W links') : W.AllResolve := by
  intro call handle ⟨listed, hlists, hid, hcall, hhead⟩
  rcases hwraps.lists_cases hP hlists with ⟨old, hold, -, hsame, hnode⟩ | ⟨x, -, -, -, hnode⟩
    | ⟨e, he, -, howner, ⟨-, hnode⟩ | ⟨-, hnode⟩⟩
  · rcases hnode with hnode | ⟨e, -, -, -, hnode⟩
    · rw [hnode] at hcall hhead
      exact hwraps.resolves hP (hresolve ⟨old, hold, hsame.trans hid, hcall, hhead⟩)
    · rw [hnode] at hcall
      exact nomatch hcall
  · rw [hnode] at hcall
    exact nomatch hcall
  · rw [hnode] at hcall
    exact nomatch hcall
  · rw [hnode] at hhead
    obtain rfl : e.handle = handle := Option.some.inj hhead
    have hbinder : W.Lists ⟨e.id, e.binder, ⟨e.binderName, .bind e.body, e.arguments, [e.handle]⟩⟩ :=
      ⟨_, he.subgraph_eq, List.mem_cons_self, he.binder_eq⟩
    have hout : e.handle ∈ [e.handle] := List.mem_singleton.mpr rfl
    have honly {source : TensorId} (hsource : Relation.ReflTransGen W.ComesFrom e.handle source) :
        source = e.handle := by
      rcases hsource.cases_head with hsame | ⟨middle, ⟨other, hother, hwrites, hbranch⟩, -⟩
      · exact hsame.symm
      · have hsame := (handlesApart hP hunique hplain hwraps).unique hbinder rfl hout hother hwrites
        rw [hsame] at hbranch
        exact nomatch hbranch
    exact ⟨fun source hsource => honly hsource ▸ ⟨_, hbinder, rfl, hout⟩, e.handle, _, .refl, hbinder,
      rfl, hout⟩

/-! ### What is reached after wrapping -/

/-- A subgraph of the wrapped program is an old one, or it stands around one. -/
inductive StandsFor (P W : Program) (links : IdMap Link) : SubgraphId → SubgraphId → Prop where
  | old {id : SubgraphId} (hlt : id < P.subgraphs.size) : StandsFor P W links id id
  | entrance {e : Entrance} (he : e.Stands P W links) : StandsFor P W links e.id e.body
  | exit {e : Entrance} (he : e.Stands P W links) : StandsFor P W links e.exit.id e.body

theorem StandsFor.eq_of_lt {id body : SubgraphId} (h : StandsFor P W links id body)
    (hlt : id < P.subgraphs.size) : body = id := by
  cases h with
  | old _ => rfl
  | entrance he => exact absurd hlt (Nat.not_lt.mpr he.id_ge)
  | exit he => exact absurd hlt (Nat.not_lt.mpr he.exit_stands.id_ge)

theorem StandsFor.eq_of_entrance {id body : SubgraphId} (h : StandsFor P W links id body)
    {e : Entrance} (he : e.Stands P W links) (hid : id = e.id) : body = e.body := by
  cases h with
  | old hlt => exact absurd (hid ▸ hlt) (Nat.not_lt.mpr he.id_ge)
  | entrance he' =>
    have hsame := he'.subgraph_eq
    rw [hid, he.subgraph_eq, Option.some.injEq, Subgraph.mk.injEq] at hsame
    exact (SubgraphKind.entrance.inj hsame.2.1).symm
  | exit he' =>
    have hsame := he'.exit_stands.subgraph_eq
    rw [hid, he.subgraph_eq, Option.some.injEq, Subgraph.mk.injEq] at hsame
    exact nomatch hsame.2.1

theorem body_lt {e : Entrance} (he : e.Stands P W links) : e.body < P.subgraphs.size := by
  obtain ⟨target, htarget, -⟩ := he.length_eq
  exact subgraph_lt htarget

/-- What is said about segments and exits so that they are reached only along with old
subgraphs. -/
structure Attached (P W : Program) (links : IdMap Link) : Prop where
  unwrapped : P.Unwrapped
  origin_lt : ∀ ⦃id origin : SubgraphId⦄ ⦃subgraph : Subgraph⦄,
    P.subgraphs[id]? = some subgraph → subgraph.kind = .segment origin → origin < P.subgraphs.size
  exit_of : ∀ ⦃x : Exit⦄, x.Stands P W → ∃ e : Entrance, e.Stands P W links ∧ e.exit.id = x.id

/-- A step between subgraphs of the wrapped program is a step, or none, between the ones that they
stand for. -/
theorem standsFor_step (hP : P.WellFormed) (hwraps : Wraps P links bodies W links')
    (hattached : Attached P W links') {id next body : SubgraphId}
    (hid : StandsFor P W links' id body) (hnext : next ∈ W.leadsTo id) :
    ∃ body', StandsFor P W links' next body' ∧ (body' = body ∨ body' ∈ P.leadsTo body) := by
  rcases List.mem_append.mp hnext with hgoes | hbound
  · obtain ⟨subgraph, hsubgraph, hkind⟩ := mem_attachedTo.mp hgoes
    rcases (hwraps.shape hP).subgraph_cases hsubgraph with hold | ⟨x, hx, rfl⟩ | ⟨e, he, rfl, -⟩
    · have hlt : id < P.subgraphs.size := by
        have hnone := hattached.unwrapped hold
        cases hcase : subgraph.kind with
        | segment origin =>
          rw [hcase] at hkind
          exact Option.some.inj hkind ▸ hattached.origin_lt hold hcase
        | body =>
          rw [hcase] at hkind
          exact nomatch hkind
        | entrance wrapped =>
          rw [hcase] at hnone
          exact nomatch hnone
        | exit wrapped =>
          rw [hcase] at hnone
          exact nomatch hnone
      obtain rfl := hid.eq_of_lt hlt
      refine ⟨next, .old (subgraph_lt hold), .inr (List.mem_append_left _ ?_)⟩
      exact mem_attachedTo.mpr ⟨subgraph, hold, hkind⟩
    · obtain ⟨e, he, hexit⟩ := hattached.exit_of hx
      have hsame := he.exit_stands.subgraph_eq
      rw [hexit, hsubgraph, Option.some.injEq] at hsame
      rw [hsame] at hkind
      have hbody : e.body = id := he.exit_body.symm.trans (Option.some.inj hkind)
      have hlt : id < P.subgraphs.size := hbody ▸ body_lt he
      obtain rfl := hid.eq_of_lt hlt
      exact ⟨e.body, hexit ▸ .exit he, .inl hbody⟩
    · rw [Option.some.inj (hsubgraph.symm.trans he.subgraph_eq)] at hkind
      exact nomatch hkind
  · obtain ⟨listed, hlists, rfl, hkind⟩ := mem_boundBy.mp hbound
    rcases hwraps.lists_cases hP hlists with ⟨old, hold, howner, -, hnode⟩ | ⟨x, -, -, -, hnode⟩
      | ⟨e, he, -, howner, ⟨-, hnode⟩ | ⟨-, hnode⟩⟩
    · obtain ⟨subgraph, hsubgraph, -⟩ := id hold
      rw [howner] at hsubgraph
      obtain rfl := hid.eq_of_lt (subgraph_lt hsubgraph)
      rcases hnode with hnode | ⟨e, he, -, hbody, hnode⟩
      · rw [hnode] at hkind
        refine ⟨next, .old (callee_lt hP hold hkind), .inr (List.mem_append_right _ ?_)⟩
        exact mem_boundBy.mpr ⟨old, hold, howner, hkind⟩
      · rw [hnode] at hkind
        obtain rfl : e.id = next := NodeKind.bind.inj hkind
        refine ⟨e.body, .entrance he, .inr (List.mem_append_right _ ?_)⟩
        exact mem_boundBy.mpr ⟨old, hold, howner, hbody⟩
    · rw [hnode] at hkind
      exact nomatch hkind
    · rw [hnode] at hkind
      obtain rfl : e.body = next := NodeKind.bind.inj hkind
      exact ⟨e.body, .old (body_lt he), .inl (hid.eq_of_entrance he howner).symm⟩
    · rw [hnode] at hkind
      exact nomatch hkind

theorem leads_of_wrapped (hP : P.WellFormed) (hwraps : Wraps P links bodies W links')
    (hattached : Attached P W links') {id : SubgraphId}
    (hleads : Reach.Leads W.leadsTo W.entry id) :
    ∃ body, StandsFor P W links' id body ∧ Reach.Leads P.leadsTo P.entry body := by
  induction hleads with
  | refl =>
    have hentry : W.entry = P.entry :=
      (keeps hP (fun W => W.entry = P.entry) (fun _ _ _ _ _ hkept => hkept) rfl hwraps).2.2
    rw [hentry]
    exact ⟨P.entry, .old hP.entry, .refl⟩
  | tail _ hstep ih =>
    obtain ⟨body, hbody, hleads⟩ := ih
    obtain ⟨body', hbody', hsame | hnext⟩ := hwraps.standsFor_step hP hattached hbody hstep
    · exact ⟨body', hbody', hsame ▸ hleads⟩
    · exact ⟨body', hbody', hleads.tail hnext⟩

/-- The live callers of a reached subgraph with several callers stand in its entrances. -/
theorem entrance_of_live (hP : P.WellFormed) (hwraps : Wraps P links bodies W links')
    (hattached : Attached P W links')
    (hbodies : ∀ body, body ∈ bodies ↔ ¬ P.NamedOnce body ∧ Reach.Leads P.leadsTo P.entry body)
    (hserved : Wrapped P (fun id => (∃ body ∈ bodies, P.Names id body) ∧ P.Live id) P links W links')
    {body : SubgraphId} (hmany : ¬ W.NamedOnce body) (hreached : Reach.Leads W.leadsTo W.entry body)
    {binder : NodeId} (hnames : W.Names binder body) (hlive : W.Live binder) :
    ∃ e : Entrance, e.Stands P W links' ∧ e.binder = binder ∧ e.body = body := by
  have hlt : body < P.subgraphs.size := by
    by_contra hge
    exact hmany (hwraps.namedOnce hP (Nat.not_lt.mp hge))
  -- Whoever names the body has named it all along, or belongs to an entrance of it.
  have hcases {binder : NodeId} (hnames : W.Names binder body) : P.Names binder body
      ∨ ∃ e : Entrance, e.Stands P W links' ∧ e.body ∈ bodies ∧ e.binder = binder
        ∧ e.body = body := by
    obtain ⟨listed, hlists, rfl, hkind⟩ := hnames
    rcases hwraps.lists_cases hP hlists with ⟨old, hold, -, hsame, hnode⟩ | ⟨x, -, -, -, hnode⟩
      | ⟨e, he, hmem, -, ⟨hid, hnode⟩ | ⟨-, hnode⟩⟩
    · rcases hnode with hnode | ⟨e, he, -, -, hnode⟩
      · rw [hnode] at hkind
        exact .inl ⟨old, hold, hsame, hkind⟩
      · rw [hnode] at hkind
        obtain rfl : e.id = body := NodeKind.bind.inj hkind
        exact absurd hlt (Nat.not_lt.mpr he.id_ge)
    · rw [hnode] at hkind
      exact nomatch hkind
    · rw [hnode] at hkind
      exact .inr ⟨e, he, hmem, hid.symm, NodeKind.bind.inj hkind⟩
    · rw [hnode] at hkind
      exact nomatch hkind
  have hmem : body ∈ bodies := by
    by_contra hnot
    obtain ⟨body', hbody', hleads⟩ := hwraps.leads_of_wrapped hP hattached hreached
    obtain rfl := hbody'.eq_of_lt hlt
    refine hmany fun first second hfirst hsecond => ?_
    have hold {binder : NodeId} (hnames : W.Names binder body') : P.Names binder body' := by
      rcases hcases hnames with hold | ⟨e, -, hmem, -, rfl⟩
      · exact hold
      · exact absurd hmem hnot
    by_contra hne
    exact hnot ((hbodies body').mpr ⟨fun honce => hne (honce (hold hfirst) (hold hsecond)), hleads⟩)
  rcases hcases hnames with hold | ⟨e, he, -, hbinder, hbody⟩
  · obtain ⟨call, hreaches⟩ := hlive
    have hbefore := (hwraps.reaches_iff hP hold.lt).mp hreaches
    obtain ⟨e, he, hcaller⟩ := hserved.named binder ⟨⟨body, hmem, hold⟩, call, hbefore⟩
    obtain ⟨other, -, -, -, hnamed⟩ := he.caller_eq
    obtain ⟨listed, ⟨-, -, -, hnode⟩, rfl, hkind⟩ := hnames
    rw [hcaller, hnode, Option.some.injEq] at hnamed
    rw [hnamed] at hkind
    obtain rfl : e.id = body := NodeKind.bind.inj hkind
    exact absurd hlt (Nat.not_lt.mpr he.id_ge)
  · exact ⟨e, he, hbinder, hbody⟩

end Wraps

end TailFlow
