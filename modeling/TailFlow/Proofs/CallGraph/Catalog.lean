import TailFlow.CallGraph.Catalog
import TailFlow.Proofs.Program.WellFormed

/-!
# Who names a subgraph

In a well-formed program the catalog is always built. It tells the listed binders that name a
subgraph, and it tells the subgraphs that are reached from the entry by what subgraphs bind and by
the segments and exits that go along with them.
-/

namespace TailFlow

open Program

namespace Program

variable {P : Program}

/-- A listed binder names the subgraph. -/
def Names (P : Program) (binder : NodeId) (body : SubgraphId) : Prop :=
  ∃ listed, P.Lists listed ∧ listed.id = binder ∧ listed.node.kind = .bind body

theorem Names.lt {binder : NodeId} {body : SubgraphId} (hnames : P.Names binder body) :
    binder < P.nodes.size := by
  obtain ⟨listed, ⟨subgraph, -, -, hnode⟩, rfl, -⟩ := hnames
  exact node_lt hnode

theorem Names.unique (hP : P.WellFormed) {binder : NodeId} {first second : SubgraphId}
    (hfirst : P.Names binder first) (hsecond : P.Names binder second) : first = second := by
  obtain ⟨listed, hlists, rfl, hkind⟩ := hfirst
  obtain ⟨other, hother, hid, hkind'⟩ := hsecond
  obtain rfl := hP.lists_unique hother hlists hid
  exact NodeKind.bind.inj (hkind.symm.trans hkind')

/-- Listed binders that name a subgraph are one and the same. -/
def NamedOnce (P : Program) (id : SubgraphId) : Prop :=
  ∀ ⦃first second : NodeId⦄, P.Names first id → P.Names second id → first = second

theorem not_namedOnce_iff {body : SubgraphId} : ¬ P.NamedOnce body
    ↔ ∃ first second, first ≠ second ∧ P.Names first body ∧ P.Names second body := by
  unfold NamedOnce
  push Not
  simp only [and_comm, and_left_comm]

theorem callee?_eq_some {node : Node} {body : SubgraphId} :
    node.callee? = some body ↔ node.kind = .bind body := by
  obtain ⟨name, kind, inputs, outputs⟩ := node
  cases kind <;> simp [Node.callee?, NodeKind.callee?]

theorem callee_lt (hP : P.WellFormed) {listed : ListedNode} (hlists : P.Lists listed)
    {callee : SubgraphId} (hkind : listed.node.kind = .bind callee) :
    callee < P.subgraphs.size := by
  have hfits := hP.fits hlists
  unfold Fits at hfits
  rw [hkind] at hfits
  obtain ⟨target, htarget, -⟩ := hfits
  exact subgraph_lt htarget

/-- Listed binders name subgraphs that are there. -/
def CalleesKnown (P : Program) : Prop :=
  ∀ ⦃binder : NodeId⦄ ⦃body : SubgraphId⦄, P.Names binder body → body < P.subgraphs.size

theorem WellFormed.calleesKnown (hP : P.WellFormed) : P.CalleesKnown :=
  fun _ _ ⟨_, hlists, _, hkind⟩ => callee_lt hP hlists hkind

/-- Subgraphs list nodes that are there. -/
def NodesKnown (P : Program) : Prop :=
  ∀ ⦃owner : SubgraphId⦄ ⦃subgraph : Subgraph⦄, P.subgraphs[owner]? = some subgraph →
    ∀ id ∈ subgraph.nodes, id < P.nodes.size

theorem WellFormed.nodesKnown (hP : P.WellFormed) : P.NodesKnown :=
  fun _ _ hsubgraph => hP.inArena hsubgraph

instance (P : Program) : Decidable P.NodesKnown :=
  decidable_of_iff (∀ subgraph ∈ P.subgraphs, ∀ id ∈ subgraph.nodes, id < P.nodes.size)
    ⟨fun h _ _ hsubgraph => h _ (Array.mem_of_getElem? hsubgraph), fun h _ hmem =>
      let ⟨_, hid⟩ := Array.getElem?_of_mem hmem
      h hid⟩

theorem lists_of_owner {owner : SubgraphId} {subgraph : Subgraph}
    (hsubgraph : P.subgraphs[owner]? = some subgraph) (listed : ListedNode) :
    (P.Lists listed ∧ listed.owner = owner) ↔ ∃ id ∈ subgraph.nodes, ∃ node,
      P.nodes[id]? = some node ∧ listed = ⟨owner, id, node⟩ := by
  constructor
  · rintro ⟨⟨other, hother, hid, hnode⟩, rfl⟩
    obtain rfl := Option.some.inj (hsubgraph.symm.trans hother)
    exact ⟨listed.id, hid, listed.node, hnode, rfl⟩
  · rintro ⟨id, hid, node, hnode, rfl⟩
    exact ⟨⟨subgraph, hsubgraph, hid, hnode⟩, rfl⟩

/-! ### What is reached -/

theorem mem_boundBy {id callee : SubgraphId} : callee ∈ P.boundBy id
    ↔ ∃ listed, P.Lists listed ∧ listed.owner = id ∧ listed.node.kind = .bind callee := by
  unfold boundBy
  constructor
  · intro hmem
    cases hsubgraph : P.subgraphs[id]? with
    | none => simp [hsubgraph] at hmem
    | some subgraph =>
      simp only [hsubgraph, List.mem_filterMap, Option.bind_eq_some_iff] at hmem
      obtain ⟨binder, hbinder, node, hnode, hcallee⟩ := hmem
      exact ⟨⟨id, binder, node⟩, ⟨subgraph, hsubgraph, hbinder, hnode⟩, rfl,
        callee?_eq_some.mp hcallee⟩
  · intro ⟨⟨owner, binder, node⟩, ⟨subgraph, hsubgraph, hbinder, hnode⟩, howner, hkind⟩
    dsimp only at hsubgraph hbinder hnode howner hkind
    subst howner
    simp only [hsubgraph, List.mem_filterMap, Option.bind_eq_some_iff]
    exact ⟨binder, hbinder, node, hnode, callee?_eq_some.mpr hkind⟩

theorem mem_attachedTo {id other : SubgraphId} : other ∈ P.attachedTo id
    ↔ ∃ subgraph, P.subgraphs[other]? = some subgraph ∧ subgraph.kind.attachedTo? = some id := by
  unfold attachedTo
  simp only [List.mem_filter, mem_subgraphIds, beq_iff_eq, Option.bind_eq_some_iff]
  exact ⟨fun h => h.2, fun h => ⟨h.elim fun _ hsubgraph => subgraph_lt hsubgraph.1, h⟩⟩

theorem CalleesKnown.leadsTo_lt (hcallees : P.CalleesKnown) {id next : SubgraphId}
    (hnext : next ∈ P.leadsTo id) : next < P.subgraphs.size := by
  rcases List.mem_append.mp hnext with hattached | hbound
  · obtain ⟨subgraph, hsubgraph, -⟩ := mem_attachedTo.mp hattached
    exact subgraph_lt hsubgraph
  · obtain ⟨listed, hlists, -, hkind⟩ := mem_boundBy.mp hbound
    exact hcallees ⟨listed, hlists, rfl, hkind⟩

theorem mem_brings {reached : IdSet} {id next : SubgraphId} : next ∈ P.brings reached id
    ↔ next ∈ P.attachedTo id ∨ next ∈ P.boundBy id ∧ next ∉ reached := by
  simp [brings]

/-- A walk from the entry is under way. What waits in the queue is there, all that has come up is led
to by the entry, and what reached subgraphs lead to is reached or waits. -/
structure Walking (P : Program) (queue : List SubgraphId) (reached : IdSet) : Prop where
  known : ∀ id ∈ queue, id < P.subgraphs.size
  entry : P.entry ∈ reached ∨ P.entry ∈ queue
  leads : ∀ id, id ∈ reached ∨ id ∈ queue → Reach.Leads P.leadsTo P.entry id
  closed : ∀ id ∈ reached, ∀ next ∈ P.leadsTo id, next ∈ reached ∨ next ∈ queue

section Walking

variable {queue : List SubgraphId} {reached : IdSet} {id : SubgraphId}

theorem Walking.start (hentry : P.entry < P.subgraphs.size) : P.Walking [P.entry] .empty where
  known := fun _ hid => List.mem_singleton.mp hid ▸ hentry
  entry := .inr (List.mem_singleton_self _)
  leads := by
    rintro id (hempty | hid)
    · exact absurd hempty (IdSet.not_mem_empty id)
    · obtain rfl := List.mem_singleton.mp hid
      exact .refl
  closed := fun id hempty => absurd hempty (IdSet.not_mem_empty id)

theorem Walking.drop (h : P.Walking (id :: queue) reached) (hreached : id ∈ reached) :
    P.Walking queue reached := by
  have hleave {other : SubgraphId} (hother : other ∈ reached ∨ other ∈ id :: queue) :
      other ∈ reached ∨ other ∈ queue := by
    rcases hother with hold | hother
    · exact .inl hold
    · rcases List.mem_cons.mp hother with rfl | hrest
      · exact .inl hreached
      · exact .inr hrest
  exact ⟨fun other hother => h.known other (.tail _ hother), hleave h.entry,
    fun other hother => h.leads other (hother.imp_right (.tail _)),
    fun other hother next hnext => hleave (h.closed other hother next hnext)⟩

/-- A new subgraph leaves the queue for the reached ones, and what it leads to is brought along. -/
theorem Walking.take (hcallees : P.CalleesKnown) (h : P.Walking (id :: queue) reached) :
    P.Walking (queue ++ P.brings (reached.insert id) id) (reached.insert id) := by
  have hbrings {next : SubgraphId} (hnext : next ∈ P.brings (reached.insert id) id) :
      next ∈ P.leadsTo id := by
    rcases mem_brings.mp hnext with hattached | ⟨hbound, -⟩
    · exact List.mem_append_left _ hattached
    · exact List.mem_append_right _ hbound
  have hkeep {other : SubgraphId} (hother : other ∈ reached ∨ other ∈ id :: queue) :
      other ∈ reached.insert id ∨ other ∈ queue ++ P.brings (reached.insert id) id := by
    rcases hother with hold | hother
    · exact .inl (IdSet.mem_insert.mpr (.inr hold))
    · rcases List.mem_cons.mp hother with rfl | hrest
      · exact .inl (IdSet.mem_insert.mpr (.inl rfl))
      · exact .inr (List.mem_append_left _ hrest)
  constructor
  case known =>
    intro other hother
    rcases List.mem_append.mp hother with hrest | hnew
    · exact h.known other (.tail _ hrest)
    · exact hcallees.leadsTo_lt (hbrings hnew)
  case entry => exact hkeep h.entry
  case leads =>
    have hid := h.leads id (.inr List.mem_cons_self)
    rintro other (hreached | hother)
    · rcases IdSet.mem_insert.mp hreached with rfl | hold
      · exact hid
      · exact h.leads other (.inl hold)
    · rcases List.mem_append.mp hother with hrest | hnew
      · exact h.leads other (.inr (.tail _ hrest))
      · exact hid.tail (hbrings hnew)
  case closed =>
    intro other hother next hnext
    rcases IdSet.mem_insert.mp hother with rfl | hold
    · -- A subgraph that binds itself does not bring itself along: it is reached by then.
      by_cases hreached : next ∈ reached.insert other
      · exact .inl hreached
      · refine .inr (List.mem_append_right _ (mem_brings.mpr ?_))
        exact (List.mem_append.mp hnext).imp_right fun hbound => ⟨hbound, hreached⟩
    · exact hkeep (h.closed other hold next hnext)

theorem Walking.mem_iff (h : P.Walking [] reached) (id : SubgraphId) :
    id ∈ reached ↔ Reach.Leads P.leadsTo P.entry id := by
  refine ⟨fun hreached => h.leads id (.inl hreached), fun hleads => ?_⟩
  induction hleads with
  | refl => exact h.entry.resolve_right List.not_mem_nil
  | tail _ hnext ih => exact (h.closed _ ih _ hnext).resolve_right List.not_mem_nil

/-- A walk from the entry comes to an end and reaches just what the entry leads to. -/
theorem Walking.exists_walk (hcallees : P.CalleesKnown) (h : P.Walking queue reached) :
    ∃ all, P.walk queue reached = .ok all ∧ ∀ id, id ∈ all ↔ Reach.Leads P.leadsTo P.entry id := by
  fun_induction P.walk queue reached with
  | case1 reached => exact ⟨reached, rfl, h.mem_iff⟩
  | case2 reached id rest hreached ih => exact ih (h.drop hreached)
  | case3 reached id rest hnew hknown ih => exact ih (h.take hcallees)
  | case4 reached id rest hnew hstray => exact absurd (h.known id List.mem_cons_self) hstray

end Walking

end Program

namespace Catalog

variable {P : Program}

theorem mem_callers_recordCaller {catalog : Catalog} {body other : SubgraphId}
    {binder caller : NodeId} : caller ∈ (catalog.recordCaller body binder).callers other
      ↔ caller ∈ catalog.callers other ∨ (other = body ∧ caller = binder) := by
  unfold callers recordCaller
  dsimp only
  rw [IdMap.get?_alter]
  by_cases hsame : body = other
  · subst hsame
    simp only [if_pos, Option.getD_some, IdSet.mem_insert, true_and]
    exact or_comm
  · simp [hsame, Ne.symm hsame]

theorem callers_empty (body : SubgraphId) (binder : NodeId) : binder ∉ empty.callers body :=
  IdSet.not_mem_empty binder

/-! ### What is recorded

A walk along nodes or along subgraphs records the binders of each in turn and stops at the first one
that names no subgraph. A part of a walk is told by the listed nodes that it comes across. -/

/-- Recording a part of the listed nodes has found a subgraph behind each of its binders, and these
binders are the callers that have been taken in. -/
structure Records (P : Program) (part : ListedNode → Prop) (catalog catalog' : Catalog) : Prop where
  known : ∀ ⦃listed : ListedNode⦄ ⦃body : SubgraphId⦄, part listed →
    listed.node.kind = .bind body → body < P.subgraphs.size
  mem_callers : ∀ body binder, binder ∈ catalog'.callers body ↔ binder ∈ catalog.callers body
    ∨ ∃ listed, part listed ∧ listed.id = binder ∧ listed.node.kind = .bind body

/-- The refusal of a binder of a part that names no subgraph. -/
def Strays (P : Program) (part : ListedNode → Prop) (stop : Stop ScheduleError) : Prop :=
  ∃ listed body, part listed ∧ listed.node.kind = .bind body ∧ P.subgraphs.size ≤ body
    ∧ stop = .refused (.unknownSubgraph listed.id body)

/-- Recording a part of the listed nodes takes in its binders or refuses one of them. -/
def Recording (P : Program) (part : ListedNode → Prop) (catalog : Catalog) :
    Outcome ScheduleError Catalog → Prop :=
  Outcome.Ends (Records P part catalog) (Strays P part)

section Recording

variable {part part' : ListedNode → Prop} {catalog : Catalog}

theorem Records.nothing (hnone : ∀ listed body, part listed → listed.node.kind ≠ .bind body) :
    Records P part catalog catalog where
  known := fun listed body hpart hkind => absurd hkind (hnone listed body hpart)
  mem_callers := by
    intro body binder
    refine ⟨.inl, fun h => h.resolve_right ?_⟩
    exact fun ⟨listed, hpart, _, hkind⟩ => hnone listed body hpart hkind

theorem Records.trans {middle catalog' : Catalog} (h : Records P part catalog middle)
    (h' : Records P part' middle catalog') :
    Records P (fun listed => part listed ∨ part' listed) catalog catalog' where
  known := fun _ _ hpart hkind => hpart.elim (h.known · hkind) (h'.known · hkind)
  mem_callers := by
    intro body binder
    rw [h'.mem_callers, h.mem_callers, or_assoc]
    refine or_congr_right ?_
    simp only [or_and_right, exists_or]

theorem Strays.imp (himp : ∀ listed, part listed → part' listed) {stop : Stop ScheduleError}
    (h : Strays P part stop) : Strays P part' stop := by
  obtain ⟨listed, body, hpart, hstray⟩ := h
  exact ⟨listed, body, himp listed hpart, hstray⟩

theorem recording_foldlM {α : Type} {f : Catalog → α → Outcome ScheduleError Catalog}
    {part : α → ListedNode → Prop} {items : List α}
    (hstep : ∀ item ∈ items, ∀ catalog, Recording P (part item) catalog (f catalog item)) :
    Recording P (fun listed => ∃ item ∈ items, part item listed) catalog
      (items.foldlM f catalog) := by
  induction items generalizing catalog with
  | nil => exact Records.nothing fun _ _ ⟨_, hmem, _⟩ => nomatch hmem
  | cons item rest ih =>
    obtain ⟨hhead, htail⟩ := List.forall_mem_cons.mp hstep
    simp only [List.mem_cons, exists_eq_or_imp]
    rw [List.foldlM_cons]
    refine ((hhead catalog).weaken fun _ h => h.imp fun _ => .inl).bind fun middle _ hmiddle => ?_
    exact (ih htail).mono (fun _ _ h => hmiddle.trans h) fun _ h => h.imp fun _ => .inr

theorem Records.caller {listed : ListedNode} {body : SubgraphId}
    (hkind : listed.node.kind = .bind body) (hbody : body < P.subgraphs.size) :
    Records P (· = listed) catalog (catalog.recordCaller body listed.id) where
  known := by
    rintro _ other rfl hother
    exact NodeKind.bind.inj (hkind.symm.trans hother) ▸ hbody
  mem_callers := by
    intro other binder
    rw [mem_callers_recordCaller]
    refine or_congr_right ⟨?_, ?_⟩
    · rintro ⟨rfl, rfl⟩
      exact ⟨listed, rfl, rfl, hkind⟩
    · rintro ⟨_, rfl, rfl, hother⟩
      exact ⟨NodeKind.bind.inj (hother.symm.trans hkind), rfl⟩

theorem recordBinders_recording (hnodes : P.NodesKnown) {owner : SubgraphId}
    (howner : owner < P.subgraphs.size) :
    Recording P (fun listed => P.Lists listed ∧ listed.owner = owner) catalog
      (recordBinders P catalog owner) := by
  have hsubgraph := Array.getElem?_eq_getElem howner
  simp only [lists_of_owner hsubgraph]
  unfold recordBinders
  rw [subgraph_eq_ok.mpr hsubgraph, Outcome.ok_bind]
  refine recording_foldlM fun id hid catalog => ?_
  obtain ⟨node, hnode⟩ : ∃ node, P.nodes[id]? = some node :=
    ⟨_, Array.getElem?_eq_getElem (hnodes hsubgraph id hid)⟩
  simp only [hnode, Option.some.injEq, exists_eq_left']
  rw [node_eq_ok.mpr hnode, Outcome.ok_bind]
  cases hcallee : node.callee? with
  | none =>
    refine Records.nothing ?_
    rintro _ body rfl hkind
    exact nomatch hcallee.symm.trans (callee?_eq_some.mpr hkind)
  | some body =>
    have hkind := callee?_eq_some.mp hcallee
    by_cases hbody : body < P.subgraphs.size
    · simp only [hbody, decide_true, Outcome.ensure_true, Outcome.ok_bind]
      have hcaller : (⟨owner, id, node⟩ : ListedNode).node.kind = .bind body := hkind
      exact Records.caller hcaller hbody
    · simp only [hbody, decide_false]
      exact ⟨⟨owner, id, node⟩, body, rfl, hkind, Nat.not_lt.mp hbody, rfl⟩

/-- The catalog of a program whose subgraphs list nodes that are there, and whose entry is there,
tells of all listed binders, unless one of them names no subgraph. -/
theorem build_recording (hnodes : P.NodesKnown) (hentry : P.entry < P.subgraphs.size) :
    Outcome.Ends (fun catalog => P.CalleesKnown
        ∧ (∀ id, id ∈ catalog.reachable ↔ Reach.Leads P.leadsTo P.entry id)
        ∧ ∀ body binder, binder ∈ catalog.callers body ↔ P.Names binder body)
      (fun stop => ∃ binder body, P.Names binder body ∧ P.subgraphs.size ≤ body
        ∧ stop = .refused (.unknownSubgraph binder body)) (build P) := by
  have hall : Recording P (fun listed => ∃ owner ∈ P.subgraphIds, P.Lists listed
      ∧ listed.owner = owner) empty (P.subgraphIds.foldlM (recordBinders P) empty) :=
    recording_foldlM fun owner howner catalog =>
      recordBinders_recording hnodes (mem_subgraphIds.mp howner)
  have hlisted {listed : ListedNode} (hlists : P.Lists listed) :
      ∃ owner ∈ P.subgraphIds, P.Lists listed ∧ listed.owner = owner := by
    obtain ⟨subgraph, hsubgraph, -⟩ := id hlists
    exact ⟨listed.owner, mem_subgraphIds.mpr (subgraph_lt hsubgraph), hlists, rfl⟩
  refine (hall.weaken fun stop hstray => ?_).bind fun catalog _ hrecords => ?_
  · obtain ⟨listed, body, ⟨_, _, hlists, _⟩, hkind, hge, hstop⟩ := hstray
    exact ⟨listed.id, body, ⟨listed, hlists, rfl, hkind⟩, hge, hstop⟩
  · have hcallees : P.CalleesKnown := by
      rintro binder body ⟨listed, hlists, -, hkind⟩
      exact hrecords.known (hlisted hlists) hkind
    obtain ⟨reached, hwalk, hreached⟩ := (Walking.start hentry).exists_walk hcallees
    rw [hwalk, Outcome.ok_bind]
    refine ⟨hcallees, hreached, fun body binder => (hrecords.mem_callers body binder).trans ?_⟩
    rw [or_iff_right (callers_empty body binder)]
    constructor
    · exact fun ⟨listed, ⟨_, _, hlists, _⟩, hid, hkind⟩ => ⟨listed, hlists, hid, hkind⟩
    · exact fun ⟨listed, hlists, hid, hkind⟩ => ⟨listed, hlisted hlists, hid, hkind⟩

end Recording

theorem exists_build (hP : P.WellFormed) : ∃ catalog, build P = .ok catalog
    ∧ (∀ id, id ∈ catalog.reachable ↔ Reach.Leads P.leadsTo P.entry id)
    ∧ ∀ body binder, binder ∈ catalog.callers body ↔ P.Names binder body := by
  rcases (build_recording hP.nodesKnown hP.entry).cases with
    ⟨catalog, hbuild, -, hreachable, hcallers⟩ | ⟨_, _, binder, body, hnames, hge, -⟩
  · exact ⟨catalog, hbuild, hreachable, hcallers⟩
  · exact absurd (hP.calleesKnown hnames) (Nat.not_lt.mpr hge)

theorem mem_multiplyCalled {catalog : Catalog}
    (hcallers : ∀ body binder, binder ∈ catalog.callers body ↔ P.Names binder body)
    {body : SubgraphId} :
    body ∈ catalog.multiplyCalled ↔ ¬ P.NamedOnce body ∧ body ∈ catalog.reachable := by
  have hsize : 1 < (catalog.callers body).size ↔ ¬ P.NamedOnce body := by
    rw [← Nat.not_le, IdSet.size_le_one_iff]
    simp only [hcallers]
    exact not_congr ⟨fun h first second hfirst hsecond => h first hfirst second hsecond,
      fun h first hfirst second hsecond => h hfirst hsecond⟩
  rw [← hsize]
  clear hsize
  unfold multiplyCalled callers isReachable
  simp only [List.mem_map, List.mem_filter, Bool.and_eq_true, decide_eq_true_eq]
  constructor
  · intro ⟨⟨id, callers⟩, ⟨hmem, hsize, hreached⟩, hid⟩
    dsimp only at hsize hreached hid
    subst hid
    rw [IdMap.get?_eq_some_iff.mpr hmem]
    exact ⟨hsize, hreached⟩
  · intro ⟨hsize, hreached⟩
    cases hfound : catalog.callersOf.get? body with
    | none =>
      rw [hfound] at hsize
      exact absurd hsize (by decide)
    | some callers =>
      rw [hfound] at hsize
      exact ⟨(body, callers), ⟨IdMap.get?_eq_some_iff.mp hfound, hsize, hreached⟩, rfl⟩

theorem lt_of_mem_multiplyCalled (hP : P.WellFormed) {catalog : Catalog}
    (hcallers : ∀ body binder, binder ∈ catalog.callers body ↔ P.Names binder body)
    {body : SubgraphId} (hmem : body ∈ catalog.multiplyCalled) : body < P.subgraphs.size := by
  have hmany := ((mem_multiplyCalled hcallers).mp hmem).1
  by_contra hge
  refine hmany fun first second hfirst _ => ?_
  obtain ⟨listed, hlists, -, hkind⟩ := hfirst
  exact absurd (callee_lt hP hlists hkind) hge

theorem multiplyCalled_nodup (catalog : Catalog) : catalog.multiplyCalled.Nodup := by
  unfold multiplyCalled
  rw [List.Nodup, List.pairwise_map]
  exact (catalog.callersOf.ascending.filter _).imp Nat.ne_of_lt

end Catalog

end TailFlow
