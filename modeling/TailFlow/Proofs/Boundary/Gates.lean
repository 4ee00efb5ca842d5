import TailFlow.Proofs.Boundary.Grouping
import TailFlow.Proofs.Boundary.Layout

/-!
# Exits with their entrances

A gate is what wrapping builds for one group of callers. The gates of a body make up its boundary, in
which every live caller of the body has an entrance, and two callers share an exit if they have been
put into one group.
-/

namespace TailFlow

open Program

def Entrance.wrapper (e : Entrance) : EntranceWrapper := ⟨e.caller, e.id, e.exit.id⟩

/-- A group of callers, with the exit and the entrances that have been built for it. -/
structure Gate where
  group : CallerGroup
  exit : Exit
  entrances : List Entrance

/-- The gate is part of the second program, and its callers are those of its group. -/
structure Gate.Stands (g : Gate) (P W : Program) (links : IdMap Link) : Prop where
  callers_eq : g.entrances.map Entrance.caller = g.group.callers
  destination_eq : g.exit.destination = g.group.destination
  stands : ∀ e ∈ g.entrances, e.Stands P W links ∧ e.exit = g.exit

theorem Gate.Stands.keeps {g : Gate} {P W W' : Program} {links links' : IdMap Link}
    (hg : g.Stands P W links) (hkeeps : Wraps.Keeps P W links W' links') : g.Stands P W' links' :=
  ⟨hg.callers_eq, hg.destination_eq, fun e hmem => (hg.stands e hmem).imp_left (hkeeps.entrance ·)⟩

/-- A boundary in the second program: its entrances are those of the live callers of its body in the
first one, and callers share exits as they are to. -/
structure Boundary.Stands (b : Boundary) (sharing : ExitSharing) (P W : Program)
    (links : IdMap Link) : Prop where
  wrapper : ∀ w ∈ b.entrances, ∃ e : Entrance, e.Stands P W links ∧ e.body = b.body ∧ e.wrapper = w
  nodup : (b.entrances.map EntranceWrapper.caller).Nodup
  mem_iff : ∀ caller, caller ∈ b.entrances.map EntranceWrapper.caller
    ↔ P.Names caller b.body ∧ P.Live caller
  mem_exits : ∀ exit, exit ∈ b.exits ↔ ∃ w ∈ b.entrances, w.exit = exit
  shared : ∀ w ∈ b.entrances, ∀ w' ∈ b.entrances, w.caller ≠ w'.caller →
    (w.exit = w'.exit ↔ sharing = .byDestination
      ∧ ∃ destination, P.Serves w.caller destination ∧ P.Serves w'.caller destination)

theorem Boundary.Stands.keeps {b : Boundary} {sharing : ExitSharing} {P W W' : Program}
    {links links' : IdMap Link} (hb : b.Stands sharing P W links)
    (hkeeps : Wraps.Keeps P W links W' links') : b.Stands sharing P W' links' :=
  { hb with wrapper := fun w hw => (hb.wrapper w hw).imp fun _ h => ⟨hkeeps.entrance h.1, h.2⟩ }

theorem Boundary.Stands.not_mem_block {b : Boundary} {sharing : ExitSharing} {P W : Program}
    {links : IdMap Link} (hb : b.Stands sharing P W links) {id : SubgraphId}
    (hlt : id < P.subgraphs.size) (hne : b.body ≠ id) : id ∉ b.block := by
  intro hmem
  rcases List.mem_append.mp hmem with hentrance | hrest
  · obtain ⟨w, hw, rfl⟩ := List.mem_map.mp hentrance
    obtain ⟨e, he, -, rfl⟩ := hb.wrapper w hw
    exact Nat.not_lt.mpr he.id_ge hlt
  · rcases List.mem_cons.mp hrest with rfl | hexit
    · exact hne rfl
    · obtain ⟨w, hw, rfl⟩ := (hb.mem_exits id).mp hexit
      obtain ⟨e, he, -, rfl⟩ := hb.wrapper w hw
      exact Nat.not_lt.mpr he.exit_stands.id_ge hlt

theorem Entrance.Stands.names {e : Entrance} {P W : Program} {links : IdMap Link}
    (he : e.Stands P W links) : P.Names e.caller e.body := by
  obtain ⟨listed, hlists, hid, hkind, -⟩ := he.caller_eq
  exact ⟨listed, hlists, hid, hkind⟩

section Gates

variable {sharing : ExitSharing} {P W : Program} {links : IdMap Link} {gates : List Gate}
  (hgates : ∀ g ∈ gates, g.Stands P W links)

include hgates

theorem Gate.map_caller : (gates.flatMap fun g => g.entrances.map Entrance.wrapper).map
    EntranceWrapper.caller = (gates.map Gate.group).flatMap CallerGroup.callers := by
  rw [List.map_flatMap, List.flatMap_map]
  refine List.flatMap_congr fun g hg => ?_
  rw [List.map_map, ← (hgates g hg).callers_eq]
  rfl

theorem Gate.exists_entrance {w : EntranceWrapper}
    (hw : w ∈ gates.flatMap fun g => g.entrances.map Entrance.wrapper) :
    ∃ g ∈ gates, ∃ e ∈ g.entrances, e.Stands P W links ∧ e.exit = g.exit ∧ e.wrapper = w := by
  obtain ⟨g, hg, hmem⟩ := List.mem_flatMap.mp hw
  obtain ⟨e, he, rfl⟩ := List.mem_map.mp hmem
  obtain ⟨hstands, hexit⟩ := (hgates g hg).stands e he
  exact ⟨g, hg, e, he, hstands, hexit, rfl⟩

/-- The call that a caller reaches writes to the destination of its group. -/
theorem Gate.serves {g : Gate} (hg : g ∈ gates) {e : Entrance} (he : e ∈ g.entrances) :
    P.Serves e.caller g.group.destination := by
  obtain ⟨hstands, hexit⟩ := (hgates g hg).stands e he
  have hserves := hstands.serves
  rwa [hexit, (hgates g hg).destination_eq] at hserves

theorem Gate.eq_iff (hshared : CallerGroup.Shared sharing (gates.map Gate.group)) {g g' : Gate}
    (hg : g ∈ gates) (hg' : g' ∈ gates) {e e' : Entrance} (he : e ∈ g.entrances)
    (he' : e' ∈ g'.entrances) (hne : e.caller ≠ e'.caller) : g = g' ↔ sharing = .byDestination
      ∧ ∃ destination, P.Serves e.caller destination ∧ P.Serves e'.caller destination := by
  have hserves := Gate.serves hgates hg he
  have hserves' := Gate.serves hgates hg' he'
  cases sharing with
  | perCaller =>
    refine ⟨fun hsame => absurd ?_ hne, fun h => nomatch h.1⟩
    obtain ⟨caller, hcaller⟩ := hshared g.group (List.mem_map_of_mem hg)
    have halone {other : Entrance} (hother : other ∈ g.entrances) : other.caller = caller := by
      have hmem := List.mem_map_of_mem (f := Entrance.caller) hother
      rw [(hgates g hg).callers_eq, hcaller] at hmem
      exact List.mem_singleton.mp hmem
    exact (halone he).trans (halone (hsame ▸ he')).symm
  | byDestination =>
    constructor
    · rintro rfl
      exact ⟨rfl, _, hserves, hserves'⟩
    · intro ⟨_, destination, hthis, hthat⟩
      have hsame : g.group.destination = g'.group.destination :=
        (hserves.unique hthis).trans (hthat.unique hserves')
      have hinj : (gates.map fun g => g.group.destination).Nodup := by
        have hnodup := hshared
        rw [CallerGroup.Shared, List.map_map] at hnodup
        exact hnodup
      exact List.inj_on_of_nodup_map hinj hg hg' hsame

/-- The gates of a body, built for the groups of its live callers, make up a boundary. -/
theorem Boundary.stands_of_gates (hP : P.WellFormed) {body : SubgraphId}
    (hnonempty : ∀ g ∈ gates, g.group.callers ≠ [])
    (hshared : CallerGroup.Shared sharing (gates.map Gate.group))
    (hnodup : ((gates.map Gate.group).flatMap CallerGroup.callers).Nodup)
    (hlive : ∀ caller, caller ∈ (gates.map Gate.group).flatMap CallerGroup.callers
      ↔ P.Names caller body ∧ P.Live caller)
    (hexits : (gates.map fun g => g.exit.id).Nodup) :
    (Boundary.mk body (gates.flatMap fun g => g.entrances.map Entrance.wrapper)
      (gates.map fun g => g.exit.id)).Stands sharing P W links := by
  have hcallers := Gate.map_caller hgates
  refine ⟨fun w hw => ?_, hcallers ▸ hnodup, fun caller => ?_, fun exit => ?_, ?_⟩
  · obtain ⟨g, hg, e, he, hstands, -, rfl⟩ := Gate.exists_entrance hgates hw
    refine ⟨e, hstands, ?_, rfl⟩
    have hmem : e.caller ∈ (gates.map Gate.group).flatMap CallerGroup.callers := by
      rw [← hcallers]
      exact List.mem_map_of_mem hw
    exact hstands.names.unique hP ((hlive _).mp hmem).1
  · rw [hcallers]
    exact hlive caller
  · constructor
    · intro hmem
      obtain ⟨g, hg, rfl⟩ := List.mem_map.mp hmem
      obtain ⟨caller, hcaller⟩ :=
        List.exists_mem_of_ne_nil _ (hnonempty g hg)
      rw [← (hgates g hg).callers_eq] at hcaller
      obtain ⟨e, he, -⟩ := List.mem_map.mp hcaller
      refine ⟨e.wrapper, List.mem_flatMap.mpr ⟨g, hg, List.mem_map_of_mem he⟩, ?_⟩
      rw [← ((hgates g hg).stands e he).2]
      rfl
    · rintro ⟨w, hw, rfl⟩
      obtain ⟨g, hg, e, -, -, hsame, rfl⟩ := Gate.exists_entrance hgates hw
      exact List.mem_map.mpr ⟨g, hg, by rw [← hsame]; rfl⟩
  · intro w hw w' hw' hne
    obtain ⟨g, hg, e, he, -, hexit, rfl⟩ := Gate.exists_entrance hgates hw
    obtain ⟨g', hg', e', he', -, hexit', rfl⟩ := Gate.exists_entrance hgates hw'
    refine Iff.trans ?_ (Gate.eq_iff hgates hshared hg hg' he he' hne)
    constructor
    · intro hsame
      have hid : g.exit.id = g'.exit.id := by
        rw [← hexit, ← hexit']
        exact hsame
      exact List.inj_on_of_nodup_map hexits hg hg' hid
    · rintro rfl
      show e.exit.id = e'.exit.id
      rw [hexit, hexit']

end Gates

/-! ### The boundaries of several bodies -/

/-- Each of the given bodies that has a live caller has one boundary, which stands as a block. -/
structure Bounded (sharing : ExitSharing) (P : Program) (bodies : List SubgraphId)
    (boundaries : List Boundary) (W : Program) (links : IdMap Link) : Prop where
  nodup : (boundaries.map Boundary.body).Nodup
  mem_iff : ∀ body, body ∈ boundaries.map Boundary.body
    ↔ body ∈ bodies ∧ ∃ caller, P.Names caller body ∧ P.Live caller
  stands : ∀ b ∈ boundaries, b.Stands sharing P W links
  block : ∀ b ∈ boundaries, b.block <:+: W.order

namespace Bounded

variable {sharing : ExitSharing} {P W W' : Program} {links links' : IdMap Link}
  {bodies : List SubgraphId} {boundaries : List Boundary}

theorem nil : Bounded sharing P [] [] W links :=
  ⟨List.nodup_nil, by simp, List.forall_mem_nil _, List.forall_mem_nil _⟩

theorem skip (h : Bounded sharing P bodies boundaries W links) {body : SubgraphId}
    (hdead : ∀ caller, P.Names caller body → ¬ P.Live caller) :
    Bounded sharing P (bodies ++ [body]) boundaries W links where
  nodup := h.nodup
  mem_iff := by
    intro other
    rw [h.mem_iff, List.mem_append, List.mem_singleton]
    constructor
    · intro ⟨hmem, hlive⟩
      exact ⟨.inl hmem, hlive⟩
    · rintro ⟨hmem, caller, hnames, hlive⟩
      refine ⟨hmem.resolve_right ?_, caller, hnames, hlive⟩
      rintro rfl
      exact hdead caller hnames hlive
  stands := h.stands
  block := h.block

/-- A body with live callers gets a boundary, whose block takes its place. -/
theorem wrap (h : Bounded sharing P bodies boundaries W links) (hP : P.WellFormed)
    {old : IdMap Link} {wrapped : List SubgraphId} (hwraps : Wraps P old wrapped W links)
    {b : Boundary} (hnew : b.body ∉ bodies) (hlt : b.body < P.subgraphs.size)
    (hlive : ∃ caller, P.Names caller b.body ∧ P.Live caller)
    (hkeeps : Wraps.Keeps P W links W' links') (hstands : b.Stands sharing P W' links')
    (horder : ∀ before later, W.order = before ++ b.body :: later →
      W'.order = before ++ b.block ++ later) :
    Bounded sharing P (bodies ++ [b.body]) (boundaries ++ [b]) W' links' := by
  have habsent : b.body ∉ boundaries.map Boundary.body := fun hmem =>
    hnew ((h.mem_iff _).mp hmem).1
  obtain ⟨before, later, hplace⟩ := List.append_of_mem ((hwraps.wellFormed hP).mem_order.mpr
    (Nat.lt_of_lt_of_le hlt (hwraps.extends_program hP).subgraphs_le))
  refine ⟨?_, fun body => ?_, fun other hmem => ?_, fun other hmem => ?_⟩
  · rw [List.map_append, List.map_singleton, ← List.concat_eq_append]
    exact h.nodup.concat habsent
  · rw [List.map_append, List.map_singleton, List.mem_append, List.mem_append, List.mem_singleton,
      h.mem_iff, or_and_right]
    refine or_congr_right ⟨?_, And.left⟩
    rintro rfl
    exact ⟨rfl, hlive⟩
  · rcases List.mem_append.mp hmem with hold | hlast
    · exact (h.stands other hold).keeps hkeeps
    · exact List.mem_singleton.mp hlast ▸ hstands
  · rw [horder before later hplace]
    rcases List.mem_append.mp hmem with hold | hlast
    · refine infix_of_replace (hplace ▸ h.block other hold) (fun hin => ?_) b.block
      exact (h.stands other hold).not_mem_block hlt
        (fun hsame => habsent (hsame ▸ List.mem_map_of_mem hold)) hin
    · rw [List.mem_singleton.mp hlast]
      exact List.infix_append before b.block later

end Bounded

/-! ### Entrances by their callers -/

namespace Wraps

variable {P W : Program} {links links' : IdMap Link} {bodies : List SubgraphId}

theorem body_mem (hP : P.WellFormed) (hwraps : Wraps P links bodies W links') {e : Entrance}
    (he : e.Stands P W links') : e.body ∈ bodies := by
  rcases (hwraps.shape hP).subgraph_cases he.subgraph_eq with hold | ⟨x, hx, hid⟩ | ⟨e', he', hid, hmem⟩
  · exact absurd (subgraph_lt hold) (Nat.not_lt.mpr he.id_ge)
  · have hsame := hx.subgraph_eq
    rw [hid, he.subgraph_eq, Option.some.injEq, Subgraph.mk.injEq] at hsame
    exact nomatch hsame.2.1
  · have hsame := he'.subgraph_eq
    rw [hid, he.subgraph_eq, Option.some.injEq, Subgraph.mk.injEq] at hsame
    exact SubgraphKind.entrance.inj hsame.2.1 ▸ hmem

theorem exits_apart (hP : P.WellFormed) (hwraps : Wraps P links bodies W links')
    {first second body body' : SubgraphId} {a b : Subgraph} (hge : P.subgraphs.size ≤ first)
    (hge' : P.subgraphs.size ≤ second) (ha : W.subgraphs[first]? = some a)
    (hb : W.subgraphs[second]? = some b) (hkind : a.kind = .exit body)
    (hkind' : b.kind = .exit body') {tensor : TensorId} (hmem : tensor ∈ a.inputs)
    (hmem' : tensor ∈ b.inputs) : first = second := by
  induction hwraps with
  | none => exact absurd (subgraph_lt ha) (Nat.not_lt.mpr hge)
  | @exit W _ x _ _ hwraps _ _ _ hfresh _ _ ih =>
    -- What the new exit takes over is not a tensor of any subgraph that was there.
    have hnew {id : SubgraphId} {old : Subgraph} (hold : W.subgraphs[id]? = some old)
        (hin : tensor ∈ old.inputs) (htaken : tensor ∈ x.handover) : False :=
      Nat.not_lt.mpr (hfresh.le_of_mem htaken)
        ((hwraps.wellFormed hP).interface hold tensor (List.mem_append_left _ hin))
    rcases Addition.subgraph_after_cases ha with hold | ⟨rfl, rfl⟩
    · rcases Addition.subgraph_after_cases hb with hold' | ⟨rfl, rfl⟩
      · exact ih hold hold'
      · exact (hnew hold hmem hmem').elim
    · rcases Addition.subgraph_after_cases hb with hold' | ⟨rfl, rfl⟩
      · exact (hnew hold' hmem' hmem).elim
      · rfl
  | entrance _ _ _ _ _ _ _ _ _ _ _ _ _ _ ih =>
    rcases Addition.subgraph_after_cases ha with hold | ⟨-, rfl⟩
    · rcases Addition.subgraph_after_cases hb with hold' | ⟨-, rfl⟩
      · exact ih hold hold'
      · exact nomatch hkind'
    · exact nomatch hkind

end Wraps

theorem Entrance.Stands.eq_of_caller {P W : Program} {links : IdMap Link} {e e' : Entrance}
    (he : e.Stands P W links) (he' : e'.Stands P W links) (hcaller : e.caller = e'.caller) :
    e.id = e'.id ∧ e.call = e'.call ∧ e.link = e'.link := by
  have hid : e.id = e'.id := by
    obtain ⟨_, -, -, -, hnode⟩ := he.caller_eq
    obtain ⟨_, -, -, -, hnode'⟩ := he'.caller_eq
    rw [hcaller, hnode', Option.some.injEq, Node.mk.injEq] at hnode
    exact (NodeKind.bind.inj hnode.2.1).symm
  have hcall : e.call = e'.call := by
    have hsubgraph := he.subgraph_eq
    rw [hid, he'.subgraph_eq, Option.some.injEq, Subgraph.mk.injEq] at hsubgraph
    simpa using (List.cons.inj hsubgraph.2.2.2.2).2.symm
  refine ⟨hid, hcall, ?_⟩
  exact Option.some.inj (he.link_eq.symm.trans (hcall ▸ he'.link_eq))

theorem Bounded.exists_wrapper {sharing : ExitSharing} {P W : Program} {links links' : IdMap Link}
    {bodies : List SubgraphId} {boundaries : List Boundary} (hP : P.WellFormed)
    (hwraps : Wraps P links bodies W links') (h : Bounded sharing P bodies boundaries W links')
    {e : Entrance} (he : e.Stands P W links') :
    ∃ b ∈ boundaries, b.body = e.body ∧ ∃ w ∈ b.entrances, w.caller = e.caller ∧ w.entrance = e.id := by
  have hlive : P.Live e.caller := he.serves.imp fun _ ⟨_, hreaches, _⟩ => hreaches
  obtain ⟨b, hb, hbody⟩ := List.mem_map.mp
    ((h.mem_iff e.body).mpr ⟨hwraps.body_mem hP he, e.caller, he.names, hlive⟩)
  obtain ⟨w, hw, hcaller⟩ := List.mem_map.mp
    (((h.stands b hb).mem_iff e.caller).mpr ⟨hbody ▸ he.names, hlive⟩)
  obtain ⟨e', he', -, rfl⟩ := (h.stands b hb).wrapper w hw
  exact ⟨b, hb, hbody, _, hw, hcaller, (he'.eq_of_caller he hcaller).1⟩

end TailFlow
