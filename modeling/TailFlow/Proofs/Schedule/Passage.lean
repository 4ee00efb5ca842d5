import TailFlow.Proofs.Boundary.Completion
import TailFlow.Proofs.Handles.Copying
import TailFlow.Proofs.Schedule.Interleaving
import TailFlow.Proofs.Schedule.Splitting

/-!
# Runs on all kinds of subgraphs

A checked program may hold segments, exits, entrances and links already. A run on it goes through the
same stages as a run on bodies: handles are separated, what waits is split until all calls are tail
calls, and bodies are wrapped. Each stage leaves the table of stages as the next one needs it, so the
bookkeeping never refuses a move. `Stages.Pass` tells what a run that is not refused has gone through,
and `schedule_passes` says which stops there are.
-/

namespace TailFlow

open Program

variable {P : Program}

/-- The causes that lie in the program or in the number of splits, and not in the bookkeeping of a
run. -/
def ScheduleError.IsVerdict : ScheduleError → Prop
  | .unknownSubgraph .. | .illegalMove .. => False
  | _ => True

/-- How scheduling may stop: with a verdict, or without one for one of two reasons. -/
def Program.MayStop (P : Program) (stop : Stop ScheduleError) : Prop :=
  (∃ cause, stop = .refused cause ∧ cause.IsVerdict) ∨ Outcome.IsAbort .endless P.GoesRound stop
    ∨ Outcome.IsAbort .dangling (¬ P.OriginsKnown) stop

/-! ### Detection -/

section Detection

variable {listing : List ListedNode}
  (hP : P.WellFormed)
  (hlist : (P.listing : Outcome ScheduleError (List ListedNode)) = .ok listing)
  {listed : ListedNode} (hlists : P.Lists listed)

include hP hlist hlists

theorem Program.resolveCall_ends (owner : SubgraphId) :
    Outcome.Ends (fun binders => ∀ binder ∈ binders, ∃ node, P.nodes[binder]? = some node)
      (· = .refused (.unresolvedCall listed.id owner)) (P.resolveCall listing owner listed.id) := by
  obtain ⟨-, -, -, hnode⟩ := id hlists
  unfold resolveCall
  rw [node_eq_ok.mpr hnode, Outcome.ok_bind]
  refine (Outcome.ends_orRefuse _ _).bind fun handle _ _ => ?_
  refine (Outcome.ends_ensure _ _).bind fun _ _ _ => ?_
  refine (Outcome.ends_ensure _ _).bind fun _ _ _ binder hbinder => ?_
  obtain ⟨source, -, hsource⟩ := List.mem_filterMap.mp (IdSet.mem_ofList.mp hbinder)
  obtain ⟨writer, hproducer, hwriter⟩ := Option.bind_eq_some_iff.mp hsource
  obtain ⟨⟨-, -, -, hfound⟩, -⟩ := lists_of_producer? hP hlist hproducer
  split at hwriter
  · exact ⟨writer.node, Option.some.inj hwriter ▸ hfound⟩
  · exact nomatch hwriter

theorem Detection.edgesOf_ends :
    Outcome.Ends (fun _ => True) (· = .refused (.unresolvedCall listed.id listed.owner))
      (edgesOf P listing listed) := by
  obtain ⟨subgraph, hsubgraph, -, hnode⟩ := id hlists
  unfold edgesOf
  rw [isTailCall_eq_ok hsubgraph hnode, Outcome.ok_bind]
  refine (resolveCall_ends hP hlist hlists _).bind fun binders _ hbinders => ?_
  refine (Outcome.ends_mapM fun binder hmem => ?_).bind fun _ _ _ => trivial
  obtain ⟨node, hfound⟩ := hbinders binder hmem
  rw [node_eq_ok.mpr hfound]
  trivial

end Detection

theorem Detection.detect_ends (hP : P.WellFormed) (catalog : Catalog) :
    Outcome.Ends (fun _ => True) (fun stop => ∃ cause, stop = .refused cause ∧ cause.IsVerdict)
      (detect P catalog) := by
  obtain ⟨listing, hlist⟩ := hP.exists_listing (ε := ScheduleError)
  obtain ⟨known, hnote, -⟩ :=
    exists_noteNonTails (fun listed hmem => (mem_calls_iff hP hlist).mp hmem) .empty
  unfold detect
  rw [hlist, Outcome.ok_bind]
  refine (Outcome.ends_mapM fun listed hmem => ?_).bind fun edges _ _ => ?_
  · exact (edgesOf_ends hP hlist ((mem_calls_iff hP hlist).mp hmem).1).weaken
      fun _ h => ⟨_, h, trivial⟩
  · rw [hnote, Outcome.ok_bind]
    rcases CallEdge.checkCycles_cases edges.flatten with ⟨hok, -⟩ | ⟨edge, -, hrefuse⟩
    · rw [hok]
      trivial
    · rw [hrefuse]
      exact ⟨_, rfl, trivial⟩

/-! ### Splitting -/

theorem Program.splitAt_eq_abort (hP : P.WellFormed) {owner : SubgraphId} {subgraph : Subgraph}
    (hsubgraph : P.subgraphs[owner]? = some subgraph) {call : NodeId} (hmem : call ∈ subgraph.nodes)
    (hstem : P.subgraphs[segmentOrigin owner subgraph.kind]? = none) :
    (P.splitAt owner call : Outcome ScheduleError (SplitOutcome × Program)) = .abort .dangling := by
  obtain ⟨node, hnode, hlists⟩ := hP.exists_lists hsubgraph hmem
  obtain ⟨handover, middle, hlikes⟩ := exists_addNumbered (ε := ScheduleError)
    (node.name ++ "_link") fun tensor hin => hP.outputs_lt hlists hin
  obtain ⟨extra, -, -, rfl⟩ := addLikes_eq_ok hlikes
  have hmissing : ({ P with tensors := P.tensors ++ extra.toArray }.updateNode call
      fun node => { node with outputs := handover }).subgraph (segmentOrigin owner subgraph.kind)
        = (.abort .dangling : Outcome ScheduleError Subgraph) := by
    show Outcome.following P.subgraphs[segmentOrigin owner subgraph.kind]? = _
    rw [hstem]
    rfl
  unfold splitAt
  rw [subgraph_eq_ok.mpr hsubgraph, Outcome.ok_bind, node_eq_ok.mpr hnode, Outcome.ok_bind, hlikes,
    Outcome.ok_bind]
  dsimp only
  rw [hmissing]
  rfl

theorem Program.splitFirst_ends (hP : P.WellFormed) {owner : SubgraphId}
    (hlt : owner < P.subgraphs.size) :
    Outcome.Ends (fun _ => True) (Outcome.IsAbort .dangling (¬ P.OriginsKnown))
      (P.splitFirst owner : Outcome ScheduleError (Option (SplitOutcome × Program))) := by
  have hsubgraph := Array.getElem?_eq_getElem hlt
  cases hstem : P.subgraphs[segmentOrigin owner P.subgraphs[owner].kind]? with
  | some stem =>
    obtain ⟨answer, hsplit⟩ := exists_splitFirst (ε := ScheduleError) hP hsubgraph hstem
    rw [hsplit]
    trivial
  | none =>
    have hunknown : ¬ P.OriginsKnown := by
      intro horigins
      rw [Array.getElem?_eq_getElem (horigins.stem_lt hsubgraph)] at hstem
      exact nomatch hstem
    obtain ⟨first, hfirst⟩ := exists_firstNonTailCall (ε := ScheduleError) hP hsubgraph
    unfold splitFirst
    rw [hfirst, Outcome.ok_bind]
    cases first with
    | none => trivial
    | some call =>
      obtain ⟨-, earlier, later, hnodes, -⟩ := firstNonTailCall?_eq_some hP hsubgraph hfirst
      have hmem : call ∈ P.subgraphs[owner].nodes := hnodes ▸ List.mem_append_right _ (.head _)
      dsimp only
      rw [splitAt_eq_abort hP hsubgraph hmem hstem]
      exact ⟨rfl, hunknown⟩

namespace ScheduleRun

/-- What holds while subgraphs are split. The subgraphs that segments count as cut from are there if
they were there in the first program. -/
structure InRange (P S : Program) (run : ScheduleRun) (P' : Program) : Prop where
  splitting : Splitting S run P'
  tracked : run.Tracked P'
  origins : P.OriginsKnown → P'.OriginsKnown

theorem splitNext_ends {S P' : Program} (hS : S.WellFormed) {run : ScheduleRun} {id : SubgraphId}
    (h : InRange P S { run with queue := id :: run.queue } P') :
    Outcome.Ends (fun next => InRange P S next.1 next.2) P.MayStop (run.splitNext P' id) := by
  have hP' := h.splitting.cuts.wellFormed hS
  have hends : Outcome.Ends (fun _ => True) (Outcome.IsAbort .dangling (¬ P'.OriginsKnown))
      (P'.splitFirst id : Outcome ScheduleError (Option (SplitOutcome × Program))) :=
    splitFirst_ends hP' (h.tracked.lt List.mem_cons_self)
  rcases hends.cases with ⟨answer, hsplit, -⟩ | ⟨stop, hsplit, hstop⟩
  · obtain ⟨c, run', hc, hnext, htracked, -⟩ := splitNext_of_splitFirst hP' h.tracked hsplit
    rw [hnext]
    exact ⟨splitNext_splitting hS h.splitting hnext, htracked,
      fun horigins => Cut.originsKnown_after hP' hc (h.origins horigins)⟩
  · have hwaiting := h.tracked.waiting List.mem_cons_self
    unfold splitNext
    rw [ProgressTable.move_eq_ok hwaiting .split rfl, Outcome.ok_bind, hsplit]
    exact .inr (.inr (hstop.imp fun hunknown horigins => hunknown (h.origins horigins)))

end ScheduleRun

/-! ### A run -/

theorem Program.Separates.originsKnown {P' : Program} (hP : P.WellFormed)
    (hseparates : P.Separates P') (horigins : P.OriginsKnown) : P'.OriginsKnown :=
  hseparates.preserves hP horigins fun _ _ => Rewiring.originsKnown_after

/-- What a run that is not refused has gone through, and what its report tells. -/
structure Stages.Pass (s : Stages) (P : Program) (report : ScheduleReport) (Q : Program) : Prop where
  separates : (P.separateHandles : Outcome ScheduleError (Nat × Program))
    = .ok (report.rewiredCalls, s.separated)
  cuts : Cuts s.separated s.cut s.links report.nonTailCalls
  allTail : ∀ id < s.cut.subgraphs.size, s.cut.AllTail id
  wraps : Wraps s.cut s.links s.bodies s.wrapped report.links
  told : ∀ ⦃id : NodeId⦄ ⦃node : Node⦄, s.cut.nodes[id]? = some node →
    s.wrapped.nodes[id]? = some node ∨ ∃ b ∈ report.boundaries, ∃ w ∈ b.entrances, w.caller = id
      ∧ node.kind = .bind b.body ∧ s.wrapped.nodes[id]? = some { node with kind := .bind w.entrance }
  states : ∀ id, report.states.get? id
    = if id < s.wrapped.subgraphs.size then some .final else none
  result : Q = { s.wrapped with links := s.wrapped.links.union report.links }

/-- A run goes through its stages, or it stops with a verdict or for one of the two reasons. -/
theorem schedule_passes (hP : P.WellFormed) (options : SchedulerOptions) :
    Outcome.Ends (fun answer => ∃ s : Stages, s.Pass P answer.1 answer.2) P.MayStop
      (schedule options P) := by
  unfold schedule
  refine ((separateHandles_ends hP).weaken fun _ h => .inr (.inl h)).bind
    fun (count, S) hseparate hseparates => ?_
  have hS := hseparates.wellFormed hP
  obtain ⟨catalog, hcatalog, -⟩ := Catalog.exists_build hS
  dsimp only
  rw [hcatalog, Outcome.ok_bind]
  refine ((Detection.detect_ends hS catalog).weaken fun _ h => .inl h).bind
    fun detection hdetect _ => ?_
  obtain ⟨settled, hsettle, htracked⟩ := ScheduleRun.exists_tracked hS hdetect
  rw [hsettle, Outcome.ok_bind]
  have hstart : ScheduleRun.InRange P S settled S :=
    ⟨ScheduleRun.settleAll_splitting hS hdetect hsettle, htracked, hseparates.originsKnown hP⟩
  refine (ScheduleRun.splitAll_ends (ScheduleRun.InRange P S)
    (fun _ => .inl ⟨_, rfl, trivial⟩) (fun _ _ _ h => ScheduleRun.splitNext_ends hS h) hstart).bind
    fun (split, cut) _ ⟨hcut, hempty⟩ => ?_
  have hstages (id : SubgraphId) : split.states.get? id
      = if id < cut.subgraphs.size then some .stable else none := by
    rw [hcut.tracked.stage, hempty, if_neg List.not_mem_nil]
  refine ((ScheduleRun.wrapAll_ends (hcut.splitting.cuts.wellFormed hS) hstages).weaken
    fun _ ⟨_, _, h⟩ => .inl ⟨_, h, trivial⟩).bind fun (last, wrapped) _ ⟨bodies, h⟩ => ?_
  obtain ⟨table, hfinish, hfinal⟩ := ProgressTable.finish_eq_ok h.ready
  dsimp only
  rw [hfinish, Outcome.ok_bind]
  refine ⟨⟨S, cut, split.recorder.links, bodies, wrapped⟩, hseparate, ?_, fun id hlt => ?_, h.wraps,
    h.told, fun id => ?_, rfl⟩
  · show Cuts S cut split.recorder.links last.nonTailCalls
    exact h.calls_eq ▸ hcut.splitting.cuts
  · exact hcut.splitting.waits id hlt (hempty ▸ List.not_mem_nil)
  · have htracked := h.tracked id
    refine (hfinal id).trans ?_
    cases hstage : last.states.get? id with
    | none =>
      rw [hstage] at htracked
      rw [if_neg fun hlt => nomatch htracked.mpr hlt]
      rfl
    | some stage =>
      rw [hstage] at htracked
      rw [if_pos (htracked.mp rfl)]
      rfl

end TailFlow
