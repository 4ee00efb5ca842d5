import TailFlow.Proofs.CallGraph.Noting
import TailFlow.Proofs.Handles.Keeping
import TailFlow.Proofs.Schedule.Passage
import TailFlow.Proofs.Schedule.TailForm

/-!
# One split for every call

A split takes one call away from those that are not tail calls, and it makes no other call one of
them. So the calls that have been noted and those that are left make up the calls that were detected,
each of them once, from the first split to the last. A run takes as many splits as calls were
detected, and it is refused for the number of its splits just if it is given fewer.
-/

namespace TailFlow

open Program

/-! ### What one cut takes away -/

namespace Cut

variable {c : Cut} {P : Program}

/-- A call behind the cut that is not a tail call is none in the segment either. -/
theorem segment_of_nonTail (hP : P.WellFormed) (hc : c.Applies P) {call : NodeId}
    (hnonTail : P.NonTail c.owner call) (hlater : call ∈ c.later) :
    (c.after P).NonTail P.subgraphs.size call := by
  obtain ⟨subgraph, node, hsubgraph, -, hnode, hcall, hnot⟩ := hnonTail
  obtain rfl := Option.some.inj (hc.subgraph_eq.symm.trans hsubgraph)
  have hne : call ≠ c.call := fun h => hc.call_notMem_later hP (h ▸ hlater)
  refine ⟨c.segment P, node, subgraph_after_segment, .tail _ hlater,
    (node_after_old (lt_of_mem_later hP hc hlater) hne).trans hnode, hcall, fun htail => hnot ⟨?_, ?_⟩⟩
  · have hsome : c.later ≠ [] := List.ne_nil_of_mem hlater
    have hlast := htail.1
    rw [Subgraph.lastNode?, segment, List.getLast?_cons_of_ne_nil hsome] at hlast
    rw [Subgraph.lastNode?, hc.nodes_eq, List.getLast?_append_of_ne_nil _ (List.cons_ne_nil _ _),
      List.getLast?_cons_of_ne_nil hsome, hlast]
  · exact htail.2

/-- A cut leaves all calls that are not tail calls but the one that it cuts after. -/
theorem exists_nonTail_after_iff (hP : P.WellFormed) (hc : c.Applies P) {call : NodeId} :
    (∃ owner, (c.after P).NonTail owner call)
      ↔ call ≠ c.call ∧ ∃ owner, P.NonTail owner call := by
  constructor
  · rintro ⟨owner, hnonTail⟩
    obtain ⟨subgraph, node, hsubgraph, hmem, -⟩ := id hnonTail
    rcases subgraph_after_cases hP hc hsubgraph with ⟨howner, hbefore⟩ | ⟨rfl, -⟩ | ⟨rfl, rfl⟩
    · refine ⟨fun hsame => howner ?_,
        owner, (nonTail_other_iff hP hc (subgraph_lt hbefore) howner).mp hnonTail⟩
      exact hP.apart hbefore hc.subgraph_eq call hmem (hc.mem_nodes.mpr (.inr (.inl hsame)))
    · exact absurd hnonTail (allTail_head hP hc call)
    · refine ⟨?_, c.owner, nonTail_of_segment hP hc hnonTail⟩
      rcases List.mem_cons.mp hmem with rfl | hlater
      · exact (Nat.ne_of_lt (node_lt hc.node_eq)).symm
      · exact fun hsame => hc.call_notMem_later hP (hsame ▸ hlater)
  · rintro ⟨hne, owner, hnonTail⟩
    by_cases howner : owner = c.owner
    · subst howner
      obtain ⟨subgraph, node, hsubgraph, hmem, hnode, hcall, -⟩ := id hnonTail
      obtain rfl := Option.some.inj (hc.subgraph_eq.symm.trans hsubgraph)
      rcases hc.mem_nodes.mp hmem with hearlier | hsame | hlater
      · exact absurd hcall (Bool.eq_false_iff.mp (hc.noneEarlier call hearlier node hnode))
      · exact absurd hsame hne
      · exact ⟨_, segment_of_nonTail hP hc hnonTail hlater⟩
    · exact ⟨owner, (nonTail_other_iff hP hc hnonTail.lt howner).mpr hnonTail⟩

end Cut

/-! ### The calls that were detected -/

namespace Detection

variable {P : Program} {catalog : Catalog} {detection : Detection} (hP : P.WellFormed)
  (hdetect : detect P catalog = .ok detection)

include hP hdetect

theorem mem_detected_iff {call : NodeId} :
    call ∈ detection.nonTailCalls.values.flatten ↔ ∃ owner, P.NonTail owner call := by
  rw [List.mem_flatten]
  constructor
  · rintro ⟨calls, hvalue, hmem⟩
    obtain ⟨owner, hget⟩ := IdMap.mem_values.mp hvalue
    obtain ⟨-, hcalls⟩ := (get?_nonTailCalls_eq_some hP hdetect).mp hget
    obtain ⟨subgraph, hsubgraph, -⟩ := Outcome.bind_eq_ok.mp hcalls
    obtain ⟨calls', hcalls', hiff⟩ :=
      exists_nonTailCalls (ε := ScheduleError) hP (subgraph_eq_ok.mp hsubgraph)
    obtain rfl := Except.ok.inj (hcalls.symm.trans hcalls')
    exact ⟨owner, (hiff call).mp hmem⟩
  · rintro ⟨owner, hnonTail⟩
    obtain ⟨subgraph, -, hsubgraph, -⟩ := id hnonTail
    obtain ⟨calls, hcalls, hiff⟩ := exists_nonTailCalls (ε := ScheduleError) hP hsubgraph
    have hmem := (hiff call).mpr hnonTail
    exact ⟨calls, IdMap.mem_values.mpr ⟨owner,
      (get?_nonTailCalls_eq_some hP hdetect).mpr ⟨List.ne_nil_of_mem hmem, hcalls⟩⟩, hmem⟩

/-- No call is detected twice, because a node stands in one list at most. -/
theorem nodup_detected : detection.nonTailCalls.values.flatten.Nodup := by
  have hentry {entry : SubgraphId × List NodeId} (hmem : entry ∈ detection.nonTailCalls.entries) :
      (P.nonTailCalls entry.1 : Outcome ScheduleError (List NodeId)) = .ok entry.2 :=
    ((get?_nonTailCalls_eq_some hP hdetect).mp (IdMap.get?_eq_some_iff.mpr hmem)).2
  have hlisted {entry : SubgraphId × List NodeId} (hmem : entry ∈ detection.nonTailCalls.entries)
      {call : NodeId} (hcall : call ∈ entry.2) :
      ∃ subgraph, P.subgraphs[entry.1]? = some subgraph ∧ call ∈ subgraph.nodes := by
    obtain ⟨subgraph, hsubgraph, hfilter⟩ := Outcome.bind_eq_ok.mp (hentry hmem)
    rw [(Outcome.filterM_eq_ok.mp hfilter).2] at hcall
    exact ⟨subgraph, subgraph_eq_ok.mp hsubgraph, (List.mem_filter.mp hcall).1⟩
  refine List.nodup_flatten.mpr ⟨fun calls hvalue => ?_, ?_⟩
  · obtain ⟨entry, hmem, rfl⟩ := List.mem_map.mp hvalue
    exact nodup_nonTailCalls hP (hentry hmem)
  · refine List.pairwise_map.mpr ?_
    refine detection.nonTailCalls.ascending.imp_of_mem fun {first second} hfirst hsecond hlt => ?_
    intro call hcall hcall'
    obtain ⟨a, ha, hmem⟩ := hlisted hfirst hcall
    obtain ⟨b, hb, hmem'⟩ := hlisted hsecond hcall'
    exact Nat.ne_of_lt hlt (hP.apart ha hb call hmem hmem')

omit hP hdetect in
theorem length_detected (detection : Detection) :
    detection.nonTailCalls.values.flatten.length = detection.nonTailCount := by
  unfold nonTailCount sumOf
  rw [List.length_flatten]
  rfl

theorem nonTailCount_le_callCount : detection.nonTailCount ≤ P.callCount := by
  rw [← length_detected]
  refine length_le_countP (nodup_detected hP hdetect) fun call hmem => ?_
  obtain ⟨owner, -, node, -, -, hnode, hcall, -⟩ := (mem_detected_iff hP hdetect).mp hmem
  exact ⟨node, hnode, hcall⟩

end Detection

/-! ### What the loop takes -/

namespace ScheduleRun

variable {P S P' : Program} {run : ScheduleRun} {detected : List NodeId}

/-- The calls that have been noted, one for every split, and those that are left are the ones that
were detected. -/
structure Accounts (detected : List NodeId) (run : ScheduleRun) (P' : Program) : Prop where
  nodup : detected.Nodup
  splits_eq : run.splits = run.nonTailCalls.length
  perm : ∃ left : List NodeId, (run.nonTailCalls ++ left).Perm detected
    ∧ ∀ call, call ∈ left ↔ ∃ owner, P'.NonTail owner call

/-- A cut moves its call from those that are left to those that have been noted. -/
theorem Accounts.after (hP' : P'.WellFormed) {c : Cut} (hc : c.Applies P')
    (h : Accounts detected run P') {run' : ScheduleRun}
    (hcalls : run'.nonTailCalls = run.nonTailCalls ++ [c.call])
    (hsplits : run'.splits = run.splits + 1) : Accounts detected run' (c.after P') := by
  obtain ⟨left, hperm, hleft⟩ := h.perm
  have hmem : c.call ∈ left := (hleft c.call).mpr ⟨c.owner, hc.nonTail⟩
  have hnodup : left.Nodup := (List.nodup_append.mp (hperm.nodup_iff.mpr h.nodup)).2.1
  refine ⟨h.nodup, ?_, left.erase c.call, ?_, fun call => ?_⟩
  · rw [hsplits, hcalls, h.splits_eq, List.length_append, List.length_singleton]
  · rw [hcalls, List.append_assoc, List.singleton_append]
    exact ((List.perm_cons_erase hmem).symm.append_left _).trans hperm
  · rw [hnodup.mem_erase_iff, hleft, Cut.exists_nonTail_after_iff hP' hc]

/-- As long as a subgraph waits, there is a call that has not been noted. -/
theorem Accounts.splits_lt (h : Accounts detected run P') {owner : SubgraphId} {call : NodeId}
    (hnonTail : P'.NonTail owner call) : run.splits < detected.length := by
  obtain ⟨left, hperm, hleft⟩ := h.perm
  have hpos := List.length_pos_of_mem ((hleft call).mpr ⟨owner, hnonTail⟩)
  rw [h.splits_eq, ← hperm.length_eq, List.length_append]
  exact Nat.lt_add_of_pos_right hpos

/-- When all calls are tail calls, all that were detected have been noted. -/
theorem Accounts.perm_of_allTail (h : Accounts detected run P') (hall : ∀ id, P'.AllTail id) :
    run.nonTailCalls.Perm detected ∧ run.splits = detected.length := by
  obtain ⟨left, hperm, hleft⟩ := h.perm
  have hnil : left = [] := List.eq_nil_iff_forall_not_mem.mpr fun call hmem =>
    have ⟨owner, hnonTail⟩ := (hleft call).mp hmem
    hall owner call hnonTail
  rw [hnil, List.append_nil] at hperm
  exact ⟨hperm, h.splits_eq.trans hperm.length_eq⟩

theorem InRange.allTail (hrange : InRange P S run P') (hempty : run.queue = []) (id : SubgraphId) :
    P'.AllTail id := by
  intro call hnonTail
  refine hrange.splitting.waits id hnonTail.lt ?_ call hnonTail
  rw [hempty]
  exact List.not_mem_nil

theorem exists_splitNext_accounts (hS : S.WellFormed) (horigins : P.OriginsKnown) {id : SubgraphId}
    (hrange : InRange P S { run with queue := id :: run.queue } P')
    (h : Accounts detected { run with queue := id :: run.queue } P') :
    ∃ run' P'', run.splitNext P' id = .ok (run', P'') ∧ InRange P S run' P''
      ∧ Accounts detected run' P'' ∧ run'.splits = run.splits + 1 := by
  have hP' := hrange.splitting.cuts.wellFormed hS
  have hsubgraph := Array.getElem?_eq_getElem (hrange.tracked.lt List.mem_cons_self)
  have hstem := Array.getElem?_eq_getElem ((hrange.origins horigins).stem_lt hsubgraph)
  obtain ⟨answer, hsplit⟩ := exists_splitFirst (ε := ScheduleError) hP' hsubgraph hstem
  obtain ⟨c, run', hc, hnext, -, hcalls, hsplits⟩ :=
    splitNext_of_splitFirst hP' hrange.tracked hsplit
  exact ⟨run', c.after P', hnext, (splitNext_ends hS hrange).of_eq_ok hnext,
    Accounts.after hP' hc h hcalls hsplits, hsplits⟩

/-- The loop ends with an answer if it has a split for every call that is left, and it is refused if it
has fewer. -/
theorem splitAll_accounts (hS : S.WellFormed) (horigins : P.OriginsKnown) (limit left : Nat)
    (hrange : InRange P S run P') (h : Accounts detected run P') :
    (detected.length ≤ run.splits + left ∧ ∃ run' P'',
        splitAll limit left run P' = .ok (run', P'') ∧ InRange P S run' P'' ∧ run'.queue = []
          ∧ run'.nonTailCalls.Perm detected ∧ run'.splits = detected.length)
      ∨ (run.splits + left < detected.length ∧ ∃ id,
        splitAll limit left run P' = .refuse (.splitLimitExceeded id limit)) := by
  -- Splits made and splits left add up to the same after every split.
  induction left generalizing run P' with
  | zero =>
    cases hqueue : run.queue with
    | nil =>
      obtain ⟨hperm, hsplits⟩ := h.perm_of_allTail (hrange.allTail hqueue)
      exact .inl ⟨Nat.le_of_eq hsplits.symm, run, P', by rw [splitAll, hqueue], hrange, hqueue, hperm,
        hsplits⟩
    | cons id waiting =>
      obtain ⟨call, hnonTail⟩ := hrange.tracked.waits id (by simp [hqueue])
      exact .inr ⟨h.splits_lt hnonTail, id, by rw [splitAll, hqueue]⟩
  | succ left ih =>
    cases hqueue : run.queue with
    | nil =>
      obtain ⟨hperm, hsplits⟩ := h.perm_of_allTail (hrange.allTail hqueue)
      refine .inl ⟨?_, run, P', by rw [splitAll, hqueue], hrange, hqueue, hperm, hsplits⟩
      omega
    | cons id waiting =>
      let front : ScheduleRun := { run with queue := waiting }
      have hsame : run = { front with queue := id :: front.queue } := by
        rw [← hqueue]
      have hfront : InRange P S { front with queue := id :: front.queue } P' := hsame ▸ hrange
      obtain ⟨middle, program, hnext, hrange', h', hsplits⟩ :=
        exists_splitNext_accounts hS horigins hfront (hsame ▸ h)
      have hstep : splitAll limit (left + 1) run P' = splitAll limit left middle program := by
        rw [splitAll, hqueue]
        show (front.splitNext P' id >>= _) = _
        rw [hnext]
        rfl
      have hcount : middle.splits + left = run.splits + (left + 1) := by
        rw [hsplits]
        exact Nat.succ_add_eq_add_succ run.splits left
      rw [hstep, ← hcount]
      exact ih hrange' h'

theorem splits_wrapAll {sharing : ExitSharing} {run' : ScheduleRun} {W : Program}
    (hwrap : run.wrapAll sharing P = .ok (run', W)) : run'.splits = run.splits := by
  obtain ⟨catalog, -, hfold⟩ := Outcome.bind_eq_ok.mp hwrap
  refine Outcome.foldlM_keeps (fun state : ScheduleRun × Program => state.1.splits = run.splits)
    (fun state body state' _ hstate hbody => ?_) rfl hfold
  obtain ⟨⟨groups, dead⟩, -, hbody⟩ := Outcome.bind_eq_ok.mp hbody
  dsimp only at hbody
  split at hbody
  · rw [← Outcome.pure_eq_ok.mp hbody]
    exact hstate
  split at hbody
  · rw [← Outcome.pure_eq_ok.mp hbody]
    exact hstate
  obtain ⟨states, -, hbody⟩ := Outcome.bind_eq_ok.mp hbody
  obtain ⟨wrapping, -, hbody⟩ := Outcome.bind_eq_ok.mp hbody
  obtain ⟨states', -, hpure⟩ := Outcome.bind_eq_ok.mp hbody
  rw [← Outcome.pure_eq_ok.mp hpure]
  exact hstate

end ScheduleRun

/-! ### A run -/

theorem Rewiring.callCount_after {r : Rewiring} {P : Program} (hP : P.WellFormed)
    (hr : r.Applies P) : (r.after P).callCount = P.callCount := by
  unfold callCount
  have hle : P.nodes.size ≤ (r.after P).nodes.size := by simp [size_nodes_after]
  rw [countP_eq_length_filter_range _ _ (Nat.le_refl _), countP_eq_length_filter_range _ _ hle]
  refine congrArg _ (List.filter_congr fun id _ => ?_)
  rcases Nat.lt_or_ge id P.nodes.size with hlt | hge
  · have hnode := Array.getElem?_eq_getElem hlt
    obtain ⟨after, hafter, hkind, -⟩ := exists_node_after hr hnode
    rw [hnode, hafter, Option.any_some, Option.any_some, Node.isCall, Node.isCall, hkind]
  · obtain ⟨place, rfl⟩ := Nat.exists_eq_add_of_le hge
    rw [node_after_copy hr, Array.getElem?_eq_none hge, Option.any_none]
    cases hcopy : r.copies[place]? with
    | none => rfl
    | some copy => exact hr.isCall_of_copy hP hcopy

theorem Program.Separates.callCount_eq {P S : Program} (hP : P.WellFormed)
    (hseparates : P.Separates S) : S.callCount = P.callCount :=
  hseparates.preserves hP rfl fun _ _ hS hr hsame => (Rewiring.callCount_after hS hr).trans hsame

theorem ScheduleRun.exists_accounts {P S : Program} (hS : S.WellFormed)
    (horigins : P.OriginsKnown → S.OriginsKnown) {catalog : Catalog} {detection : Detection}
    (hdetect : Detection.detect S catalog = .ok detection) :
    ∃ run, start.settleAll S.order detection = .ok run ∧ InRange P S run S ∧ run.splits = 0
      ∧ Accounts detection.nonTailCalls.values.flatten run S := by
  have hfresh : ∀ id ∈ S.order, start.states.get? id = none := fun _ _ => rfl
  obtain ⟨states, hsettle, -⟩ := exists_settleAll detection hS.order_nodup hfresh
  obtain ⟨run, hsettle', htracked⟩ := exists_tracked hS hdetect
  obtain rfl := Except.ok.inj (hsettle.symm.trans hsettle')
  exact ⟨_, hsettle, ⟨settleAll_splitting hS hdetect hsettle, htracked, horigins⟩, rfl,
    Detection.nodup_detected hS hdetect, rfl, detection.nonTailCalls.values.flatten, .refl _,
    fun call => Detection.mem_detected_iff hS hdetect⟩

/-- Once the calls have been detected, a run that has a split for each of them notes them all, or is
stopped by a binder that reaches several calls, and a run that has fewer splits is refused. -/
theorem schedule_accounts {P S : Program} (hP : P.WellFormed) (horigins : P.OriginsKnown)
    {count : Nat} {catalog : Catalog} {detection : Detection}
    (hseparate : (P.separateHandles : Outcome ScheduleError (Nat × Program)) = .ok (count, S))
    (hcatalog : Catalog.build S = .ok catalog)
    (hdetect : Detection.detect S catalog = .ok detection) (options : SchedulerOptions) :
    (detection.nonTailCount ≤ options.maxSplits.getD (S.callCount + 1)
        ∧ Outcome.Ends (fun answer => answer.1.splits = detection.nonTailCount
            ∧ answer.1.nonTailCalls.Perm detection.nonTailCalls.values.flatten) IsAmbiguous
          (schedule options P))
      ∨ (options.maxSplits.getD (S.callCount + 1) < detection.nonTailCount
        ∧ ∃ id, schedule options P = .error (.refused
          (.splitLimitExceeded id (options.maxSplits.getD (S.callCount + 1))))) := by
  have hseparates := separateHandles_separates hP hseparate
  have hS := hseparates.wellFormed hP
  obtain ⟨run, hsettle, hrange, hzero, haccounts⟩ :=
    ScheduleRun.exists_accounts hS (hseparates.originsKnown hP) hdetect
  unfold schedule
  rw [hseparate, Outcome.ok_bind]
  dsimp only
  rw [hcatalog, Outcome.ok_bind, hdetect, Outcome.ok_bind, hsettle, Outcome.ok_bind]
  generalize options.maxSplits.getD (S.callCount + 1) = limit
  have hsplit := ScheduleRun.splitAll_accounts hS horigins limit limit hrange haccounts
  rw [hzero, Nat.zero_add, Detection.length_detected] at hsplit
  rcases hsplit with ⟨hle, split, cut, hsplit, hcut, hempty, hperm, hsplits⟩ | ⟨hlt, id, hrefuse⟩
  · refine .inl ⟨hle, ?_⟩
    rw [hsplit, Outcome.ok_bind]
    have hstages (id : SubgraphId) : split.states.get? id
        = if id < cut.subgraphs.size then some .stable else none := by
      rw [hcut.tracked.stage, hempty, if_neg List.not_mem_nil]
    refine (ScheduleRun.wrapAll_ends (hcut.splitting.cuts.wellFormed hS) hstages).bind
      fun (last, wrapped) hwrap ⟨bodies, h⟩ => ?_
    obtain ⟨table, hfinish, -⟩ := ProgressTable.finish_eq_ok h.ready
    dsimp only
    rw [hfinish, Outcome.ok_bind]
    refine ⟨?_, ?_⟩
    · exact (ScheduleRun.splits_wrapAll hwrap).trans hsplits
    · show last.nonTailCalls.Perm _
      rw [h.calls_eq]
      exact hperm
  · refine .inr ⟨hlt, id, ?_⟩
    rw [hrefuse]
    rfl

/-- Once the calls have been detected, a run is refused for the number of its splits just if it is given
fewer than there are calls that were detected, and a run that is not refused has split at each of
them once. -/
theorem schedule_splits {P S : Program} (hvalid : P.validate = .ok ()) (horigins : P.OriginsKnown)
    {count : Nat} {catalog : Catalog} {detection : Detection}
    (hseparate : (P.separateHandles : Outcome ScheduleError (Nat × Program)) = .ok (count, S))
    (hcatalog : Catalog.build S = .ok catalog)
    (hdetect : Detection.detect S catalog = .ok detection) (options : SchedulerOptions) :
    ((∃ id limit, schedule options P = .error (.refused (.splitLimitExceeded id limit)))
      ↔ options.maxSplits.getD (P.callCount + 1) < detection.nonTailCount)
    ∧ (∀ id limit, schedule options P = .error (.refused (.splitLimitExceeded id limit)) →
      limit = options.maxSplits.getD (P.callCount + 1))
    ∧ (options.maxSplits = none →
      ¬ ∃ id limit, schedule options P = .error (.refused (.splitLimitExceeded id limit)))
    ∧ ∀ report Q, schedule options P = .ok (report, Q) →
      report.splits = detection.nonTailCount ∧ report.nonTailCalls.Nodup
        ∧ report.nonTailCalls.Perm detection.nonTailCalls.values.flatten := by
  have hP := wellFormed_of_validate hvalid
  have hseparates := separateHandles_separates hP hseparate
  have hS := hseparates.wellFormed hP
  have hcalls := hseparates.callCount_eq hP
  have hfew := Detection.nonTailCount_le_callCount hS hdetect
  rw [hcalls] at hfew
  have haccounts := schedule_accounts hP horigins hseparate hcatalog hdetect options
  rw [hcalls] at haccounts
  rcases haccounts with ⟨hle, hends⟩ | ⟨hlt, id, hrefuse⟩
  · have hnot : ¬ ∃ id limit,
        schedule options P = .error (.refused (.splitLimitExceeded id limit)) := by
      rintro ⟨id, limit, hrefuse⟩
      rw [hrefuse] at hends
      obtain ⟨binder, calls, hcause⟩ := hends
      exact nomatch hcause
    refine ⟨iff_of_false hnot (Nat.not_lt.mpr hle), fun id limit hrefuse => ?_, fun _ => hnot,
      fun report Q hok => ?_⟩
    · exact absurd ⟨id, limit, hrefuse⟩ hnot
    · obtain ⟨hsplits, hperm⟩ := hends.of_eq_ok hok
      exact ⟨hsplits, hperm.nodup_iff.mpr (Detection.nodup_detected hS hdetect), hperm⟩
  · refine ⟨iff_of_true ⟨id, _, hrefuse⟩ hlt, fun other limit hother => ?_, fun hnone => ?_,
      fun report Q hok => nomatch hrefuse.symm.trans hok⟩
    · exact ((ScheduleError.splitLimitExceeded.inj (Stop.refused.inj (Except.error.inj
        (hrefuse.symm.trans hother)))).2).symm
    · rw [hnone, Option.getD_none] at hlt
      omega

/-- Two calls of the relay are not tail calls, so one split is too few, and two are made. -/
theorem relay_splits : (∃ id limit,
      schedule ⟨some 1, .byDestination⟩ relay = .error (.refused (.splitLimitExceeded id limit)))
    ∧ (¬ ∃ id limit,
      schedule ⟨some 2, .byDestination⟩ relay = .error (.refused (.splitLimitExceeded id limit)))
    ∧ ∃ report Q, schedule {} relay = .ok (report, Q) ∧ report.splits = 2 := by
  have hbody : relay.AllBodies := by decide
  have horigins : relay.OriginsKnown := fun _ _ _ hsubgraph hsegment =>
    nomatch (hbody hsubgraph).symm.trans hsegment
  have hseparate : (relay.separateHandles : Outcome ScheduleError (Nat × Program))
      = .ok (0, relay) := by decide +kernel
  obtain ⟨catalog, hcatalog, detection, hdetect, hcount⟩ : ∃ catalog, Catalog.build relay = .ok catalog
      ∧ ∃ detection, Detection.detect relay catalog = .ok detection ∧ detection.nonTailCount = 2 := by
    obtain ⟨catalog, hcatalog, hholds⟩ := Outcome.exists_of_holds (fun catalog =>
        Outcome.holds ((Detection.detect relay catalog).map fun detection =>
          decide (detection.nonTailCount = 2)) = true)
      (by decide +kernel : Outcome.holds ((Catalog.build relay).map _) = true)
    exact ⟨catalog, hcatalog, Outcome.exists_of_holds _ hholds⟩
  have hsplits (options : SchedulerOptions) :=
    schedule_splits (P := relay) (by decide +kernel) horigins hseparate hcatalog hdetect options
  simp only [hcount] at hsplits
  obtain ⟨⟨report, Q⟩, hok⟩ : ∃ answer, schedule {} relay = .ok answer :=
    Outcome.exists_of_isOk (by decide +kernel)
  exact ⟨(hsplits _).1.mpr (by decide), mt (hsplits _).1.mp (by decide), report, Q, hok,
    ((hsplits {}).2.2.2 report Q hok).1⟩

end TailFlow
