import TailFlow.Proofs.Schedule.Origin
import TailFlow.Proofs.Schedule.Resuming
import TailFlow.Proofs.Schedule.Settling

/-!
# Splitting comes to an end

Every split notes a call that was not a tail call in the program that splitting started with, and it
notes no call twice. While a subgraph waits there is one more such call to be noted, so as many splits
as the program has calls are enough. The table tells on the way which subgraphs wait, and what is cut
off has not been tracked before, so that all moves are lawful.
-/

namespace TailFlow

open Program

/-! ### One split -/

namespace Program

variable {ε : Type} {P : Program}

theorem exists_firstNonTailCall (hP : P.WellFormed) {owner : SubgraphId} {subgraph : Subgraph}
    (hsubgraph : P.subgraphs[owner]? = some subgraph) :
    ∃ first, (P.firstNonTailCall? owner : Outcome ε (Option NodeId)) = .ok first := by
  obtain ⟨first, hfind⟩ : ∃ first,
      subgraph.nodes.findM? (P.isNonTailCall (ε := ε) owner) = .ok first :=
    Outcome.exists_findM?_eq_ok fun id hmem =>
      (isNonTailCall_of_mem hP hsubgraph hmem).imp fun _ h => h.1
  rw [firstNonTailCall?, subgraph_eq_ok.mpr hsubgraph, Outcome.ok_bind]
  exact ⟨first, hfind⟩

/-- A subgraph can be split if the subgraph that it goes back to is there. -/
theorem exists_splitFirst (hP : P.WellFormed) {owner : SubgraphId} {subgraph stem : Subgraph}
    (hsubgraph : P.subgraphs[owner]? = some subgraph)
    (hstem : P.subgraphs[segmentOrigin owner subgraph.kind]? = some stem) :
    ∃ answer, (P.splitFirst owner : Outcome ε (Option (SplitOutcome × Program))) = .ok answer := by
  obtain ⟨first, hfirst⟩ := exists_firstNonTailCall (ε := ε) hP hsubgraph
  rw [splitFirst, hfirst, Outcome.ok_bind]
  cases first with
  | none => exact ⟨none, rfl⟩
  | some call =>
    obtain ⟨hnonTail, earlier, later, hnodes, hnone⟩ :=
      firstNonTailCall?_eq_some hP hsubgraph hfirst
    obtain ⟨subgraph', node, hsubgraph', hmem, hnode, -⟩ := id hnonTail
    have hlists : P.Lists ⟨owner, call, node⟩ := ⟨subgraph', hsubgraph', hmem, hnode⟩
    obtain ⟨handover, middle, hlikes⟩ : ∃ handover middle,
        (P.addLikes (numberedNames (node.name ++ "_link") node.outputs)
          : Outcome ε (List TensorId × Program)) = .ok (handover, middle) :=
      exists_addNumbered _ fun tensor hmem => hP.outputs_lt hlists hmem
    obtain ⟨c, hc, -, -, hsplit⟩ :=
      Cut.splitAt_eq hP hsubgraph hnodes hnonTail hnone hnode hlikes hstem
    obtain ⟨calls, hcalls, -⟩ :=
      exists_nonTailCalls (ε := ε) (Cut.wellFormed_after hP hc) Cut.subgraph_after_segment
    rw [hcalls, Outcome.ok_bind] at hsplit
    dsimp only
    rw [hsplit]
    exact ⟨some _, rfl⟩

end Program

/-! ### How many splits there are -/

namespace Cuts

variable {P P' : Program} {links : IdMap Link} {calls : List NodeId}

/-- As long as there is a call that is not a tail call, fewer calls have been cut after than there
are. -/
theorem length_lt_callCount (hP : P.WellFormed) (hbody : P.AllBodies)
    (hcuts : Cuts P P' links calls) {owner : SubgraphId} {call : NodeId}
    (hnonTail : P'.NonTail owner call) : calls.length < P.callCount := by
  have hnew : call ∉ calls := by
    intro hmem
    obtain ⟨link, hlink⟩ := hcuts.exists_link_iff.mpr hmem
    exact hcuts.not_nonTail_of_link hP hlink hnonTail
  have hcall {id : NodeId} {start : SubgraphId} (hbefore : P.NonTail start id) :
      ∃ node, P.nodes[id]? = some node ∧ node.isCall := by
    obtain ⟨_, node, -, -, hnode, hcall, -⟩ := hbefore
    exact ⟨node, hnode, hcall⟩
  have hnodup : (call :: calls).Nodup := List.nodup_cons.mpr ⟨hnew, hcuts.calls_nodup hP⟩
  refine length_le_countP hnodup (List.forall_mem_cons.mpr ⟨?_, ?_⟩)
  · obtain ⟨subgraph, _, hsubgraph, -⟩ := id hnonTail
    exact hcall (hcuts.nonTail_body hP hbody hsubgraph hnonTail)
  · intro id hmem
    obtain ⟨link, hlink⟩ := hcuts.exists_link_iff.mpr hmem
    obtain ⟨-, -, start, subgraph, node, hsubgraph, -, -, htail, -⟩ := hcuts.isTail_of_link hP hlink
    exact hcall (hcuts.link_body hP hbody hlink hsubgraph (List.mem_of_getLast? htail.1)).1

end Cuts

/-! ### The loop -/

namespace ScheduleRun

/-- The table tells of every subgraph whether it waits, and what waits has a call to be cut after. -/
structure Tracked (run : ScheduleRun) (P : Program) : Prop where
  nodup : run.queue.Nodup
  waits : ∀ id ∈ run.queue, ∃ call, P.NonTail id call
  stage : ∀ id, run.states.get? id = if id < P.subgraphs.size
    then some (if id ∈ run.queue then .pendingSplit else .stable) else none

variable {P P' : Program} {run : ScheduleRun}

theorem Tracked.lt (htracked : run.Tracked P) {id : SubgraphId} (hmem : id ∈ run.queue) :
    id < P.subgraphs.size := by
  obtain ⟨call, hnonTail⟩ := htracked.waits id hmem
  exact hnonTail.lt

theorem Tracked.waiting (htracked : run.Tracked P) {id : SubgraphId} (hmem : id ∈ run.queue) :
    run.states.get? id = some .pendingSplit := by
  rw [htracked.stage, if_pos (htracked.lt hmem), if_pos hmem]

theorem exists_tracked (hP : P.WellFormed) {catalog : Catalog} {detection : Detection}
    (hdetect : Detection.detect P catalog = .ok detection) :
    ∃ run, start.settleAll P.order detection = .ok run ∧ run.Tracked P := by
  have hfresh : ∀ id ∈ P.order, start.states.get? id = none := fun _ _ => rfl
  obtain ⟨states, hsettle, hstages⟩ := exists_settleAll detection hP.order_nodup hfresh
  refine ⟨_, hsettle, hP.order_nodup.filter _, fun id hmem => ?_, fun id => ?_⟩
  · have hpending := (List.mem_filter.mp hmem).2
    exact (Detection.pending_pos_iff hP hdetect).mp (of_decide_eq_true hpending)
  · refine (hstages id).trans ?_
    by_cases hlt : id < P.subgraphs.size
    · have hmem := hP.mem_order.mpr hlt
      rw [if_pos hmem, if_pos hlt, Progress.settled]
      simp only [start, List.nil_append, List.mem_filter, hmem, true_and, decide_eq_true_eq]
    · rw [if_neg (mt hP.mem_order.mp hlt), if_neg hlt]
      rfl

theorem tracked_after (hP : P.WellFormed) {c : Cut} (hc : c.Applies P)
    (htracked : Tracked { run with queue := c.owner :: run.queue } P) {calls : List NodeId}
    (hcalls : ((c.after P).nonTailCalls P.subgraphs.size : Outcome ScheduleError (List NodeId))
      = .ok calls) {after : ScheduleRun}
    (hqueue : after.queue
      = if 0 < calls.length then run.queue ++ [P.subgraphs.size] else run.queue)
    (hstages : ∀ id, after.states.get? id = if P.subgraphs.size = id
      then some (.settled calls.length)
      else if c.owner = id then some .stable else run.states.get? id) :
    after.Tracked (c.after P) := by
  obtain ⟨habsent, hnodup⟩ := List.nodup_cons.mp htracked.nodup
  have hlt {id : SubgraphId} (hmem : id ∈ run.queue) : id < P.subgraphs.size :=
    htracked.lt (.tail _ hmem)
  have hnew : P.subgraphs.size ∉ run.queue := fun hmem => Nat.lt_irrefl _ (hlt hmem)
  obtain ⟨calls', hcalls', hmem⟩ := exists_nonTailCalls (ε := ScheduleError)
    (Cut.wellFormed_after hP hc) Cut.subgraph_after_segment
  obtain rfl := Except.ok.inj (hcalls.symm.trans hcalls')
  have hqueued (id : SubgraphId) : id ∈ after.queue
      ↔ id ∈ run.queue ∨ (id = P.subgraphs.size ∧ 0 < calls.length) := by
    rw [hqueue]
    split <;> simp [*]
  refine ⟨?_, fun id hid => ?_, fun id => ?_⟩
  · rw [hqueue]
    split
    · refine List.nodup_append.mpr ⟨hnodup, by simp, fun id hid other hother => ?_⟩
      rintro rfl
      exact hnew (List.mem_singleton.mp hother ▸ hid)
    · exact hnodup
  · rcases (hqueued id).mp hid with hold | ⟨rfl, hpending⟩
    · have hne : id ≠ c.owner := fun h => habsent (h ▸ hold)
      obtain ⟨call, hnonTail⟩ := htracked.waits id (.tail _ hold)
      exact ⟨call, (Cut.nonTail_other_iff hP hc (hlt hold) hne).mpr hnonTail⟩
    · obtain ⟨call, hcall⟩ := List.exists_mem_of_length_pos hpending
      exact ⟨call, (hmem call).mp hcall⟩
  · -- Only the segment and the subgraph that it is cut off from come to another stage.
    rw [hstages, Cut.size_subgraphs_after]
    by_cases hsegment : P.subgraphs.size = id
    · subst hsegment
      simp only [if_pos, Nat.lt_succ_self, hqueued, hnew, false_or, true_and, Progress.settled]
    · rw [if_neg hsegment]
      have hsame : id ∈ after.queue ↔ id ∈ run.queue := by
        rw [hqueued, or_iff_left fun h => hsegment h.1.symm]
      have hstill : id < P.subgraphs.size + 1 ↔ id < P.subgraphs.size :=
        Nat.lt_succ_iff_lt_or_eq.trans (or_iff_left (Ne.symm hsegment))
      by_cases howner : c.owner = id
      · subst howner
        have hold := subgraph_lt hc.subgraph_eq
        rw [if_pos rfl, if_pos (hstill.mpr hold), if_neg (mt hsame.mp habsent)]
      · rw [if_neg howner]
        have hbefore := htracked.stage id
        simp only [List.mem_cons, Ne.symm howner, false_or] at hbefore
        simp only [hbefore, hstill, hsame]

/-- Once the subgraph that waits in front has been cut, the rest and what is cut off is tracked. -/
theorem splitNext_of_splitFirst (hP : P.WellFormed) {id : SubgraphId}
    (htracked : Tracked { run with queue := id :: run.queue } P)
    {answer : Option (SplitOutcome × Program)}
    (hsplit : (P.splitFirst id : Outcome ScheduleError (Option (SplitOutcome × Program)))
      = .ok answer) :
    ∃ (c : Cut) (run' : ScheduleRun), c.Applies P ∧ run.splitNext P id = .ok (run', c.after P)
      ∧ run'.Tracked (c.after P) ∧ run'.nonTailCalls = run.nonTailCalls ++ [c.call]
      ∧ run'.splits = run.splits + 1 := by
  have hwaiting := htracked.waiting List.mem_cons_self
  obtain ⟨call, hnonTail⟩ := htracked.waits id List.mem_cons_self
  have hmove := ProgressTable.move_eq_ok hwaiting .split rfl
  rcases Cut.splitFirst_eq_ok hP hsplit with ⟨-, hall⟩ | ⟨c, hc, rfl, calls, hcalls, rfl⟩
  · exact absurd hnonTail (hall call)
  have hhead : ((c.after P).nonTailCalls c.owner : Outcome ScheduleError (List NodeId)) = .ok [] :=
    (nonTailCalls_eq_nil_iff (Cut.wellFormed_after hP hc) (Cut.subgraph_after_owner hP hc)).mpr
      (Cut.allTail_head hP hc)
  let splitting : ScheduleRun := { run with
    states := ⟨run.states.stages.insert c.owner .split⟩
    splits := run.splits + 1
    nonTailCalls := run.nonTailCalls ++ [c.call]
    recorder := run.recorder.record (c.link P) }
  have hsplitting (other : SubgraphId) : splitting.states.get? other
      = if c.owner = other then some .split else run.states.get? other :=
    ProgressTable.get?_insert _ _ _ _
  have hsplit' : splitting.states.get? c.owner = some .split := (hsplitting _).trans (if_pos rfl)
  obtain ⟨states, hsettle, hstates⟩ := exists_settle hsplit' 0 rfl
  let resting : ScheduleRun := { splitting with states }
  have howner : c.owner ≠ P.subgraphs.size := Nat.ne_of_lt (subgraph_lt hc.subgraph_eq)
  have hfresh : resting.states.get? P.subgraphs.size = none := by
    have hstage := htracked.stage P.subgraphs.size
    rw [if_neg (Nat.lt_irrefl _)] at hstage
    rw [show resting.states.get? _ = _ from hstates _, if_neg howner, hsplitting, if_neg howner]
    exact hstage
  obtain ⟨states', hsettle', hstates'⟩ := exists_settle_track hfresh calls.length
  have hrest : splitting.settle c.owner 0 = .ok resting := hsettle
  have hnext : run.splitNext P c.owner = .ok ({ resting with
      states := states'
      queue := if 0 < calls.length then resting.queue ++ [P.subgraphs.size] else resting.queue },
        c.after P) := by
    rw [splitNext, hmove, Outcome.ok_bind, hsplit, Outcome.ok_bind]
    dsimp only
    rw [hhead, Outcome.ok_bind]
    show (splitting.settle c.owner 0 >>= fun run =>
      (run.track P.subgraphs.size).settle P.subgraphs.size calls.length >>= fun run =>
        pure (run, c.after P)) = _
    rw [hrest, Outcome.ok_bind, hsettle', Outcome.ok_bind]
    rfl
  refine ⟨c, _, hc, hnext, tracked_after hP hc htracked hcalls rfl ?_, rfl, rfl⟩
  intro other
  rw [hstates']
  split
  · rfl
  · rw [show resting.states.get? other = _ from hstates other, hsplitting]
    split <;> rfl

/-- The subgraph that waits in front can be split, and then the rest and what is cut off is tracked. -/
theorem exists_splitNext (hP : P.WellFormed) (hbody : P.AllBodies) {id : SubgraphId}
    (hcuts : Cuts P P' run.recorder.links run.nonTailCalls)
    (htracked : Tracked { run with queue := id :: run.queue } P') :
    ∃ run' P'', run.splitNext P' id = .ok (run', P'') ∧ run'.Tracked P''
      ∧ run'.nonTailCalls.length = run.nonTailCalls.length + 1 := by
  have hP' := hcuts.wellFormed hP
  obtain ⟨call, subgraph, _, hsubgraph, _⟩ := htracked.waits id List.mem_cons_self
  have hstem := Array.getElem?_eq_getElem
    (Nat.lt_of_lt_of_le (hcuts.origin_lt hP hbody hsubgraph) hcuts.size_subgraphs_le)
  obtain ⟨answer, hsplit⟩ := exists_splitFirst (ε := ScheduleError) hP' hsubgraph hstem
  obtain ⟨c, run', -, hnext, htracked', hcalls, -⟩ := splitNext_of_splitFirst hP' htracked hsplit
  exact ⟨run', c.after P', hnext, htracked', by rw [hcalls, List.length_append, List.length_singleton]⟩

theorem exists_splitAll (hP : P.WellFormed) (hbody : P.AllBodies) {limit left : Nat}
    (hsplitting : Splitting P run P') (htracked : run.Tracked P')
    (hleft : P.callCount < run.nonTailCalls.length + left) :
    ∃ run' P'', splitAll limit left run P' = .ok (run', P'') ∧ run'.Tracked P'' := by
  -- Calls noted and splits left add up to the same after every split.
  induction left generalizing run P' with
  | zero =>
    cases hqueue : run.queue with
    | nil => exact ⟨run, P', by rw [splitAll, hqueue], htracked⟩
    | cons id waiting =>
      obtain ⟨call, hnonTail⟩ := htracked.waits id (by simp [hqueue])
      have hlt := hsplitting.cuts.length_lt_callCount hP hbody hnonTail
      omega
  | succ left ih =>
    cases hqueue : run.queue with
    | nil => exact ⟨run, P', by rw [splitAll, hqueue], htracked⟩
    | cons id waiting =>
      let front : ScheduleRun := { run with queue := waiting }
      have hsame : run = { front with queue := id :: front.queue } := by
        rw [← hqueue]
      have hfront : Tracked { front with queue := id :: front.queue } P' := hsame ▸ htracked
      have hcuts : Cuts P P' front.recorder.links front.nonTailCalls := hsplitting.cuts
      obtain ⟨middle, program, hnext, htracked', hlength⟩ := exists_splitNext hP hbody hcuts hfront
      have hsplitting' := splitNext_splitting hP (hsame ▸ hsplitting) hnext
      have hleft' : P.callCount < middle.nonTailCalls.length + left := by
        rw [hlength]
        change P.callCount < run.nonTailCalls.length + 1 + left
        omega
      obtain ⟨run', P'', hrest, hafter⟩ := ih hsplitting' htracked' hleft'
      refine ⟨run', P'', ?_, hafter⟩
      rw [splitAll, hqueue]
      dsimp only
      rw [hnext, Outcome.ok_bind]
      exact hrest

end ScheduleRun

end TailFlow
