import TailFlow.Proofs.CallGraph.Cycles
import TailFlow.Proofs.Schedule.Progress
import TailFlow.Proofs.Schedule.Worklist

/-!
# Settling the subgraphs as they were detected

A subgraph that has not been settled yet, or has just been split, may be settled whatever the number
of its calls that are not tail calls: it is stable, or it waits to be split. Settling all subgraphs as
they were detected puts those into the queue that list such a call. This is where the invariant of the
splitting loop starts to hold.
-/

namespace TailFlow

open Program

def Progress.settled (pending : Nat) : Progress := if 0 < pending then .pendingSplit else .stable

namespace ScheduleRun

variable {P : Program} {run : ScheduleRun}

theorem exists_settle {id : SubgraphId} {stage : Progress} (hstage : run.states.get? id = some stage)
    (pending : Nat) (hcan : stage.canMoveTo (.analyzed pending) = true) :
    ∃ states, run.settle id pending = .ok { run with
        states, queue := if 0 < pending then run.queue ++ [id] else run.queue }
      ∧ ∀ other, states.get? other
        = if id = other then some (.settled pending) else run.states.get? other := by
  let analyzed : ProgressTable := ⟨run.states.stages.insert id (.analyzed pending)⟩
  have hanalyzed : analyzed.get? id = some (.analyzed pending) := by
    rw [ProgressTable.get?_insert, if_pos rfl]
  have hfirst : run.states.move id (.analyzed pending) = .ok analyzed :=
    ProgressTable.move_eq_ok hstage _ hcan
  have hget (next : Progress) (other : SubgraphId) :
      (ProgressTable.mk (analyzed.stages.insert id next)).get? other
        = if id = other then some next else run.states.get? other := by
    rw [ProgressTable.get?_insert]
    split
    · rfl
    · rename_i hne
      exact (ProgressTable.get?_insert _ _ _ _).trans (if_neg hne)
  unfold settle
  rw [hfirst, Outcome.ok_bind]
  by_cases hpending : 0 < pending
  · have hmove := ProgressTable.move_eq_ok hanalyzed .pendingSplit
      (by simpa [Progress.canMoveTo] using Nat.ne_of_gt hpending)
    refine ⟨_, ?_, fun other => (hget .pendingSplit other).trans ?_⟩
    · rw [if_pos hpending, hmove, if_pos hpending]
      rfl
    · rw [Progress.settled, if_pos hpending]
  · have hmove := ProgressTable.move_eq_ok hanalyzed .stable
      (by simpa [Progress.canMoveTo] using hpending)
    refine ⟨_, ?_, fun other => (hget .stable other).trans ?_⟩
    · rw [if_neg hpending, hmove, if_neg hpending]
      rfl
    · rw [Progress.settled, if_neg hpending]

theorem exists_settle_track {id : SubgraphId} (hnone : run.states.get? id = none) (pending : Nat) :
    ∃ states, (run.track id).settle id pending = .ok { run with
        states, queue := if 0 < pending then run.queue ++ [id] else run.queue }
      ∧ ∀ other, states.get? other
        = if id = other then some (.settled pending) else run.states.get? other := by
  have htrack := ProgressTable.get?_track hnone
  have hstage : (run.track id).states.get? id = some .unvisited := by
    rw [track, htrack, if_pos rfl]
  obtain ⟨states, hsettle, hget⟩ := exists_settle hstage pending rfl
  refine ⟨states, hsettle, fun other => (hget other).trans ?_⟩
  split
  · rfl
  · rename_i hne
    rw [track, htrack, if_neg hne]

/-- All subgraphs are settled, and those wait for which something has been noted. -/
theorem exists_settleAll (detection : Detection) {order : List SubgraphId} (hnodup : order.Nodup)
    (hfresh : ∀ id ∈ order, run.states.get? id = none) :
    ∃ states, run.settleAll order detection = .ok { run with
        states
        queue := run.queue ++ order.filter fun id => 0 < Detection.pending detection.nonTailCalls id }
      ∧ ∀ id, states.get? id = if id ∈ order
        then some (.settled (Detection.pending detection.nonTailCalls id))
        else run.states.get? id := by
  induction order generalizing run with
  | nil => exact ⟨run.states, by simp [settleAll, pure, Except.pure], fun id => by simp⟩
  | cons first rest ih =>
    obtain ⟨habsent, hnodup⟩ := List.nodup_cons.mp hnodup
    obtain ⟨hhead, htail⟩ := List.forall_mem_cons.mp hfresh
    obtain ⟨middle, hsettle, hmiddle⟩ :=
      exists_settle_track hhead (Detection.pending detection.nonTailCalls first)
    let settled : ScheduleRun := { run with
      states := middle
      queue := if 0 < Detection.pending detection.nonTailCalls first then run.queue ++ [first]
        else run.queue }
    have hfresh' : ∀ id ∈ rest, settled.states.get? id = none := by
      intro id hmem
      have hne : first ≠ id := fun h => habsent (h ▸ hmem)
      exact ((hmiddle id).trans (if_neg hne)).trans (htail id hmem)
    obtain ⟨states, hrest, hget⟩ := ih hnodup hfresh'
    refine ⟨states, Outcome.foldlM_cons_eq_ok.mpr ⟨_, hsettle, hrest.trans ?_⟩, fun id => ?_⟩
    · congr 2
      rw [List.filter_cons]
      by_cases hpending : 0 < Detection.pending detection.nonTailCalls first <;>
        simp [settled, hpending]
    · rw [hget, show settled.states.get? id = _ from hmiddle id]
      by_cases hmem : id ∈ rest
      · rw [if_pos hmem, if_pos (.tail _ hmem)]
      · by_cases hsame : first = id
        · subst hsame
          simp [hmem]
        · simp [hmem, hsame, Ne.symm hsame]

theorem settleAll_splitting (hP : P.WellFormed) {catalog : Catalog} {detection : Detection}
    (hdetect : Detection.detect P catalog = .ok detection) {run : ScheduleRun}
    (hsettle : start.settleAll P.order detection = .ok run) :
    Splitting P run P := by
  have hfresh : ∀ id ∈ P.order, start.states.get? id = none := fun _ _ => rfl
  obtain ⟨states, hsettle', -⟩ := exists_settleAll detection hP.order_nodup hfresh
  obtain rfl := Except.ok.inj (hsettle.symm.trans hsettle')
  refine ⟨.none, fun owner hlt habsent call hnonTail => habsent ?_, rfl, rfl, rfl⟩
  have hpending := (Detection.pending_pos_iff hP hdetect).mpr ⟨call, hnonTail⟩
  exact List.mem_append_right _
    (List.mem_filter.mpr ⟨hP.mem_order.mpr hlt, decide_eq_true hpending⟩)

end ScheduleRun

end TailFlow
