import Mathlib.Data.List.MinMax
import Mathlib.Order.Nat
import TailFlow.Proofs.Runs.Machine
import TailFlow.Proofs.Schedule.TailForm

/-!
# Scheduling makes no subgraph longer

A cut shares out the nodes of a subgraph, and the node that the segment starts with stands in for the
call that stays behind. A wrapper lists two nodes at most. So no subgraph of a scheduled program is
longer than those of the program were, and its plan is as wide as they are at most.
-/

namespace TailFlow

open Program

variable {P P' W : Program} {most : Nat}

/-- No subgraph lists more nodes than the given number. -/
def Program.ListsAtMost (P : Program) (most : Nat) : Prop :=
  ∀ ⦃id : SubgraphId⦄ ⦃subgraph : Subgraph⦄, P.subgraphs[id]? = some subgraph →
    subgraph.nodes.length ≤ most

theorem Cut.listsAtMost_after (hP : P.WellFormed) {c : Cut} (hc : c.Applies P)
    (h : P.ListsAtMost most) : (c.after P).ListsAtMost most := by
  intro id subgraph hsubgraph
  have hlength := h hc.subgraph_eq
  rw [hc.nodes_eq, List.length_append, List.length_cons] at hlength
  rcases subgraph_after_cases hP hc hsubgraph with ⟨-, hold⟩ | ⟨-, rfl⟩ | ⟨-, rfl⟩
  · exact h hold
  · rw [head, List.length_append, List.length_singleton]
    omega
  · rw [segment, List.length_cons]
    omega

theorem Cuts.listsAtMost (hP : P.WellFormed) {links : IdMap Link} {calls : List NodeId}
    (hcuts : Cuts P P' links calls) (h : P.ListsAtMost most) : P'.ListsAtMost most := by
  induction hcuts with
  | none => exact h
  | cut hcuts hc ih => exact Cut.listsAtMost_after (hcuts.wellFormed hP) hc ih

theorem Addition.listsAtMost_after {a : Addition} (hnew : a.nodes.length ≤ most)
    (h : P.ListsAtMost most) : (a.after P).ListsAtMost most := by
  intro id subgraph hsubgraph
  rcases subgraph_after_cases hsubgraph with hold | ⟨-, rfl⟩
  · exact h hold
  · exact Nat.le_trans (Nat.le_of_eq List.length_range') hnew

theorem Wraps.listsAtMost {links links' : IdMap Link} {bodies : List SubgraphId}
    (hwraps : Wraps P links bodies W links') (hmost : 2 ≤ most) (h : P.ListsAtMost most) :
    W.ListsAtMost most := by
  induction hwraps with
  | none => exact h
  | exit _ _ _ _ _ _ _ ih => exact Addition.listsAtMost_after (Nat.le_of_succ_le hmost) ih
  | entrance _ _ _ _ _ _ _ _ _ _ _ _ _ _ ih => exact Addition.listsAtMost_after hmost ih

theorem ExecutionPlan.width_le {plan : ExecutionPlan} (hplan : lower P = .ok plan)
    (h : P.ListsAtMost most) : plan.width ≤ most := by
  obtain ⟨-, hlower⟩ := Outcome.check_bind_eq_ok.mp hplan
  obtain ⟨entries, hentries, hpure⟩ := Outcome.bind_eq_ok.mp hlower
  obtain rfl := Outcome.pure_eq_ok.mp hpure
  refine List.max_le_of_forall_le (entries.map fun lowered => lowered.nodes.length) most
    fun length hmem => ?_
  obtain ⟨lowered, hentry, rfl⟩ := List.mem_map.mp hmem
  obtain ⟨id, -, hlowered⟩ := Outcome.item_of_mem_mapM hentries hentry
  obtain ⟨subgraph, hsubgraph, hbody⟩ := Outcome.bind_eq_ok.mp hlowered
  obtain ⟨-, hbody⟩ := Outcome.check_bind_eq_ok.mp hbody
  obtain ⟨-, hbody⟩ := Outcome.check_bind_eq_ok.mp hbody
  obtain ⟨terminator, -, hpure⟩ := Outcome.bind_eq_ok.mp hbody
  rw [← Outcome.pure_eq_ok.mp hpure]
  exact h (subgraph_eq_ok.mp hsubgraph)

theorem Stages.Lead.width_le {s : Stages} {report : ScheduleReport} {Q : Program}
    (hP : P.WellFormed) (h : s.Lead P report Q) (hmost : 2 ≤ most)
    (hlists : s.separated.ListsAtMost most) {plan : ExecutionPlan}
    (hplan : ExecutionPlan.lower Q = .ok plan) : plan.width ≤ most := by
  refine ExecutionPlan.width_le hplan ?_
  rw [h.result]
  exact h.wraps.listsAtMost hmost (h.cuts.listsAtMost (h.separated_ok hP) hlists)

end TailFlow
