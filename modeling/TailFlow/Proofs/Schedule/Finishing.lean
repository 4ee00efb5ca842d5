import TailFlow.Proofs.Schedule.Passage

/-!
# Every subgraph becomes final

The table of stages never stands in the way of a run. What waits to be split has been left pending by
the step that put it into the queue, what is wrapped has been left stable by splitting, and wrappers are
built final. So no move is refused, and a run that is not refused for another reason ends with a table
in which every subgraph of the program stands as final.
-/

namespace TailFlow

open Program

variable {P : Program}

/-- A checked program is never refused because of an unlawful move or of a binder that names nothing,
and when it is scheduled, the table holds exactly its subgraphs, all of them final. -/
theorem schedule_finishes (hvalid : P.validate = .ok ()) (options : SchedulerOptions) :
    (∀ id current next, schedule options P ≠ .error (.refused (.illegalMove id current next)))
      ∧ (∀ binder target, schedule options P ≠ .error (.refused (.unknownSubgraph binder target)))
      ∧ ∀ report Q, schedule options P = .ok (report, Q) → report.states.keys = Q.subgraphIds
        ∧ ∀ id ∈ Q.subgraphIds, report.states.get? id = some .final := by
  have hpasses := schedule_passes (wellFormed_of_validate hvalid) options
  have hnever (cause : ScheduleError) (hbookkeeping : ¬ cause.IsVerdict) :
      schedule options P ≠ .error (.refused cause) := by
    intro hstop
    rw [hstop] at hpasses
    rcases hpasses with ⟨_, hsame, hverdict⟩ | ⟨habort, -⟩ | ⟨habort, -⟩
    · exact hbookkeeping (Stop.refused.inj hsame ▸ hverdict)
    · exact nomatch habort
    · exact nomatch habort
  refine ⟨fun _ _ _ => hnever _ id, fun _ _ => hnever _ id,
    fun report Q hschedule => ?_⟩
  obtain ⟨s, hpass⟩ : ∃ s : Stages, s.Pass P report Q := hpasses.of_eq_ok hschedule
  obtain rfl := hpass.result
  have hfinal (id : SubgraphId) (hid : id ∈ s.wrapped.subgraphIds) :
      report.states.get? id = some .final := by
    rw [hpass.states, if_pos (mem_subgraphIds.mp hid)]
  refine ⟨IdMap.keys_eq List.pairwise_lt_range fun id => ⟨fun hid => ⟨_, hfinal id hid⟩, ?_⟩, hfinal⟩
  rintro ⟨stage, hstage⟩
  rw [hpass.states] at hstage
  split at hstage
  · exact mem_subgraphIds.mpr ‹_›
  · exact nomatch hstage

/-- The relay is split and wrapped, and its eight subgraphs become final. -/
theorem relay_finishes : ∃ report Q, schedule {} relay = .ok (report, Q)
    ∧ Q.subgraphIds = [0, 1, 2, 3, 4, 5, 6, 7] ∧ report.states.keys = Q.subgraphIds
    ∧ ∀ id ∈ Q.subgraphIds, report.states.get? id = some .final := by
  obtain ⟨⟨report, Q⟩, hschedule, hids⟩ := Outcome.exists_of_holds
    (fun answer : ScheduleReport × Program => answer.2.subgraphIds = [0, 1, 2, 3, 4, 5, 6, 7])
    (by decide +kernel : Outcome.holds ((schedule {} relay).map _) = true)
  exact ⟨report, Q, hschedule, hids,
    (schedule_finishes (by decide +kernel) {}).2.2 report Q hschedule⟩

end TailFlow
