import TailFlow.Proofs.Boundary.Completion
import TailFlow.Proofs.Handles.Copying
import TailFlow.Proofs.Handles.Tracing
import TailFlow.Proofs.Schedule.Splitting
import TailFlow.Proofs.Schedule.TailForm

/-!
# Which programs are scheduled

Scheduling is refused for two reasons, and both can be told from the program that it is given: the
handle of a call leads back to a tensor that no binder and no switch writes, or a call that is not a
tail call leads back to its own subgraph. Neither separation nor anything that comes after detection
brings in another one, as long as handles stay in their subgraph and the number of splits is left open.
-/

namespace TailFlow

open Program

variable {P : Program}

theorem ScheduleRun.exists_finished (hP : P.WellFormed) (hbody : P.AllBodies)
    (hone : ∀ binder, P.ReachesOne binder) {catalog : Catalog} {detection : Detection}
    (hdetect : Detection.detect P catalog = .ok detection) (sharing : ExitSharing) :
    ∃ settled split cut last wrapped states, start.settleAll P.order detection = .ok settled
      ∧ splitAll (P.callCount + 1) (P.callCount + 1) settled P = .ok (split, cut)
      ∧ split.wrapAll sharing cut = .ok (last, wrapped)
      ∧ last.states.finish = (states, .ok ()) := by
  obtain ⟨settled, hsettle, htracked⟩ := exists_tracked hP hdetect
  have hsplitting := settleAll_splitting hP hdetect hsettle
  have hleft : P.callCount < settled.nonTailCalls.length + (P.callCount + 1) := by omega
  obtain ⟨split, cut, hsplit, htracked'⟩ : ∃ split cut, splitAll (P.callCount + 1) (P.callCount + 1)
      settled P = .ok (split, cut) ∧ split.Tracked cut :=
    exists_splitAll hP hbody hsplitting htracked hleft
  obtain ⟨⟨hcuts, -, -, -, hunwrapped⟩, hall⟩ := splitAll_splitting hP hsplitting hsplit
  have hstable : ∀ id < cut.subgraphs.size, split.states.get? id = some .stable := by
    intro id hlt
    rw [htracked'.stage, if_pos hlt, if_neg fun hwaits => ?_]
    obtain ⟨call, hnonTail⟩ := htracked'.waits id hwaits
    exact hall id hlt call hnonTail
  have hready : split.states.Ready := by
    intro id stage hstage
    by_cases hlt : id < cut.subgraphs.size
    · exact .inr (Option.some.inj ((hstable id hlt).symm.trans hstage) ▸ rfl)
    · rw [htracked'.stage, if_neg hlt] at hstage
      exact nomatch hstage
  have hone' : ∀ binder, cut.ReachesOne binder := fun binder first second hfirst hsecond =>
    hone binder ((hcuts.reaches_iff hP).mp hfirst) ((hcuts.reaches_iff hP).mp hsecond)
  obtain ⟨last, wrapped, hwrap, hready'⟩ : ∃ last wrapped,
      split.wrapAll sharing cut = .ok (last, wrapped) ∧ last.states.Ready :=
    exists_wrapAll (hcuts.wellFormed hP) (hcuts.unwrapped hP hbody) hone' hunwrapped hready hstable
  obtain ⟨states, hfinish, -⟩ := ProgressTable.finish_eq_ok hready'
  exact ⟨settled, split, cut, last, wrapped, states, hsettle, hsplit, hwrap, hfinish⟩

section Verdict

variable {count : Nat} {S : Program} {catalog : Catalog}
  (hseparate : (P.separateHandles : Outcome ScheduleError (Nat × Program)) = .ok (count, S))
  (hcatalog : Catalog.build S = .ok catalog)

include hseparate hcatalog

theorem schedule_eq_error {stop : Stop ScheduleError}
    (hrefuse : Detection.detect S catalog = .error stop) (options : SchedulerOptions) :
    schedule options P = .error stop := by
  unfold schedule
  rw [hseparate, Outcome.ok_bind]
  dsimp only
  rw [hcatalog, Outcome.ok_bind, hrefuse]
  rfl

theorem exists_scheduled (hS : S.WellFormed) (hbody : S.AllBodies)
    (hone : ∀ binder, S.ReachesOne binder) {detection : Detection}
    (hdetect : Detection.detect S catalog = .ok detection) (sharing : ExitSharing) :
    ∃ report Q, schedule ⟨none, sharing⟩ P = .ok (report, Q) := by
  obtain ⟨settled, split, cut, last, wrapped, states, hsettle, hsplit, hwrap, hfinish⟩ :=
    ScheduleRun.exists_finished hS hbody hone hdetect sharing
  rw [schedule, hseparate, Outcome.ok_bind]
  dsimp only
  rw [hcatalog, Outcome.ok_bind, hdetect, Outcome.ok_bind, hsettle, Outcome.ok_bind,
    Option.getD_none, hsplit, Outcome.ok_bind]
  dsimp only
  rw [hwrap, Outcome.ok_bind]
  dsimp only
  rw [hfinish, Outcome.ok_bind]
  exact ⟨_, _, rfl⟩

end Verdict

/-- A program whose handles stay in their subgraph is refused because of a call that is not resolved,
or else because of a call that waits for its own subgraph, or else it is scheduled. -/
theorem schedule_cases (hP : P.WellFormed) (hbody : P.AllBodies) (hlocal : P.HandlesLocal)
    (sharing : ExitSharing) :
    (P.Unresolved ∧ ∃ call owner,
        schedule ⟨none, sharing⟩ P = .error (.refused (.unresolvedCall call owner)))
      ∨ (¬ P.Unresolved ∧ P.HasNonTailCycle ∧ ∃ call owner callee,
        schedule ⟨none, sharing⟩ P = .error (.refused (.nonTailCycle call owner callee)))
      ∨ (¬ P.Unresolved ∧ ¬ P.HasNonTailCycle ∧ ∃ report Q,
        schedule ⟨none, sharing⟩ P = .ok (report, Q)) := by
  obtain ⟨count, S, hseparate⟩ := exists_separateHandles hP hlocal
  have hseparates := separateHandles_separates hP hseparate
  have hS := hseparates.wellFormed hP
  obtain ⟨hlocal', hone⟩ := reachesOne_of_separateHandles hP hlocal hseparate
  obtain ⟨catalog, hcatalog, -⟩ := Catalog.exists_build hS
  -- Separation makes copies of handles, but it changes neither of the two reasons.
  obtain ⟨hunresolved, hcycle⟩ := hseparates.verdict_iff hP hlocal
  rw [← hunresolved, ← hcycle]
  by_cases hopen : S.Unresolved
  · have hnot : ¬ S.AllResolve := fun hresolve => (hlocal'.allResolve_iff hS).mp hresolve hopen
    obtain ⟨call, owner, hrefuse⟩ := Detection.exists_unresolved hS hlocal'.unique hnot catalog
    exact .inl ⟨hopen, call, owner, schedule_eq_error hseparate hcatalog hrefuse _⟩
  · have hresolve : S.AllResolve := (hlocal'.allResolve_iff hS).mpr hopen
    rcases Detection.detect_cases hS hlocal'.unique hresolve catalog with
      ⟨hnone, detection, hdetect⟩ | ⟨hsome, call, owner, callee, hrefuse⟩
    · exact .inr (.inr ⟨hopen, hnone, exists_scheduled hseparate hcatalog hS
        (hseparates.allBodies hP hbody) hone hdetect sharing⟩)
    · exact .inr (.inl ⟨hopen, hsome, call, owner, callee,
        schedule_eq_error hseparate hcatalog hrefuse _⟩)

/-- With the number of splits left open, a program whose handles stay in their subgraph is refused for
a call that is not resolved exactly if there is one, otherwise for a call that waits for its own
subgraph exactly if there is one, and otherwise it is scheduled. Nothing else is ever refused. -/
theorem schedule_accepts (hvalid : P.validate = .ok ()) (hbody : P.AllBodies)
    (hlocal : P.HandlesLocal) (sharing : ExitSharing) :
    ((∃ call owner, schedule ⟨none, sharing⟩ P = .error (.refused (.unresolvedCall call owner)))
        ↔ P.Unresolved)
      ∧ (¬ P.Unresolved → ((∃ call owner callee,
          schedule ⟨none, sharing⟩ P = .error (.refused (.nonTailCycle call owner callee)))
        ↔ P.HasNonTailCycle))
      ∧ (¬ P.Unresolved → ¬ P.HasNonTailCycle →
        ∃ report Q, schedule ⟨none, sharing⟩ P = .ok (report, Q))
      ∧ ∀ stop, schedule ⟨none, sharing⟩ P = .error stop →
        (∃ call owner, stop = .refused (.unresolvedCall call owner))
          ∨ ∃ call owner callee, stop = .refused (.nonTailCycle call owner callee) := by
  rcases schedule_cases (wellFormed_of_validate hvalid) hbody hlocal sharing with
    ⟨hopen, call, owner, hrefuse⟩ | ⟨hresolved, hcycle, call, owner, callee, hrefuse⟩
    | ⟨hresolved, hnone, report, Q, hschedule⟩
  · rw [hrefuse]
    refine ⟨iff_of_true ⟨call, owner, rfl⟩ hopen, absurd hopen, absurd hopen, ?_⟩
    rintro stop hstop
    exact .inl ⟨call, owner, (Except.error.inj hstop).symm⟩
  · rw [hrefuse]
    refine ⟨iff_of_false ?_ hresolved, fun _ => iff_of_true ⟨call, owner, callee, rfl⟩ hcycle,
      fun _ hnone => absurd hcycle hnone, ?_⟩
    · rintro ⟨_, _, hother⟩
      exact nomatch hother
    · rintro stop hstop
      exact .inr ⟨call, owner, callee, (Except.error.inj hstop).symm⟩
  · rw [hschedule]
    exact ⟨iff_of_false nofun hresolved, fun _ => iff_of_false nofun hnone,
      fun _ _ => ⟨report, Q, rfl⟩, nofun⟩

/-- A relay whose first call runs the entry again. -/
def circle : Program :=
  relay.updateNode 0 fun node => { node with kind := .bind 0 }

/-- A relay is scheduled and a circle is refused, whether exits are shared or not. -/
theorem relay_accepted :
    (¬ relay.Unresolved ∧ ¬ relay.HasNonTailCycle
      ∧ ∀ sharing, ∃ report Q, schedule ⟨none, sharing⟩ relay = .ok (report, Q))
    ∧ ¬ circle.Unresolved ∧ circle.HasNonTailCycle ∧ ∀ sharing, ∃ call owner callee,
      schedule ⟨none, sharing⟩ circle = .error (.refused (.nonTailCycle call owner callee)) := by
  constructor
  · have haccepts := schedule_accepts (P := relay) (by decide +kernel) (by decide) (by decide +kernel)
    have hcheck : (schedule {} relay).isOk = true := by decide +kernel
    obtain ⟨hopen, hcycle, -⟩ := haccepts .byDestination
    have hresolved : ¬ relay.Unresolved := by
      rw [← hopen]
      rintro ⟨call, owner, hrefuse⟩
      exact nomatch (congrArg Except.isOk hrefuse).symm.trans hcheck
    have hnone : ¬ relay.HasNonTailCycle := by
      rw [← hcycle hresolved]
      rintro ⟨call, owner, callee, hrefuse⟩
      exact nomatch (congrArg Except.isOk hrefuse).symm.trans hcheck
    exact ⟨hresolved, hnone, fun sharing => (haccepts sharing).2.2.1 hresolved hnone⟩
  · have haccepts := schedule_accepts (P := circle) (by decide +kernel) (by decide) (by decide +kernel)
    have hrefuse : schedule {} circle = .error (.refused (.nonTailCycle 1 0 0)) := by decide +kernel
    obtain ⟨hopen, hcycle, -⟩ := haccepts .byDestination
    have hresolved : ¬ circle.Unresolved := by
      rw [← hopen]
      rintro ⟨_, _, hother⟩
      exact nomatch hrefuse.symm.trans hother
    have hloop := (hcycle hresolved).mp ⟨1, 0, 0, hrefuse⟩
    exact ⟨hresolved, hloop, fun sharing => ((haccepts sharing).2.1 hresolved).mpr hloop⟩

end TailFlow
