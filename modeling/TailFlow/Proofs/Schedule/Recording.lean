import TailFlow.Proofs.Boundary.Building
import TailFlow.Proofs.Schedule.Worklist

/-!
# Links are recorded once

A cut is made after a call that has no link yet, and wrapping records the links of calls that it has
just added. So the recorder has nothing to warn of.
-/

namespace TailFlow

open Program

/-- No link has been recorded twice, and the links are those of nodes of the program. -/
structure LinkRecorder.Clean (recorder : LinkRecorder) (P : Program) : Prop where
  silent : recorder.warnings = []
  key_lt : ∀ call link, recorder.links.get? call = some link → call < P.nodes.size

namespace Wrapping

variable {ε : Type} {state state' : Wrapping} {stem : String} {formals handover : List TensorId}

theorem addEntrance_clean {exit : SubgraphId} {consumer caller : NodeId}
    (hclean : state.recorder.Clean state.program)
    (hadd : (addEntrance stem formals exit consumer handover state caller : Outcome ε Wrapping)
      = .ok state') : state'.recorder.Clean state'.program := by
  obtain ⟨extra, binderName, callName, name, arguments, handle, -, -, rfl⟩ := addEntrance_eq_ok hadd
  have hsize : (entranceAddition state.program extra binderName callName name state.boundary.body
      caller arguments handle handover).nodes.length = 2 := rfl
  constructor
  · refine (LinkRecorder.warnings_record ?_).trans hclean.silent
    by_contra hsome
    obtain ⟨link, hlink⟩ := Option.ne_none_iff_exists'.mp hsome
    exact Nat.not_succ_lt_self (hclean.key_lt _ _ hlink)
  · intro call link hlink
    rw [Addition.size_nodes_after, hsize]
    change (state.recorder.links.insert _ _).get? call = some link at hlink
    rw [IdMap.get?_insert] at hlink
    split at hlink
    · rename_i hsame
      have hcall : state.program.nodes.size + 1 = call := hsame
      omega
    · have := hclean.key_lt call link hlink
      omega

theorem addGroup_clean {group : CallerGroup} (hclean : state.recorder.Clean state.program)
    (hadd : (addGroup stem formals state group : Outcome ε Wrapping) = .ok state') :
    state'.recorder.Clean state'.program := by
  obtain ⟨extra, nodeName, name, handover, -, -, hfold⟩ := addGroup_eq_ok hadd
  have hstart : state.recorder.Clean ((exitAddition state.program extra nodeName name
      state.boundary.body state.anchor handover group.destination).after state.program) := by
    refine ⟨hclean.silent, fun call link hlink => ?_⟩
    rw [Addition.size_nodes_after]
    exact Nat.lt_add_right _ (hclean.key_lt call link hlink)
  exact Outcome.foldlM_keeps (fun state : Wrapping => state.recorder.Clean state.program)
    (fun _ _ _ _ => addEntrance_clean) hstart hfold

end Wrapping

theorem Program.wrap_clean {ε : Type} {P : Program} {body : SubgraphId} {groups : List CallerGroup}
    {recorder : LinkRecorder} {wrapping : Wrapping} (hclean : recorder.Clean P)
    (hwrap : (P.wrap body groups recorder : Outcome ε Wrapping) = .ok wrapping) :
    wrapping.recorder.Clean wrapping.program := by
  obtain ⟨subgraph, -, hfold⟩ := Outcome.bind_eq_ok.mp hwrap
  exact Outcome.foldlM_keeps (fun state : Wrapping => state.recorder.Clean state.program)
    (fun _ _ _ _ => Wrapping.addGroup_clean) hclean hfold

namespace ScheduleRun

variable {sharing : ExitSharing} {run run' : ScheduleRun} {P P' : Program}

theorem wrapBody_clean {catalog : Catalog} {body : SubgraphId} (h : run.recorder.Clean P)
    (hwrap : wrapBody sharing catalog (run, P) body = .ok (run', P')) : run'.recorder.Clean P' := by
  obtain ⟨groups, dead, -, hcases⟩ := wrapBody_cases hwrap
  rcases hcases with ⟨-, rfl, rfl⟩ | ⟨-, -, rfl, rfl⟩ | ⟨-, states, wrapping, hbuild, rfl, rfl⟩
  · exact h
  · exact h
  · exact wrap_clean h hbuild

theorem wrapAll_clean (h : run.recorder.Clean P) (hwrap : run.wrapAll sharing P = .ok (run', P')) :
    run'.recorder.Clean P' := by
  obtain ⟨catalog, -, hfold⟩ := Outcome.bind_eq_ok.mp hwrap
  exact Outcome.foldlM_keeps (fun state : ScheduleRun × Program => state.1.recorder.Clean state.2)
    (fun _ _ _ _ => wrapBody_clean) h hfold

end ScheduleRun

end TailFlow
