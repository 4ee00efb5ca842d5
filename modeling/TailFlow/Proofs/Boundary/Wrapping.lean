import TailFlow.Boundary.Wrappers
import TailFlow.Proofs.Boundary.Addition

/-!
# Exits and entrances

An exit and an entrance are each one `Addition`. `Wraps` tells which exits and entrances have been
added to a program on the way to another one, and the lemmas say what the result consists of: the
old subgraphs as they were, exits, and entrances that stand complete with their links, each of them
named by the one caller that it was built for.
-/

namespace TailFlow

open Program

def exitAddition (P : Program) (extra : List Tensor) (nodeName name : String) (body : SubgraphId)
    (anchor : SubgraphId) (handover destination : List TensorId) : Addition :=
  ⟨extra, [⟨nodeName, .kernel .copy, handover, destination⟩], name, .exit body, handover,
    destination, insertAfter anchor P.subgraphs.size P.order, none⟩

def entranceAddition (P : Program) (extra : List Tensor) (binderName callName name : String)
    (body : SubgraphId) (caller : NodeId) (arguments : List TensorId) (handle : TensorId)
    (handover : List TensorId) : Addition :=
  ⟨extra, [⟨binderName, .bind body, arguments, [handle]⟩, ⟨callName, .call, [handle], handover⟩],
    name, .entrance body, arguments, handover, insertBefore body P.subgraphs.size P.order,
    some caller⟩

namespace Wrapping

variable {ε : Type}

theorem addEntrance_eq_ok {stem : String} {formals handover : List TensorId} {exit : SubgraphId}
    {consumer caller : NodeId} {state state' : Wrapping}
    (hadd : (addEntrance stem formals exit consumer handover state caller : Outcome ε Wrapping)
      = .ok state') : ∃ extra binderName callName name arguments handle,
        state.program.Fresh extra (arguments ++ [handle]) ∧ arguments.length = formals.length
          ∧ state' = { state with
            program := (entranceAddition state.program extra binderName callName name
              state.boundary.body caller arguments handle handover).after state.program
            recorder := state.recorder.record
              ⟨state.program.nodes.size + 1, exit, consumer, handover⟩
            boundary := { state.boundary with
              entrances := state.boundary.entrances
                ++ [⟨caller, state.program.subgraphs.size, exit⟩] } } := by
  obtain ⟨⟨arguments, program⟩, hlikes, hbody⟩ := Outcome.bind_eq_ok.mp hadd
  obtain ⟨_, -, hpure⟩ := Outcome.bind_eq_ok.mp hbody
  obtain ⟨extra, hfresh, hlength, rfl⟩ := addLikes_eq_ok hlikes
  obtain rfl := Outcome.pure_eq_ok.mp hpure
  rw [length_numberedNames] at hlength
  let name := s!"{stem}_entrance{state.boundary.entrances.length}"
  have hall : state.program.Fresh (extra ++ [⟨name ++ "_handle", [], .f32, none⟩])
      (arguments ++ [state.program.tensors.size + extra.length]) := by
    refine ⟨?_, fun tensor hmem => ?_⟩
    · rw [hfresh.ids_eq, List.length_append, List.length_singleton, List.range'_concat, Nat.one_mul]
    · rcases List.mem_append.mp hmem with hold | hnew
      · exact hfresh.plain tensor hold
      · rw [List.mem_singleton.mp hnew]
  refine ⟨_, name ++ "_partial", name ++ "_call", name, arguments, _, hall,
    by rw [hfresh.length_eq, hlength], ?_⟩
  simp [entranceAddition, Addition.after, Addition.subgraph, placeBefore, updateNode, name]
  refine ⟨?_, rfl⟩
  congr 1

theorem addGroup_eq_ok {stem : String} {formals : List TensorId} {state state' : Wrapping}
    {group : CallerGroup} (hadd : (addGroup stem formals state group : Outcome ε Wrapping)
      = .ok state') : ∃ extra nodeName name handover,
        state.program.Fresh extra handover ∧ handover.length = group.destination.length
          ∧ group.callers.foldlM (addEntrance stem formals state.program.subgraphs.size
              state.program.nodes.size handover)
            { state with
              program := (exitAddition state.program extra nodeName name state.boundary.body
                state.anchor handover group.destination).after state.program
              anchor := state.program.subgraphs.size
              boundary := { state.boundary with
                exits := state.boundary.exits ++ [state.program.subgraphs.size] } }
            = (.ok state' : Outcome ε Wrapping) := by
  obtain ⟨⟨handover, program⟩, hlikes, hbody⟩ := Outcome.bind_eq_ok.mp hadd
  obtain ⟨extra, hfresh, hlength, rfl⟩ := addLikes_eq_ok hlikes
  rw [length_numberedNames] at hlength
  let name := s!"{stem}_exit{state.boundary.exits.length}"
  refine ⟨extra, name ++ "_copy", name, handover, hfresh, by rw [hfresh.length_eq, hlength], ?_⟩
  rw [← hbody]
  congr 2

end Wrapping

/-! ### The two additions fit -/

section Applies

variable {P : Program} {extra : List Tensor} {body : SubgraphId}
  {arguments handover destination : List TensorId}

theorem exitAddition_applies {nodeName name : String} {anchor : SubgraphId}
    (hfresh : P.Fresh extra handover) (hlength : handover.length = destination.length)
    (hdestination : ∀ tensor ∈ destination, tensor < P.tensors.size) :
    (exitAddition P extra nodeName name body anchor handover destination).Applies P := by
  have hhandover {tensor : TensorId} (hmem : tensor ∈ handover ++ destination) :
      tensor < P.tensors.size + extra.length := by
    rcases List.mem_append.mp hmem with hfirst | hsecond
    · simpa using hfresh.lt_of_mem hfirst
    · exact Nat.lt_add_right _ (hdestination tensor hsecond)
  refine ⟨insertAfter_perm _ _ _, fun _ => hhandover, ?_, ?_, ?_, ?_, ?_, ?_, nofun⟩
  · intro node hnode tensor htensor
    obtain rfl := List.mem_singleton.mp hnode
    exact hhandover htensor
  · intro node hnode
    obtain rfl := List.mem_singleton.mp hnode
    exact hlength
  · intro node hnode
    obtain rfl := List.mem_singleton.mp hnode
    rfl
  · intro node hnode hbinder
    obtain rfl := List.mem_singleton.mp hnode
    exact nomatch hbinder
  · intro node hnode hcall
    obtain rfl := List.mem_singleton.mp hnode
    exact nomatch hcall
  · intro place node hnode hcall
    obtain rfl := List.mem_singleton.mp (List.mem_of_getElem? hnode)
    exact nomatch hcall

theorem entranceAddition_applies {binderName callName name : String} {handle : TensorId}
    {target : Subgraph} {listed : ListedNode} (hfresh : P.Fresh extra (arguments ++ [handle]))
    (htarget : P.subgraphs[body]? = some target)
    (hlength : arguments.length = target.inputs.length)
    (hhandover : ∀ tensor ∈ handover, tensor < P.tensors.size) (hlists : P.Lists listed)
    (hkind : listed.node.kind = .bind body) :
    (entranceAddition P extra binderName callName name body listed.id arguments handle
      handover).Applies P := by
  have hnew {tensor : TensorId} (hmem : tensor ∈ arguments ++ [handle]) :
      tensor < P.tensors.size + extra.length := by
    simpa using hfresh.lt_of_mem hmem
  have hold {tensor : TensorId} (hmem : tensor ∈ handover) :
      tensor < P.tensors.size + extra.length :=
    Nat.lt_add_right _ (hhandover tensor hmem)
  have hhandle : handle ∈ arguments ++ [handle] := by simp
  refine ⟨insertBefore_perm _ _ _, ?_, ?_, ?_, ?_, ?_, ?_, ?_, ?_⟩
  · intro tensor htensor
    rcases List.mem_append.mp htensor with hargument | hresult
    · exact hnew (List.mem_append_left _ hargument)
    · exact hold hresult
  · intro node hnode tensor htensor
    rcases List.mem_pair.mp hnode with rfl | rfl
    · exact hnew htensor
    · rcases List.mem_cons.mp htensor with rfl | hresult
      · exact hnew hhandle
      · exact hold hresult
  · intro node hnode
    rcases List.mem_pair.mp hnode with rfl | rfl
    · exact ⟨target, htarget, hlength, rfl⟩
    · exact List.cons_ne_nil _ _
  · intro node hnode
    rcases List.mem_pair.mp hnode with rfl | rfl <;> rfl
  · intro node hnode hbinder tensor htensor
    rcases List.mem_pair.mp hnode with rfl | rfl
    · obtain rfl := List.mem_singleton.mp htensor
      exact hfresh.le_of_mem hhandle
    · exact nomatch hbinder
  · intro node hnode hcall tensor htensor
    rcases List.mem_pair.mp hnode with rfl | rfl
    · exact nomatch hcall
    · obtain rfl := Option.some.inj htensor
      exact hfresh.le_of_mem hhandle
  · intro place node hnode hcall
    match place, hnode with
    | 0, hnode =>
      obtain rfl := Option.some.inj hnode
      exact nomatch hcall
    | 1, hnode =>
      obtain rfl := Option.some.inj hnode
      exact ⟨rfl, rfl⟩
  · intro id hid
    obtain rfl := Option.some.inj hid
    exact ⟨listed, body, target, hlists, rfl, hkind, htarget, hlength⟩

end Applies

end TailFlow
