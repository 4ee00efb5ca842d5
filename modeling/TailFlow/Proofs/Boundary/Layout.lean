import TailFlow.Proofs.Boundary.Wrapping
import TailFlow.Proofs.Program.Order

/-!
# Where wrappers are laid out

While a body is being wrapped, its entrances, the body and its exits stand in the order as one block,
and nothing else in the order is moved. So what wrapping makes of the order is told by the block that
has taken the place of the body.
-/

namespace TailFlow

open Program

/-- The entrances of a body, the body and its exits, as they are laid out. -/
def Boundary.block (boundary : Boundary) : List SubgraphId :=
  boundary.entrances.map EntranceWrapper.entrance ++ boundary.body :: boundary.exits

namespace Wrapping

variable {ε : Type} {before later : List SubgraphId} {state state' : Wrapping}

/-- The block of the body stands between the given parts of the order, and the last exit is where the
next one is put. -/
structure Laid (before later : List SubgraphId) (state : Wrapping) : Prop where
  order_eq : state.program.order = before ++ state.boundary.block ++ later
  anchor_eq : (state.boundary.body :: state.boundary.exits).getLast? = some state.anchor
  nodup : state.program.order.Nodup
  lt : ∀ id ∈ state.program.order, id < state.program.subgraphs.size

theorem nodup_of_perm {order order' : List SubgraphId} {size : Nat}
    (hperm : order'.Perm (size :: order)) (hnodup : order.Nodup) (hlt : ∀ id ∈ order, id < size) :
    order'.Nodup ∧ ∀ id ∈ order', id < size + 1 := by
  constructor
  · exact hperm.nodup_iff.mpr (List.nodup_cons.mpr ⟨fun h => Nat.lt_irrefl _ (hlt _ h), hnodup⟩)
  · intro id hid
    rcases List.mem_cons.mp (hperm.mem_iff.mp hid) with rfl | hold
    · exact Nat.lt_succ_self _
    · exact Nat.lt_succ_of_lt (hlt id hold)

theorem addEntrance_laid {stem : String} {formals handover : List TensorId} {exit : SubgraphId}
    {consumer caller : NodeId} (hlaid : Laid before later state)
    (hadd : (addEntrance stem formals exit consumer handover state caller : Outcome ε Wrapping)
      = .ok state') : Laid before later state' := by
  obtain ⟨extra, binderName, callName, name, arguments, handle, -, -, rfl⟩ :=
    addEntrance_eq_ok hadd
  obtain ⟨hnodup, hlt⟩ := nodup_of_perm (insertBefore_perm state.boundary.body
    state.program.subgraphs.size state.program.order) hlaid.nodup hlaid.lt
  refine ⟨?_, hlaid.anchor_eq, hnodup, ?_⟩
  · have horder : state.program.order = (before
        ++ state.boundary.entrances.map EntranceWrapper.entrance)
        ++ state.boundary.body :: (state.boundary.exits ++ later) := by
      simp [hlaid.order_eq, Boundary.block]
    have habsent : state.boundary.body
        ∉ before ++ state.boundary.entrances.map EntranceWrapper.entrance := fun hmem =>
      (List.nodup_append.mp (horder ▸ hlaid.nodup)).2.2 _ hmem _ List.mem_cons_self rfl
    show insertBefore state.boundary.body state.program.subgraphs.size state.program.order = _
    rw [horder, insertBefore_eq habsent]
    simp [Boundary.block]
  · intro id hid
    rw [Addition.size_subgraphs_after]
    exact hlt id hid

theorem addGroup_laid {stem : String} {formals : List TensorId} {group : CallerGroup}
    (hlaid : Laid before later state)
    (hadd : (addGroup stem formals state group : Outcome ε Wrapping) = .ok state') :
    Laid before later state' := by
  obtain ⟨extra, nodeName, name, handover, -, -, hfold⟩ := addGroup_eq_ok hadd
  obtain ⟨hnodup, hlt⟩ := nodup_of_perm (insertAfter_perm state.anchor
    state.program.subgraphs.size state.program.order) hlaid.nodup hlaid.lt
  refine Outcome.foldlM_keeps (Laid before later) (fun _ _ _ _ => addEntrance_laid) ?_ hfold
  refine ⟨?_, List.getLast?_concat (l := state.boundary.body :: state.boundary.exits), hnodup, ?_⟩
  · obtain ⟨front, hfront⟩ : ∃ front,
        state.boundary.body :: state.boundary.exits = front ++ [state.anchor] :=
      List.getLast?_eq_some_iff.mp hlaid.anchor_eq
    have horder : state.program.order = (before
        ++ state.boundary.entrances.map EntranceWrapper.entrance ++ front)
        ++ state.anchor :: later := by
      simp [hlaid.order_eq, Boundary.block, hfront]
    have habsent : state.anchor
        ∉ before ++ state.boundary.entrances.map EntranceWrapper.entrance ++ front := fun hmem =>
      (List.nodup_append.mp (horder ▸ hlaid.nodup)).2.2 _ hmem _ List.mem_cons_self rfl
    show insertAfter state.anchor state.program.subgraphs.size state.program.order = _
    rw [horder, insertAfter_eq habsent, Boundary.block, ← List.cons_append, hfront]
    simp
  · intro id hid
    rw [Addition.size_subgraphs_after]
    exact hlt id hid

end Wrapping

theorem Program.wrap_order {ε : Type} {P : Program} (hP : P.WellFormed) {body : SubgraphId}
    {groups : List CallerGroup} {recorder : LinkRecorder} {wrapping : Wrapping}
    (hwrap : (P.wrap body groups recorder : Outcome ε Wrapping) = .ok wrapping)
    {before later : List SubgraphId} (horder : P.order = before ++ body :: later) :
    wrapping.program.order = before ++ wrapping.boundary.block ++ later := by
  obtain ⟨subgraph, -, hfold⟩ := Outcome.bind_eq_ok.mp hwrap
  refine (Outcome.foldlM_keeps (Wrapping.Laid before later)
    (fun _ _ _ _ => Wrapping.addGroup_laid) ?_ hfold).order_eq
  refine ⟨?_, rfl, hP.order_nodup, fun id hid => hP.mem_order.mp hid⟩
  simpa [Boundary.block] using horder

end TailFlow
