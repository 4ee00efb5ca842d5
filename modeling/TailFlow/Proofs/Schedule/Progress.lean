import TailFlow.Proofs.Collection
import TailFlow.Proofs.Outcome
import TailFlow.Schedule.ProgressTable

/-!
# The stages of subgraphs

A lawful move puts one entry into the table and leaves the others as they are. The table can be
finished if every subgraph that is not final yet is stable or bounded.
-/

namespace TailFlow

namespace ProgressTable

variable {table : ProgressTable} {id : SubgraphId}

theorem move_eq_ok {stage : Progress} (hstage : table.get? id = some stage) (next : Progress)
    (hcan : stage.canMoveTo next = true) :
    table.move id next = .ok ⟨table.stages.insert id next⟩ := by
  unfold move
  rw [hstage, Option.getD_some, if_pos hcan]

theorem get?_insert (table : ProgressTable) (id : SubgraphId) (stage : Progress)
    (other : SubgraphId) : (ProgressTable.mk (table.stages.insert id stage)).get? other
      = if id = other then some stage else table.get? other :=
  IdMap.get?_insert _ _ _ _

theorem track_eq_self {stage : Progress} (hstage : table.get? id = some stage) :
    table.track id = table := by
  rw [track, if_pos (IdMap.contains_eq_true.mpr ⟨stage, hstage⟩)]

theorem get?_track (hnone : table.get? id = none) (other : SubgraphId) :
    (table.track id).get? other = if id = other then some .unvisited else table.get? other := by
  rw [track, if_neg]
  · exact get?_insert table id _ other
  · rw [IdMap.contains_eq_true]
    rintro ⟨stage, hstage⟩
    exact Option.some_ne_none _ (hstage.symm.trans hnone)

theorem get?_foldl_trackFinal (ids : List SubgraphId) (table : ProgressTable) (id : SubgraphId) :
    (ids.foldl trackFinal table).get? id
      = if id ∈ ids then some .final else table.get? id := by
  induction ids generalizing table with
  | nil => simp
  | cons first rest ih =>
    rw [List.foldl_cons, ih, trackFinal, get?_insert]
    by_cases hrest : id ∈ rest
    · rw [if_pos hrest, if_pos (.tail _ hrest)]
    · simp only [List.mem_cons, hrest, or_false, if_false, eq_comm]

theorem finishEach_eq_ok {ids : List SubgraphId} (hnodup : ids.Nodup)
    (hready : ∀ id ∈ ids, ∃ stage, table.get? id = some stage ∧ stage.canMoveTo .final) :
    ∃ table', table.finishEach ids = (table', .ok ())
      ∧ ∀ id, table'.get? id = if id ∈ ids then some .final else table.get? id := by
  induction ids generalizing table with
  | nil => exact ⟨table, rfl, fun id => by simp⟩
  | cons first rest ih =>
    obtain ⟨habsent, hnodup⟩ := List.nodup_cons.mp hnodup
    obtain ⟨⟨stage, hstage, hcan⟩, htail⟩ := List.forall_mem_cons.mp hready
    have hkept : ∀ other ∈ rest, ∃ stage,
        (⟨table.stages.insert first .final⟩ : ProgressTable).get? other = some stage
          ∧ stage.canMoveTo .final := by
      intro other hmem
      have hne : first ≠ other := fun h => habsent (h ▸ hmem)
      rw [get?_insert, if_neg hne]
      exact htail other hmem
    rw [finishEach, move_eq_ok hstage .final hcan]
    obtain ⟨table', hfinish, hget⟩ := ih hnodup hkept
    refine ⟨table', hfinish, fun id => ?_⟩
    rw [hget, get?_insert]
    by_cases hrest : id ∈ rest
    · rw [if_pos hrest, if_pos (.tail _ hrest)]
    · simp only [List.mem_cons, hrest, or_false, if_false, eq_comm]

/-- Every subgraph is final or may go to the final stage. -/
def Ready (table : ProgressTable) : Prop :=
  ∀ ⦃id : SubgraphId⦄ ⦃stage : Progress⦄, table.get? id = some stage →
    stage = .final ∨ stage.canMoveTo .final

theorem finish_eq_ok (hready : table.Ready) : ∃ table', table.finish = (table', .ok ())
    ∧ ∀ id, table'.get? id = (table.get? id).map fun _ => .final := by
  let unfinished := (table.stages.entries.filter fun entry => entry.2 != .final).map Prod.fst
  have hmem (id : SubgraphId) :
      id ∈ unfinished ↔ ∃ stage, table.get? id = some stage ∧ stage ≠ .final := by
    simp only [unfinished, List.mem_map, List.mem_filter, bne_iff_ne, Prod.exists,
      exists_and_right, exists_eq_right, get?, IdMap.get?_eq_some_iff]
  have hnodup : unfinished.Nodup := by
    rw [List.Nodup, List.pairwise_map]
    exact (table.stages.ascending.filter _).imp Nat.ne_of_lt
  obtain ⟨table', hfinish, hget⟩ := finishEach_eq_ok hnodup fun id hid => by
    obtain ⟨stage, hstage, hopen⟩ := (hmem id).mp hid
    exact ⟨stage, hstage, (hready hstage).resolve_left hopen⟩
  refine ⟨table', hfinish, fun id => (hget id).trans ?_⟩
  simp only [hmem]
  cases hstage : table.get? id with
  | none => simp
  | some stage => by_cases hfinal : stage = .final <;> simp [hfinal]

end ProgressTable

end TailFlow
