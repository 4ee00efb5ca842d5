import Mathlib.Data.List.Infix
import Mathlib.Data.List.Nodup
import TailFlow.Program.Access

/-!
# Places in the order

A subgraph that is given its place next to another one leaves the rest of the order as it is. What
stood in one block goes on standing in one block, unless the block is where the subgraph is put.
-/

namespace TailFlow.Program

variable {anchor id last : SubgraphId} {before later order block : List SubgraphId}

theorem insertAfter_eq (habsent : anchor ∉ before) :
    insertAfter anchor id (before ++ anchor :: later) = before ++ anchor :: id :: later := by
  induction before with
  | nil => simp [insertAfter]
  | cons other rest ih =>
    rw [List.mem_cons, not_or] at habsent
    rw [List.cons_append, insertAfter, if_neg (Ne.symm habsent.1), ih habsent.2, List.cons_append]

theorem insertBefore_eq (habsent : anchor ∉ before) :
    insertBefore anchor id (before ++ anchor :: later) = before ++ id :: anchor :: later := by
  induction before with
  | nil => simp [insertBefore]
  | cons other rest ih =>
    rw [List.mem_cons, not_or] at habsent
    rw [List.cons_append, insertBefore, if_neg (Ne.symm habsent.1), ih habsent.2, List.cons_append]

theorem sublist_insertAfter : order.Sublist (insertAfter anchor id order) := by
  induction order with
  | nil => exact List.nil_sublist _
  | cons other rest ih =>
    unfold insertAfter
    split
    · exact (List.sublist_cons_self id rest).cons_cons other
    · exact ih.cons_cons other

theorem sublist_insertBefore : order.Sublist (insertBefore anchor id order) := by
  induction order with
  | nil => exact List.nil_sublist _
  | cons other rest ih =>
    unfold insertBefore
    split
    · exact List.sublist_cons_self id _
    · exact ih.cons_cons other

/-- What is put right after the last of some subgraphs stands behind all of them. -/
theorem concat_sublist_insertAfter {front : List SubgraphId} (hnodup : order.Nodup)
    (hsublist : (front ++ [last]).Sublist order) :
    (front ++ [last] ++ [id]).Sublist (insertAfter last id order) := by
  have hmem : last ∈ order := hsublist.subset (List.mem_append_right _ List.mem_cons_self)
  obtain ⟨before, later, rfl⟩ := List.append_of_mem hmem
  obtain ⟨-, hlater, hapart⟩ := List.nodup_append.mp hnodup
  have habsent : last ∉ before := fun h => hapart last h last List.mem_cons_self rfl
  rw [insertAfter_eq habsent]
  -- Nothing of what stands behind the last one is among them.
  have hfront : (front ++ [last]).Sublist (before ++ [last]) := by
    rw [List.append_cons before last, List.sublist_append_iff] at hsublist
    obtain ⟨first, second, hsplit, hfirst, hsecond⟩ := hsublist
    rcases second.eq_nil_or_concat with rfl | ⟨others, end_, rfl⟩
    · rwa [hsplit, List.append_nil]
    · rw [List.concat_eq_append, ← List.append_assoc] at hsplit
      have hsame := (List.append_inj' hsplit rfl).2
      have hend : end_ ∈ later := hsecond.subset (by simp)
      exact absurd (List.singleton_inj.mp hsame ▸ hend) (List.nodup_cons.mp hlater).1
  rw [List.append_cons before last]
  exact hfront.append (List.cons_sublist_cons.mpr (List.nil_sublist later))

/-- A block that stands in an order without a subgraph goes on standing in it when others come to
stand around that subgraph. -/
theorem infix_of_replace (hblock : block <:+: before ++ anchor :: later) (habsent : anchor ∉ block)
    (middle : List SubgraphId) : block <:+: before ++ middle ++ later := by
  obtain ⟨front, back, hsplit⟩ := hblock
  rw [List.append_assoc] at hsplit
  rcases List.append_eq_append_iff.mp hsplit with ⟨rest, rfl, hrest⟩ | ⟨rest, rfl, hrest⟩
  · rcases List.append_eq_append_iff.mp hrest with ⟨tail, rfl, -⟩ | ⟨tail, rfl, htail⟩
    · exact ⟨front, tail ++ middle ++ later, by simp⟩
    · cases tail with
      | nil => exact ⟨front, middle ++ later, by simp⟩
      | cons first tail =>
        obtain ⟨rfl, -⟩ := List.cons.inj htail
        exact absurd (List.mem_append_right _ List.mem_cons_self) habsent
  · cases rest with
    | nil =>
      cases block with
      | nil => exact ⟨[], before ++ middle ++ later, rfl⟩
      | cons first block =>
        obtain ⟨rfl, -⟩ := List.cons.inj hrest
        exact absurd List.mem_cons_self habsent
    | cons first rest =>
      obtain ⟨-, rfl⟩ := List.cons.inj hrest
      exact ⟨before ++ middle ++ rest, back, by simp⟩

end TailFlow.Program
