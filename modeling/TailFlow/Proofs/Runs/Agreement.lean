import TailFlow.Compile.Comparison
import TailFlow.Proofs.Numeric.Difference
import TailFlow.Proofs.Outcome

/-!
# Which runs are found to agree

Runs are compared by the greatest distance between their elements. A distance that is not a number
is never the greatest, so what a comparison finds alike is not quite what is equal: an element
that is not a number is like any other. Apart from that the verdict is exact. The greatest
distance is zero just if every element is like the one it is compared with, and the runs are
refused just if they differ in the number of outputs, in a shape, in an element or in a count.
-/

namespace TailFlow

/-- Singles of the same value: equal ones, or two that are not numbers. -/
def SameValue (x y : Float32) : Prop := x == y ∨ x.isNaN ∧ y.isNaN

/-- Singles that have no distance. One that is not a number is like any other. -/
def Indistinct (x y : Float32) : Prop := x == y ∨ x.isNaN ∨ y.isNaN

theorem Indistinct.refl (x : Float32) : Indistinct x x := by
  by_cases hnan : x = .nan
  · exact .inr (.inl (by rw [Float32.isNaN_eq_decide_eq_nan, decide_eq_true hnan]))
  · exact .inl (Float32.beq_self_iff.mpr hnan)

/-- Arrays of the same shape whose elements are alike in pairs. -/
def DenseArray.MatchUpTo (alike : Float32 → Float32 → Prop) (expected actual : DenseArray) : Prop :=
  expected.shape = actual.shape ∧ List.Forall₂ alike expected.elements actual.elements

namespace Execution

/-- Runs with as many outputs, which match in pairs, and with the same counts. -/
structure AgreeUpTo (alike : Float32 → Float32 → Prop) (expected actual : Execution) : Prop where
  outputs : List.Forall₂ (DenseArray.MatchUpTo alike) expected.outputs actual.outputs
  callCounts : expected.callCounts = actual.callCounts

section Distances

/-- What can be the greatest distance so far. -/
def Distance (x : Float32) : Prop := x = 0 ∨ 0 < x

theorem distance_zero : Distance 0 := .inl rfl

theorem not_zero_lt_zero : ¬(0 : Float32) < 0 := by decide

variable {x y : Float32}

theorem Distance.zero_lt_of_lt (h : Distance x) (hlt : x < y) : 0 < y := by
  rcases h with rfl | hpos
  · exact hlt
  · exact Binary32.zero_lt_of_lt hpos hlt

theorem Distance.greater (h : Distance x) : Distance (greater x y) := by
  unfold Execution.greater
  split
  case isTrue hlt => exact .inr (h.zero_lt_of_lt hlt)
  case isFalse => exact h

theorem Distance.zero_lt_greater_iff (h : Distance x) :
    0 < Execution.greater x y ↔ 0 < x ∨ 0 < y := by
  unfold Execution.greater
  split
  case isTrue hlt => exact iff_of_true (h.zero_lt_of_lt hlt) (.inr (h.zero_lt_of_lt hlt))
  case isFalse hnot =>
    refine ⟨.inl, ?_⟩
    rintro (hx | hy)
    · exact hx
    · exact h.resolve_left fun hzero => hnot (hzero ▸ hy)

/-- The greatest of some distances, which is above zero if one of them is: from then on it only
grows. -/
theorem Distance.foldl_greater {start : Float32} (h : Distance start)
    (pairs : List (Float32 × Float32)) :
    let greatest := pairs.foldl (fun greatest pair =>
      Execution.greater greatest (pair.1 - pair.2).abs) start
    Distance greatest ∧ (0 < greatest ↔ 0 < start ∨ ∃ pair ∈ pairs, ¬Indistinct pair.1 pair.2) := by
  induction pairs generalizing start with
  | nil => exact ⟨h, by simp⟩
  | cons pair rest ih =>
    obtain ⟨hdistance, hiff⟩ := ih (h.greater (y := (pair.1 - pair.2).abs))
    refine ⟨hdistance, hiff.trans ?_⟩
    rw [h.zero_lt_greater_iff, Binary32.zero_lt_abs_sub_iff, or_assoc]
    simp [Indistinct]

theorem Distance.greatestDifference {start : Float32} (h : Distance start)
    (expected actual : DenseArray) : Distance (greatestDifference start expected actual) :=
  (h.foldl_greater _).1

theorem Distance.zero_lt_greatestDifference_iff {start : Float32} (h : Distance start)
    {expected actual : DenseArray} (hshape : expected.shape = actual.shape) :
    0 < Execution.greatestDifference start expected actual
      ↔ 0 < start ∨ ¬expected.MatchUpTo Indistinct actual := by
  have hlength : expected.elements.length = actual.elements.length := by
    rw [expected.filled, actual.filled, hshape]
  have hmatch : expected.MatchUpTo Indistinct actual
      ↔ ∀ pair ∈ expected.elements.zip actual.elements, Indistinct pair.1 pair.2 := by
    unfold DenseArray.MatchUpTo
    rw [List.forall₂_iff_zip]
    simp [hshape, hlength]
  rw [hmatch]
  refine (h.foldl_greater _).2.trans ?_
  simp

end Distances

section Outputs

variable {pairs : List (DenseArray × DenseArray)}

theorem compareOutputs_of_match (place : Nat)
    (h : ∀ pair ∈ pairs, pair.1.MatchUpTo Indistinct pair.2) :
    compareOutputs place 0 pairs = .ok 0 := by
  induction pairs generalizing place with
  | nil => rfl
  | cons pair rest ih =>
    have hmatch := h _ (List.mem_cons_self ..)
    have hzero : greatestDifference 0 pair.1 pair.2 = 0 := by
      apply (distance_zero.greatestDifference _ _).resolve_right
      rw [distance_zero.zero_lt_greatestDifference_iff hmatch.1]
      simp [not_zero_lt_zero, hmatch]
    rw [compareOutputs, if_pos hmatch.1, hzero]
    exact ih _ fun pair hpair => h pair (List.mem_cons_of_mem _ hpair)

theorem compareOutputs_of_not_match (place : Nat) {start : Float32} (hstart : Distance start)
    (h : 0 < start ∨ ∃ pair ∈ pairs, ¬pair.1.MatchUpTo Indistinct pair.2) :
    (∃ divergence, compareOutputs place start pairs = .refuse divergence)
      ∨ ∃ greatest, compareOutputs place start pairs = .ok greatest ∧ 0 < greatest := by
  induction pairs generalizing place start with
  | nil => exact .inr ⟨start, rfl, by simpa using h⟩
  | cons pair rest ih =>
    obtain ⟨expected, actual⟩ := pair
    rw [compareOutputs]
    split
    -- Shapes are compared along the way, so a later one may refuse before any distance does.
    case isFalse => exact .inl ⟨_, rfl⟩
    case isTrue hshape =>
      apply ih _ (hstart.greatestDifference _ _)
      rw [hstart.zero_lt_greatestDifference_iff hshape, or_assoc]
      simpa using h

end Outputs

section Verdict

variable {expected actual : Execution}

theorem compare_of_agree (h : expected.AgreeUpTo Indistinct actual) :
    expected.compare actual = actual.bodyEntries := by
  have hlength := h.outputs.length_eq
  have houtputs := compareOutputs_of_match 0
    fun pair hpair => (List.forall₂_iff_zip.mp h.outputs).2 hpair
  have hzero : (!((0 : Float32) == 0)) = false := rfl
  unfold compare
  rw [if_neg (not_not.mpr hlength), houtputs, Outcome.ok_bind, hzero, if_neg Bool.false_ne_true,
    if_neg (not_not.mpr h.callCounts)]

theorem compare_of_not_agree (h : ¬expected.AgreeUpTo Indistinct actual) :
    ∃ divergence, expected.compare actual = .refuse divergence := by
  unfold compare
  by_cases hlength : expected.outputs.length = actual.outputs.length
  case neg => exact ⟨_, if_pos hlength⟩
  rw [if_neg (not_not.mpr hlength)]
  by_cases houtputs : ∀ pair ∈ expected.outputs.zip actual.outputs,
    pair.1.MatchUpTo Indistinct pair.2
  case pos =>
    have hcounts : expected.callCounts ≠ actual.callCounts := by
      intro hcounts
      exact h ⟨List.forall₂_iff_zip.mpr ⟨hlength, fun hpair => houtputs _ hpair⟩, hcounts⟩
    have hzero : (!((0 : Float32) == 0)) = false := rfl
    rw [compareOutputs_of_match 0 houtputs, Outcome.ok_bind, hzero, if_neg Bool.false_ne_true]
    exact ⟨_, if_pos hcounts⟩
  case neg =>
    have hother := compareOutputs_of_not_match 0 distance_zero (.inr (by simpa using houtputs))
    rcases hother with ⟨divergence, hrefuse⟩ | ⟨greatest, hok, hpos⟩
    · rw [hrefuse]
      exact ⟨divergence, rfl⟩
    · rw [hok, Outcome.ok_bind, Binary32.beq_zero_of_zero_lt hpos]
      exact ⟨_, rfl⟩

theorem compare_eq_bodyEntries (houtputs : expected.outputs = actual.outputs)
    (hcounts : expected.callCounts = actual.callCounts) :
    expected.compare actual = actual.bodyEntries := by
  apply compare_of_agree
  constructor
  case callCounts => exact hcounts
  case outputs =>
    rw [houtputs, List.forall₂_same]
    intro array _
    exact ⟨rfl, List.forall₂_same.mpr fun element _ => .refl element⟩

/-- The verdict of a comparison. Runs are found to agree just if they have as many outputs, of the
same shapes, with elements that are not told apart, and the same counts. The counts are then added
up, and the sum has to fit 64 bits. -/
theorem compare_verdict (expected actual : Execution) :
    (∀ entries, expected.compare actual = .ok entries ↔ expected.AgreeUpTo Indistinct actual
        ∧ sumOf actual.callCounts.values = entries ∧ entries < wordCount)
      ∧ (expected.compare actual = .abort .overflow ↔ expected.AgreeUpTo Indistinct actual
        ∧ wordCount ≤ sumOf actual.callCounts.values)
      ∧ ((∃ divergence, expected.compare actual = .refuse divergence)
        ↔ ¬expected.AgreeUpTo Indistinct actual) := by
  by_cases hagree : expected.AgreeUpTo Indistinct actual
  case pos =>
    rw [compare_of_agree hagree]
    by_cases hfit : sumOf actual.callCounts.values < wordCount
    case pos =>
      have hentries : (actual.bodyEntries : Outcome Divergence Nat)
          = .ok (sumOf actual.callCounts.values) := if_pos hfit
      simp only [hentries, hagree, Outcome.abort, Outcome.refuse, Except.ok.injEq, reduceCtorEq]
      grind
    case neg =>
      have hentries : (actual.bodyEntries : Outcome Divergence Nat) = .abort .overflow :=
        if_neg hfit
      simp only [hentries, hagree, Outcome.abort, Outcome.refuse, reduceCtorEq]
      grind
  case neg =>
    obtain ⟨divergence, hrefuse⟩ := compare_of_not_agree hagree
    simp [hrefuse, hagree, Outcome.abort, Outcome.refuse]

end Verdict

/-- A run whose only output is not a number. -/
def unknownRun : Execution :=
  ⟨[⟨[1], [Float32.ofBits 0x7fc00000], rfl⟩], IdMap.empty.insert 0 1, 0⟩

/-- The same run with one as its output. -/
def knownRun : Execution :=
  ⟨[⟨[1], [Float32.ofBits 0x3f800000], rfl⟩], IdMap.empty.insert 0 1, 0⟩

theorem unknownRun_passes : ¬((∃ entries, unknownRun.compare knownRun = .ok entries)
    ↔ unknownRun.AgreeUpTo SameValue knownRun) := by
  have hpasses : unknownRun.compare knownRun = .ok 1 := by decide
  rw [iff_true_left ⟨1, hpasses⟩]
  intro hagree
  have hmatch := (List.forall₂_cons.mp hagree.outputs).1
  have hvalue : SameValue (Float32.ofBits 0x7fc00000) (Float32.ofBits 0x3f800000) :=
    (List.forall₂_cons.mp hmatch.2).1
  rcases hvalue with hequal | ⟨-, hnan⟩
  · exact absurd hequal (by decide)
  · exact absurd hnan (by decide)

end Execution

end TailFlow
