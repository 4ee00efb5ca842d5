import TailFlow.Proofs.Schedule.Passage

/-!
# How scheduling ends

What a checked program lists is there, so almost everything that is looked up while it is scheduled is
found, and a stage that does not go through is refused with a cause. Two things have not been checked.
The subgraph that a segment counts as cut from is looked up when the segment is split, and need not be
there. And the handle of a call may go round in a circle, which copying it would follow for ever. These
are the only ways in which scheduling ends without a verdict.
-/

namespace TailFlow

open Program

variable {P : Program}

/-- Scheduling a checked program ends with a program or with a cause, except that it has no end if the
handle of a call goes round, and that it may break off if a segment counts as cut from a subgraph that
is not there. -/
theorem schedule_ends (hvalid : P.validate = .ok ()) (options : SchedulerOptions) :
    (∃ report Q, schedule options P = .ok (report, Q))
      ∨ (∃ cause, schedule options P = .error (.refused cause))
      ∨ (schedule options P = .error (.abort .endless) ∧ P.GoesRound)
      ∨ (schedule options P = .error (.abort .dangling) ∧ ¬ P.OriginsKnown) := by
  rcases (schedule_passes (wellFormed_of_validate hvalid) options).cases with
    ⟨⟨report, Q⟩, hok, -⟩ | ⟨_, hstop, ⟨cause, rfl, -⟩ | ⟨rfl, hround⟩ | ⟨rfl, hunknown⟩⟩
  · exact .inl ⟨report, Q, hok⟩
  · exact .inr (.inl ⟨cause, hstop⟩)
  · exact .inr (.inr (.inl ⟨hstop, hround⟩))
  · exact .inr (.inr (.inr ⟨hstop, hunknown⟩))

/-- A segment that counts as cut from a subgraph that is not there, and has to be cut itself. -/
def lostOrigin : Program where
  tensors := #["x", "handle", "y", "given", "inner", "middle", "end", "argument", "result"].map
    fun name => ⟨name, [], .f32, none⟩
  nodes := #[⟨"bind", .bind 1, [0], [1]⟩, ⟨"call", .call, [1], [2]⟩, ⟨"bind_body", .bind 2, [3], [4]⟩,
    ⟨"call_body", .call, [4], [5]⟩, ⟨"finish", .kernel .copy, [5], [6]⟩,
    ⟨"pass", .kernel .copy, [7], [8]⟩]
  subgraphs := #[⟨"main", .body, [0], [2], [0, 1]⟩, ⟨"part", .segment 9, [3], [6], [2, 3, 4]⟩,
    ⟨"body", .body, [7], [8], [5]⟩]
  order := [0, 1, 2]
  entry := 0
  outputs := [2]
  links := .empty

/-- Two switches that pick from each other, and a call of either. -/
def roundabout : Program where
  tensors := #["x", "condition", "handle", "left", "right", "y", "z", "argument", "result"].map
    fun name => ⟨name, [], .f32, none⟩
  nodes := #[⟨"bind", .bind 1, [0], [2]⟩, ⟨"pick_left", .switch, [1, 2, 4], [3]⟩,
    ⟨"pick_right", .switch, [1, 2, 3], [4]⟩, ⟨"call_left", .call, [3], [5]⟩,
    ⟨"call_right", .call, [4], [6]⟩, ⟨"pass", .kernel .copy, [7], [8]⟩]
  subgraphs := #[⟨"main", .body, [0, 1], [6], [0, 1, 2, 3, 4]⟩, ⟨"body", .body, [7], [8], [5]⟩]
  order := [0, 1]
  entry := 0
  outputs := [6]
  links := .empty

/-- What is wrong with either program is read off how scheduling it ends. -/
theorem lostOrigin_roundabout_ends : ¬ lostOrigin.OriginsKnown ∧ roundabout.GoesRound := by
  have hlost : schedule {} lostOrigin = .error (.abort .dangling) := by decide +kernel
  have hround : schedule {} roundabout = .error (.abort .endless) := by decide +kernel
  constructor
  · rcases schedule_ends (P := lostOrigin) (by decide +kernel) {} with
      ⟨report, Q, hok⟩ | ⟨cause, hrefuse⟩ | ⟨hendless, -⟩ | ⟨-, hunknown⟩
    · exact nomatch hlost.symm.trans hok
    · exact nomatch hlost.symm.trans hrefuse
    · exact nomatch hlost.symm.trans hendless
    · exact hunknown
  · rcases schedule_ends (P := roundabout) (by decide +kernel) {} with
      ⟨report, Q, hok⟩ | ⟨cause, hrefuse⟩ | ⟨-, hcircle⟩ | ⟨hdangling, -⟩
    · exact nomatch hround.symm.trans hok
    · exact nomatch hround.symm.trans hrefuse
    · exact hcircle
    · exact nomatch hround.symm.trans hdangling

/-- Both programs are checked, and neither is scheduled or refused. -/
theorem lostOrigin_roundabout_abort :
    (lostOrigin.validate = .ok () ∧ schedule {} lostOrigin = .error (.abort .dangling))
      ∧ roundabout.validate = .ok () ∧ schedule {} roundabout = .error (.abort .endless) := by
  decide +kernel

end TailFlow
