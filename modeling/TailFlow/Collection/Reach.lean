import TailFlow.Collection.IdSet

/-!
# What a relation reaches

The numbers reached from a start by following a relation again and again. The search takes in, a
round at a time, every successor of what it has seen, and it ends at the first round that brings
nothing new; a round that does bring something adds a number, so as many rounds as there are
numbers to be found are enough.
-/

namespace TailFlow.Reach

variable (next : Nat → List Nat)

/-- What has been seen and every successor of it. -/
def widen (seen : IdSet) : IdSet := seen.insertAll (seen.members.flatMap next)

/-- Widens until nothing new is found, at most the given number of rounds. -/
def closure : Nat → IdSet → IdSet
  | 0, seen => seen
  | rounds + 1, seen =>
    let wider := widen next seen
    if wider = seen then seen else closure rounds wider

end TailFlow.Reach
