import TailFlow.Collection.IdMap

/-!
# Progress of a subgraph

While a program is scheduled every subgraph moves through stages. It is analyzed, split for as long
as it holds a call that is not a tail call, perhaps wrapped, and in the end final. Only the moves
listed here are lawful.
-/

namespace TailFlow

/-- How far a subgraph has come. -/
inductive Progress where
  | unvisited
  | analyzed (nonTailCalls : Nat)
  | stable
  | pendingSplit
  | split
  | pendingBoundary
  | bounded
  | final
  deriving DecidableEq, Repr, Inhabited

namespace Progress

/-- Whether a subgraph may move from one stage to another. -/
def canMoveTo : Progress → Progress → Bool
  | .unvisited, .analyzed _ => true
  | .analyzed pending, .stable => pending == 0
  | .analyzed pending, .pendingSplit => pending != 0
  | .pendingSplit, .split => true
  | .split, .analyzed _ => true
  | .stable, .pendingBoundary => true
  | .stable, .final => true
  | .pendingBoundary, .bounded => true
  | .bounded, .final => true
  | _, _ => false

def name : Progress → String
  | .unvisited => "Unvisited"
  | .analyzed _ => "Analyzed"
  | .stable => "Stable"
  | .pendingSplit => "PendingSplit"
  | .split => "Split"
  | .pendingBoundary => "PendingBoundary"
  | .bounded => "Bounded"
  | .final => "Final"

def describe : Progress → String
  | .analyzed pending => s!"Analyzed \x7b non_tail_calls: {pending} \x7d"
  | stage => stage.name

end Progress

end TailFlow
