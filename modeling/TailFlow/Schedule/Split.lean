import TailFlow.CallGraph.Resolution

/-!
# Splitting a subgraph

A subgraph is cut right after its first call that is not a tail call. The call hands its results
over in fresh tensors, which become the results of what is left of the subgraph, so the call is a
tail call there. What followed the call becomes a segment that first copies the fresh tensors to
where the call used to write, so that everything after the cut reads what it read before.
-/

namespace TailFlow

/-- What a split made. -/
structure SplitOutcome where
  /-- The subgraph that was cut. It keeps its number and ends with the call. -/
  head : SubgraphId
  continuation : SubgraphId
  call : NodeId
  link : Link
  /-- The number of calls in the continuation that are not tail calls. -/
  remaining : Nat
  deriving DecidableEq, Repr

namespace Program

variable {ε : Type}

/-- The subgraph that the segments of a subgraph count as cut from. -/
def segmentOrigin (id : SubgraphId) : SubgraphKind → SubgraphId
  | .segment origin => origin
  | _ => id

def segmentCount (program : Program) (origin : SubgraphId) : Nat :=
  program.subgraphs.countP fun subgraph => subgraph.kind == .segment origin

/-- Cuts a subgraph after a call that it lists and that is not a tail call. -/
def splitAt (program : Program) (id : SubgraphId) (call : NodeId) :
    Outcome ε (SplitOutcome × Program) := do
  let subgraph ← program.subgraph id
  let node ← program.node call
  let (handover, program) ← program.addLikes (numberedNames (node.name ++ "_link") node.outputs)
  let program := program.updateNode call fun node => { node with outputs := handover }
  let origin := segmentOrigin id subgraph.kind
  let stem := (← program.subgraph origin).name
  let place := program.segmentCount origin + 1
  let (resume, program) :=
    program.addNode ⟨s!"{stem}_resume{place}", .kernel .copy, handover, node.outputs⟩
  let rest := (subgraph.nodes.dropWhile (· != call)).drop 1
  let program := program.updateSubgraph id fun subgraph =>
    { subgraph with
      nodes := subgraph.nodes.takeWhile (· != call) ++ [call]
      outputs := handover }
  let (continuation, program) := program.addSubgraph
    ⟨s!"{stem}_seg{place}", .segment origin, handover, subgraph.outputs, resume :: rest⟩
  let program := program.placeAfter id continuation
  let remaining := (← program.nonTailCalls continuation).length
  return (⟨id, continuation, call, ⟨call, continuation, resume, handover⟩, remaining⟩, program)

/-- Cuts a subgraph after its first call that is not a tail call, if it has one. -/
def splitFirst (program : Program) (id : SubgraphId) :
    Outcome ε (Option (SplitOutcome × Program)) := do
  match ← program.firstNonTailCall? id with
  | none => return none
  | some call => return some (← program.splitAt id call)

end Program

end TailFlow
