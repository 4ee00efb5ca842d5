import TailFlow.Boundary.Callers
import TailFlow.Schedule.LinkRecorder

/-!
# Wrapping a body

Every group of callers gets an exit, which copies the results of the body to where the group wants
them. Every caller gets an entrance, which takes its arguments, calls the body and has a link to the
exit of its group; the caller is made to name its entrance instead of the body. In the order the
entrances stand right before the body and the exits right after it.
-/

namespace TailFlow

/-- The entrance of a caller, and the exit that goes with it. -/
structure EntranceWrapper where
  caller : NodeId
  entrance : SubgraphId
  exit : SubgraphId
  deriving DecidableEq, Repr

structure Boundary where
  body : SubgraphId
  entrances : List EntranceWrapper
  exits : List SubgraphId
  deriving DecidableEq, Repr

/-- A program in which a body is being wrapped. -/
structure Wrapping where
  program : Program
  recorder : LinkRecorder
  boundary : Boundary
  /-- The subgraph that the next exit stands right after. -/
  anchor : SubgraphId

namespace Wrapping

variable {ε : Type}

/-- Builds the entrance of a caller. The exit is given with the node that starts it and the tensors
that this node reads. -/
def addEntrance (stem : String) (formals : List TensorId) (exit : SubgraphId) (consumer : NodeId)
    (handover : List TensorId) (state : Wrapping) (caller : NodeId) : Outcome ε Wrapping := do
  let body := state.boundary.body
  let place := state.boundary.entrances.length
  let name := s!"{stem}_entrance{place}"
  let (arguments, program) ← state.program.addLikes (Program.numberedNames (name ++ "_arg") formals)
  let (handle, program) := program.addTensor ⟨name ++ "_handle", [], .f32, none⟩
  let (binder, program) := program.addNode ⟨name ++ "_partial", .bind body, arguments, [handle]⟩
  let (call, program) := program.addNode ⟨name ++ "_call", .call, [handle], handover⟩
  let (entrance, program) :=
    program.addSubgraph ⟨name, .entrance body, arguments, handover, [binder, call]⟩
  let program := program.placeBefore body entrance
  let _ ← program.node caller
  let program := program.updateNode caller fun node => { node with kind := .bind entrance }
  return { state with
    program
    recorder := state.recorder.record ⟨call, exit, consumer, handover⟩
    boundary := { state.boundary with
      entrances := state.boundary.entrances ++ [⟨caller, entrance, exit⟩] } }

def addGroup (stem : String) (formals : List TensorId) (state : Wrapping) (group : CallerGroup) :
    Outcome ε Wrapping := do
  let place := state.boundary.exits.length
  let name := s!"{stem}_exit{place}"
  let (handover, program) ←
    state.program.addLikes (Program.numberedNames (name ++ "_link") group.destination)
  let (consumer, program) :=
    program.addNode ⟨name ++ "_copy", .kernel .copy, handover, group.destination⟩
  let (exit, program) := program.addSubgraph
    ⟨name, .exit state.boundary.body, handover, group.destination, [consumer]⟩
  let program := program.placeAfter state.anchor exit
  let state := { state with
    program
    anchor := exit
    boundary := { state.boundary with exits := state.boundary.exits ++ [exit] } }
  group.callers.foldlM (addEntrance stem formals exit consumer handover) state

end Wrapping

namespace Program

variable {ε : Type}

/-- Wraps a body for the given groups of callers, and records the links of its entrances. -/
def wrap (program : Program) (body : SubgraphId) (groups : List CallerGroup)
    (recorder : LinkRecorder) : Outcome ε Wrapping := do
  let subgraph ← program.subgraph body
  groups.foldlM (Wrapping.addGroup subgraph.name subgraph.inputs)
    ⟨program, recorder, ⟨body, [], []⟩, body⟩

end Program

end TailFlow
