import TailFlow.Program.Access
import TailFlow.Suite.RandomStream

/-!
# Programs with inputs

A sample is a program together with inputs to run it on, and the knowledge whether the scheduler has
to refuse it. Inputs can be made from a seed.
-/

namespace TailFlow

/-- A program with inputs. -/
structure Sample where
  name : String
  description : String
  program : Program
  inputs : List DenseArray
  /-- Whether the scheduler has to refuse the program. -/
  expectRejection : Bool
  deriving DecidableEq

def randomArray (shape : List Nat) (stream : RandomStream) : DenseArray × RandomStream :=
  let drawn := RandomStream.draws RandomStream.symmetric (elementCount shape) stream
  (⟨shape, drawn.1, RandomStream.draws_length ..⟩, drawn.2)

def randomArrays : List (List Nat) → RandomStream → List DenseArray
  | [], _ => []
  | shape :: rest, stream =>
    let (array, stream) := randomArray shape stream
    array :: randomArrays rest stream

def seededInputs {ε : Type} (program : Program) (seed : Nat) : Outcome ε (List DenseArray) := do
  let formals ← program.entryInputs
  let tensors ← formals.mapM program.tensor
  let shapes := tensors.map Tensor.shape
  if shapes.all DenseArray.isAllocatable then return randomArrays shapes (.ofSeed seed)
  else .abort .overflow

end TailFlow
