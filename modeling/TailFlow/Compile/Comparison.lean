import TailFlow.Collection.Sum
import TailFlow.Eval.Execution
import TailFlow.Outcome

/-!
# Comparing two runs

Two runs of the same inputs agree if they give as many results, of the same shapes, without any
difference between their elements, and enter every body equally often. A difference that is not a
number does not count.
-/

namespace TailFlow

/-- How a run differs from the one it is compared with. -/
inductive Divergence where
  | outputCount (expected actual : Nat)
  | outputShape (place : Nat) (expected actual : List Nat)
  | outputs (greatest : Float32)
  | callCounts (expected actual : IdMap Nat)
  deriving DecidableEq, Repr

def countsText (counts : IdMap Nat) : String :=
  "\x7b" ++ ", ".intercalate (counts.entries.map fun (id, count) => s!"SubgraphId({id}): {count}")
    ++ "\x7d"

def Divergence.message : Divergence → String
  | .outputCount expected actual => s!"reference produced {expected} outputs, scheduled {actual}"
  | .outputShape place expected actual =>
    s!"output {place} has shape {DenseArray.shapeText actual}, "
      ++ s!"expected {DenseArray.shapeText expected}"
  | .outputs greatest => s!"outputs differ by up to {singleScientific greatest}"
  | .callCounts expected actual =>
    s!"call counts differ: reference {countsText expected}, scheduled {countsText actual}"

namespace Execution

/-- The greater of two numbers, where one that is not a number loses. -/
def greater (x y : Float32) : Float32 := if x < y then y else x

def greatestDifference (start : Float32) (expected actual : DenseArray) : Float32 :=
  (expected.elements.zip actual.elements).foldl
    (fun greatest pair => greater greatest (pair.1 - pair.2).abs) start

/-- The greatest difference between the elements of as many arrays, which must have the same
shapes. -/
def compareOutputs : Nat → Float32 → List (DenseArray × DenseArray) → Outcome Divergence Float32
  | _, greatest, [] => .ok greatest
  | place, greatest, (expected, actual) :: rest =>
    if expected.shape = actual.shape then
      compareOutputs (place + 1) (greatestDifference greatest expected actual) rest
    else .refuse (.outputShape place expected.shape actual.shape)

/-- The number of times that bodies were entered, which has to fit 64 bits. -/
def bodyEntries {ε : Type} (execution : Execution) : Outcome ε Nat :=
  let entries := sumOf execution.callCounts.values
  if entries < wordCount then .ok entries else .abort .overflow

/-- Compares a run with the one it should agree with, and refuses one that differs. Where they
agree, gives the number of times that bodies were entered. -/
def compare (expected actual : Execution) : Outcome Divergence Nat := do
  if expected.outputs.length ≠ actual.outputs.length then
    .refuse (.outputCount expected.outputs.length actual.outputs.length)
  else
    let greatest ← compareOutputs 0 0 (expected.outputs.zip actual.outputs)
    if !(greatest == 0) then .refuse (.outputs greatest)
    else if expected.callCounts ≠ actual.callCounts then
      .refuse (.callCounts expected.callCounts actual.callCounts)
    else actual.bodyEntries

end Execution

end TailFlow
