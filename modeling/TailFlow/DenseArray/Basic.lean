import TailFlow.Numeric.Power

/-!
# Dense arrays of singles

An array is its shape and its elements in row-major order. The shape decides how many elements there
are, also for the empty shape, which has one, and a shape with a zero in it, which has none. That
count is part of the type.
-/

namespace TailFlow

def elementCount (shape : List Nat) : Nat := shape.foldr (· * ·) 1

/-- An array of singles. -/
structure DenseArray where
  shape : List Nat
  elements : List Float32
  filled : elements.length = elementCount shape
  deriving DecidableEq

namespace DenseArray

/-- Why a list of elements does not fill a shape. -/
inductive ShapeFault where
  /-- The lengths other than zero multiply to more than can be addressed. -/
  | overflow
  /-- There are fewer elements than the shape has places. -/
  | tooFew
  /-- There are more elements than the shape has places. -/
  | tooMany
  deriving DecidableEq, Repr

def ShapeFault.message : ShapeFault → String
  | .overflow => "ShapeError/Overflow: arithmetic overflow"
  | .tooFew => "ShapeError/OutOfBounds: out of bounds indexing"
  | .tooMany => "ShapeError/IncompatibleShape: incompatible shapes"

/-- The greatest size that can be addressed. -/
def addressable : Nat := twoTo 63 - 1

/-- Whether the lengths other than zero multiply to what can be addressed. -/
def hasExtent (shape : List Nat) : Bool := elementCount (shape.filter (· != 0)) ≤ addressable

/-- Whether memory can be asked for to hold an array of a shape: an element takes four bytes. -/
def isAllocatable (shape : List Nat) : Bool :=
  hasExtent shape && 4 * elementCount shape ≤ addressable

def ofElements (shape : List Nat) (elements : List Float32) : Except ShapeFault DenseArray :=
  if !hasExtent shape then .error .overflow
  else if filled : elements.length = elementCount shape then .ok ⟨shape, elements, filled⟩
  else if elements.length < elementCount shape then .error .tooFew
  else .error .tooMany

def map (f : Float32 → Float32) (array : DenseArray) : DenseArray :=
  ⟨array.shape, array.elements.map f, by simp [array.filled]⟩

def zipWith (f : Float32 → Float32 → Float32) (left right : DenseArray)
    (same : left.shape = right.shape) : DenseArray :=
  ⟨left.shape, List.zipWith f left.elements right.elements, by
    simp [left.filled, right.filled, same]⟩

def single (x : Float32) : DenseArray := ⟨[1], [x], rfl⟩

instance : Inhabited DenseArray := ⟨single 0⟩

def shapeText (shape : List Nat) : String :=
  "[" ++ ", ".intercalate (shape.map toString) ++ "]"

end DenseArray

end TailFlow
