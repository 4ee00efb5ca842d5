import TailFlow.DenseArray.Basic
import TailFlow.Numeric.Decimal

/-!
# The text of an array

Elements stand in brackets, one pair for each axis. The elements of the last axis are set apart by a
comma, the rows of an outer axis by a line break, one more for every axis further out, and each row
is set in by its depth. A large array shows only the first and last few places of every axis.
-/

namespace TailFlow.DenseArray

/-- An array of this many elements or more is abridged. -/
def abridgedFrom : Nat := 500

/-- How many places an axis shows before it is abridged, by the number of axes inside it. -/
def axisLimit (inner : Nat) : Nat := if inner ≤ 1 then 11 else 6

/-- Joins the texts of an axis. An abridged axis keeps half of its limit at either end. -/
def joinAxis (separator : String) (limit : Option Nat) (places : List String) : String :=
  let shown :=
    match limit with
    | none => places
    | some limit =>
      if places.length ≤ limit then places
      else places.take (limit / 2) ++ ["..."] ++ places.drop (places.length - limit / 2)
  separator.intercalate shown

/-- Cuts a list into `count` pieces of `size` elements. -/
def pieces (size : Nat) : Nat → List Float32 → List (List Float32)
  | 0, _ => []
  | count + 1, elements => elements.take size :: pieces size count (elements.drop size)

/-- The text of the part of an array below an axis at a depth. -/
def axisText (abridged : Bool) (depth : Nat) : List Nat → List Float32 → String
  | [], elements => String.join (elements.map singleText)
  | [length], elements =>
    let limit := if abridged then some (axisLimit 0) else none
    "[" ++ joinAxis ", " limit ((elements.take length).map singleText) ++ "]"
  | length :: next :: inner, elements =>
    let separator := ",\n" ++ String.ofList (List.replicate inner.length '\n')
      ++ String.ofList (List.replicate (depth + 1) ' ')
    let limit := if abridged then some (axisLimit (inner.length + 1)) else none
    let rows := pieces (elementCount (next :: inner)) length elements
    let texts := rows.map (axisText abridged (depth + 1) (next :: inner))
    "[" ++ joinAxis separator limit texts ++ "]"

/-- The text of an array. One without elements shows its brackets only. -/
def text (array : DenseArray) : String :=
  if array.elements.isEmpty then
    String.ofList (List.replicate array.shape.length '[')
      ++ String.ofList (List.replicate array.shape.length ']')
  else axisText (abridgedFrom ≤ array.elements.length) 0 array.shape array.elements

end TailFlow.DenseArray
