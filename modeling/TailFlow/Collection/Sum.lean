/-!
# Sums of counts

The sum of a list of naturals, with its value on the empty list and on a list with a head.
-/

namespace TailFlow

def sumOf (counts : List Nat) : Nat := counts.foldr (· + ·) 0

@[simp] theorem sumOf_nil : sumOf [] = 0 := rfl

@[simp] theorem sumOf_cons (count : Nat) (counts : List Nat) :
    sumOf (count :: counts) = count + sumOf counts := rfl

end TailFlow
