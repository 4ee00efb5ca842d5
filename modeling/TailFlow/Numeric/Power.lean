/-!
# Powers of two and of ten

Binary formats are laid out in powers of two and decimal grids in powers of ten. Both are written
with a natural exponent.
-/

namespace TailFlow

def twoTo (exponent : Nat) : Nat := Nat.pow 2 exponent

def tenTo (exponent : Nat) : Nat := Nat.pow 10 exponent

@[simp] theorem twoTo_zero : twoTo 0 = 1 := rfl

theorem twoTo_succ (exponent : Nat) : twoTo (exponent + 1) = twoTo exponent * 2 := rfl

theorem twoTo_pos (exponent : Nat) : 0 < twoTo exponent := by
  induction exponent with
  | zero => exact Nat.one_pos
  | succ exponent ih =>
    rw [twoTo_succ]
    exact Nat.mul_pos ih Nat.two_pos

/-- The number of values that a word of 64 bits has. -/
def wordCount : Nat := twoTo 64

end TailFlow
