import TailFlow.Numeric.Binary32

/-!
# A stream of random numbers

A stream is a 64-bit state that a fixed odd number is added to for every draw. The draw mixes the
state by a full multiplication whose two halves are combined. A number below a bound is the high
half of the draw times the bound; draws that would make some numbers likelier than others are
repeated.
-/

namespace TailFlow

structure RandomStream where
  state : UInt64
  deriving DecidableEq, Repr

namespace RandomStream

/-- What is added to the state for every draw. -/
def increment : UInt64 := 0x2d358dccaa6c78a5

/-- What the state is mixed with. -/
def mixer : UInt64 := 0x8bb84b93962eacc9

def ofSeed (seed : Nat) : RandomStream := ⟨UInt64.ofNat seed⟩

def word (stream : RandomStream) : Nat × RandomStream :=
  let state := stream.state + increment
  let product := state.toNat * (state ^^^ mixer).toNat
  ((product % wordCount) ^^^ (product / wordCount), ⟨state⟩)

def flip (stream : RandomStream) : Bool × RandomStream :=
  let (drawn, stream) := stream.word
  (drawn % 256 % 2 == 0, stream)

/-- Draws again for as long as the low half of the product is under a threshold, at most the given
number of times. -/
def redraw (bound threshold : Nat) : Nat → Nat → RandomStream → Nat × RandomStream
  | 0, product, stream => (product, stream)
  | draws + 1, product, stream =>
    if product % wordCount < threshold then
      let (drawn, stream) := stream.word
      redraw bound threshold draws (drawn * bound) stream
    else (product, stream)

/-- How often a draw is repeated at most. A single repetition is already rarer than one in `2 ^ 58`
for the bounds in use. -/
def patience : Nat := 64

def below (bound : Nat) (stream : RandomStream) : Nat × RandomStream :=
  let drawn := stream.word
  let product := drawn.1 * bound
  let threshold := if product % wordCount < bound then (wordCount - bound) % bound else 0
  let last := redraw bound threshold patience product drawn.2
  (last.1 / wordCount, last.2)

/-- Draws a single of at least zero and less than one, at most the given number of times over. -/
def fraction : Nat → RandomStream → Float32 × RandomStream
  | 0, stream => (0, stream)
  | draws + 1, stream =>
    let (drawn, stream) := stream.word
    let value := Binary32.nearest ⟨false, drawn / 2, -63⟩
    if value < 1 then (value, stream) else fraction draws stream

def symmetric (stream : RandomStream) : Float32 × RandomStream :=
  let (value, stream) := fraction patience stream
  (value * 2 - 1, stream)

def draws {α : Type} (draw : RandomStream → α × RandomStream) :
    Nat → RandomStream → List α × RandomStream
  | 0, stream => ([], stream)
  | count + 1, stream =>
    let (value, stream) := draw stream
    let (others, stream) := draws draw count stream
    (value :: others, stream)

theorem draws_length {α : Type} (draw : RandomStream → α × RandomStream) (count : Nat)
    (stream : RandomStream) : (draws draw count stream).1.length = count := by
  induction count generalizing stream with
  | zero => rfl
  | succ count ih => simp [draws, ih]

end RandomStream

/-- Whatever numbers below a bound and truth values can be drawn from. -/
class RandomSource (σ : Type) where
  /-- Draws a number below a bound. -/
  below : Nat → σ → Nat × σ
  /-- Draws a truth value. -/
  flip : σ → Bool × σ

instance : RandomSource RandomStream where
  below := RandomStream.below
  flip := RandomStream.flip

end TailFlow
