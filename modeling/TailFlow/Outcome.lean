/-!
# Outcomes

A program is a graph whose parts name each other by number, and nothing forces those numbers to
name anything. An operation on a program therefore ends in one of three ways: it answers, it
refuses with a cause that belongs to the operation, or it breaks off because the graph itself is
ill-formed. The last kind is kept apart from the causes, so that a statement about refusals says
nothing by accident about a graph that was never checked.
-/

namespace TailFlow

/-- Why an operation breaks off without a verdict. -/
inductive Abort where
  /-- A number that names nothing in its arena was followed. -/
  | dangling
  /-- A count left the range of 64 bits. -/
  | overflow
  /-- The operation goes on beyond what it is followed through. -/
  | endless
  deriving DecidableEq, Repr, Inhabited

/-- How an operation ends when it has no answer. -/
inductive Stop (ε : Type) where
  | abort (reason : Abort)
  | refused (cause : ε)
  deriving DecidableEq, Repr, Inhabited

/-- The result of an operation that may refuse with a cause of type `ε`. -/
abbrev Outcome (ε α : Type) := Except (Stop ε) α

namespace Outcome

variable {ε ε' α : Type}

def abort (reason : Abort) : Outcome ε α := .error (.abort reason)

def refuse (cause : ε) : Outcome ε α := .error (.refused cause)

def ensure (condition : Bool) (cause : ε) : Outcome ε Unit :=
  if condition then .ok () else refuse cause

/-- The value that must be there. -/
def following : Option α → Outcome ε α
  | some value => .ok value
  | none => abort .dangling

/-- The value that is there, or the refusal. -/
def orRefuse (cause : ε) : Option α → Outcome ε α
  | some value => .ok value
  | none => refuse cause

def mapCause (f : ε → ε') : Outcome ε α → Outcome ε' α
  | .ok value => .ok value
  | .error (.abort reason) => .error (.abort reason)
  | .error (.refused cause) => .error (.refused (f cause))

/-- Turns a refusal into an answer. -/
def attempt : Outcome ε α → Outcome ε' (Except ε α)
  | .ok value => .ok (.ok value)
  | .error (.abort reason) => .error (.abort reason)
  | .error (.refused cause) => .ok (.error cause)

@[simp] theorem mapCause_ok (f : ε → ε') (value : α) :
    mapCause f (.ok value) = .ok value := rfl

@[simp] theorem attempt_ok (value : α) :
    attempt (.ok value : Outcome ε α) = (.ok (.ok value) : Outcome ε' (Except ε α)) := rfl

@[simp] theorem following_some (value : α) : following (ε := ε) (some value) = .ok value := rfl

@[simp] theorem ensure_true (cause : ε) : ensure true cause = .ok () := rfl

end Outcome

end TailFlow
