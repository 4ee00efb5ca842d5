/-!
# Path faults

Why a path cannot be used, with the number and the text by which a system names the reason.
-/

namespace TailFlow.CommandLine

/-- Why a path cannot be used. -/
inductive PathFault where
  /-- Nothing has the name. -/
  | missing
  /-- The access is not allowed. -/
  | denied
  /-- The path goes on after a file. -/
  | notDirectory
  /-- A directory stands where a file is due. -/
  | directory
  /-- The path, or a name on it, has too many bytes. -/
  | nameTooLong
  deriving DecidableEq, Repr

namespace PathFault

def all : List PathFault := [.missing, .denied, .notDirectory, .directory, .nameTooLong]

def code : PathFault → Nat
  | .missing => 2
  | .denied => 13
  | .notDirectory => 20
  | .directory => 21
  | .nameTooLong => 36

def name : PathFault → String
  | .missing => "No such file or directory"
  | .denied => "Permission denied"
  | .notDirectory => "Not a directory"
  | .directory => "Is a directory"
  | .nameTooLong => "File name too long"

def message (fault : PathFault) : String := s!"{fault.name} (os error {fault.code})"

/-- The path fault of a number. -/
def ofCode? (code : Nat) : Option PathFault := all.find? fun fault => fault.code == code

@[simp] theorem ofCode?_code (fault : PathFault) : ofCode? fault.code = some fault := by
  cases fault <;> rfl

end PathFault

end TailFlow.CommandLine
