import TailFlow.Boundary.Callers

/-!
# The commands and their options

What can be asked for on the command line. One table says which commands there are, which options
each of them has and which options all of them share. Lines are understood by it, and help is given
out of it.
-/

namespace TailFlow.CommandLine

/-- What an option takes. -/
inductive OptionKind where
  /-- Nothing: the option is there or it is not. -/
  | flag
  | text
  | path
  | natural
  | sharing
  deriving DecidableEq, Repr

def path? (word : String) : Option String := if word.isEmpty then none else some word

/-- A natural below `2 ^ 64`, perhaps with a plus sign. -/
def natural? (word : String) : Option Nat :=
  let digits :=
    match word.toList with
    | '+' :: digits => digits
    | digits => digits
  if digits.isEmpty || !digits.all Char.isDigit then none
  else
    let value := digits.foldl (fun value c => value * 10 + (c.toNat - '0'.toNat)) 0
    if value < wordCount then some value else none

def sharing? : String → Option ExitSharing
  | "by-destination" => some .byDestination
  | "per-caller" => some .perCaller
  | _ => none

/-- Whether a word can be the value of an option. The empty word stands for the value of a flag. -/
def OptionKind.accepts (kind : OptionKind) (word : String) : Bool :=
  match kind with
  | .flag => word.isEmpty
  | .text => true
  | .path => (path? word).isSome
  | .natural => (natural? word).isSome
  | .sharing => (sharing? word).isSome

structure OptionSpec where
  name : String
  kind : OptionKind
  /-- What the option is for. -/
  about : String
  /-- What is to be known of its value. -/
  note : String
  deriving DecidableEq, Repr

structure CommandSpec where
  name : String
  /-- What the command does. -/
  about : String
  options : List OptionSpec
  deriving DecidableEq, Repr

def sharedOptions : List OptionSpec :=
  [⟨"config", .path, "JSON compiler configuration; flags below override it", ""⟩,
    ⟨"exit-sharing", .sharing, "", "[possible values: by-destination, per-caller]"⟩]

def commands : List CommandSpec :=
  [⟨"schedule", "Schedule a program and print the scheduling report",
      [⟨"input", .path, "", ""⟩, ⟨"sample", .text, "", ""⟩,
        ⟨"output", .path, "Write the lowered execution plan as JSON", ""⟩,
        ⟨"text", .flag, "Print the scheduled program as text", ""⟩]⟩,
    ⟨"run", "Run a program through the reference interpreter and the scheduled executor",
      [⟨"input", .path, "", ""⟩, ⟨"sample", .text, "", ""⟩,
        ⟨"seed", .natural, "", "[default: 0]"⟩]⟩,
    ⟨"eval", "Check control equivalence over the samples and random programs",
      [⟨"output", .path, "", ""⟩, ⟨"random", .natural, "", "[default: 0]"⟩,
        ⟨"seed", .natural, "", "[default: 1]"⟩]⟩,
    ⟨"samples", "List the built-in sample programs", []⟩]

def command? (name : String) : Option CommandSpec := commands.find? fun command =>
  command.name == name

end TailFlow.CommandLine
