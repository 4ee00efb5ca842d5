import TailFlow.CommandLine.Help

/-!
# Arguments of the command line

A line names one command, with options of its own, and may hold the options that all commands share
before the command or after it. An option that is given after the command wins over the same one
given before. A line is read from left to right, and where it asks for help, what follows is not
looked at. Nor is the last value in front of the command, if it is a word of its own. Anything else
is a usage error.
-/

namespace TailFlow.CommandLine

/-- Where a command takes its program from. -/
structure ProgramChoice where
  input : Option String := none
  sample : Option String := none
  deriving DecidableEq, Repr

inductive Command where
  | schedule (choice : ProgramChoice) (output : Option String) (text : Bool)
  | run (choice : ProgramChoice) (seed : Nat)
  | eval (output : Option String) (random : Nat) (seed : Nat)
  | samples
  deriving DecidableEq, Repr

structure Invocation where
  config : Option String
  sharing : Option ExitSharing
  command : Command
  deriving DecidableEq, Repr

/-- What a line asks for. -/
inductive Request where
  | perform (invocation : Invocation)
  | help (topic : Topic)
  deriving DecidableEq, Repr

abbrev Given := List (String × String)

def cutAtEquals (option : List Char) : String × Option String :=
  match option.span (· != '=') with
  | (name, []) => (String.ofList name, none)
  | (name, _ :: value) => (String.ofList name, some (String.ofList value))

/-- Whether a word is an option rather than a value. A lone dash is a value. -/
def isOption (word : String) : Bool :=
  match word.toList with
  | '-' :: _ :: _ => true
  | _ => false

/-- What has been read of the options of a line. -/
structure Reading where
  given : Given
  /-- The option read last, as long as its value has not been looked at. -/
  waiting : Option (OptionSpec × String)

namespace Reading

def start : Reading := ⟨[], none⟩

/-- Takes in an option, unless it has been given before or does not accept the value. -/
def note (given : Given) (spec : OptionSpec) (value : String) : Option Given :=
  if (given.lookup spec.name).isSome || !spec.kind.accepts value then none
  else some (given ++ [(spec.name, value)])

/-- The options that have been given, with the one that waits taken in. -/
def settle (reading : Reading) : Option Given :=
  match reading.waiting with
  | none => some reading.given
  | some (spec, value) => note reading.given spec value

end Reading

/-- Reads options and gives them with the words from the first that is not one, or without words
where help is asked for. Nothing is read from a word that is no known option or from one whose value
is missing or not wanted. A value that is a word of its own waits until the next option is read. -/
def readOptions (specs : List OptionSpec) :
    List String → Reading → Option (Reading × Option (List String))
  | [], reading => some (reading, some [])
  | word :: rest, reading =>
    if word = "--" then if rest.isEmpty then some (reading, some []) else none
    else match word.toList with
      | '-' :: '-' :: option =>
        let (name, attached) := cutAtEquals option
        if name = "help" then
          if attached.isNone then reading.settle.map fun _ => (reading, none) else none
        else match specs.find? fun spec => spec.name == name with
          | none => none
          | some spec => do
            let given ← reading.settle
            match spec.kind, attached with
            | .flag, some _ => none
            | .flag, none => readOptions specs rest ⟨← Reading.note given spec "", none⟩
            | _, some value => readOptions specs rest ⟨← Reading.note given spec value, none⟩
            | _, none =>
              match rest with
              | [] => none
              | value :: after =>
                if isOption value then none
                else readOptions specs after ⟨given, some (spec, value)⟩
      | '-' :: 'h' :: _ => reading.settle.map fun _ => (reading, none)
      | _ => if isOption word then none else some (reading, some (word :: rest))

/-- The program that the options choose. A file and a sample exclude each other. -/
def choiceOf (given : Given) : Option ProgramChoice :=
  let choice : ProgramChoice := ⟨given.lookup "input", given.lookup "sample"⟩
  if choice.input.isSome && choice.sample.isSome then none else some choice

def naturalOf (given : Given) (name : String) (absent : Nat) : Nat :=
  ((given.lookup name).bind natural?).getD absent

def commandOf (given : Given) : String → Option Command
  | "schedule" => do
    return .schedule (← choiceOf given) (given.lookup "output") (given.lookup "text").isSome
  | "run" => do return .run (← choiceOf given) (naturalOf given "seed" 0)
  | "eval" => some (.eval (given.lookup "output") (naturalOf given "random" 0)
      (naturalOf given "seed" 1))
  | "samples" => some .samples
  | _ => none

/-- What is to be done by a command with its options, after the options in front of it. -/
def invocationOf (before given : Given) (name : String) : Option Invocation := do
  let shared (option : String) := given.lookup option <|> before.lookup option
  return ⟨shared "config", (shared "exit-sharing").bind sharing?, ← commandOf given name⟩

/-- What the help command is asked for. -/
def topicOf : List String → Option Topic
  | [] => some .program
  | [name] => if name = "help" then some .help else (command? name).map .command
  | _ => none

def parse (words : List String) : Option Request := do
  match ← readOptions sharedOptions words .start with
  | (_, none) => return .help .program
  | (_, some []) => none
  | (before, some (name :: rest)) =>
    if name = "help" then return .help (← topicOf rest)
    else
      let command ← command? name
      match ← readOptions (command.options ++ sharedOptions) rest .start with
      | (_, none) => return .help (.command command)
      | (given, some []) =>
        return .perform (← invocationOf (← before.settle) (← given.settle) name)
      | (_, some _) => none

end TailFlow.CommandLine
