import TailFlow.CommandLine.Options

/-!
# Help

The texts that the command line shows about itself: what it is for, how a line is put together, and
its commands and options with what they do, in two columns.
-/

namespace TailFlow.CommandLine

inductive Topic where
  | program
  | command (spec : CommandSpec)
  /-- How to ask for help. -/
  | help
  deriving DecidableEq, Repr

def filledUp (width : Nat) (text : String) : String :=
  text ++ String.ofList (List.replicate (width - text.length) ' ')

/-- Rows of two columns. -/
def columns (rows : List (String × String)) : String :=
  let width := (rows.map fun row => row.1.length).foldl max 0
  String.join (rows.map fun row => "  " ++ filledUp width row.1 ++ "  " ++ row.2 ++ "\n")

def OptionSpec.valueName (spec : OptionSpec) : String :=
  spec.name.map fun c => if c = '-' then '_' else c.toUpper

def OptionSpec.usage (spec : OptionSpec) : String :=
  "    --" ++ spec.name ++ if spec.kind = .flag then "" else " <" ++ spec.valueName ++ ">"

def OptionSpec.description (spec : OptionSpec) : String :=
  " ".intercalate ([spec.about, spec.note].filter (· != ""))

/-- Whether an option comes before another one, by their places and then by their names. -/
def comesBefore (left right : OptionSpec × Nat) : Bool :=
  left.2 < right.2 || (left.2 == right.2 && decide (left.1.name ≤ right.1.name))

def optionList (options : List OptionSpec) : String :=
  let sorted := (sharedOptions.zipIdx ++ options.zipIdx).mergeSort comesBefore
  "Options:\n" ++ columns (sorted.map (fun (spec, _) => (spec.usage, spec.description))
    ++ [("-h, --help", "Print help")])

def helpAbout : String := "Print this message or the help of the given subcommand(s)"

def commandList : String :=
  "Commands:\n" ++ columns (commands.map (fun command => (command.name, command.about))
    ++ [("help", helpAbout)])

def Topic.text : Topic → String
  | .program => "Control-flow subgraph scheduler toolkit\n\nUsage: callflow [OPTIONS] <COMMAND>\n\n"
      ++ commandList ++ "\n" ++ optionList []
  | .command spec =>
    s!"{spec.about}\n\nUsage: callflow {spec.name} [OPTIONS]\n\n" ++ optionList spec.options
  | .help => helpAbout ++ "\n\nUsage: callflow help [COMMAND]...\n\nArguments:\n"
      ++ columns [("[COMMAND]...", "Print help for the subcommand(s)")]

end TailFlow.CommandLine
