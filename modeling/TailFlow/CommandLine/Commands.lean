import TailFlow.CommandLine.Arguments
import TailFlow.DenseArray.Text
import TailFlow.Suite.Evaluation

/-!
# The commands of the command line

What each command does, told through a host that reads and writes files and prints lines. Nothing
else here depends on where the commands run.
-/

namespace TailFlow.CommandLine

/-- What commands need of the place they run in. A file that cannot be read or written gives the
reason. -/
structure Host (m : Type → Type) where
  readFile : String → m (Except String String)
  writeFile : String → String → m (Except String Unit)
  print : String → m Unit
  /-- The time in milliseconds. -/
  clock : m Nat

/-- Why a command fails: what was being done, from the outermost on, and the reason last. -/
abbrev Failure := Stop (List String)

abbrev Action (m : Type → Type) := ExceptT Failure m

/-- How a line ends. -/
inductive Ending where
  | done
  | failed (reasons : List String)
  | usage
  | aborted (reason : Abort)
  deriving DecidableEq, Repr

def Ending.code : Ending → Nat
  | .done => 0
  | .failed _ => 1
  | .usage => 2
  | .aborted _ => 101

/-- Sets the further lines of a reason in. -/
def indented (first other reason : String) : String :=
  first ++ ("\n" ++ other).intercalate (reason.splitOn "\n")

/-- The causes under a failure. Several are numbered. -/
def causesText : List String → String
  | [] => ""
  | [cause] => "\n\nCaused by:\n" ++ indented "    " "    " cause
  | causes => "\n\nCaused by:" ++ String.join (causes.zipIdx.map fun (cause, place) =>
      let number := toString place
      "\n" ++ indented (String.ofList (List.replicate (5 - number.length) ' ') ++ number ++ ": ")
        "       " cause)

/-- What an ending writes to the error output. -/
def Ending.errorText : Ending → String
  | .failed (reason :: causes) => "Error: " ++ reason ++ causesText causes ++ "\n"
  | _ => ""

section

variable {m : Type → Type} [Monad m]

def fail {α : Type} (reasons : List String) : Action m α := throw (.refused reasons)

def answer {ε α : Type} (reasons : ε → List String) (outcome : Outcome ε α) : Action m α :=
  match outcome.mapCause reasons with
  | .ok value => return value
  | .error stop => throw stop

def printLine (host : Host m) (line : String) : Action m Unit := host.print (line ++ "\n")

def faultText : Json.Fault → String
  | .truncated => "EOF while parsing a value"
  | .malformed => "expected value"
  | .mismatched => "invalid type"

def readFile (host : Host m) (task path : String) : Action m String := do
  match ← host.readFile path with
  | .ok contents => return contents
  | .error reason => fail [s!"{task} {path}", reason]

def writeFile (host : Host m) (path contents : String) : Action m Unit := do
  match ← host.writeFile path contents with
  | .ok () => return ()
  | .error reason => fail [reason]

def loadConfig (host : Host m) (path : String) : Action m Config := do
  let contents ← readFile host "reading config" path
  match Config.read contents with
  | .ok config => return config
  | .error fault => fail [s!"parsing config {path}", faultText fault]

def readErrorReasons : Program.ReadError → List String
  | .document fault => ["malformed program JSON", faultText fault]
  | .invalid defect => [defect.message]

def loadProgram (host : Host m) (path : String) : Action m Program := do
  let contents ← readFile host "reading program from" path
  match Program.read contents with
  | .ok program => return program
  | .error cause => fail (s!"loading program {path}" :: readErrorReasons cause)

/-- The program that was chosen, with inputs. -/
def chosen (host : Host m) (choice : ProgramChoice) (seed : Nat) : Action m Sample := do
  match choice.input, choice.sample with
  | some path, _ =>
    let program ← loadProgram host path
    let inputs ← answer (fun cause : Empty => nomatch cause) (seededInputs program seed)
    return ⟨path, "loaded from file", program, inputs, false⟩
  | none, some name =>
    match ← answer (fun cause => [cause.message]) (Sample.builtin? name) with
    | some sample => return sample
    | none => fail [s!"unknown sample '{name}'; run `callflow samples` for the list"]
  | none, none => fail ["pass --input FILE or --sample NAME"]

/-- Schedules a program, prints the report and perhaps the program, and perhaps writes the plan. -/
def scheduleCommand (host : Host m) (config : Config) (choice : ProgramChoice)
    (output : Option String) (text : Bool) : Action m Unit := do
  let sample ← chosen host choice 0
  let artifacts ← answer CompileError.chain (compile config sample.program)
  printLine host artifacts.report.toJson.text
  if text then printLine host artifacts.text
  match output with
  | some path => writeFile host path artifacts.plan.toJson.text
  | none => return ()

def outputLines (expected actual : Execution) : List String :=
  (expected.outputs.zip actual.outputs).zipIdx.map fun ((expected, actual), place) =>
    s!"- output {place}: reference={expected.text} scheduled={actual.text}"

def countLines {ε : Type} (program : Program) (expected actual : Execution) :
    Outcome ε (List String) :=
  actual.callCounts.entries.mapM fun (id, count) => do
    let subgraph ← program.subgraph id
    let known := (expected.callCounts.get? id).getD 0
    return s!"- {SubgraphId.label id} ({subgraph.name}): "
      ++ s!"reference_calls={known} scheduled_calls={count}"

def runCommand (host : Host m) (config : Config) (choice : ProgramChoice) (seed : Nat) :
    Action m Unit := do
  let sample ← chosen host choice seed
  let artifacts ← answer CompileError.chain (compile config sample.program)
  let reasons (cause : EvalError) := [cause.message]
  let expected ← answer reasons (Recursive.run sample.program config.limits sample.inputs)
  let actual ← answer reasons (Machine.run artifacts.plan config.limits sample.inputs)
  printLine host s!"program={sample.name} splits={artifacts.report.splits}"
  (outputLines expected actual).forM (printLine host)
  let counts ← answer reasons (countLines artifacts.written expected actual)
  counts.forM (printLine host)
  printLine host s!"steps: reference={expected.steps} scheduled={actual.steps}"

def caseLine (result : CaseResult) : String :=
  s!"- {result.name}: passed={result.passed} splits={result.splits} links={result.links} "
    ++ s!"entrances={result.entrances}"

def evalCommand (host : Host m) (config : Config) (output : Option String) (random seed : Nat) :
    Action m Unit := do
  let buildReasons (cause : BuildError) := [cause.message]
  let builtin ← answer buildReasons Sample.builtin
  let drawn ← answer buildReasons (Sample.randomSamples random seed)
  let report ← answer buildReasons (Sample.evaluateAll config (builtin ++ drawn))
  let milliseconds ← host.clock
  printLine host (s!"exit_sharing={report.sharing.name}, cases={report.cases.length}, "
    ++ s!"generated_at={milliseconds}")
  report.cases.forM fun result => printLine host (caseLine result)
  match output with
  | some path => writeFile host path (report.toJson milliseconds).text
  | none => pure ()
  if report.allPassed then return ()
  else fail [s!"{report.failures.length} case(s) failed the equivalence check"]

def sampleLine (sample : Sample) : String :=
  let marker := if sample.expectRejection then " (rejected)" else ""
  s!"{sample.name}{marker}: {sample.description}"

def samplesCommand (host : Host m) : Action m Unit := do
  let samples ← answer (fun cause => [cause.message]) Sample.builtin
  samples.forM fun sample => printLine host (sampleLine sample)

def perform (host : Host m) (invocation : Invocation) : Action m Unit := do
  let config ←
    match invocation.config with
    | some path => loadConfig host path
    | none => pure {}
  let config :=
    match invocation.sharing with
    | some sharing => { config with scheduler := { config.scheduler with sharing } }
    | none => config
  match invocation.command with
  | .schedule choice output text => scheduleCommand host config choice output text
  | .run choice seed => runCommand host config choice seed
  | .eval output random seed => evalCommand host config output random seed
  | .samples => samplesCommand host

def execute (host : Host m) (words : List String) : m Ending := do
  match parse words with
  | none => return .usage
  | some (.help topic) =>
    host.print topic.text
    return .done
  | some (.perform invocation) =>
    match ← (perform host invocation).run with
    | .ok () => return .done
    | .error (.refused reasons) => return .failed reasons
    | .error (.abort reason) => return .aborted reason

end

end TailFlow.CommandLine
