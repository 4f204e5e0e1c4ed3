import YamlPatch.Release.Plan
import YamlPatch.Text.Terminal
import YamlPatch.Tool.File
import YamlPatch.Tool.Options

/-!
# The tools

There are two command line tools, one for each kind of document. A run of either reads the
document, plans the bump and makes it (`Tool.bump`). If all that succeeds the document is
stored, or printed on a dry run; otherwise nothing is written, and the error is logged with
what it goes back to (`RunError.message`), in a form that no terminal takes for a command
(`RunError.logged`).
-/

namespace YamlPatch

open Tool Release

inductive Tool where
  /-- Bumps the versions of a chart. -/
  | chart
  /-- Bumps an operator project with its upgrade graph. -/
  | project
  deriving DecidableEq, Repr

namespace Tool

/-- The option for the path of the document. -/
def pathOption : Tool → Text
  | chart => "chart-metadata-path".toList
  | project => "project-path".toList

/-- Where the document is looked for in the working directory if no path is given. -/
def defaultPath : Tool → Text
  | chart => "Chart.yaml".toList
  | project => "olm-catalog/serverless-operator/project.yaml".toList

/-- The bump that the tool plans. -/
def plan : Tool → Tree → Option Text → Except BumpError Plan
  | chart => Plan.ofChart
  | project => Plan.ofProject

/-- Why a run fails. -/
inductive RunError where
  | unreadable (path : Text) (f : ReadFault)
  | undecodable (path : Text) (faults : List Fault)
  | bump (e : BumpError)
  | unwritable (path : Text) (f : ReadFault)
  deriving Repr

/-- The error and its causes, the nearest first. -/
def RunError.message : RunError → Text
  | unreadable path f => "failed to read file ".toList ++ path ++ ": ".toList ++ f.message
  | undecodable path faults =>
    "failed to decode ".toList ++ path ++ ": ".toList ++ (Fault.summary faults).toList
  | bump e =>
    match e.cause? with
    | some cause => e.message ++ ": ".toList ++ cause
    | none => e.message
  | unwritable path f => "failed to write updates to ".toList ++ path ++ ": ".toList ++ f.message

/-- The message as it is logged. -/
def RunError.logged (e : RunError) : Text := e.message.forTerminal

/-- What is done with fields that are not there. -/
def Options.missing (o : Options) : MissingPolicy := if o.strict then .error else .ignore

/-- The document after the tool's bump. -/
def bumped (tool : Tool) (o : Options) (t : Tree) : Except BumpError Tree :=
  match tool.plan t o.branch with
  | .error e => .error e
  | .ok plan =>
    match plan.apply o.missing t with
    | (t', none) => .ok t'
    | (_, some e) => .error (.write e)

/-- The text of the document after the tool's bump, from what fetching the file at `path`
gave. -/
def bump (tool : Tool) (o : Options) (path : Text) (fetched : Except ReadFault ByteArray) :
    Except RunError Text :=
  match load fetched with
  | .error (.unreadable f) => .error (.unreadable path f)
  | .error (.faulty faults) => .error (.undecodable path faults)
  | .ok t =>
    match tool.bumped o t with
    | .error e => .error (.bump e)
    | .ok t' => .ok t'.text

/-- The exit codes : of a run that succeeds, of one that fails, and of arguments that are not
understood. -/
def successCode : UInt32 := 0

def failureCode : UInt32 := 1

def usageCode : UInt32 := 2

end Tool

end YamlPatch
