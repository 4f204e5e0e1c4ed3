import YamlPatch.Tool

/-!
# Command line

The first argument names the tool, `chart` or `project`, and the others are its options. What
a run does is `Tool.bump`; here the arguments, the variables and the file are fetched, and
the document is printed or stored.
-/

namespace YamlPatch.CommandLine

open Tool

/-- What the system says about a file. -/
def faultOf : IO.Error → ReadFault
  | .noFileOrDirectory _ code text => .system text code.toNat
  | .inappropriateType _ code text => .system text code.toNat
  | .permissionDenied _ code text => .system text code.toNat
  | .invalidArgument _ code text => .system text code.toNat
  | .resourceExhausted _ code text => .system text code.toNat
  | .noSuchThing _ code text => .system text code.toNat
  | .otherError code text => .system text code.toNat
  | e => .system e.toString 0

/-- The bytes of a file. -/
def fetch (path : Text) : IO (Except ReadFault ByteArray) := do
  try
    return .ok (← IO.FS.readBinFile path.toString)
  catch e =>
    return .error (faultOf e)

/-- Put a document into a file. -/
def store (path text : Text) : IO (Except ReadFault Unit) := do
  try
    return .ok (← IO.FS.writeBinFile path.toString (encodeText text))
  catch e =>
    return .error (faultOf e)

/-- The text of an environment variable, if it is set. -/
def variableText (name : String) : IO (Option Text) := return (← IO.getEnv name).map String.toList

/-- Log why a run failed. -/
def fail (e : RunError) : IO UInt32 := do
  IO.eprintln e.logged.toString
  return failureCode

/-- Report what the arguments should be. -/
def usage (tool : Tool) : IO UInt32 := do
  IO.eprintln ("options: [--" ++ tool.pathOption.toString ++
    " PATH] [--branch BRANCH] [--strict] [--dry-run]")
  return usageCode

/-- A run of a tool. -/
def run (tool : Tool) (args : List String) : IO UInt32 := do
  match Options.read tool.pathOption (args.map String.toList) (← variableText "BUMP_BRANCH")
      (← variableText "BUMP_STRICT") with
  | none => usage tool
  | some o =>
    let path ← match o.path with
      | some path => pure path
      | none => do
        let here ← IO.currentDir
        pure (here.toString.toList ++ '/' :: tool.defaultPath)
    match tool.bump o path (← fetch path) with
    | .error e => fail e
    | .ok text =>
      if o.dryRun then
        IO.print text.toString
        return successCode
      else match ← store path text with
        | .ok () => return successCode
        | .error f => fail (.unwritable path f)

end YamlPatch.CommandLine

/-- The first argument chooses the tool. Without one of the two names nothing is run, and the
status says so. -/
def main (args : List String) : IO UInt32 := do
  match args with
  | "chart" :: args => YamlPatch.CommandLine.run .chart args
  | "project" :: args => YamlPatch.CommandLine.run .project args
  | _ =>
    IO.eprintln "tools: chart, project"
    return YamlPatch.Tool.usageCode
