import YamlPatch.Text

/-!
# Options of the tools

Each tool takes the same options, except that the file has a name of its own :
`--branch B`, `--strict`, `--dry-run` and a path. A value follows its option as the next
argument or behind an equals sign, and an option is given once. The variables `BUMP_BRANCH`
and `BUMP_STRICT` stand in for options that are not given. An empty branch is none.

`Options.read` has no answer for arguments that are not of this form.
-/

namespace YamlPatch.Tool

/-- The options as the arguments give them. -/
structure Given where
  path : Option Text := none
  branch : Option Text := none
  strict : Bool := false
  dryRun : Bool := false
  deriving DecidableEq, Repr

/-- The options of a run. -/
structure Options where
  path : Option Text
  branch : Option Text
  /-- A field that is not there is an error. -/
  strict : Bool
  /-- The document is printed and not stored. -/
  dryRun : Bool
  deriving DecidableEq, Repr

namespace Given

/-- The name of an option and the value behind its equals sign. -/
def splitOption (t : Text) : Text × Option Text :=
  match t.dropWhile (· != '=') with
  | [] => (t, none)
  | _ :: value => (t.takeWhile (· != '='), some value)

/-- An argument that may be the value of the option before it : it does not look like an
option itself. -/
def isValue : Text → Bool
  | '-' :: _ :: _ => false
  | _ => true

def setPath (g : Given) (value : Text) : Option Given :=
  if g.path.isSome ∨ value = [] then none else some { g with path := some value }

def setBranch (g : Given) (value : Text) : Option Given :=
  if g.branch.isSome then none else some { g with branch := some value }

/-- The option `name` with a value; only the path and the branch have one. -/
def setValue (pathName : Text) (g : Given) (name value : Text) : Option Given :=
  if name = pathName then g.setPath value
  else if name = "branch".toList then g.setBranch value
  else none

/-- The option `name` without a value. -/
def setFlag (g : Given) (name : Text) : Option Given :=
  if name = "strict".toList then if g.strict then none else some { g with strict := true }
  else if name = "dry-run".toList then if g.dryRun then none else some { g with dryRun := true }
  else none

/-- Read the arguments behind those that gave `g`. Two hyphens end the options, and nothing
may follow them. -/
def read (pathName : Text) (g : Given) : List Text → Option Given
  | [] => some g
  | ('-' :: '-' :: option) :: args =>
    if option = [] then (if args = [] then some g else none)
    else match splitOption option with
      | (name, some value) => (g.setValue pathName name value).bind fun g => g.read pathName args
      | (name, none) =>
        if name = pathName ∨ name = "branch".toList then
          match args with
          | [] => none
          | value :: args =>
            if isValue value then
              (g.setValue pathName name value).bind fun g => g.read pathName args
            else none
        else (g.setFlag name).bind fun g => g.read pathName args
  | _ => none

end Given

namespace Options

/-- What a variable says about a flag that was not given. -/
def flagOf : Option Text → Option Bool
  | none => some false
  | some t =>
    if t = "true".toList then some true else if t = "false".toList then some false else none

/-- The options of a run, from its arguments and the two variables. -/
def read (pathName : Text) (args : List Text) (branchVariable strictVariable : Option Text) :
    Option Options :=
  (Given.read pathName {} args).bind fun g =>
    (if g.strict then some true else flagOf strictVariable).map fun strict =>
      { path := g.path
        branch := (g.branch.or branchVariable).filter (· != [])
        strict := strict
        dryRun := g.dryRun }

end Options

end YamlPatch.Tool
