import YamlPatch.Patch.Write
import YamlPatch.Release.Arithmetic

/-!
# Release bumps

A bump is planned before it is made. A `Plan` is the release being cut, the one after it, and
the fields to write (`Plan.updates`). There are two kinds of documents : a chart, whose
versions go to the next release (`Plan.ofChart`), and an operator project, whose upgrade
graph moves along with its version (`Plan.ofProject`).

`Plan.apply` makes the writes in order and stops at the first that fails; what was written
until then is kept.
-/

namespace YamlPatch.Release

/-- Why a bump is not planned or not made. -/
inductive BumpError where
  /-- The field that holds the version is not there or blank. -/
  | missingField (p : KeyPath)
  | invalidVersion (text : Text) (cause : VersionFault)
  | invalidBranch (branch : Text) (cause : VersionFault)
  | write (e : WriteError)
  deriving Repr

namespace BumpError

def message : BumpError → Text
  | missingField p => "field '".toList ++ p.text ++ "' is missing or empty".toList
  | invalidVersion t _ => "invalid version '".toList ++ t ++ ['\'']
  | invalidBranch b _ => "invalid release branch '".toList ++ b ++ ['\'']
  | write e => e.message

/-- What the error goes back to. -/
def cause? : BumpError → Option Text
  | missingField _ => none
  | invalidVersion _ e => some e.message
  | invalidBranch _ e => some e.message
  | write (.unreadable u) => some u.message
  | write _ => none

end BumpError

/-! ## The release being cut -/

/-- The version that a text is, apart from white space around it. -/
def readVersion (t : Text) : Except BumpError Version :=
  match Version.parse (Text.trim t) with
  | .ok v => .ok v
  | .error e => .error (.invalidVersion t e)

/-- The release that a branch is named for. -/
def branchVersion (b : Text) : Except BumpError Version :=
  match Version.ofBranch b with
  | .ok v => .ok v
  | .error e => .error (.invalidBranch b e)

/-- The release of a branch if there is one, else the release of the current version. -/
def releaseVersion (current : Version) : Option Text → Except BumpError Version
  | some b => branchVersion b
  | none => .ok current.release

/-- A path by its keys. -/
def field (k : String) (ks : List String) : KeyPath :=
  ⟨k.toList :: ks.map String.toList, List.cons_ne_nil _ _⟩

/-- The text of the scalar at a path of the first document. -/
def readField (t : Tree) (p : KeyPath) : Option Text := (Cursor.ofTree t).string? p

/-- The release being cut : of the branch if there is one, else of the version at `p`. -/
def currentRelease (t : Tree) (p : KeyPath) : Option Text → Except BumpError Version
  | some b => branchVersion b
  | none =>
    match (readField t p).filter fun s => Text.trim s != [] with
    | some s => (readVersion s).map Version.release
    | none => .error (.missingField p)

/-! ## Plans -/

/-- A field and the value to write there. -/
structure Update where
  path : KeyPath
  value : Value
  deriving Repr

structure Plan where
  /-- The release being cut. -/
  current : Version
  /-- The release after it. -/
  next : Version
  /-- The writes, in the order in which they are made. -/
  updates : List Update
  deriving Repr

namespace Plan

/-- A version as a value. -/
def versionValue (v : Version) : Value := .ofText v.text

/-- The writes to a chart that goes to the release `next`. -/
def chartUpdates (next : Version) : List Update :=
  [⟨field "version" [], versionValue next⟩, ⟨field "appVersion" [], versionValue next⟩]

/-- The plan for a chart. -/
def ofChart (t : Tree) (branch : Option Text) : Except BumpError Plan :=
  (currentRelease t (field "version" []) branch).map fun current =>
    ⟨current, current.nextMinor, chartUpdates current.nextMinor⟩

/-- The channels of a project : the default channel if there is one, and the stable channel
of the next release. -/
def channels (t : Tree) (next : Version) : List Value :=
  let stable := "stable-".toList ++ naturalText next.major ++ '.' :: naturalText next.minor
  ((readField t (field "olm" ["channels", "default"])).toList ++ [stable]).map Value.ofText

/-- The components whose version before the bump is recorded. -/
def components : List String := ["serving", "eventing", "eventing_kafka_broker"]

/-- The write that records the version of a component, if it has one. -/
def recordComponent (t : Tree) (component : String) : List Update :=
  ((readField t (field "dependencies" [component])).map fun s =>
    ⟨field "dependencies" ["previous", component], .ofText s⟩).toList

/-- The writes about the release before the one being cut, if there is one. -/
def previousUpdates (current : Version) : List Update :=
  match current.previousMinor? with
  | some previous =>
    [⟨field "olm" ["previous", "replaces"], versionValue previous⟩,
     ⟨field "olm" ["previous", "skipRange"], .ofText (Version.skipRange previous current)⟩]
  | none => []

/-- The writes to a project. -/
def projectUpdates (t : Tree) (current next : Version) : List Update :=
  [⟨field "project" ["version"], versionValue next⟩,
   ⟨field "dependencies" ["redhat-knative-istio-authz-chart"], versionValue next⟩,
   ⟨field "olm" ["replaces"], versionValue current⟩,
   ⟨field "olm" ["skipRange"], .ofText (Version.skipRange current next)⟩,
   ⟨field "olm" ["channels", "list"], .sequence (channels t next)⟩] ++
    components.flatMap (recordComponent t) ++ previousUpdates current

/-- The plan for an operator project. -/
def ofProject (t : Tree) (branch : Option Text) : Except BumpError Plan :=
  (currentRelease t (field "project" ["version"]) branch).map fun current =>
    ⟨current, current.nextMinor, projectUpdates t current current.nextMinor⟩

/-! ## Application -/

/-- The document after the writes, and what stopped them if not all were made. -/
def applyUpdates (m : MissingPolicy) : List Update → Tree → Tree × Option WriteError
  | [], t => (t, none)
  | u :: us, t =>
    match (Cursor.ofTree t).set u.path u.value m with
    | .ok t' => applyUpdates m us t'
    | .error e => (t, some e)

/-- A write that is made is followed by the others. -/
theorem applyUpdates_cons {m : MissingPolicy} {u : Update} {t t₁ : Tree}
    (h : (Cursor.ofTree t).set u.path u.value m = .ok t₁) (us : List Update) :
    applyUpdates m (u :: us) t = applyUpdates m us t₁ := by
  rw [applyUpdates, h]

/-- If all the writes are made then so is the first, and the others behind it. -/
theorem exists_of_applyUpdates_cons {m : MissingPolicy} {u : Update} {us : List Update}
    {t t' : Tree} (h : applyUpdates m (u :: us) t = (t', none)) :
    ∃ t₁, (Cursor.ofTree t).set u.path u.value m = .ok t₁ ∧
      applyUpdates m us t₁ = (t', none) := by
  rw [applyUpdates] at h
  split at h
  · exact ⟨_, ‹_›, h⟩
  · cases h

/-- A write that fails leaves the document as it was : no part of it is made. -/
theorem eq_of_applyUpdates_singleton {m : MissingPolicy} {u : Update} {t t' : Tree}
    {e : WriteError} (h : applyUpdates m [u] t = (t', some e)) : t' = t := by
  simp only [applyUpdates] at h
  split at h
  · cases h
  · cases h
    rfl

/-- The document after the writes of the plan, and what stopped them. -/
def apply (plan : Plan) (m : MissingPolicy) (t : Tree) : Tree × Option WriteError :=
  applyUpdates m plan.updates t

end Plan

end YamlPatch.Release
