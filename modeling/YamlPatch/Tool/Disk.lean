import YamlPatch.Tool.File

/-!
# Disks

A `Disk` holds files, each under the names on the way to it from the top. Its folders are those
on the way to a file, those on the way to the working directory, and any others it lists.
`Disk.fetch` follows a path as a system does, one name after the other, from the top or from the
working directory : a dot stays, two dots go up, and what is passed through has to be a folder,
also in front of a slash at the end.
-/

namespace YamlPatch.Tool

/-- The names between the slashes of a path. -/
def pathNames (path : Text) : List Text := Text.splitOn '/' path

/-- A name that leads nowhere. -/
def isDot (name : Text) : Bool := name == [] || name == ['.']

/-- A name that leads up. -/
def isDots (name : Text) : Bool := name == ['.', '.']

/-- A path that starts at the top. -/
def isAbsolute (path : Text) : Bool := path.head? == some '/'

/-- A file with the names on the way to it. -/
structure File where
  names : List Text
  bytes : ByteArray

/-- The file at a path that leads down from a folder. -/
def File.below (folder : List Text) (path : Text) (bytes : ByteArray) : File :=
  ⟨folder ++ (pathNames path).filter fun n => !isDot n, bytes⟩

structure Disk where
  files : List File
  /-- Folders that are there also if no file is below them. -/
  folders : List (List Text)
  /-- The working directory. -/
  here : List Text

namespace Disk

/-- The file with these names. -/
def file? (d : Disk) (names : List Text) : Option File := d.files.find? fun x => x.names == names

/-- Whether the names lead to a folder. -/
def hasFolder (d : Disk) (names : List Text) : Bool :=
  names.isPrefixOf d.here || (d.folders.any fun x => names.isPrefixOf x) ||
    d.files.any fun x => names.isPrefixOf x.names && names != x.names

/-- The longest name in bytes. -/
def maxNameLength : Nat := 255

/-- The length in bytes from which a path is too long. -/
def maxPathLength : Nat := 4096

/-- Follow names from the place that `place` leads to; nothing is above the top. -/
def follow (d : Disk) (place : List Text) : List Text → Except ReadFault File
  | [] =>
    match d.file? place with
    | some x => .ok x
    | none => .error .isFolder
  | n :: ns =>
    if !d.hasFolder place then .error .notFolder
    else if isDot n then d.follow place ns
    else if isDots n then d.follow place.dropLast ns
    else if maxNameLength < Text.byteLength n then .error .nameTooLong
    else if (d.file? (place ++ [n])).isSome || d.hasFolder (place ++ [n]) then
      d.follow (place ++ [n]) ns
    else .error .notFound

/-- The file at a path. -/
def find (d : Disk) (path : Text) : Except ReadFault File :=
  if path.contains '\x00' then .error .badName
  else if maxPathLength ≤ Text.byteLength path then .error .nameTooLong
  else if path = [] then .error .notFound
  else d.follow (if isAbsolute path then [] else d.here) (pathNames path)

/-- The path from the top that leads where `path` leads from the working directory. -/
def absolute (d : Disk) (path : Text) : Text :=
  if isAbsolute path then path else Text.joinWith ['/'] ([] :: d.here ++ [path])

/-- The bytes of the file at a path. -/
def fetch (d : Disk) (path : Text) : Except ReadFault ByteArray := (d.find path).map File.bytes

/-- The disk with other bytes in the file at a path. -/
def store (d : Disk) (path : Text) (bytes : ByteArray) : Disk :=
  match d.find path with
  | .error _ => d
  | .ok x =>
    { d with
      files := d.files.map fun y => if y.names = x.names then { y with bytes := bytes } else y }

/-- Storing changes bytes and no names. -/
theorem names_store (d : Disk) (path : Text) (bytes : ByteArray) :
    (d.store path bytes).files.map File.names = d.files.map File.names := by
  unfold store
  split
  · rfl
  · simp only [List.map_map]
    apply List.map_congr_left
    intro y _
    simp only [Function.comp_apply]
    split <;> rfl

end Disk

end YamlPatch.Tool
