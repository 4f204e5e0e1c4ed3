import YamlPatch.Number.Decimal
import YamlPatch.Text.Quoted

/-!
# Semantic versions

A `Version` is three numbers, and lists of identifiers that name a pre-release and a build.
`Version.text` writes it as `1.2.3-pre.1+build`, and `Version.parse` reads it from left to
right : numbers of 64 bits without a zero in front, and identifiers of letters, digits and
hyphens. What is wrong first is the cause of failure (`VersionFault`).
-/

namespace YamlPatch

/-- A part of a version's text. -/
inductive VersionPart where
  | major
  | minor
  | patch
  | pre
  | build
  deriving DecidableEq, Repr

/-- How a message calls a part. -/
def VersionPart.name : VersionPart → String
  | major => "major version number"
  | minor => "minor version number"
  | patch => "patch version number"
  | pre => "pre-release identifier"
  | build => "build metadata"

/-- Why a text is no version. -/
inductive VersionFault where
  | empty
  /-- The text ends where the part, or the dot behind it, should be. -/
  | unexpectedEnd (p : VersionPart)
  /-- A character stands where the number should be. -/
  | unexpected (c : Char) (p : VersionPart)
  /-- A character stands behind the part. -/
  | unexpectedAfter (c : Char) (p : VersionPart)
  | leadingZero (p : VersionPart)
  /-- The number does not fit in 64 bits. -/
  | tooLarge (p : VersionPart)
  | emptySegment (p : VersionPart)
  deriving DecidableEq, Repr

/-- What a user is told about a text that is no version. -/
def VersionFault.message : VersionFault → Text
  | empty => "empty string, expected a semver version".toList
  | unexpectedEnd p => "unexpected end of input while parsing ".toList ++ p.name.toList
  | unexpected c p =>
    "unexpected character ".toList ++ Text.quotedChar c ++ " while parsing ".toList ++ p.name.toList
  | unexpectedAfter c p =>
    "unexpected character ".toList ++ Text.quotedChar c ++ " after ".toList ++ p.name.toList
  | leadingZero p => "invalid leading zero in ".toList ++ p.name.toList
  | tooLarge p => "value of ".toList ++ p.name.toList ++ " exceeds u64::MAX".toList
  | emptySegment p => "empty identifier segment in ".toList ++ p.name.toList

/-- A version : three numbers, and the identifiers of a pre-release and of a build. -/
structure Version where
  major : Nat
  minor : Nat
  patch : Nat
  /-- The identifiers of a pre-release; none for a release. -/
  pre : List Text
  /-- The identifiers of a build. -/
  build : List Text
  deriving DecidableEq, Repr

namespace Version

/-- A release without a name of its own. -/
def ofNumbers (major minor patch : Nat) : Version := ⟨major, minor, patch, [], []⟩

/-- Identifiers behind their mark; nothing if there are none. -/
def marked (mark : Char) : List Text → Text
  | [] => []
  | ids => mark :: Text.joinWith ['.'] ids

/-- The text of a version. Identifiers are written behind their mark, and no mark is written
without them. -/
def text (v : Version) : Text :=
  naturalText v.major ++ '.' :: naturalText v.minor ++ '.' :: naturalText v.patch ++
    marked '-' v.pre ++ marked '+' v.build

/-! ## Reading -/

/-- The number at the start of a text, and the text behind it. -/
def readNumber (p : VersionPart) (t : Text) : Except VersionFault (Nat × Text) :=
  match t.takeWhile isDigit, t with
  | [], [] => .error (.unexpectedEnd p)
  | [], c :: _ => .error (.unexpected c p)
  | '0' :: _ :: _, _ => .error (.leadingZero p)
  | digits, t =>
    if appendDigits 0 digits < UInt64.size then .ok (appendDigits 0 digits, t.dropWhile isDigit)
    else .error (.tooLarge p)

/-- The text behind the dot that it starts with. -/
def readDot (p : VersionPart) : Text → Except VersionFault Text
  | '.' :: t => .ok t
  | c :: _ => .error (.unexpectedAfter c p)
  | [] => .error (.unexpectedEnd p)

/-- A letter, a digit or a hyphen. -/
def isIdentifierChar (c : Char) : Bool := c.isAlphanum || c == '-'

/-- What is wrong with an identifier. A number that identifies a pre-release has no zero in
front. -/
def segmentFault? (p : VersionPart) (s : Text) : Option VersionFault :=
  if s = [] then some (.emptySegment p)
  else if p = .pre ∧ s.all isDigit ∧ 1 < s.length ∧ s.head? = some '0' then some (.leadingZero p)
  else none

/-- The identifiers behind a mark, and the text behind them. Without the mark there are
none. -/
def readIdentifiers (mark : Char) (p : VersionPart) (t : Text) :
    Except VersionFault (List Text × Text) :=
  match t with
  | [] => .ok ([], [])
  | c :: r =>
    if c = mark then
      let segments := Text.splitOn '.' (r.takeWhile fun d => isIdentifierChar d || d == '.')
      match segments.findSome? (segmentFault? p) with
      | some e => .error e
      | none => .ok (segments, r.dropWhile fun d => isIdentifierChar d || d == '.')
    else .ok ([], t)

/-- The last part of a version that was given. -/
def lastPart (pre build : List Text) : VersionPart :=
  if build ≠ [] then .build else if pre ≠ [] then .pre else .patch

/-- The version that a text is. -/
def parse (t : Text) : Except VersionFault Version :=
  if t = [] then .error .empty
  else do
    let (major, t) ← readNumber .major t
    let t ← readDot .major t
    let (minor, t) ← readNumber .minor t
    let t ← readDot .minor t
    let (patch, t) ← readNumber .patch t
    let (pre, t) ← readIdentifiers '-' .pre t
    let (build, t) ← readIdentifiers '+' .build t
    match t with
    | [] => .ok ⟨major, minor, patch, pre, build⟩
    | c :: _ => .error (.unexpectedAfter c (lastPart pre build))

end Version

end YamlPatch
