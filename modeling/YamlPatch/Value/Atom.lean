import YamlPatch.Number.Double
import YamlPatch.Scalar

/-!
# Scalars to be written

An `Atom` is a scalar on its way into a document : its text, the style it asks for, and what
it stands for. A string asks for the lightest style in which it reads back as itself
(`Style.fitting`) and may adopt the quotes of the scalar it replaces (`Atom.styledLike`).
Numbers, booleans and null are plain and stay so.

`Atom.written` is the style an atom gets : always one that fits on the line of its key, so a
block style becomes double quotes, and so do single quotes around a control character.
`Atom.render` is its text in that style.
-/

namespace YamlPatch

/-- What a scalar stands for. -/
inductive ScalarType where
  | string
  | integer
  | float
  | boolean
  | null
  deriving DecidableEq, Repr

/-! ## When a string needs quotes -/

/-- Words that read as a boolean or as null. -/
def reservedWords : List Text :=
  ["true".toList, "false".toList, "yes".toList, "no".toList, "on".toList, "off".toList,
   "y".toList, "n".toList, "null".toList, "~".toList]

/-- Characters that are not written plain, anywhere in a string. -/
def isIndicator (c : Char) : Bool :=
  ":#&*!|>'\"%@`,[]\x7b\x7d".toList.contains c

/-- Whether the text spells a number. -/
def spellsNumber (t : Text) : Bool := isInteger64 t || isReal t

/-- Whether a string might not read back as itself if it were written plain. -/
def needsQuotes (t : Text) : Bool :=
  t.isEmpty || Text.trim t != t || reservedWords.contains (Text.lower t) || spellsNumber t ||
    t.any (fun c => isIndicator c || isControl c) || t.head? == some '-' || t.head? == some '?'

/-- The lightest style in which a string reads back : plain, else the quotes that need no
escape. -/
def Style.fitting (t : Text) : Style :=
  if t.any isControl then .doubleQuoted
  else if needsQuotes t then (if t.contains '\'' then .doubleQuoted else .singleQuoted)
  else .plain

/-- A scalar to be written. -/
structure Atom where
  text : Text
  style : Style
  type : ScalarType
  deriving DecidableEq, Repr

namespace Atom

/-! ## Making atoms -/

/-- A string in the style given. -/
def withStyle (t : Text) (s : Style) : Atom := ⟨t, s, .string⟩

/-- A string, quoted only if it has to be. -/
def ofText (t : Text) : Atom := withStyle t (Style.fitting t)

/-- An integer is plain. -/
def ofInt (n : Int) : Atom := ⟨integerText n, .plain, .integer⟩

/-- A double is plain, in its shortest text. -/
def ofDouble (d : Double) : Atom := ⟨d.text, .plain, .float⟩

/-- A boolean is plain, in lower case. -/
def ofBool (b : Bool) : Atom := ⟨if b then "true".toList else "false".toList, .plain, .boolean⟩

/-- Null is written as a word. -/
def null : Atom := ⟨"null".toList, .plain, .null⟩

/-- The atom in the quotes of a scalar that it replaces. Only strings are quoted, and a
scalar without quotes has none to give. -/
def styledLike (a : Atom) (s : Style) : Atom :=
  if a.type = .string ∧ s.isQuoted then { a with style := s } else a

/-! ## Writing -/

/-- The style the atom is written in. -/
def written (a : Atom) : Style :=
  match a.style with
  | .plain => if a.type = .string then Style.fitting a.text else .plain
  | .singleQuoted => if a.text.any isControl then .doubleQuoted else .singleQuoted
  | _ => .doubleQuoted

/-- The text of the atom in the document. -/
def render (a : Atom) : Text :=
  match a.written with
  | .plain => a.text
  | .singleQuoted => '\'' :: SingleQuoted.encode a.text ++ ['\'']
  | _ => '"' :: DoubleQuoted.encode a.text ++ ['"']

/-- Adopting quotes leaves the text of an atom as it is. -/
@[simp] theorem text_styledLike (a : Atom) (s : Style) : (a.styledLike s).text = a.text := by
  unfold styledLike
  split <;> rfl

/-- Adopting the same quotes twice is adopting them once. -/
theorem styledLike_styledLike (a : Atom) (s : Style) :
    (a.styledLike s).styledLike s = a.styledLike s := by
  unfold styledLike
  split <;> simp_all

/-- An atom is written plain or in quotes, never as a block. -/
theorem written_cases (a : Atom) :
    a.written = .plain ∨ a.written = .singleQuoted ∨ a.written = .doubleQuoted := by
  unfold written Style.fitting
  repeat' split
  all_goals simp

end Atom

end YamlPatch
