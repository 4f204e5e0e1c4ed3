import YamlPatch.Scalar.Folding
import YamlPatch.Scalar.Quoted
import YamlPatch.Tree

/-!
# Scalars of a tree

A scalar node holds the tokens of its text. The first that is not trivia decides how it is
written (`Scalar.style`), whether it is null (`Scalar.isNull`), and how it is read
(`Scalar.value`) : without its quotes, escapes and folded breaks undone.
-/

namespace YamlPatch

/-- How a scalar is written. -/
inductive Style where
  | plain
  | singleQuoted
  | doubleQuoted
  /-- A block scalar that keeps its line breaks, `|`. -/
  | literal
  /-- A block scalar that folds them, `>`. -/
  | folded
  deriving DecidableEq, Repr

/-- Single and double quotes, which keep a text on one line. -/
def Style.isQuoted : Style → Bool
  | singleQuoted | doubleQuoted => true
  | _ => false

namespace Scalar

/-- The kind of the first token that is not trivia. -/
def firstKind? (t : Tree) : Option TokenKind :=
  (t.leaves.find? fun x => !x.kind.isTrivia).map Token.kind

/-- How a scalar is written, from the kind of its first token. The two block styles share a kind
and differ in the first character of the header. -/
def style (t : Tree) : Style :=
  match firstKind? t with
  | some .singleQuoted => .singleQuoted
  | some .doubleQuoted => .doubleQuoted
  | some .blockScalar => if t.text.head? = some '>' then .folded else .literal
  | _ => .plain

/-- A scalar without text, or one that starts with a word for null. -/
def isNull (t : Tree) : Bool :=
  match firstKind? t with
  | none | some .null => true
  | some _ => false

/-- The text without its first and last character, the quotes. -/
def inner (t : Text) : Text := (t.drop 1).dropLast

/-- The text that the scalar stands for. -/
def value (t : Tree) : Text :=
  match firstKind? t with
  | some .singleQuoted => SingleQuoted.decode (foldLines (inner t.text))
  | some .doubleQuoted => DoubleQuoted.decode (foldLines (inner t.text))
  | some .unterminated => t.text.drop 1
  | some .blockScalar => BlockScalar.decode t.text
  | _ => foldLines t.text

end Scalar

end YamlPatch
