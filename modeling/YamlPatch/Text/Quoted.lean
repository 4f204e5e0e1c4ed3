import YamlPatch.Text
import YamlPatch.Text.Unprintable

/-!
# Text as messages show it

A message shows a text between double quotes and a character between single ones. The mark
itself and the backslash are escaped, the usual controls by a letter, and every other
character without a shape of its own by its number, so what is shown is on one line.
-/

namespace YamlPatch.Text

/-- A character between the marks `q`. -/
def shownChar (q c : Char) : Text :=
  if c = q ∨ c = '\\' then ['\\', c]
  else if c = '\x00' then ['\\', '0']
  else if c = '\t' then ['\\', 't']
  else if c = '\n' then ['\\', 'n']
  else if c = '\r' then ['\\', 'r']
  else if isUnprintable c || isJoiningMark c then
    '\\' :: 'u' :: '\x7b' :: Nat.toDigits 16 c.toNat ++ ['\x7d']
  else [c]

/-- The text between double quotes. -/
def quoted (t : Text) : Text := '"' :: t.flatMap (shownChar '"') ++ ['"']

/-- The character between single quotes. -/
def quotedChar (c : Char) : Text := '\'' :: shownChar '\'' c ++ ['\'']

end YamlPatch.Text
