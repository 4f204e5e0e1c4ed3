import YamlPatch.Token

/-!
# Faults in a text

A text that is not well formed still has a tree; what is wrong with it is a list of faults.
A `Fault` is a `Problem` at a `Position`, and the bytes it covers : one token, or none at
the end of the text. `Fault.message` counts lines and columns from 1.
-/

namespace YamlPatch

/-- A place between two characters, counted from the start of the text. -/
structure Position where
  /-- Bytes before it. -/
  offset : Nat := 0
  /-- Line feeds before it. -/
  line : Nat := 0
  /-- Characters since the last line feed. -/
  column : Nat := 0
  deriving DecidableEq, Repr

namespace Position

/-- A character is one column, however many bytes it takes; a line feed starts a line. -/
def step (p : Position) (c : Char) : Position where
  offset := p.offset + c.utf8Size
  line := if c = '\n' then p.line + 1 else p.line
  column := if c = '\n' then 0 else p.column + 1

/-- The place after `t`, if `p` is the one before it. -/
def advance (p : Position) (t : Text) : Position := t.foldl step p

/-- Positions are counted from one piece of text to the next. -/
theorem advance_append (p : Position) (s t : Text) :
    p.advance (s ++ t) = (p.advance s).advance t := by
  simp [advance]

/-- Offsets are counted in bytes. -/
theorem offset_advance (p : Position) (t : Text) :
    (p.advance t).offset = p.offset + Text.byteLength t := by
  induction t generalizing p with
  | nil => rfl
  | cons c t ih =>
    have : p.advance (c :: t) = (p.step c).advance t := rfl
    rw [this, ih]
    simp [step, Text.byteLength, Nat.add_assoc]

end Position

/-- What can be wrong with a text. -/
inductive Problem where
  | unterminatedQuote
  | explicitKey
  | unexpected (k : TokenKind)
  | unexpectedInFlow (k : TokenKind)
  | missingColon
  | contentAfterRoot
  | unexpectedIndentation
  | expectedKey
  | unclosedSequence
  | unclosedMapping
  | unseparatedItem
  | unseparatedEntry
  deriving DecidableEq, Repr

/-- What a user is told. A token is called by the name of its kind. -/
def Problem.message : Problem → String
  | unterminatedQuote => "unterminated quoted string"
  | explicitKey => "explicit mapping keys are not supported"
  | unexpected k => "unexpected " ++ k.name
  | unexpectedInFlow k => "unexpected " ++ k.name ++ " in flow collection"
  | missingColon => "expected ':' after mapping key"
  | contentAfterRoot => "unexpected content after the document root"
  | unexpectedIndentation => "unexpected indentation"
  | expectedKey => "expected a mapping key"
  | unclosedSequence => "unclosed flow sequence, expected ']'"
  | unclosedMapping => "unclosed flow mapping, expected '\x7d'"
  | unseparatedItem => "expected ',' or ']' in flow sequence"
  | unseparatedEntry => "expected ',' or '\x7d' in flow mapping"

/-- A problem and the bytes it covers. -/
structure Fault where
  problem : Problem
  start : Position
  width : Nat
  deriving DecidableEq, Repr

namespace Fault

/-- The offset after the last byte covered. -/
def stop (f : Fault) : Nat := f.start.offset + f.width

/-- The message begins with the line and the column, both counted from one. -/
def message (f : Fault) : String :=
  toString (f.start.line + 1) ++ ":" ++ toString (f.start.column + 1) ++ ": " ++ f.problem.message

/-- A fault as it is handed out : what it says and the bytes it covers, counted in 32 bits. -/
structure Note where
  message : String
  start : UInt32
  stop : UInt32
  deriving DecidableEq, Repr

/-- The record of a fault. Its offsets are kept in 32 bits. -/
def note (f : Fault) : Note where
  message := f.message
  start := .ofNat f.start.offset
  stop := .ofNat f.start.offset + .ofNat f.width

/-- The messages of all faults in one line. -/
def summary (fs : List Fault) : String := String.intercalate "; " (fs.map message)

end Fault

end YamlPatch
