import YamlPatch.Text

/-!
# Scalars over several lines

A plain or quoted scalar may run over several lines. Its lines are *folded* : the white
space around a line break goes away, a single break becomes a space, and each empty line
between two lines becomes a line feed in its place (`foldLines`). A scalar on one line is
left alone.

A block scalar is a header and lines. The least indentation of its lines that are not blank
is cut off; `|` keeps the lines, `>` folds those that are not indented further (`BlockScalar`).
-/

namespace YamlPatch

/-! ## Plain and quoted scalars -/

/-- What stands for the break before a line, after `empties` empty lines. -/
def foldedBreak (empties : Nat) : Text :=
  if empties = 0 then [' '] else List.replicate empties '\n'

/-- The lines after the first, `empties` empty lines having been read. The last line is
kept even if it is empty. -/
def foldRest (empties : Nat) : List Text → Text
  | [] => []
  | [l] => foldedBreak empties ++ Text.trimStart (Text.dropReturns l)
  | l :: ls =>
    if Text.trim l = [] then foldRest (empties + 1) ls
    else foldedBreak empties ++ Text.trim l ++ foldRest 0 ls

/-- The text with its line breaks folded. -/
def foldLines (t : Text) : Text :=
  match Text.lines t with
  | l :: m :: ls => Text.trimEnd l ++ foldRest 0 (m :: ls)
  | _ => t

namespace BlockScalar

/-! ## Block scalars -/

/-- The header without its comment and the white space around it. -/
def header (t : Text) : Text :=
  Text.trim ((t.takeWhile (· != '\n')).takeWhile (· != '#'))

/-- The text behind the header's line. -/
def body (t : Text) : Text := (t.dropWhile (· != '\n')).drop 1

/-- Line breaks are kept, not folded. -/
def isLiteral (t : Text) : Bool := (header t).head? == some '|'

/-- The line break at the end is dropped. A plus sign, which asks for all of them, gives
the one that is given without a sign. -/
def isStripped (t : Text) : Bool := (header t).contains '-'

/-- The least number of leading spaces of a line that is not blank. -/
def indentation (ls : List Text) : Nat :=
  (((ls.filter fun l => !Text.allBlank l).map Text.leadingSpaces).min?).getD 0

/-- The lines of the body, the indentation cut off. A line that is too short is empty. -/
def contentLines (t : Text) : List Text :=
  let ls := (Text.lines (body t)).map Text.dropReturns
  ls.map fun l => (Text.dropBytes l (indentation ls)).getD []

/-- Fold lines. An empty line is a line feed. A line that is indented further is kept with
its break; the others are joined by spaces. -/
def fold (afterText : Bool) : List Text → Text
  | [] => []
  | l :: ls => match l with
    | [] => '\n' :: fold false ls
    | ' ' :: _ => (if afterText then ['\n'] else []) ++ l ++ '\n' :: fold false ls
    | _ :: _ => (if afterText then [' '] else []) ++ l ++ fold true ls

/-- The text without a line feed at its end, if there is one. -/
def dropFinalBreak (t : Text) : Text := if t.getLast? = some '\n' then t.dropLast else t

/-- The text that a block scalar stands for. -/
def decode (t : Text) : Text :=
  let content :=
    if isLiteral t then Text.joinWith ['\n'] (contentLines t)
    else dropFinalBreak (fold false (contentLines t))
  if isStripped t ∨ body t = [] then content else content ++ ['\n']

end BlockScalar

end YamlPatch
