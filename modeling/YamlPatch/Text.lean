import YamlPatch.Text.Blank

/-!
# Text as a list of characters

Everything the library reads or writes is a `Text`, the characters in order. A list is cut
between characters, never inside one, so a token is a part of the text it was cut from and
losing nothing is an equation about `++`.

`Text.splitOn` cuts at a separator and `Text.joinWith` is its inverse
(`Text.joinWith_splitOn`); `Text.lines` is the case of the line feed. `Text.trim` removes
white space from both ends. Two operations count bytes instead of characters :
`Text.byteLength`, in which positions are reported, and `Text.dropBytes`, which has no
answer inside a character.
-/

namespace YamlPatch

/-- The characters of a text, in order. -/
abbrev Text := List Char

namespace Text

/-- The characters of a string. -/
def ofString (s : String) : Text := s.toList

/-- The string of a text, for output. -/
def toString (t : Text) : String := String.ofList t

/-- Length of the text as UTF-8. -/
def byteLength : Text → Nat
  | [] => 0
  | c :: t => c.utf8Size + byteLength t

/-- The text after its first `n` bytes; `none` past the end and inside a character. -/
def dropBytes : Text → Nat → Option Text
  | t, 0 => some t
  | [], _ + 1 => none
  | c :: t, n + 1 => if c.utf8Size ≤ n + 1 then dropBytes t (n + 1 - c.utf8Size) else none

/-- Bytes are counted piece by piece. -/
theorem byteLength_append (s t : Text) : byteLength (s ++ t) = byteLength s + byteLength t := by
  induction s with
  | nil => simp [byteLength]
  | cons c s ih => simp [byteLength, ih, Nat.add_assoc]

/-- Cutting off the bytes of a leading part leaves the rest. -/
theorem dropBytes_append (s t : Text) : dropBytes (s ++ t) (byteLength s) = some t := by
  induction s with
  | nil => simp [byteLength, dropBytes]
  | cons c s ih =>
    have hc := Char.utf8Size_pos c
    obtain ⟨n, hn⟩ : ∃ n, c.utf8Size + byteLength s = n + 1 :=
      ⟨c.utf8Size + byteLength s - 1, by omega⟩
    simp only [List.cons_append, byteLength, hn, dropBytes]
    rw [if_pos (by omega), ← hn, Nat.add_sub_cancel_left, ih]

/-! ## White space at the ends -/

/-- A text without the white space at its start. -/
def trimStart (t : Text) : Text := t.dropWhile isBlank

/-- A text without the white space at its end. -/
def trimEnd (t : Text) : Text := (t.reverse.dropWhile isBlank).reverse

/-- A text without white space at either end. -/
def trim (t : Text) : Text := trimEnd (trimStart t)

/-- No character but white space. -/
def allBlank (t : Text) : Bool := t.all isBlank

/-- How many spaces the text starts with. -/
def leadingSpaces (t : Text) : Nat := (t.takeWhile (· = ' ')).length

/-- The text without the carriage returns at its end. -/
def dropReturns (t : Text) : Text := (t.reverse.dropWhile (· = '\r')).reverse

/-! ## Pieces -/

/-- The pieces between the separators; one more than there are separators. -/
def splitOn (sep : Char) : Text → List Text
  | [] => [[]]
  | c :: t =>
    if c = sep then [] :: splitOn sep t
    else match splitOn sep t with
      | [] => [[c]]
      | p :: ps => (c :: p) :: ps

/-- The pieces with `sep` between each two. -/
def joinWith (sep : Text) : List Text → Text
  | [] => []
  | [p] => p
  | p :: ps => p ++ sep ++ joinWith sep ps

/-- A text has at least one piece, the whole of it if the separator is missing. -/
theorem splitOn_ne_nil (sep : Char) (t : Text) : splitOn sep t ≠ [] := by
  cases t with
  | nil => simp [splitOn]
  | cons c t =>
    unfold splitOn
    split
    · simp
    · split <;> simp

/-- Joining undoes splitting : no character is lost at a separator. -/
theorem joinWith_splitOn (sep : Char) (t : Text) : joinWith [sep] (splitOn sep t) = t := by
  induction t with
  | nil => rfl
  | cons c t ih =>
    obtain ⟨p, ps, h⟩ := List.exists_cons_of_ne_nil (splitOn_ne_nil sep t)
    rw [h] at ih
    by_cases hc : c = sep
    · simp [splitOn, hc, h, joinWith, ih]
    · cases ps <;> simp_all [splitOn, joinWith]

/-- The lines of a text, without the line feeds that end them. -/
def lines (t : Text) : List Text := splitOn '\n' t

/-- Every `c` of the text replaced by `r`, all else kept. -/
def replaceChar (c : Char) (r : Text) : Text → Text
  | [] => []
  | d :: t => (if d = c then r else [d]) ++ replaceChar c r t

/-- The text without the first occurrence of `w`. -/
def eraseFirst (w : Text) : Text → Text
  | [] => []
  | c :: t => if w.isPrefixOf (c :: t) then (c :: t).drop w.length else c :: eraseFirst w t

/-- The text with its ASCII capitals lowered. -/
def lower (t : Text) : Text := t.map Char.toLower

end Text

end YamlPatch
