import YamlPatch.Token.Lexer
import YamlPatch.Tree.Fault

/-!
# What lies ahead

The parser decides by the tokens that come next. Here are its questions : how many tokens
of a kind lie ahead (`triviaLength`, `propertiesLength`, `plainLength`, …), whether they
open a mapping entry (`startsKey`), whether a plain scalar goes on in a later line
(`continuation`), and whether an empty place is filled from a later line (`laterStart`).
All of them count tokens, so an answer is never more than there are.
-/

namespace YamlPatch

/-- A token and the place where it starts. -/
structure Lexeme where
  token : Token
  start : Position
  deriving DecidableEq, Repr

namespace Lexeme

/-- The kind of the token. -/
def kind (l : Lexeme) : TokenKind := l.token.kind

/-- The column in which the token starts. -/
def column (l : Lexeme) : Nat := l.start.column

/-- The tokens with their places, from `p` on. -/
def locate (p : Position) : List Token → List Lexeme
  | [] => []
  | t :: ts => ⟨t, p⟩ :: locate (p.advance t.text) ts

/-- Finding the positions of tokens does not change the tokens. -/
theorem map_token_locate (p : Position) (ts : List Token) :
    (locate p ts).map token = ts := by
  induction ts generalizing p with
  | nil => rfl
  | cons t ts ih => simp [locate, ih]

end Lexeme

open TokenKind

/-- How many leading tokens have a kind in `p`. -/
def kindRun (p : TokenKind → Bool) (ls : List Lexeme) : Nat :=
  (ls.takeWhile fun l => p l.kind).length

/-- How many tokens of trivia lie ahead. -/
def triviaLength : List Lexeme → Nat := kindRun isTrivia

/-- How many tokens of spaces lie ahead. -/
def spacesLength : List Lexeme → Nat := kindRun (· == space)

/-- The tokens up to the end of the line. -/
def restOfLineLength : List Lexeme → Nat := kindRun (· != lineBreak)

/-- The first token that is not trivia, and what follows it. -/
def significant (ls : List Lexeme) : List Lexeme := ls.dropWhile fun l => l.kind.isTrivia

/-- Anchors and tags with the spaces behind each. -/
def propertiesLength : List Lexeme → Nat
  | [] => 0
  | l :: ls => if l.kind.isProperty then kindRun (fun k => k.isProperty || k == space) ls + 1 else 0

/-- The next token is a word of a plain scalar. -/
def plainAhead : List Lexeme → Bool
  | [] => false
  | l :: _ => l.kind.isPlain

/-- The words of a plain scalar on one line, with the spaces between them. -/
def plainLength : List Lexeme → Nat
  | [] => 0
  | l :: ls =>
    if l.kind.isPlain || (l.kind == space && plainAhead ls) then plainLength ls + 1 else 0

/-- A colon comes after the tokens in `p`. -/
def colonAfter (p : TokenKind → Bool) (ls : List Lexeme) : Bool :=
  match ls.dropWhile fun l => p l.kind with
  | [] => false
  | l :: _ => l.kind == colon

/-- The tokens ahead are a key and its colon on one line. -/
def startsKey (ls : List Lexeme) : Bool :=
  match ls.dropWhile fun l => l.kind.isProperty || l.kind == space with
  | [] => false
  | l :: ls =>
    if l.kind.isQuoted then colonAfter (· == space) ls
    else l.kind.isPlain && colonAfter (fun k => k.isPlain || k == space) ls

/-- The scalar of a key : a quoted token or the words of a line. -/
def keyLength : List Lexeme → Nat
  | [] => 0
  | l :: ls =>
    if l.kind.isQuoted then 1 else if l.kind.isPlain then plainLength (l :: ls) else 0

/-- White space between the lines of a plain scalar. A comment is no gap : it ends the scalar.
-/
def isGap (k : TokenKind) : Bool := k == lineBreak || k == space || k == indent

/-- The white space before a later line that continues a plain scalar : the line starts
at column `min` or beyond with a word, and is no key. -/
def continuation (min : Nat) (ls : List Lexeme) : Option Nat :=
  match ls.dropWhile fun l => isGap l.kind with
  | [] => none
  | l :: rest =>
    if (ls.takeWhile fun l => isGap l.kind).any (·.kind == lineBreak) && l.kind.isPlain
        && min ≤ l.column && !startsKey (l :: rest)
    then some (kindRun isGap ls) else none

/-- Where a node may stand that follows an indicator. -/
structure Slot where
  /-- The least column of a node on a later line. -/
  minColumn : Nat
  /-- A column at which a block sequence is welcome in spite of `minColumn`. -/
  dashColumn : Option Nat := none
  /-- A block collection may start on the line of the indicator. -/
  compact : Bool := false
  deriving DecidableEq, Repr

/-- The trivia before a node on a later line that may stand in the slot. -/
def laterStart (s : Slot) (ls : List Lexeme) : Option Nat :=
  match significant ls with
  | [] => none
  | l :: _ =>
    if l.kind.isMarker then none
    else if s.minColumn ≤ l.column ∨ (l.kind = dash ∧ s.dashColumn = some l.column)
    then some (triviaLength ls) else none

/-! ## Skipping trivia -/

/-- Dropping the run of a kind leaves what does not begin with that kind. -/
theorem drop_kindRun (p : TokenKind → Bool) (ls : List Lexeme) :
    ls.drop (kindRun p ls) = ls.dropWhile fun l => p l.kind := by
  induction ls with
  | nil => rfl
  | cons l ls ih =>
    by_cases h : p l.kind = true
    · simpa [kindRun, h] using ih
    · simp [kindRun, h]

/-- Behind the trivia stand the tokens that count. -/
theorem drop_triviaLength (ls : List Lexeme) : ls.drop (triviaLength ls) = significant ls :=
  drop_kindRun isTrivia ls

/-- The first token that counts is no trivia. -/
theorem isTrivia_of_significant {ls rest : List Lexeme} {l : Lexeme}
    (h : significant ls = l :: rest) : l.kind.isTrivia = false := by
  induction ls with
  | nil => simp [significant] at h
  | cons m ls ih =>
    by_cases hm : m.kind.isTrivia = true
    · exact ih (by simpa [significant, hm] using h)
    · simp only [significant, hm, Bool.false_eq_true, not_false_eq_true,
        List.dropWhile_cons_of_neg, List.cons.injEq] at h
      simpa [h.1] using hm

theorem ne_space_of_significant {ls rest : List Lexeme} {l : Lexeme}
    (h : significant ls = l :: rest) : l.kind ≠ space := by
  intro hl
  have := isTrivia_of_significant h
  simp [hl, isTrivia] at this

/-! ## What the searches find -/

/-- A node on a later line stands behind the trivia, in a column where the slot asks for it. -/
theorem of_laterStart {s : Slot} {ls : List Lexeme} {n : Nat} (h : laterStart s ls = some n) :
    n = triviaLength ls ∧ ∃ l rest, significant ls = l :: rest ∧ l.kind.isMarker = false ∧
      (s.minColumn ≤ l.column ∨ l.kind = dash ∧ s.dashColumn = some l.column) := by
  unfold laterStart at h
  split at h
  · cases h
  · rename_i l rest hl
    split at h
    · cases h
    · rename_i hmarker
      split at h
      · rename_i hcolumn
        exact ⟨(Option.some.inj h).symm, l, rest, hl, by simpa using hmarker, hcolumn⟩
      · cases h

/-- A plain scalar goes on with a word, behind white space. -/
theorem of_continuation {min n : Nat} {ls : List Lexeme} (h : continuation min ls = some n) :
    n = kindRun isGap ls ∧ ∃ l rest, ls.drop n = l :: rest ∧ l.kind.isPlain = true := by
  unfold continuation at h
  split at h
  · cases h
  · rename_i l rest hl
    split at h
    · rename_i hcond
      simp only [Bool.and_eq_true] at hcond
      obtain rfl := Option.some.inj h
      exact ⟨rfl, l, rest, by rw [drop_kindRun, hl], hcond.1.1.2⟩
    · cases h

/-! ## Counts are positive where they have to be -/

/-- An anchor or a tag ahead is at least one token of properties. -/
theorem propertiesLength_pos {l : Lexeme} {ls : List Lexeme} (h : l.kind.isProperty = true) :
    0 < propertiesLength (l :: ls) := by
  simp [propertiesLength, h]

/-- A word ahead is at least one token of a plain scalar. -/
theorem plainLength_pos {l : Lexeme} {ls : List Lexeme} (h : l.kind.isPlain = true) :
    0 < plainLength (l :: ls) := by
  simp [plainLength, h]

theorem kindRun_pos {p : TokenKind → Bool} {l : Lexeme} {ls : List Lexeme} (h : p l.kind = true) :
    0 < kindRun p (l :: ls) := by
  simp [kindRun, h]

/-- A key takes at least one token : a property, a space or a word of its scalar. -/
theorem startsKey_pos {l : Lexeme} {ls : List Lexeme} (h : startsKey (l :: ls) = true) :
    0 < propertiesLength (l :: ls) ∨ 0 < keyLength (l :: ls) ∨ 0 < spacesLength (l :: ls) := by
  by_cases hp : l.kind.isProperty = true
  · exact Or.inl (propertiesLength_pos hp)
  by_cases hs : l.kind = space
  · exact Or.inr (Or.inr (kindRun_pos (by simp [hs])))
  refine Or.inr (Or.inl ?_)
  unfold startsKey at h
  rw [List.dropWhile_cons_of_neg (by simp [hp, hs])] at h
  by_cases hq : l.kind.isQuoted = true
  · simp [keyLength, hq]
  · simp only [hq, Bool.false_eq_true, if_false, Bool.and_eq_true] at h
    simpa [keyLength, hq, h.1] using plainLength_pos h.1

end YamlPatch
