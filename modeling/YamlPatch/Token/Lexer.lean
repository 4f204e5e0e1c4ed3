import YamlPatch.Number.Decimal
import YamlPatch.Token

/-!
# Cutting a text into tokens

The kind of a token depends on what came before it : `-` is an item indicator only among
the dashes that open a line, `[` opens a flow collection only where a node may start, and
inside flow collections a comma ends a plain scalar. `LexState` is that context, and
`LexState.scan` decides the kind of the next token and how many characters follow its
first one.

A token has at least that first character, so `lex` ends, and what it does not take it
leaves : the tokens joined are the text (`join_lex`), and no token is empty
(`text_ne_nil_of_mem_lex`).
-/

namespace YamlPatch

/-! ## Character tests -/

/-- The characters that end a word inside a flow collection. -/
def isFlowMark (c : Char) : Bool :=
  c == ',' || c == '[' || c == ']' || c == '{' || c == '}'

/-- White space or the end of the text comes next. -/
def blankAhead : Text → Bool
  | [] => true
  | c :: _ => isBlank c

/-- How many leading characters satisfy `p`. -/
def runLength (p : Char → Bool) (t : Text) : Nat := (t.takeWhile p).length

/-- The characters up to the next line break. -/
def lineLength (t : Text) : Nat := runLength (fun c => c != '\n' && c != '\r') t

/-- The white space that may stand inside a line. -/
def isSpaceOrTab (c : Char) : Bool := c == ' ' || c == '\t'

/-! ## Context -/

/-- What the next token depends on. -/
structure LexState where
  /-- The number of open flow collections. -/
  depth : Nat := 0
  /-- The last token that is not trivia, forgotten at a line break outside flow collections. -/
  before : Option TokenKind := none
  /-- The last token. -/
  last : Option TokenKind := none
  /-- The line holds only indentation and item indicators so far. -/
  onlyDashes : Bool := true
  /-- The line so far, from its last character back. -/
  line : Text := []
  deriving DecidableEq, Repr

namespace LexState

/-- Some flow collection is open. -/
def inFlow (s : LexState) : Bool := s.depth > 0

/-- Nothing has been cut from this line yet. -/
def atLineStart (s : LexState) : Bool := s.line.isEmpty

/-- A node may start here, so indicators have their meaning. -/
def atNodeStart (s : LexState) : Bool :=
  match s.before with
  | none => true
  | some k => match k with
    | .colon | .dash | .question | .documentStart | .tag | .anchor
    | .leftBracket | .leftBrace | .comma => true
    | _ => false

/-- The last token ends a value that a colon may follow without white space. -/
def afterJsonValue (s : LexState) : Bool :=
  match s.last with
  | some k => k.isQuoted || k == .rightBracket || k == .rightBrace
  | none => false

/-- The characters since the last line feed, once `t` has been read. -/
def lineAfter (line : Text) : Text → Text
  | [] => line
  | c :: t => if c = '\n' then lineAfter [] t else lineAfter (c :: line) t

/-- The number of open flow collections behind a token. A mark between documents closes all of
them. -/
def depthAfter (depth : Nat) : TokenKind → Nat
  | .leftBracket | .leftBrace => depth + 1
  | .rightBracket | .rightBrace => depth - 1
  | .documentStart | .documentEnd => 0
  | _ => depth

/-- The context once `t` has been read. -/
def after (s : LexState) (t : Token) : LexState where
  depth := depthAfter s.depth t.kind
  before := match t.kind with
    | .lineBreak => if s.depth = 0 then none else s.before
    | .space | .indent | .comment => s.before
    | k => some k
  last := some t.kind
  onlyDashes := match t.kind with
    | .lineBreak => true
    | .space | .indent | .comment | .dash => s.onlyDashes
    | _ => false
  line := lineAfter s.line t.text

end LexState

/-! ## Plain scalars -/

/-- A colon before `t` is a value indicator whatever precedes it : white space or the end
follows, or the end of an entry inside a flow collection. -/
def colonEndsWord (inFlow : Bool) : Text → Bool
  | [] => true
  | c :: _ => isBlank c || (inFlow && (c == ',' || c == ']' || c == '}'))

/-- How many characters of `t` continue a word of a plain scalar. -/
def wordLength (inFlow : Bool) : Text → Nat
  | [] => 0
  | c :: t =>
    if isBlank c || (c == ':' && colonEndsWord inFlow t) || (inFlow && isFlowMark c) then 0
    else wordLength inFlow t + 1

/-- The words that are read as booleans, in the three usual ways of writing them. -/
def booleanWords : List Text :=
  ["true".toList, "false".toList, "True".toList, "False".toList, "TRUE".toList, "FALSE".toList]

/-- The words that are read as null, and the tilde. -/
def nullWords : List Text := ["null".toList, "Null".toList, "NULL".toList, "~".toList]

/-- What a word spells. A real number has to start like a number, which the words for
infinity and not-a-number do not. -/
def classify (word : Text) : TokenKind :=
  if word ∈ booleanWords then .boolean
  else if word ∈ nullWords then .null
  else if isInteger64 word then .integer
  else if (word.head?.any fun c => isDigit c || c == '-' || c == '+' || c == '.') && isReal word
  then .float
  else .string

/-! ## Quoted scalars -/

/-- The characters after an opening single quote through the closing one; a quote written
twice does not close. -/
def singleQuotedLength : Text → Option Nat
  | [] => none
  | '\'' :: '\'' :: t => (singleQuotedLength t).map (· + 2)
  | '\'' :: _ => some 1
  | _ :: t => (singleQuotedLength t).map (· + 1)

/-- The characters after an opening double quote through the closing one; a backslash
covers the next character. -/
def doubleQuotedLength : Text → Option Nat
  | [] => none
  | '\\' :: [] => none
  | '\\' :: _ :: t => (doubleQuotedLength t).map (· + 2)
  | '"' :: _ => some 1
  | _ :: t => (doubleQuotedLength t).map (· + 1)

/-- A quoted scalar of kind `k`, or one that is never closed and takes all of `t`. -/
def quotedToken (k : TokenKind) (length : Option Nat) (t : Text) : TokenKind × Nat :=
  match length with
  | some n => (k, n)
  | none => (.unterminated, t.length)

/-! ## Block scalars -/

/-- The column that the lines of a block scalar have to exceed, from the line before its
header : the first content after the item indicators, or the last item indicator if
nothing follows it. -/
def ownerColumn (indent column : Nat) : Text → Nat
  | [] => indent
  | ' ' :: t => ownerColumn indent (column + 1) t
  | '-' :: ' ' :: t => ownerColumn column (column + 2) t
  | _ :: _ => column

/-- The owner's column of a header that `line` precedes. -/
def headerColumn (line : Text) : Nat :=
  let n := Text.leadingSpaces line
  ownerColumn n n (line.drop n)

/-- How far the lines of a block scalar reach. `kept` characters belong to it so far and
the next line starts `start` characters in; blank lines belong to it only if a later line
does, and a line that is not indented beyond the owner ends it. -/
def blockExtent (owner : Nat) (kept start : Nat) : List Text → Nat
  | [] => kept
  | l :: ls =>
    let line := Text.dropReturns l
    if Text.allBlank line then blockExtent owner kept (start + l.length + 1) ls
    else if Text.leadingSpaces line ≤ owner then kept
    else blockExtent owner (start + line.length) (start + l.length + 1) ls

/-- The break after a header, as a length : one character, or both of a carriage return
and a line feed. -/
def breakLength : Text → Nat
  | '\r' :: '\n' :: _ => 2
  | [] => 0
  | _ :: _ => 1

/-- The characters of a block scalar after its first. -/
def blockLength (owner : Nat) (t : Text) : Nat :=
  let header := lineLength t
  let start := header + breakLength (t.drop header)
  blockExtent owner header start (Text.lines (t.drop start))

/-! ## One token -/

/-- Three characters `m` at the start of a line, with white space or the end behind them. -/
def isMarkerLine (m c : Char) : Text → Bool
  | d :: e :: t => c == m && d == m && e == m && blankAhead t
  | _ => false

/-- The characters after the first of an anchor, alias or tag. -/
def propertyLength (t : Text) : Nat := runLength (fun c => !isBlank c && !isFlowMark c) t

namespace LexState

/-- The tokens that only the start of a line can hold. -/
def scanLineStart (s : LexState) (c : Char) (t : Text) : Option (TokenKind × Nat) :=
  if isMarkerLine '-' c t then some (.documentStart, 2)
  else if isMarkerLine '.' c t then some (.documentEnd, 2)
  else if c = '%' ∧ s.depth = 0 then some (.directive, lineLength t)
  else if isSpaceOrTab c then some (.indent, runLength isSpaceOrTab t)
  else none

/-- A plain word goes as far as `wordLength` says, and is classified by what it spells. -/
def scanPlain (s : LexState) (c : Char) (t : Text) : TokenKind × Nat :=
  let n := wordLength s.inFlow t
  (classify (c :: t.take n), n)

/-- The token that `c` starts inside a line, before `t`. -/
def scanInLine (s : LexState) (c : Char) (t : Text) : TokenKind × Nat :=
  let mark (k : TokenKind) := if s.inFlow || s.atNodeStart then (k, 0) else s.scanPlain c t
  let property (k : TokenKind) :=
    if s.atNodeStart && !blankAhead t then (k, propertyLength t) else s.scanPlain c t
  match c with
  | '\n' => (.lineBreak, 0)
  | '\r' => (.lineBreak, if t.head? = some '\n' then 1 else 0)
  | ' ' => (.space, runLength isSpaceOrTab t)
  | '\t' => (.space, runLength isSpaceOrTab t)
  | '#' => (.comment, lineLength t)
  | '-' => if blankAhead t && !s.inFlow && s.onlyDashes then (.dash, 0) else s.scanPlain c t
  | '?' => if blankAhead t && s.atNodeStart then (.question, 0) else s.scanPlain c t
  | ':' => if colonEndsWord s.inFlow t || s.afterJsonValue then (.colon, 0) else s.scanPlain c t
  | '[' => mark .leftBracket
  | ']' => mark .rightBracket
  | '{' => mark .leftBrace
  | '}' => mark .rightBrace
  | ',' => mark .comma
  | '\'' =>
    if s.atNodeStart then quotedToken .singleQuoted (singleQuotedLength t) t else s.scanPlain c t
  | '"' =>
    if s.atNodeStart then quotedToken .doubleQuoted (doubleQuotedLength t) t else s.scanPlain c t
  | '|' =>
    if !s.inFlow && s.atNodeStart then (.blockScalar, blockLength (headerColumn s.line.reverse) t)
    else s.scanPlain c t
  | '>' =>
    if !s.inFlow && s.atNodeStart then (.blockScalar, blockLength (headerColumn s.line.reverse) t)
    else s.scanPlain c t
  | '&' => property .anchor
  | '*' => property .reference
  | '!' => property .tag
  | _ => s.scanPlain c t

/-- The kind of the token that `c` starts before `t`, and how many characters of `t` it
takes. -/
def scan (s : LexState) (c : Char) (t : Text) : TokenKind × Nat :=
  if s.atLineStart then (s.scanLineStart c t).getD (s.scanInLine c t)
  else s.scanInLine c t

/-- The token that `c` starts before `t`. -/
def token (s : LexState) (c : Char) (t : Text) : Token :=
  ⟨(s.scan c t).1, c :: t.take (s.scan c t).2⟩

end LexState

/-! ## All tokens -/

/-- The tokens of a text that follows the context `s`. -/
def lexFrom (s : LexState) : Text → List Token
  | [] => []
  | c :: t => s.token c t :: lexFrom (s.after (s.token c t)) (t.drop (s.scan c t).2)
termination_by t => t.length
decreasing_by simp only [List.length_drop, List.length_cons]; omega

/-- The tokens of a text. -/
def lex (t : Text) : List Token := lexFrom {} t

/-- The tokens joined are the text, in any context. -/
theorem join_lexFrom (s : LexState) (t : Text) : Token.join (lexFrom s t) = t := by
  fun_induction lexFrom s t with
  | case1 => rfl
  | case2 s c t ih => rw [Token.join_cons, ih]; simp [LexState.token]

/-- The tokens joined are the text. -/
theorem join_lex (t : Text) : Token.join (lex t) = t := join_lexFrom {} t

/-- No token is empty : each takes at least the character it begins with. -/
theorem text_ne_nil_of_mem_lexFrom {s : LexState} {t : Text} {x : Token} (h : x ∈ lexFrom s t) :
    x.text ≠ [] := by
  fun_induction lexFrom s t with
  | case1 => simp at h
  | case2 s c t ih =>
    rcases List.mem_cons.mp h with rfl | h
    · simp [LexState.token]
    · exact ih h

/-- No token is empty. -/
theorem text_ne_nil_of_mem_lex {t : Text} {x : Token} (h : x ∈ lex t) : x.text ≠ [] :=
  text_ne_nil_of_mem_lexFrom h

end YamlPatch
