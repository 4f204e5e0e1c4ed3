import YamlPatch.Tree
import YamlPatch.Tree.Lookahead

/-!
# From tokens to a tree

Parsing is a run of a machine. A configuration (`Config`) holds the nodes under
construction, innermost first, each with the trees finished under it (`Frame`); the tokens
that are left; and the faults so far. `Config.step` looks at the innermost node and at the
tokens ahead, and does one thing : it moves tokens into the tree, opens a node, closes one,
or fills the place behind an indicator (`Config.fill`). It never drops a token and never
stops at a fault : text that fits nowhere goes into an error node.

A document starts at the first token that is not trivia; block collections live by the
columns of their entries, flow collections by their brackets.
-/

namespace YamlPatch

open TokenKind

/-! ## Configurations -/

/-- A node under construction. -/
inductive Task where
  | document
  /-- A block mapping and its column. -/
  | mapping (column : Nat)
  /-- An entry of a block mapping. -/
  | entry
  | key
  /-- The value of an entry of a block mapping. -/
  | value
  /-- A block sequence and its column. -/
  | sequence (column : Nat)
  /-- An item of a block sequence. -/
  | item
  /-- A plain scalar and the least column of a line that continues it. -/
  | plain (column : Nat)
  | flowSequence
  | flowItem
  | flowMapping
  | flowEntry
  | flowValue
  deriving DecidableEq, Repr

/-- The kind of the node that a task builds. Block and flow collections are built by different
tasks and are nodes of the same kind. -/
def Task.nodeKind : Task → NodeKind
  | document => .document
  | mapping _ | flowMapping => .mapping
  | entry | flowEntry => .entry
  | key => .key
  | value | flowValue => .value
  | sequence _ | flowSequence => .sequence
  | item | flowItem => .item
  | plain _ => .scalar

/-- A node under construction, with the trees finished under it. -/
structure Frame where
  task : Task
  done : List Tree := []
  deriving Repr

/-- The node as it stands, with the trees finished so far. -/
def Frame.tree (f : Frame) : Tree := .node f.task.nodeKind f.done

/-- The state of the parser. All tokens of the text are in it at any time, either in a tree or
among those that are left. -/
structure Config where
  /-- The finished trees of the stream. -/
  finished : List Tree := []
  /-- The nodes under construction, innermost first. -/
  frames : List Frame := []
  /-- The place that the innermost node has to fill next. -/
  slot : Option Slot := none
  /-- The tokens that are left. -/
  rest : List Lexeme
  faults : List Fault := []
  /-- The end of the text. -/
  finish : Position
  deriving Repr

namespace Config

/-! ## Moves -/

/-- The kind of the next token; none at the end of the text. -/
def kind? (c : Config) : Option TokenKind := c.rest.head?.map Lexeme.kind

/-- Add trees to the innermost node. -/
def add (c : Config) (ts : List Tree) : Config :=
  match c.frames with
  | [] => { c with finished := c.finished ++ ts }
  | f :: fs => { c with frames := { f with done := f.done ++ ts } :: fs }

/-- The next `n` tokens as leaves. -/
def ahead (c : Config) (n : Nat) : List Tree := (c.rest.take n).map fun l => .token l.token

/-- Move `n` tokens into the innermost node. -/
def take (c : Config) (n : Nat) : Config :=
  { c.add (c.ahead n) with rest := c.rest.drop n }

/-- Move `n` tokens into the innermost node, as a node of their own. -/
def wrap (c : Config) (k : NodeKind) (n : Nat) : Config :=
  { c.add [.node k (c.ahead n)] with rest := c.rest.drop n }

/-- All trivia ahead go into the innermost node. -/
def takeTrivia (c : Config) : Config := c.take (triviaLength c.rest)

/-- Spaces ahead go into the innermost node, but no line breaks or comments. -/
def takeSpaces (c : Config) : Config := c.take (spacesLength c.rest)

/-- Open a node. -/
def push (c : Config) (t : Task) : Config := { c with frames := ⟨t, []⟩ :: c.frames }

/-- Close the innermost node. -/
def close (c : Config) : Config :=
  match c.frames with
  | [] => c
  | f :: fs => { c with frames := fs }.add [f.tree]

/-- Leave a place to be filled. -/
def await (c : Config) (s : Slot) : Config := { c with slot := some s }

/-- Record a problem at the next token, or at the end of the text. -/
def report (c : Config) (p : Problem) : Config :=
  let fault := match c.rest with
    | [] => ⟨p, c.finish, 0⟩
    | l :: _ => ⟨p, l.start, Text.byteLength l.token.text⟩
  { c with faults := c.faults ++ [fault] }

/-- Record a problem and set the rest of the line aside. -/
def errorLine (c : Config) (p : Problem) : Config :=
  (c.report p).wrap .error (restOfLineLength c.rest)

/-- Record a problem and set the next token aside. -/
def errorToken (c : Config) (p : Problem) : Config := (c.report p).wrap .error 1

/-- Take the spaces and the comment that may end a line; set aside what is left of it. -/
def finishLine (c : Config) : Config :=
  let c := c.take (kindRun (fun k => k == space || k == comment) c.rest)
  match c.kind? with
  | none | some .lineBreak => c
  | some k => c.errorLine (.unexpected k)

/-! ## Block collections -/

/-- Open an item of the block sequence at `column`. -/
def openItem (c : Config) (column : Nat) : Config :=
  (((c.push .item).take 1).takeSpaces).await ⟨column + 1, none, true⟩

/-- Take a key. -/
def takeKey (c : Config) : Config :=
  let c := (c.push .key).take (propertiesLength c.rest)
  let n := keyLength c.rest
  (if n = 0 then c else c.wrap .scalar n).close

/-- Take the colon behind a key. -/
def takeColon (c : Config) : Config :=
  if c.kind? = some colon then c.take 1 else c.report .missingColon

/-- Open an entry of the block mapping at `column`, take its key and its colon, and leave
its value to be filled. -/
def openEntry (c : Config) (column : Nat) : Config :=
  let c := (c.push .entry).takeKey.takeSpaces.takeColon.takeSpaces
  (c.push .value).await ⟨column + 1, some column, false⟩

/-- The node that `k`, the next token, starts on the line of an indicator. -/
def takeInline (c : Config) (column : Nat) (k : TokenKind) : Config :=
  match k with
  | leftBracket => (c.push .flowSequence).take 1
  | leftBrace => (c.push .flowMapping).take 1
  | singleQuoted | doubleQuoted | blockScalar | reference => c.wrap .scalar 1
  | unterminated => (c.report .unterminatedQuote).wrap .scalar 1
  | question => c.errorLine .explicitKey
  | k =>
    if k.isPlain then (c.push (.plain column)).take (plainLength c.rest)
    else c.errorLine (.unexpected k)

/-- Fill the place behind an indicator and the properties : with a block collection, with a
node on the same line, with one on a later line, or with nothing. -/
def fillContent (c : Config) (s : Slot) : Config :=
  match c.rest with
  | [] => c
  | l :: ls =>
    if l.kind = lineBreak ∨ l.kind = comment then
      match laterStart s (l :: ls) with
      | some n => (c.take n).await ⟨s.minColumn, none, true⟩
      | none => c
    else if s.compact ∧ l.kind = dash then (c.push (.sequence l.column)).openItem l.column
    else if s.compact ∧ startsKey (l :: ls) then (c.push (.mapping l.column)).openEntry l.column
    else c.takeInline s.minColumn l.kind

/-- Fill the place behind an indicator, anchors and tags first. -/
def fill (c : Config) (s : Slot) : Config :=
  (c.take (propertiesLength c.rest)).fillContent s

/-! ## Flow collections -/

/-- Take a node inside a flow collection, behind its properties. Nothing may follow these
before the end of the entry. -/
def takeFlowContent (c : Config) (hasProperties : Bool) : Config :=
  match c.kind? with
  | none => c
  | some k => match k with
    | leftBracket => (c.push .flowSequence).take 1
    | leftBrace => (c.push .flowMapping).take 1
    | singleQuoted | doubleQuoted | reference => c.wrap .scalar 1
    | unterminated => (c.report .unterminatedQuote).wrap .scalar 1
    | k =>
      if k.isPlain then c.wrap .scalar (plainLength c.rest)
      else if hasProperties ∧ (k = comma ∨ k = rightBracket ∨ k = rightBrace) then c
      else c.errorToken (.unexpectedInFlow k)

/-- Take a node inside a flow collection, anchors and tags first. -/
def takeFlowNode (c : Config) : Config :=
  (c.take (propertiesLength c.rest)).takeFlowContent (propertiesLength c.rest != 0)

/-- Take the comma after an entry; `closer` or the end of the text may follow instead. -/
def takeComma (c : Config) (closer : TokenKind) (p : Problem) : Config :=
  match c.kind? with
  | none => c
  | some k => if k = comma then c.take 1 else if k = closer then c else c.errorToken p

/-! ## Steps -/

/-- One step of the stream, between two documents; none if only trivia are left. A document
opens with its start marker, if it has one. -/
def stepStream (c : Config) : Option Config :=
  match significant c.rest with
  | [] => none
  | l :: _ =>
    let c := c.takeTrivia
    match l.kind with
    | directive | documentEnd => some (c.take 1)
    | documentStart => some ((((c.push .document).take 1).takeSpaces).fill ⟨0, none, true⟩)
    | _ => some ((c.push .document).fill ⟨0, none, true⟩)

/-- One step of a document whose root is complete. -/
def stepDocument (c : Config) : Config :=
  match significant c.rest with
  | [] => c.takeTrivia.close
  | l :: _ => match l.kind with
    | documentStart | directive => c.close
    | documentEnd => (c.takeTrivia.take 1).finishLine.close
    | _ => c.takeTrivia.errorLine .contentAfterRoot

/-- One step of the block mapping at `column`, between two entries. -/
def stepMapping (c : Config) (column : Nat) : Config :=
  match significant c.rest with
  | [] => c.close
  | l :: ls =>
    if l.kind.isMarker ∨ l.column < column then c.close
    else if column < l.column then c.takeTrivia.errorLine .unexpectedIndentation
    else if startsKey (l :: ls) then c.takeTrivia.openEntry column
    else c.takeTrivia.errorLine .expectedKey

/-- One step of the block sequence at `column`, between two items. -/
def stepSequence (c : Config) (column : Nat) : Config :=
  match significant c.rest with
  | [] => c.close
  | l :: _ =>
    if l.kind.isMarker ∨ l.column < column ∨ (l.column = column ∧ l.kind ≠ dash) then c.close
    else if column < l.column then c.takeTrivia.errorLine .unexpectedIndentation
    else c.takeTrivia.openItem column

/-- One step of a plain scalar, at the end of a line of it. -/
def stepPlain (c : Config) (column : Nat) : Config :=
  match continuation column c.rest with
  | some n =>
    let c := c.take n
    c.take (plainLength c.rest)
  | none => c.close

/-- One step of a flow sequence, between two items. -/
def stepFlowSequence (c : Config) : Config :=
  let c := c.takeTrivia
  match c.kind? with
  | none => (c.report .unclosedSequence).close
  | some k => if k = rightBracket then (c.take 1).close else (c.push .flowItem).takeFlowNode

/-- One step of a flow mapping, between two entries. -/
def stepFlowMapping (c : Config) : Config :=
  let c := c.takeTrivia
  match c.kind? with
  | none => (c.report .unclosedMapping).close
  | some k =>
    if k = rightBrace then (c.take 1).close else ((c.push .flowEntry).push .key).takeFlowNode

/-- One step after the key of a flow mapping : its value, if a colon follows. -/
def stepFlowKey (c : Config) : Config :=
  let c := c.close.takeTrivia
  if c.kind? = some colon then
    let c := (c.take 1).takeTrivia.push .flowValue
    match c.kind? with
    | none => c
    | some k => if k = comma ∨ k = rightBrace then c else c.takeFlowNode
  else c

/-- One step of a node under construction that has no place to fill. -/
def stepTask (c : Config) : Task → Config
  | .document => c.stepDocument
  | .mapping column => c.stepMapping column
  | .entry => c.finishLine.close
  | .key => c.stepFlowKey
  | .value => c.close
  | .sequence column => c.stepSequence column
  | .item => c.finishLine.close
  | .plain column => c.stepPlain column
  | .flowSequence => c.stepFlowSequence
  | .flowItem => c.close.takeTrivia.takeComma rightBracket .unseparatedItem
  | .flowMapping => c.stepFlowMapping
  | .flowEntry => c.close.takeTrivia.takeComma rightBrace .unseparatedEntry
  | .flowValue => c.close

/-- One step; none at the end of the text. -/
def step (c : Config) : Option Config :=
  match c.slot with
  | some s => some ({ c with slot := none }.fill s)
  | none => match c.frames with
    | [] => c.stepStream
    | f :: _ => some (c.stepTask f.task)

end Config

end YamlPatch
