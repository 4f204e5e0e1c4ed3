import YamlPatch.Patch.Lookup
import YamlPatch.Tree.Parse
import YamlPatch.Value

/-!
# Writing a field

A value replaces one of its own kind in place : a scalar takes over the quotes of the scalar
that it replaces, a sequence the layout, the column, the line breaks and, item by item, the
quotes of the sequence that it replaces. Into an empty place goes a scalar or a sequence on
one line. Nothing else is written, and all around the value stays.

`Cursor.put` writes at the end of a path or says why not (`Refusal`). `Cursor.set` adds what
to do when a field is not there or holds another kind (`MissingPolicy`) : leave the document as it
is, or fail with a `WriteError` that names the path.
-/

namespace YamlPatch

/-- Why a value does not go where a path leads. -/
inductive Mismatch where
  /-- The entry is a key without a place for a value. -/
  | noValue
  | replace (old new : NodeKind)
  /-- Nothing stands there, and a value of this kind cannot be put there. -/
  | fill (new : NodeKind)
  deriving DecidableEq, Repr

/-- The message names the kinds by what they hold, not by how they are written. -/
def Mismatch.message : Mismatch → Text
  | noValue => "entry has no value".toList
  | replace old new =>
    "cannot replace a ".toList ++ old.contentName.toList ++ " with a ".toList ++
      new.contentName.toList
  | fill new => "cannot write a ".toList ++ new.contentName.toList ++ " into an empty value".toList

/-- Why the text of a sequence does not read back as a sequence. -/
inductive Unreadable where
  | faulty (faults : List Fault)
  | notSequence (rendered : Text)
  deriving Repr

/-- The message shows the faults of the text, or the whole text if it is read as something else.
-/
def Unreadable.message : Unreadable → Text
  | faulty faults => (Fault.summary faults).toList
  | notSequence rendered => "not a sequence: ".toList ++ Text.quoted rendered

/-- Why a value was not written. -/
inductive Refusal where
  /-- No entry is at the path. -/
  | missing
  | mismatch (m : Mismatch)
  | unreadable (u : Unreadable)
  deriving Repr

/-- What to do with a field that is not there or holds a value of another kind. -/
inductive MissingPolicy where
  /-- Leave the document as it is. -/
  | ignore
  | error
  deriving DecidableEq, Repr

/-- Why a write failed. Each cause but the last names the path that was asked for. -/
inductive WriteError where
  | keyNotFound (p : KeyPath)
  | typeMismatch (p : KeyPath) (m : Mismatch)
  | unreadable (u : Unreadable)
  deriving Repr

/-- The message for a user : the cause, and the path in its dotted form. -/
def WriteError.message : WriteError → Text
  | keyNotFound p => "Key not found: '".toList ++ p.text ++ ['\'']
  | typeMismatch p m => "Type mismatch at '".toList ++ p.text ++ "': ".toList ++ m.message
  | unreadable u => "Parse error: ".toList ++ u.message

/-! ## The trees of values -/

/-- The scalar node of an atom. -/
def Atom.tree (a : Atom) : Tree := .node .scalar ((lex a.render).map .token)

/-- The root of a text that is a sequence. -/
def readSequence (t : Text) : Except Unreadable Tree :=
  match parseStrict t with
  | .error faults => .error (.faulty faults)
  | .ok tree =>
    match ((tree.children.find? (Tree.isNode .document)).bind Tree.content?).filter
        (Tree.isNode .sequence) with
    | some s => .ok s
    | none => .error (.notSequence t)

/-! ## Replacing a sequence -/

/-- The styles of the items of a sequence, empty items left out. An item that is no scalar
counts as plain. -/
def Tree.itemStyles (t : Tree) : List Style :=
  t.items.map fun v => if v.isNode .scalar then Scalar.style v else .plain

/-- The items, each string in the quotes that stood in its place. Items past the last style
take that one. -/
def Value.styledLike (styles : List Style) : List Value → List Value
  | [] => []
  | v :: vs =>
    (match v, styles.head? with
      | .atom a, some s => .atom (a.styledLike s)
      | v, _ => v) :: styledLike (if styles.length ≤ 1 then styles else styles.tail) vs

/-- Whether the first line of a tree ends in a carriage return and a line feed. -/
def Tree.hasReturns (t : Tree) : Bool :=
  (t.leaves.find? fun x => x.kind == .lineBreak).any fun x => x.text == ['\r', '\n']

namespace Cursor

/-- The text of a block sequence in place of the focus : from the column of the focus, with
the line breaks of the document. -/
def blockText (c : Cursor) (v : Value) : Text :=
  let t := v.block c.column
  if c.rebuild.hasReturns then Text.replaceChar '\n' ['\r', '\n'] t else t

/-! ## Filling an empty place -/

/-- A space or a comment, behind which nothing is put on a line. -/
def isLineEnd (t : Tree) : Bool := t.isToken .space || t.isToken .comment

/-- A single space. -/
def space : Tree := .token ⟨.space, [' ']⟩

/-- The last character of a tree is white space. -/
def endsBlank (t : Tree) : Bool :=
  ((t.lastToken.bind fun x => x.text.getLast?).map isBlank).getD false

/-- The place with `new` between `left` and `right`, before the spaces and comments that end
`left`, and apart from what stands around it. -/
def insertBetween (slot : Cursor) (left right : List Tree) (new : Tree) : Tree :=
  let kept := (left.reverse.dropWhile isLineEnd).reverse
  let rest := (left.reverse.takeWhile isLineEnd).reverse ++ right
  let preceding := if kept = [] then slot.previous? else kept.getLast?
  let following := if rest = [] then slot.next? else rest.head?
  let gapBefore := if (preceding.map endsBlank).getD false then [] else [space]
  let gapAfter := if (following.map (Tree.isToken .comment)).getD false then [space] else []
  .node .value (kept ++ gapBefore ++ [new] ++ gapAfter ++ rest)

/-- The place, which holds no value, with a value in it. -/
def insertLast (slot : Cursor) (new : Tree) : Tree :=
  slot.insertBetween slot.focus.children [] new

/-- The place with an empty list on the line of its key, in place of the block sequence at
`content`. -/
def insertEmptied (slot content : Cursor) (new : Tree) : Tree :=
  match content.crumbs with
  | [] => slot.focus
  | b :: _ => slot.insertBetween (b.before.takeWhile fun t => !t.isToken .lineBreak) b.after new

/-! ## Writing -/

/-- A scalar with another text, which does not take over its quotes. -/
def setScalar (c : Cursor) (a : Atom) : Cursor := c.replace a.tree

/-- The document with a value put into an empty place. -/
def fill (slot : Cursor) : Value → Except Refusal Tree
  | .atom a => .ok (slot.replace (slot.insertLast a.tree)).rebuild
  | .sequence vs =>
    match readSequence (Value.sequence vs).flow with
    | .ok s => .ok (slot.replace (slot.insertLast s)).rebuild
    | .error u => .error (.unreadable u)
  | .mapping es => .error (.mismatch (.fill (Value.mapping es).kind))

/-- The document with a sequence written over the one at `content`. -/
def replaceSequence (slot content : Cursor) (vs : List Value) : Except Refusal Tree :=
  let new := Value.sequence (Value.styledLike content.focus.itemStyles vs)
  let rendered :=
    if content.focus.isFlow then new.flow
    else if vs.isEmpty then "[]".toList
    else content.blockText new
  match readSequence rendered with
  | .error u => .error (.unreadable u)
  | .ok s =>
    if !content.focus.isFlow && vs.isEmpty then
      .ok (slot.replace (slot.insertEmptied content s)).rebuild
    else .ok (content.replace s).rebuild

/-- The document with a value written into the place of an entry. -/
def write (slot : Cursor) (v : Value) : Except Refusal Tree :=
  match slot.content? with
  | none => slot.fill v
  | some content =>
    match v, content.focus.kind? with
    | .atom a, some .scalar =>
      .ok (content.setScalar (a.styledLike (Scalar.style content.focus))).rebuild
    | .sequence vs, some .sequence => slot.replaceSequence content vs
    | v, k => .error (.mismatch (.replace (k.getD .scalar) v.kind))

/-- The document with a value written at the end of a path. -/
def put (c : Cursor) (p : KeyPath) (v : Value) : Except Refusal Tree :=
  match c.entry? p with
  | none => .error .missing
  | some entry =>
    match entry.slot? with
    | none => .error (.mismatch .noValue)
    | some slot => slot.write v

/-- The document with a value written at the end of a path, and the document as it was if
the value does not go there and that is to be ignored. -/
def set (c : Cursor) (p : KeyPath) (v : Value) (m : MissingPolicy) : Except WriteError Tree :=
  match c.put p v, m with
  | .ok t, _ => .ok t
  | .error (.unreadable u), _ => .error (.unreadable u)
  | .error _, .ignore => .ok c.rebuild
  | .error .missing, .error => .error (.keyNotFound p)
  | .error (.mismatch x), .error => .error (.typeMismatch p x)

end Cursor

end YamlPatch
