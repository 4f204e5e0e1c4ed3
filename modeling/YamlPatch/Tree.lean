import YamlPatch.Token

/-!
# The tree of a text

A `Tree` is a token or a node with the trees under it. Every token of the text is a leaf,
trivia and faulty stretches included, so the text is the leaves read from left to right
(`Tree.text`).

The nodes are the stream, its documents, their collections with entries, keys and values,
the scalars, and `NodeKind.error` around text that fits nowhere. What a document, a key, a
value or an item holds is its *content*, the first scalar, mapping or sequence under it
(`Tree.content?`).
-/

namespace YamlPatch

/-- The kinds of nodes. Only scalars, mappings and sequences are content; the others say what
part the content plays. -/
inductive NodeKind where
  /-- The whole text, with any number of documents. -/
  | stream
  | document
  | sequence
  /-- One item of a sequence, with its `-` in block style. -/
  | item
  | mapping
  /-- One key of a mapping with its value. -/
  | entry
  | key
  | value
  | scalar
  /-- Text that fits nowhere. -/
  | error
  deriving DecidableEq, Repr

namespace NodeKind

/-- The nodes that are a value of their own. -/
def isContent : NodeKind → Bool
  | scalar | mapping | sequence => true
  | _ => false

/-- A value as messages call it. -/
def contentName : NodeKind → String
  | mapping => "mapping"
  | sequence => "sequence"
  | _ => "scalar"

end NodeKind

/-- A token, or a node with the trees under it in the order of the text. -/
inductive Tree where
  | token (t : Token)
  | node (kind : NodeKind) (children : List Tree)
  deriving Repr

namespace Tree

/-! ## Leaves and text -/

mutual

/-- The tokens of the tree from left to right. -/
def leaves : Tree → List Token
  | .token t => [t]
  | .node _ ts => leavesOf ts

/-- The tokens of several trees from left to right. -/
def leavesOf : List Tree → List Token
  | [] => []
  | t :: ts => t.leaves ++ leavesOf ts

end

/-- Leaves are read from left to right. -/
@[simp] theorem leavesOf_append (ss ts : List Tree) :
    leavesOf (ss ++ ts) = leavesOf ss ++ leavesOf ts := by
  induction ss with
  | nil => rfl
  | cons s ss ih => simp [leavesOf, ih]

/-- Trees that are single tokens are their own leaves. -/
@[simp] theorem leavesOf_map_token (ts : List Token) : leavesOf (ts.map token) = ts := by
  induction ts with
  | nil => rfl
  | cons t ts ih => simp [leavesOf, leaves, ih]

/-- The text of the tree. -/
def text (t : Tree) : Text := Token.join t.leaves

/-- The text of several trees. -/
def textOf (ts : List Tree) : Text := Token.join (leavesOf ts)

/-- The text of a node is that of the trees under it. -/
@[simp] theorem text_node (k : NodeKind) (ts : List Tree) : (node k ts).text = textOf ts := by
  simp [text, textOf, leaves]

@[simp] theorem text_token (t : Token) : (token t).text = t.text := by
  simp [text, leaves]

@[simp] theorem textOf_nil : textOf [] = [] := rfl

@[simp] theorem textOf_cons (t : Tree) (ts : List Tree) :
    textOf (t :: ts) = t.text ++ textOf ts := by
  simp [textOf, text, leavesOf]

/-- So the texts of trees are joined like the trees. -/
@[simp] theorem textOf_append (ss ts : List Tree) :
    textOf (ss ++ ts) = textOf ss ++ textOf ts := by
  simp [textOf]

mutual

/-- The token at the left edge; there is none if the leftmost node is empty. -/
def firstToken : Tree → Option Token
  | .token t => some t
  | .node _ ts => firstTokenOf ts

/-- The token that a list of trees begins with. It is looked for in the first tree only. -/
def firstTokenOf : List Tree → Option Token
  | [] => none
  | t :: _ => t.firstToken

end

mutual

/-- The token at the right edge; there is none if the rightmost node is empty. -/
def lastToken : Tree → Option Token
  | .token t => some t
  | .node _ ts => lastTokenOf ts

/-- The token that a list of trees ends with. It is looked for in the last tree only. -/
def lastTokenOf : List Tree → Option Token
  | [] => none
  | [t] => t.lastToken
  | _ :: ts => lastTokenOf ts

end

/-! ## Nodes -/

/-- The kind of a node; a token has none. -/
def kind? : Tree → Option NodeKind
  | .token _ => none
  | .node k _ => some k

/-- The kind of a token; a node has none. -/
def tokenKind? : Tree → Option TokenKind
  | .token t => some t.kind
  | .node _ _ => none

/-- The trees directly under a node. -/
def children : Tree → List Tree
  | .token _ => []
  | .node _ ts => ts

/-- A node of this kind. -/
def isNode (k : NodeKind) (t : Tree) : Bool := t.kind? == some k

/-- A token of this kind. -/
def isToken (k : TokenKind) (t : Tree) : Bool := t.tokenKind? == some k

/-- A scalar, a mapping or a sequence. -/
def isContent (t : Tree) : Bool :=
  match t.kind? with
  | some k => k.isContent
  | none => false

/-- The value that a document, a key, a value node or an item holds. -/
def content? (t : Tree) : Option Tree := t.children.find? isContent

/-- A collection written in brackets. -/
def isFlow (t : Tree) : Bool :=
  match t.firstToken with
  | some x => x.kind == .leftBracket || x.kind == .leftBrace
  | none => false

/-- The children of a mapping or sequence that are its entries or items. -/
def childNodes (k : NodeKind) (t : Tree) : List Tree := t.children.filter (isNode k)

end Tree

end YamlPatch
