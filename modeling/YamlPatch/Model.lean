import YamlPatch.Scalar

/-!
# What a reader sees

A `Model` is a tree without its trivia : scalars as the text they stand for, mappings and
sequences as lists. Entries without a key that is a scalar, without a value or with an empty
one are kept, and a place without content is `Model.absent`.

Columns are counted in the whole text, so the models of a tree are read from left to right
with the column reached so far (`Tree.columnAfter`). A column counts the characters since the
last line feed or the last node without text, whichever is nearer.
-/

namespace YamlPatch

namespace Tree

/-! ## Columns -/

/-- The column after `t`, from the one before it. -/
def textColumn (column : Nat) (t : Text) : Nat :=
  t.foldl (fun n c => if c = '\n' then 0 else n + 1) column

mutual

/-- The column after a tree, from the one before it. Counting starts again at a line feed
and at an empty node. -/
def columnAfter (column : Nat) : Tree → Nat
  | .token t => textColumn column t.text
  | .node _ [] => 0
  | .node _ (t :: ts) => columnAfterAll (t.columnAfter column) ts

/-- The column after several trees. -/
def columnAfterAll (column : Nat) : List Tree → Nat
  | [] => column
  | t :: ts => columnAfterAll (t.columnAfter column) ts

end

/-! ## Entries -/

/-- The key of a mapping entry, if it is a scalar. -/
def keyText? (entry : Tree) : Option Text :=
  (entry.children.find? (isNode .key)).bind fun k =>
    (k.children.find? (isNode .scalar)).map Scalar.value

/-- The value node of a mapping entry, which may hold nothing. -/
def valueNode? (entry : Tree) : Option Tree := entry.children.find? (isNode .value)

/-- The keys of a mapping that are scalars. -/
def keys (mapping : Tree) : List Text := (mapping.childNodes .entry).filterMap keyText?

/-- The items of a sequence, without those that hold nothing. -/
def items (sequence : Tree) : List Tree := (sequence.childNodes .item).filterMap content?

end Tree

mutual

/-- What a place holds for a reader. A scalar keeps the style in which it is written, and a
block sequence the column of its items. -/
inductive Model where
  /-- Nothing stands here. -/
  | absent
  | scalar (value : Text) (style : Style) (isNull : Bool)
  | mapping (entries : List ModelEntry) (isFlow : Bool)
  | sequence (items : List Model) (isFlow : Bool) (column : Nat)

/-- An entry of a mapping : its key, if that is a scalar, whether it has a place for a
value, and the value. -/
inductive ModelEntry where
  | mk (key : Option Text) (hasValue : Bool) (value : Model)

end

namespace Model

mutual

/-- The model of a node that starts at `column`. -/
def ofTree (column : Nat) : Tree → Model
  | .token _ => absent
  | .node k ts => match k with
    | .scalar =>
      let t := Tree.node k ts
      scalar (Scalar.value t) (Scalar.style t) (Scalar.isNull t)
    | .mapping => mapping (entries column ts) (Tree.node k ts).isFlow
    | .sequence => sequence (items column ts) (Tree.node k ts).isFlow column
    | _ => absent

/-- The content among children, of which the first starts at `column`. -/
def content (column : Nat) : List Tree → Model
  | [] => absent
  | t :: ts => if t.isContent then ofTree column t else content (t.columnAfter column) ts

/-- The content of the first value node. -/
def value (column : Nat) : List Tree → Model
  | [] => absent
  | t :: ts => match t with
    | .node .value us => content column us
    | t => value (t.columnAfter column) ts

/-- The entries among the children of a mapping. -/
def entries (column : Nat) : List Tree → List ModelEntry
  | [] => []
  | t :: ts =>
    (match t with
      | .node .entry us =>
        let e := Tree.node .entry us
        [.mk e.keyText? e.valueNode?.isSome (value column us)]
      | _ => []) ++ entries (t.columnAfter column) ts

/-- The items among the children of a sequence. -/
def items (column : Nat) : List Tree → List Model
  | [] => []
  | t :: ts =>
    (match t with
      | .node .item us => [content column us]
      | _ => []) ++ items (t.columnAfter column) ts

end

/-- The root of each document among the children of a stream. -/
def documents (column : Nat) : List Tree → List Model
  | [] => []
  | t :: ts =>
    (match t with
      | .node .document us => [content column us]
      | _ => []) ++ documents (t.columnAfter column) ts

end Model

/-- The models of the documents of a stream. -/
def Tree.models (t : Tree) : List Model := Model.documents 0 t.children

end YamlPatch
