import YamlPatch.Value.Atom

/-!
# Values to be written

A `Value` is what replaces a part of a document : an atom, a sequence or a mapping. The
entries of a mapping are written in the order of its list, and `Value.ofEntries` puts them in
the order of their keys by code point, each key once.

There are two layouts. `Value.flow` is one line, `[a, b]` or `{k: v}`. `Value.block` is a
line for each item or entry, a nested collection two columns further in : behind the `- ` of
its item, or on the lines below its key. Atoms and empty collections are one line in either.
-/

namespace YamlPatch

/-- What can be written : an atom, or a collection of values in their order. -/
inductive Value where
  | atom (a : Atom)
  | sequence (items : List Value)
  | mapping (entries : List (Text × Value))
  deriving Repr

namespace Value

/-- The text as a string value, quoted if it has to be. -/
def ofText (t : Text) : Value := atom (Atom.ofText t)

/-- The kind of node that holds the value in a document. -/
def kind : Value → NodeKind
  | atom _ => .scalar
  | sequence _ => .sequence
  | mapping _ => .mapping

/-! ## Mappings -/

/-- Entries in the order of their keys, with one more; an entry with the same key makes
room. -/
def insertEntry (k : Text) (v : Value) : List (Text × Value) → List (Text × Value)
  | [] => [(k, v)]
  | e :: es =>
    if k < e.1 then (k, v) :: e :: es
    else if k = e.1 then (k, v) :: es
    else e :: insertEntry k v es

/-- The mapping with these entries, in the order of the keys. Of two entries with one key
the later is kept. -/
def ofEntries (es : List (Text × Value)) : Value :=
  mapping (es.foldl (fun m e => insertEntry e.1 e.2 m) [])

/-! ## One line -/

/-- The text of a key. -/
def keyText (k : Text) : Text := (Atom.ofText k).render

mutual

/-- The value on one line. -/
def flow : Value → Text
  | atom a => a.render
  | sequence vs => '[' :: Text.joinWith ", ".toList (flowItems vs) ++ [']']
  | mapping es => '\x7b' :: Text.joinWith ", ".toList (flowEntries es) ++ ['\x7d']

/-- The items of a sequence, each on one line. -/
def flowItems : List Value → List Text
  | [] => []
  | v :: vs => v.flow :: flowItems vs

/-- The entries of a mapping, each on one line with its key. -/
def flowEntries : List (Text × Value) → List Text
  | [] => []
  | (k, v) :: es => (keyText k ++ ": ".toList ++ v.flow) :: flowEntries es

end

/-! ## Several lines -/

/-- A collection that takes a line for each of its items. -/
def isBlock : Value → Bool
  | atom _ => false
  | sequence vs => !vs.isEmpty
  | mapping es => !es.isEmpty

/-- The lines moved to the right by `n` columns. -/
def indentBy (n : Nat) (ls : List Text) : List Text := ls.map (List.replicate n ' ' ++ ·)

/-- The lines behind an item indicator : the first on its line, the others below it. -/
def hang : List Text → List Text
  | [] => []
  | l :: ls => ("- ".toList ++ l) :: indentBy 2 ls

mutual

/-- The lines of the value, from column 0. -/
def blockLines : Value → List Text
  | atom a => [a.render]
  | sequence vs => if vs.isEmpty then ["[]".toList] else itemLines vs
  | mapping es => if es.isEmpty then ["\x7b\x7d".toList] else entryLines es

/-- The lines of the items of a block sequence. Behind the `- ` of an item its lines hang two
columns further in. -/
def itemLines : List Value → List Text
  | [] => []
  | v :: vs => hang v.blockLines ++ itemLines vs

def entryLines : List (Text × Value) → List Text
  | [] => []
  | (k, v) :: es =>
    (if v.isBlock then (keyText k ++ [':']) :: indentBy 2 v.blockLines
      else [keyText k ++ ": ".toList ++ v.flow]) ++ entryLines es

end

/-- The value with its lines at column `column`. A value of one line that is no collection
of lines has no indentation. -/
def block (v : Value) (column : Nat) : Text :=
  Text.joinWith ['\n'] (if v.isBlock then indentBy column v.blockLines else [v.flow])

end Value

end YamlPatch
