import YamlPatch.Proofs.FlowValues

/-!
# Values on several lines

A collection that is written on several lines has the tree `Value.blockTree`, which depends on
its column and on the line breaks of the document. Its text is that of the lines from the first
character on (`Value.text_blockTree`, `Value.block_eq`), and at the start of a block the text is
read as the leaves of the tree (`Value.cuts_block`).

The writer makes lines and moves them to the right where they are nested. The tree has no lines
: it has a line break and an indentation between one node and the next, and the column is passed
down. That both have the same text is one lemma on joining lines (`Value.joinWith_indentBy`),
since the spaces that are put before each line are the spaces that the separator ends with.

The statements on values, items and entries are proved together, by recursion on the value. What
an item or an entry needs to know of the value in it is `ReadAtBlock` : it is read as its leaves
at the start of a block, and behind it no flow collection is open.
-/

namespace YamlPatch

open TokenKind LexState

/-! ## Lines

Trees that stand one below the other are lines of a document. Between two of them are a line
break and, unless they stand at the left margin, an indentation. -/

/-- The line breaks of a document. -/
inductive IsNewline : Text → Prop where
  | lf : IsNewline ['\n']
  | crlf : IsNewline ['\r', '\n']

/-- A colon before a line break ends a word. -/
theorem IsNewline.colonEndsWord {nl : Text} (h : IsNewline nl) (f : Bool) (u : Text) :
    YamlPatch.colonEndsWord f (nl ++ u) = true := by
  have hn : isBlank '\n' = true ∧ isBlank '\r' = true := by decide
  cases h <;> simp [YamlPatch.colonEndsWord, hn]

/-- Each of them has a line feed. -/
theorem IsNewline.newline_mem {nl : Text} (h : IsNewline nl) : '\n' ∈ nl := by
  cases h <;> simp

/-- Each of them is one token, in every context. -/
theorem IsNewline.reads {nl : Text} (h : IsNewline nl) (s : LexState) (t : Text) :
    s.Reads ⟨lineBreak, nl⟩ t := by
  cases h with
  | lf => exact (s.reads_lineBreak t).1
  | crlf => exact (s.reads_lineBreak t).2

namespace Tree

/-- A line break and the indentation of the next line. -/
def lineStart (nl : Text) (n : Nat) : List Tree :=
  .token ⟨lineBreak, nl⟩ :: if n = 0 then [] else [.token ⟨indent, List.replicate n ' '⟩]

/-- Each tree on a line of its own, below another. -/
def linesBelow (nl : Text) (n : Nat) (ts : List Tree) : List Tree :=
  ts.flatMap fun t => lineStart nl n ++ [t]

/-- The trees on lines of their own, the first on the line where it stands. -/
def lined (nl : Text) (n : Nat) : List Tree → List Tree
  | [] => []
  | t :: ts => t :: linesBelow nl n ts

/-- The text of a line break and an indentation. -/
theorem textOf_lineStart (nl : Text) (n : Nat) :
    textOf (lineStart nl n) = nl ++ List.replicate n ' ' := by
  unfold lineStart
  split <;> simp_all

/-- Trees on lines of their own have their texts joined by line breaks and indentations. -/
theorem textOf_lined (nl : Text) (n : Nat) (ts : List Tree) :
    textOf (lined nl n ts) = Text.joinWith (nl ++ List.replicate n ' ') (ts.map text) := by
  cases ts with
  | nil => rfl
  | cons t ts =>
    induction ts generalizing t with
    | nil => simp [lined, linesBelow, Text.joinWith]
    | cons u ts ih =>
      have hj (sep : Text) : Text.joinWith sep ((t :: u :: ts).map text) =
          t.text ++ sep ++ Text.joinWith sep ((u :: ts).map text) := rfl
      have hl : lined nl n (t :: u :: ts) = t :: (lineStart nl n ++ lined nl n (u :: ts)) := by
        simp [lined, linesBelow]
      rw [hj, hl, textOf_cons, textOf_append, ih u, textOf_lineStart, List.append_assoc t.text]

/-- Between the trees there are tokens only, so the nodes among them are the trees. -/
theorem filter_linesBelow {k : NodeKind} {ts : List Tree} (nl : Text) (n : Nat)
    (h : ∀ t ∈ ts, t.isNode k = true) : (linesBelow nl n ts).filter (isNode k) = ts := by
  have hs : (lineStart nl n).filter (isNode k) = [] := by
    unfold lineStart
    split <;> rfl
  induction ts with
  | nil => rfl
  | cons t ts ih =>
    have hl : linesBelow nl n (t :: ts) = lineStart nl n ++ t :: linesBelow nl n ts := by
      simp [linesBelow]
    rw [hl, List.filter_append, hs, List.nil_append, List.filter_cons_of_pos (h t (by simp)),
      ih fun u hu => h u (List.mem_cons_of_mem t hu)]

/-- So it is with the first of them. -/
theorem filter_lined {k : NodeKind} (nl : Text) (n : Nat) (ts : List Tree)
    (h : ∀ t ∈ ts, t.isNode k = true) : (lined nl n ts).filter (isNode k) = ts := by
  cases ts with
  | nil => rfl
  | cons t ts =>
    rw [lined, List.filter_cons_of_pos (h t (by simp)),
      filter_linesBelow nl n fun u hu => h u (List.mem_cons_of_mem t hu)]

end Tree

open YamlPatch.Tree

namespace Value

/-! ## The tree of a value on several lines

A value that has no lines of its own, because it is an atom or empty, has the tree that it has
on one line. -/

/-- The item that holds `t`. -/
def itemNode (t : Tree) : Tree := .node .item [mark dash '-', mark space ' ', t]

/-- The entry of a key with a value below it. -/
def blockEntryNode (nl : Text) (n : Nat) (k : Text) (t : Tree) : Tree :=
  .node .entry [keyNode k, mark colon ':', .node .value (lineStart nl n ++ [t])]

mutual

/-- The tree of a value that is written from column `n` on. Items and entries stand at that
column, and what they hold two columns further. -/
def blockTree (nl : Text) (n : Nat) : Value → Tree
  | atom a => flowTree (atom a)
  | sequence vs =>
    if vs.isEmpty then flowTree (sequence [])
      else .node .sequence (lined nl n (blockItemTrees nl n vs))
  | mapping es =>
    if es.isEmpty then flowTree (mapping [])
      else .node .mapping (lined nl n (blockEntryTrees nl n es))

/-- The items of a sequence, without what stands between the lines. -/
def blockItemTrees (nl : Text) (n : Nat) : List Value → List Tree
  | [] => []
  | v :: vs => itemNode (v.blockTree nl (n + 2)) :: blockItemTrees nl n vs

/-- The entries of a mapping : a block value stands below its key, other values on the line of
the key. -/
def blockEntryTrees (nl : Text) (n : Nat) : List (Text × Value) → List Tree
  | [] => []
  | (k, v) :: es =>
    (if v.isBlock then blockEntryNode nl (n + 2) k (v.blockTree nl (n + 2))
      else entryNode k v.flowTree) :: blockEntryTrees nl n es

end

/-- They are items. -/
theorem isNode_of_mem_blockItemTrees (nl : Text) (n : Nat) :
    ∀ {vs : List Value}, ∀ t ∈ blockItemTrees nl n vs, t.isNode .item = true
  | v :: vs, t, h => by
    rcases List.mem_cons.mp h with rfl | h
    · rfl
    · exact isNode_of_mem_blockItemTrees nl n t h

/-- They are entries. -/
theorem isNode_of_mem_blockEntryTrees (nl : Text) (n : Nat) :
    ∀ {es : List (Text × Value)}, ∀ t ∈ blockEntryTrees nl n es, t.isNode .entry = true
  | (k, v) :: es, t, h => by
    rcases List.mem_cons.mp h with rfl | h
    · split <;> rfl
    · exact isNode_of_mem_blockEntryTrees nl n t h

/-! ## Its text

The lines of a value and the text of its tree are compared by joining the lines with a line
break and an indentation. Each way to nest lines changes the separator. -/

/-- A part is followed by the separator if others follow. -/
theorem joinWith_cons (sep p : Text) {ps : List Text} (h : ps ≠ []) :
    Text.joinWith sep (p :: ps) = p ++ sep ++ Text.joinWith sep ps := by
  cases ps with
  | nil => exact absurd rfl h
  | cons q ps => rfl

/-- Two rows of parts are joined by a separator between them. -/
theorem joinWith_append (sep : Text) {ps qs : List Text} (hp : ps ≠ []) (hq : qs ≠ []) :
    Text.joinWith sep (ps ++ qs) = Text.joinWith sep ps ++ sep ++ Text.joinWith sep qs := by
  induction ps with
  | nil => exact absurd rfl hp
  | cons p ps ih =>
    cases ps with
    | nil => exact joinWith_cons sep p hq
    | cons r ps =>
      rw [List.cons_append, joinWith_cons sep p (by simp), ih (by simp),
        joinWith_cons sep p (by simp)]
      simp

/-- Lines that are moved to the right take the spaces from what stands between them. -/
theorem joinWith_indentBy (sep : Text) (m : Nat) {ls : List Text} (h : ls ≠ []) :
    Text.joinWith sep (indentBy m ls) =
      List.replicate m ' ' ++ Text.joinWith (sep ++ List.replicate m ' ') ls := by
  induction ls with
  | nil => exact absurd rfl h
  | cons l ls ih =>
    cases ls with
    | nil => simp [indentBy, Text.joinWith]
    | cons r ls =>
      have hi : indentBy m (l :: r :: ls) = (List.replicate m ' ' ++ l) :: indentBy m (r :: ls) :=
        rfl
      rw [hi, joinWith_cons sep _ (by simp [indentBy]), ih (by simp), joinWith_cons _ l (by simp)]
      simp

/-- Spaces behind spaces are as many as both. -/
theorem append_replicate (sep : Text) (n m : Nat) :
    sep ++ List.replicate n ' ' ++ List.replicate m ' ' = sep ++ List.replicate (n + m) ' ' := by
  rw [List.append_assoc, List.replicate_append_replicate]

/-- Hanging lines are joined as lines two columns further, behind a dash. -/
theorem joinWith_hang (nl : Text) (n : Nat) {ls : List Text} (h : ls ≠ []) :
    Text.joinWith (nl ++ List.replicate n ' ') (hang ls) =
      "- ".toList ++ Text.joinWith (nl ++ List.replicate (n + 2) ' ') ls := by
  cases ls with
  | nil => exact absurd rfl h
  | cons l ls =>
    cases ls with
    | nil => rfl
    | cons r ls =>
      have hh : hang (l :: r :: ls) = ("- ".toList ++ l) :: indentBy 2 (r :: ls) := rfl
      rw [hh, joinWith_cons _ _ (by simp [indentBy]), joinWith_indentBy _ 2 (by simp),
        joinWith_cons _ l (by simp), ← List.append_assoc, append_replicate,
        List.append_assoc _ _ (List.replicate 2 ' '), append_replicate]
      simp

/-- Lines that hang are as many as before, so there is one. -/
theorem hang_ne_nil {ls : List Text} (h : ls ≠ []) : hang ls ≠ [] := by
  cases ls with
  | nil => exact absurd rfl h
  | cons l ls => simp [hang]

/-- A value has a line. -/
theorem blockLines_ne_nil (v : Value) : v.blockLines ≠ [] := by
  cases v with
  | atom a => simp [blockLines]
  | sequence vs =>
    cases vs with
    | nil => simp [blockLines]
    | cons v vs =>
      simpa [blockLines, itemLines] using fun h => absurd h (hang_ne_nil v.blockLines_ne_nil)
  | mapping es =>
    cases es with
    | nil => simp [blockLines]
    | cons e es =>
      obtain ⟨k, v⟩ := e
      by_cases hb : v.isBlock = true <;> simp [blockLines, entryLines, hb]

/-- The text of an item is that of what it holds, behind the dash. -/
theorem text_itemNode (t : Tree) : (itemNode t).text = "- ".toList ++ t.text := by
  simp [itemNode, mark]

/-- The text of an entry with the value below its key. -/
theorem text_blockEntryNode (nl : Text) (n : Nat) (k : Text) (t : Tree) :
    (blockEntryNode nl n k t).text = keyText k ++ [':'] ++ (nl ++ List.replicate n ' ') ++
      t.text := by
  simp [blockEntryNode, text_keyNode, mark, textOf_lineStart]

/-- The text of a first tree is joined to the text of the others as its lines are to theirs. -/
theorem joinWith_cons_of {sep p : Text} {ps ls ms : List Text} (hp : p = Text.joinWith sep ls)
    (hls : ls ≠ []) (hps : Text.joinWith sep ps = Text.joinWith sep ms) (hnil : ps = [] ↔ ms = []) :
    Text.joinWith sep (p :: ps) = Text.joinWith sep (ls ++ ms) := by
  by_cases hm : ms = []
  · rw [hnil.mpr hm, hm, List.append_nil, ← hp]
    rfl
  · rw [joinWith_cons _ _ (mt hnil.mp hm), joinWith_append _ hls hm, hps, hp]

mutual

/-- The text of the tree is that of the lines, each below the first at the column of the first. -/
theorem text_blockTree : ∀ (v : Value) (nl : Text) (n : Nat),
    (v.blockTree nl n).text = Text.joinWith (nl ++ List.replicate n ' ') v.blockLines
  | atom a, nl, n => by
    rw [blockTree, text_flowTree]
    rfl
  | sequence [], nl, n => rfl
  | sequence (v :: vs), nl, n => by
    have h := textOf_blockItemTrees (v :: vs) nl n
    simpa [blockTree, textOf_lined, blockLines] using h
  | mapping [], nl, n => rfl
  | mapping (e :: es), nl, n => by
    have h := textOf_blockEntryTrees (e :: es) nl n
    simpa [blockTree, textOf_lined, blockLines] using h

/-- So it is with items in a row. -/
theorem textOf_blockItemTrees : ∀ (vs : List Value) (nl : Text) (n : Nat),
    Text.joinWith (nl ++ List.replicate n ' ') ((blockItemTrees nl n vs).map text) =
      Text.joinWith (nl ++ List.replicate n ' ') (itemLines vs)
  | [], nl, n => rfl
  | v :: vs, nl, n => by
    refine joinWith_cons_of ?_ (hang_ne_nil v.blockLines_ne_nil) (textOf_blockItemTrees vs nl n) ?_
    · rw [text_itemNode, text_blockTree v nl (n + 2), joinWith_hang nl n v.blockLines_ne_nil]
    · cases vs with
      | nil => simp [blockItemTrees, itemLines]
      | cons w vs => simp [blockItemTrees, itemLines, hang_ne_nil w.blockLines_ne_nil]

/-- So it is with entries in a row. -/
theorem textOf_blockEntryTrees : ∀ (es : List (Text × Value)) (nl : Text) (n : Nat),
    Text.joinWith (nl ++ List.replicate n ' ') ((blockEntryTrees nl n es).map text) =
      Text.joinWith (nl ++ List.replicate n ' ') (entryLines es)
  | [], nl, n => rfl
  | (k, v) :: es, nl, n => by
    have hnil : blockEntryTrees nl n es = [] ↔ entryLines es = [] := by
      cases es with
      | nil => simp [blockEntryTrees, entryLines]
      | cons e es =>
        obtain ⟨l, w⟩ := e
        by_cases hb : w.isBlock = true <;> simp [blockEntryTrees, entryLines, hb]
    have ih := textOf_blockEntryTrees es nl n
    by_cases hb : v.isBlock = true
    · simp only [blockEntryTrees, entryLines, hb, if_true, List.map_cons]
      refine joinWith_cons_of ?_ (by simp) ih (by simpa using hnil)
      rw [text_blockEntryNode, text_blockTree v nl (n + 2),
        joinWith_cons _ _ (by simpa [indentBy] using v.blockLines_ne_nil),
        joinWith_indentBy _ 2 v.blockLines_ne_nil]
      simp only [← append_replicate nl n 2, List.append_assoc]
    · simp only [blockEntryTrees, entryLines, hb, Bool.false_eq_true, if_false, List.map_cons]
      refine joinWith_cons_of ?_ (by simp) ih (by simpa using hnil)
      rw [text_entryNode, text_flowTree]
      rfl

end

/-- Behind the spaces of the first line, the text written from column `n` is that of the tree. -/
theorem block_eq {v : Value} (h : v.isBlock = true) (n : Nat) :
    v.block n = List.replicate n ' ' ++ (v.blockTree ['\n'] n).text := by
  rw [text_blockTree, block, if_pos h, joinWith_indentBy _ n v.blockLines_ne_nil]

/-! ## Line breaks of a document

The writer puts line feeds between the lines and replaces them in the end. No line has one
inside, so nothing but the breaks between the lines is changed. -/

/-- A character is replaced in both parts of a text. -/
theorem replaceChar_append (c : Char) (r s t : Text) :
    Text.replaceChar c r (s ++ t) = Text.replaceChar c r s ++ Text.replaceChar c r t := by
  induction s with
  | nil => rfl
  | cons d s ih => simp [Text.replaceChar, ih]

/-- A text without the character stays as it is. -/
theorem replaceChar_of_not_mem {c : Char} (r : Text) {t : Text} (h : c ∉ t) :
    Text.replaceChar c r t = t := by
  induction t with
  | nil => rfl
  | cons d t ih =>
    simp only [List.mem_cons, not_or] at h
    simp [Text.replaceChar, Ne.symm h.1, ih h.2]

/-- Where the parts do not have the character, it is replaced in the separators. -/
theorem replaceChar_joinWith {c : Char} (r sep : Text) {ls : List Text} (h : ∀ l ∈ ls, c ∉ l) :
    Text.replaceChar c r (Text.joinWith sep ls) = Text.joinWith (Text.replaceChar c r sep) ls := by
  induction ls with
  | nil => rfl
  | cons l ls ih =>
    cases ls with
    | nil => exact replaceChar_of_not_mem r (h l (by simp))
    | cons m ls =>
      rw [joinWith_cons sep l (by simp), joinWith_cons _ l (by simp), replaceChar_append,
        replaceChar_append, ih fun k hk => h k (List.mem_cons_of_mem l hk),
        replaceChar_of_not_mem r (h l (by simp))]

/-- Parts and separators without control characters are joined to a text without. -/
theorem noControls_joinWith {sep : Text} (hs : NoControls sep) {ls : List Text}
    (h : ∀ l ∈ ls, NoControls l) : NoControls (Text.joinWith sep ls) := by
  induction ls with
  | nil => exact .nil
  | cons l ls ih =>
    have hl := h l (by simp)
    cases ls with
    | nil => exact hl
    | cons m ls =>
      rw [joinWith_cons sep l (by simp)]
      exact (hl.append hs).append (ih fun k hk => h k (List.mem_cons_of_mem l hk))

/-- A key is written as an atom and so has none. -/
theorem noControls_keyText (k : Text) : NoControls (keyText k) := (Atom.Made.ofText k).noControls

mutual

/-- A value on one line has no control characters. -/
theorem noControls_flow : ∀ v : Value, v.Made → NoControls v.flow
  | atom _, h => Atom.Made.noControls h
  | sequence vs, h =>
    .cons (by decide)
      ((noControls_joinWith (.of_all rfl) (noControls_flowItems vs h)).append (.of_all rfl))
  | mapping es, h =>
    .cons (by decide)
      ((noControls_joinWith (.of_all rfl) (noControls_flowEntries es h)).append (.of_all rfl))

/-- Nor have the items of a sequence on one line. -/
theorem noControls_flowItems : ∀ vs : List Value, AllMade vs → ∀ l ∈ flowItems vs, NoControls l
  | v :: vs, h, l, hl => by
    rcases List.mem_cons.mp hl with rfl | hl
    · exact noControls_flow v h.1
    · exact noControls_flowItems vs h.2 l hl

/-- Nor have the entries of a mapping on one line. -/
theorem noControls_flowEntries :
    ∀ es : List (Text × Value), EntriesMade es → ∀ l ∈ flowEntries es, NoControls l
  | (k, v) :: es, h, l, hl => by
    rcases List.mem_cons.mp hl with rfl | hl
    · exact ((noControls_keyText k).append (.of_all rfl)).append (noControls_flow v h.1)
    · exact noControls_flowEntries es h.2 l hl

end

/-- Spaces in front add none. -/
theorem noControls_indentBy (m : Nat) {ls : List Text} (h : ∀ l ∈ ls, NoControls l) :
    ∀ l ∈ indentBy m ls, NoControls l := by
  have hspaces : NoControls (List.replicate m ' ') :=
    fun c hc => List.eq_of_mem_replicate hc ▸ by decide
  intro l hl
  obtain ⟨k, hk, rfl⟩ := List.mem_map.mp hl
  exact hspaces.append (h k hk)

/-- Nor does a dash. -/
theorem noControls_hang {ls : List Text} (h : ∀ l ∈ ls, NoControls l) :
    ∀ l ∈ hang ls, NoControls l := by
  cases ls with
  | nil => simp [hang]
  | cons k ls =>
    intro l hl
    rcases List.mem_cons.mp hl with rfl | hl
    · exact .append (.of_all rfl) (h k (by simp))
    · exact noControls_indentBy 2 (fun m hm => h m (List.mem_cons_of_mem k hm)) l hl

mutual

/-- Nor has a line of a value on several lines. -/
theorem noControls_blockLines : ∀ v : Value, v.Made → ∀ l ∈ v.blockLines, NoControls l
  | atom _, h, l, hl => by
    obtain rfl := List.mem_singleton.mp hl
    exact Atom.Made.noControls h
  | sequence [], _, l, hl => by
    obtain rfl := List.mem_singleton.mp hl
    exact .of_all rfl
  | sequence (v :: vs), h, l, hl => noControls_itemLines (v :: vs) h l hl
  | mapping [], _, l, hl => by
    obtain rfl := List.mem_singleton.mp hl
    exact .of_all rfl
  | mapping (e :: es), h, l, hl => noControls_entryLines (e :: es) h l hl

/-- Nor has a line of the items. -/
theorem noControls_itemLines : ∀ vs : List Value, AllMade vs → ∀ l ∈ itemLines vs, NoControls l
  | v :: vs, h, l, hl => by
    rcases List.mem_append.mp hl with hl | hl
    · exact noControls_hang (noControls_blockLines v h.1) l hl
    · exact noControls_itemLines vs h.2 l hl

/-- Nor has a line of the entries. -/
theorem noControls_entryLines :
    ∀ es : List (Text × Value), EntriesMade es → ∀ l ∈ entryLines es, NoControls l
  | (k, v) :: es, h, l, hl => by
    rcases List.mem_append.mp hl with hl | hl
    · split at hl
      · rcases List.mem_cons.mp hl with rfl | hl
        · exact (noControls_keyText k).append (.of_all rfl)
        · exact noControls_indentBy 2 (noControls_blockLines v h.1) l hl
      · obtain rfl := List.mem_singleton.mp hl
        exact ((noControls_keyText k).append (.of_all rfl)).append (noControls_flow v h.1)
    · exact noControls_entryLines es h.2 l hl

end

/-- With another line break, the text written from column `n` is that of the tree with it. -/
theorem replaceChar_block {v : Value} (hv : v.Made) (h : v.isBlock = true) (n : Nat) (nl : Text) :
    Text.replaceChar '\n' nl (v.block n) = List.replicate n ' ' ++ (v.blockTree nl n).text := by
  have hsep : Text.replaceChar '\n' nl (['\n'] ++ List.replicate n ' ') =
      nl ++ List.replicate n ' ' := by
    have hn : '\n' ∉ List.replicate n ' ' := by simp
    rw [replaceChar_append, replaceChar_of_not_mem nl hn]
    simp [Text.replaceChar]
  have hn : '\n' ∉ List.replicate n ' ' := by simp
  rw [block_eq h, text_blockTree, text_blockTree, replaceChar_append, replaceChar_of_not_mem nl hn,
    replaceChar_joinWith nl _ fun l hl =>
      (noControls_blockLines v hv l hl).not_mem (by decide), hsep]

/-! ## It stands for the value

Readers go from a collection to its items or entries and from there to the content. Line breaks
and indentations between them are no nodes, so they are passed over. -/

/-- The tree of a value is content, which is what readers look for in an item. -/
theorem isContent_blockTree (v : Value) (nl : Text) (n : Nat) :
    (v.blockTree nl n).isContent = true := by
  cases v with
  | atom a => rfl
  | sequence vs | mapping es =>
    unfold blockTree
    split <;> rfl

/-- An item holds the content that it was made with. -/
theorem content?_itemNode {t : Tree} (h : t.isContent = true) : (itemNode t).content? = some t := by
  have hm (k : TokenKind) (c : Char) : (mark k c).isContent = false := rfl
  simp [itemNode, content?, children, hm, h]

/-- So does the value below a key. -/
theorem content?_value (nl : Text) (n : Nat) {t : Tree} (h : t.isContent = true) :
    (Tree.node .value (lineStart nl n ++ [t])).content? = some t := by
  have hm (x : Token) : (Tree.token x).isContent = false := rfl
  unfold lineStart
  split <;> simp [content?, children, hm, h]

mutual

/-- A reader finds in the tree the value that it was made of. -/
theorem isReadAs_blockTree : ∀ (v : Value) (nl : Text) (n : Nat), v.Made →
    v.IsReadAs (v.blockTree nl n)
  | atom _, _, _, h => ⟨rfl, Atom.Made.value_node h⟩
  | sequence vs, nl, n, h => by
    by_cases he : vs.isEmpty = true
    · obtain rfl := List.isEmpty_iff.mp he
      exact isReadAs_flowTree _ h
    · have hf := filter_lined nl n (blockItemTrees nl n vs) (isNode_of_mem_blockItemTrees nl n)
      rw [blockTree, if_neg he]
      exact ⟨rfl, by rw [childNodes, children, hf]; exact itemsReadAs_blockItemTrees vs nl n h⟩
  | mapping es, nl, n, h => by
    by_cases he : es.isEmpty = true
    · obtain rfl := List.isEmpty_iff.mp he
      exact isReadAs_flowTree _ h
    · have hf := filter_lined nl n (blockEntryTrees nl n es) (isNode_of_mem_blockEntryTrees nl n)
      rw [blockTree, if_neg he]
      exact ⟨rfl, by rw [childNodes, children, hf]; exact entriesReadAs_blockEntryTrees es nl n h⟩

/-- So it does item by item. -/
theorem itemsReadAs_blockItemTrees : ∀ (vs : List Value) (nl : Text) (n : Nat), AllMade vs →
    ItemsReadAs vs (blockItemTrees nl n vs)
  | [], _, _, _ => rfl
  | v :: vs, nl, n, h =>
    ⟨_, _, _, rfl, content?_itemNode (v.isContent_blockTree nl (n + 2)),
      isReadAs_blockTree v nl (n + 2) h.1, itemsReadAs_blockItemTrees vs nl n h.2⟩

/-- So it does entry by entry, and the keys are those of the entries. -/
theorem entriesReadAs_blockEntryTrees : ∀ (es : List (Text × Value)) (nl : Text) (n : Nat),
    EntriesMade es → EntriesReadAs es (blockEntryTrees nl n es)
  | [], _, _, _ => rfl
  | (k, v) :: es, nl, n, h => by
    have ih := entriesReadAs_blockEntryTrees es nl n h.2
    by_cases hb : v.isBlock = true
    · rw [blockEntryTrees, if_pos hb]
      exact ⟨_, _, _, rfl, keyText?_keyNode k _,
        content?_value nl (n + 2) (v.isContent_blockTree nl _),
        isReadAs_blockTree v nl (n + 2) h.1, ih⟩
    · rw [blockEntryTrees, if_neg hb]
      exact ⟨_, _, _, rfl, keyText?_keyNode k _, content?_of_isContent .value v.isContent_flowTree,
        isReadAs_flowTree v h.1, ih⟩

end

/-! ## Its tokens

A block may start behind a line break and an indentation, behind a dash and a space, and at the
start of a text. All three lead to `BlockStart`, in which column is the only thing that differs. -/

/-- A block collection may start here, at column `n`. -/
structure BlockStart (s : LexState) (n : Nat) : Prop where
  depth : s.depth = 0
  node : s.atNodeStart = true
  dashes : s.onlyDashes = true
  line : n ≠ 0 → s.atLineStart = false

/-- No flow collection is open there. -/
theorem BlockStart.inFlow {s : LexState} {n : Nat} (h : BlockStart s n) : s.inFlow = false := by
  simp [LexState.inFlow, h.depth]

/-- The text is at the end of a line. -/
def AtLineEnd (t : Text) : Prop := t = [] ∨ ∃ nl u, IsNewline nl ∧ t = nl ++ u

/-- A word ends at the end of a line. -/
theorem AtLineEnd.wordLength {t : Text} (h : AtLineEnd t) (f : Bool) : wordLength f t = 0 := by
  have hn : isBlank '\n' = true ∧ isBlank '\r' = true := by decide
  rcases h with rfl | ⟨nl, u, hl, rfl⟩
  · rfl
  · cases hl <;> simp [YamlPatch.wordLength, hn]

/-- Before the next of several lines a line ends. -/
theorem AtLineEnd.linesBelow {nl : Text} (hl : IsNewline nl) (n : Nat) (ts : List Tree) {t : Text}
    (ht : AtLineEnd t) : AtLineEnd (textOf (linesBelow nl n ts) ++ t) := by
  cases ts with
  | nil => exact ht
  | cons x ts =>
    refine .inr ⟨nl, List.replicate n ' ' ++
      (x.text ++ (textOf (Tree.linesBelow nl n ts) ++ t)), hl, ?_⟩
    simp [Tree.linesBelow, textOf_lineStart]

/-- A line break outside of flow collections leads to the start of a block. -/
theorem cuts_lineStart {nl : Text} (hl : IsNewline nl) (n : Nat) {s : LexState} {t : Text}
    (hs : s.depth = 0) (ht : StopsAt isSpaceOrTab t) :
    Cuts s (leavesOf (lineStart nl n)) t ∧
    BlockStart (s.afterAll (leavesOf (lineStart nl n))) n := by
  have hread : s.Reads ⟨lineBreak, nl⟩ (Token.join (leavesOf (lineStart nl n)).tail ++ t) :=
    hl.reads s _
  have hline : (s.after ⟨lineBreak, nl⟩).atLineStart = true := by cases hl <;> rfl
  have hnode : (s.after ⟨lineBreak, nl⟩).atNodeStart = true := by simp [after, atNodeStart, hs]
  cases n with
  | zero => exact ⟨.cons hread (.nil _ t), hs, hnode, rfl, by simp⟩
  | succ n =>
    have hi := reads_indent hline n ht
    refine ⟨.cons hread (.cons hi (.nil _ t)), hs, hnode, rfl, fun _ => ?_⟩
    exact atLineStart_after _ (by simp) (by simp)

/-- An indicator leads to the start of a block two columns further. -/
theorem cuts_dash {s : LexState} {n : Nat} {t : Text} (hs : BlockStart s n)
    (ht : StopsAt isSpaceOrTab t) :
    Cuts s [⟨dash, ['-']⟩, ⟨space, [' ']⟩] t ∧
      BlockStart (s.afterAll [⟨dash, ['-']⟩, ⟨space, [' ']⟩]) (n + 2) := by
  have h1 := inside_after s dash (show '-' ≠ '\n' by decide)
  have h2 := inside_after (s.after ⟨dash, ['-']⟩) space (show ' ' ≠ '\n' by decide)
  exact ⟨.cons (reads_dash hs.inFlow hs.dashes t) (.cons (reads_space h1.line ht) (.nil _ t)),
    hs.depth, rfl, hs.dashes, fun _ => h2.line⟩

/-- At the start of a block at column `n` the tree is read as its leaves, if the line ends behind
it. -/
def ReadAtBlock (n : Nat) (x : Tree) : Prop :=
  (∀ t, StopsAt isSpaceOrTab (x.text ++ t)) ∧
    ∀ (s : LexState) (t : Text), BlockStart s n → AtLineEnd t →
      Cuts s x.leaves t ∧ (s.afterAll x.leaves).depth = 0

/-- The leaves of the lines are those of the first and those of the others. -/
theorem leavesOf_linesBelow_cons (nl : Text) (n : Nat) (t : Tree) (ts : List Tree) :
    leavesOf (linesBelow nl n (t :: ts)) =
      leavesOf (lineStart nl n) ++ (t.leaves ++ leavesOf (linesBelow nl n ts)) := by
  simp [linesBelow, leavesOf]

/-- Behind the end of a line the trees below are read one after the other, each at the start of
its line. No flow collection is open in between. -/
theorem cuts_linesBelow {nl : Text} (hl : IsNewline nl) {n : Nat} {ts : List Tree}
    (h : ∀ x ∈ ts, ReadAtBlock n x) {s : LexState} {t : Text} (hs : s.depth = 0)
    (ht : AtLineEnd t) : Cuts s (leavesOf (linesBelow nl n ts)) t ∧
      (s.afterAll (leavesOf (linesBelow nl n ts))).depth = 0 := by
  induction ts generalizing s with
  | nil => exact ⟨.nil s t, hs⟩
  | cons x ts ih =>
    obtain ⟨hstop, hread⟩ := h x (by simp)
    obtain ⟨hc, hb⟩ :=
      cuts_lineStart hl n (t := x.text ++ (textOf (linesBelow nl n ts) ++ t)) hs (hstop _)
    obtain ⟨hx, hd⟩ := hread _ _ hb (ht.linesBelow hl n ts)
    obtain ⟨hr, hd⟩ := ih (fun y hy => h y (List.mem_cons_of_mem x hy)) hd
    rw [leavesOf_linesBelow_cons, afterAll_append, afterAll_append]
    refine ⟨.append ?_ (.append hx hr), hd⟩
    rwa [Token.join_append, List.append_assoc]

/-- Trees that are read one by one are read on lines of their own. -/
theorem cuts_lined {nl : Text} (hl : IsNewline nl) {n : Nat} {ts : List Tree}
    (h : ∀ x ∈ ts, ReadAtBlock n x) {s : LexState} {t : Text} (hs : BlockStart s n)
    (ht : AtLineEnd t) :
    Cuts s (leavesOf (lined nl n ts)) t ∧ (s.afterAll (leavesOf (lined nl n ts))).depth = 0 := by
  cases ts with
  | nil => exact ⟨.nil s t, hs.depth⟩
  | cons x ts =>
    obtain ⟨hx, hd⟩ := (h x (by simp)).2 s _ hs (ht.linesBelow hl n ts)
    obtain ⟨hr, hd⟩ := cuts_linesBelow hl (fun y hy => h y (List.mem_cons_of_mem x hy)) hd ht
    rw [lined, leavesOf, afterAll_append]
    exact ⟨.append hx hr, hd⟩

/-- A value does not begin with white space, on one line or on several. -/
theorem stopsAt_blockTree {v : Value} (hv : v.Made) (nl : Text) (n : Nat) (t : Text) :
    StopsAt isSpaceOrTab ((v.blockTree nl n).text ++ t) := by
  cases v with
  | atom a => exact stopsAt_flowTree hv t
  | sequence vs =>
    cases vs with
    | nil => exact stopsAt_flowTree (v := sequence []) hv t
    | cons v vs =>
      rintro c u h
      obtain ⟨rfl, -⟩ := List.cons.inj h
      decide
  | mapping es =>
    cases es with
    | nil => exact stopsAt_flowTree (v := mapping []) hv t
    | cons e es =>
      obtain ⟨k, v⟩ := e
      have hk := stopsAt_render (Atom.Made.ofText k)
      simp only [blockTree, List.isEmpty_cons, Bool.false_eq_true, if_false, blockEntryTrees, lined,
        text_node, textOf_cons]
      split
      · rw [text_blockEntryNode]
        simpa [keyText] using hk _
      · rw [text_entryNode]
        simpa [keyText] using hk _

/-- The value may begin a line : nothing in it that would stand at the start of one is taken for
the marker of a document there. -/
def BeginsLine : Value → Prop
  | atom _ => False
  | sequence _ => True
  | mapping es => ∀ e ∈ es, ¬EndsDocument e.1

/-- An item is read so if what it holds is, to the right of its dash. -/
theorem ReadAtBlock.itemNode {x : Tree} {n : Nat} (h : ReadAtBlock (n + 2) x) :
    ReadAtBlock n (itemNode x) := by
  obtain ⟨hstop, hread⟩ := h
  have hleaves : (Value.itemNode x).leaves = [⟨dash, ['-']⟩, ⟨space, [' ']⟩] ++ x.leaves := by
    simp [Value.itemNode, mark, leaves, leavesOf]
  refine ⟨?_, fun s t hs ht => ?_⟩
  · rintro t c u h
    rw [text_itemNode] at h
    obtain ⟨rfl, -⟩ := List.cons.inj h
    decide
  · obtain ⟨hc, hb⟩ := cuts_dash hs (hstop t)
    obtain ⟨hx, hd⟩ := hread _ t hb ht
    rw [hleaves, afterAll_append]
    exact ⟨.append hc hx, hd⟩

/-- The key of a block mapping ends no document where its line begins. -/
theorem BlockStart.not_endsDocument {s : LexState} {n : Nat} (hs : BlockStart s n) {k : Text}
    (hk : n = 0 → ¬EndsDocument k) (hstart : s.atLineStart = true) : ¬EndsDocument k := by
  by_cases h0 : n = 0
  · exact hk h0
  · cases (hs.line h0).symm.trans hstart

/-- An entry is read so if the block below its key is, to the right of the key. -/
theorem ReadAtBlock.blockEntryNode {x : Tree} {nl k : Text} {n : Nat} (h : ReadAtBlock (n + 2) x)
    (hl : IsNewline nl) (hk : n = 0 → ¬EndsDocument k) :
    ReadAtBlock n (blockEntryNode nl (n + 2) k x) := by
  obtain ⟨hstop, hread⟩ := h
  have hleaves : (Value.blockEntryNode nl (n + 2) k x).leaves =
      (keyNode k).leaves ++ (⟨colon, [':']⟩ :: (leavesOf (lineStart nl (n + 2)) ++ x.leaves)) := by
    simp [Value.blockEntryNode, mark, leaves, leavesOf]
  refine ⟨fun t => ?_, fun s t hs ht => ?_⟩
  · rw [text_blockEntryNode]
    simpa [keyText] using stopsAt_render (Atom.Made.ofText k) _
  · have hcolon : colonEndsWord s.inFlow (textOf (lineStart nl (n + 2)) ++ (x.text ++ t)) =
        true := by
      rw [textOf_lineStart, List.append_assoc]
      exact hl.colonEndsWord _ _
    have hword :
        wordLength s.inFlow (':' :: (textOf (lineStart nl (n + 2)) ++ (x.text ++ t))) = 0 := by
      simp [wordLength, hcolon]
    -- The key is read at the start of the block, then the colon, and behind the line break a
    -- block may start again.
    obtain ⟨hk, hkd⟩ := cuts_keyNode k hs.node (hs.not_endsDocument hk) hword
    have hkd := hkd.trans hs.depth
    obtain ⟨hc, hb⟩ := cuts_lineStart hl (n + 2)
      (s := (s.afterAll (keyNode k).leaves).after ⟨colon, [':']⟩) hkd (hstop t)
    obtain ⟨hx, hd⟩ := hread _ t hb ht
    have hmark : (s.afterAll (keyNode k).leaves).Reads ⟨colon, [':']⟩
        (textOf (lineStart nl (n + 2)) ++ (x.text ++ t)) := by
      refine reads_colon ?_
      simpa [LexState.inFlow, hkd, hs.depth] using hcolon
    rw [hleaves, afterAll_append, afterAll_cons, afterAll_append]
    refine ⟨.append ?_ (.cons ?_ (.append hc hx)), hd⟩
    · rwa [Token.join_cons, Token.join_append, List.append_assoc, List.append_assoc]
    · rwa [Token.join_append, List.append_assoc]

/-- So is an entry with its value on the line of the key. -/
theorem readAtBlock_entryNode {v : Value} {k : Text} {n : Nat} (hv : v.Made)
    (hk : n = 0 → ¬EndsDocument k) : ReadAtBlock n (entryNode k v.flowTree) := by
  have hleaves : (entryNode k v.flowTree).leaves =
      (keyNode k).leaves ++ (leavesOf indicator ++ v.flowTree.leaves) := by
    simp [entryNode, leaves, leavesOf]
  refine ⟨fun t => ?_, fun s t hs ht => ?_⟩
  · rw [text_entryNode]
    simpa [keyText] using stopsAt_render (Atom.Made.ofText k) _
  · have hcolon : wordLength s.inFlow (textOf indicator ++ (v.flowTree.text ++ t)) = 0 :=
      wordLength_indicator _ _
    obtain ⟨hk, hkd⟩ := cuts_keyNode k hs.node (hs.not_endsDocument hk) hcolon
    obtain ⟨hi, h1, hnode⟩ := cuts_indicator (stopsAt_flowTree hv t)
    obtain ⟨hc, -, hd⟩ := cuts_flow v hv _ t hnode fun _ _ => ⟨ht.wordLength _, h1.line⟩
    rw [hleaves, afterAll_append, afterAll_append]
    refine ⟨.append ?_ (.append hi hc), hd.trans (h1.depth.trans (hkd.trans hs.depth))⟩
    rwa [Token.join_append, List.append_assoc]

mutual

/-- At the start of a block the text of a value is read as the leaves of its tree, if the value
may stand there. -/
theorem cuts_block : ∀ (v : Value) {nl : Text} (n : Nat), v.Made → IsNewline nl →
    (n = 0 → v.BeginsLine) → ReadAtBlock n (v.blockTree nl n)
  | atom a, nl, n, hv, _, hn => by
    refine ⟨fun t => stopsAt_blockTree (v := atom a) hv nl n t, fun s t hs ht => ?_⟩
    have hline := hs.line hn
    obtain ⟨hc, -, hd⟩ := cuts_flow (atom a) hv s t hs.node fun _ _ => ⟨ht.wordLength _, hline⟩
    exact ⟨hc, hd.trans hs.depth⟩
  | sequence [], nl, n, hv, _, _ => by
    refine ⟨fun t => stopsAt_blockTree (v := sequence []) hv nl n t, fun s t hs ht => ?_⟩
    obtain ⟨hc, -, hd⟩ := cuts_flow (sequence []) hv s t hs.node (by simp)
    exact ⟨hc, hd.trans hs.depth⟩
  | sequence (v :: vs), nl, n, hv, hl, _ => by
    refine ⟨fun t => stopsAt_blockTree (v := sequence (v :: vs)) hv nl n t, fun s t hs ht => ?_⟩
    have h := cuts_lined hl (readAtBlock_blockItemTrees (v :: vs) n hv hl) hs ht
    simpa [blockTree, leaves] using h
  | mapping [], nl, n, hv, _, _ => by
    refine ⟨fun t => stopsAt_blockTree (v := mapping []) hv nl n t, fun s t hs ht => ?_⟩
    obtain ⟨hc, -, hd⟩ := cuts_flow (mapping []) hv s t hs.node (by simp)
    exact ⟨hc, hd.trans hs.depth⟩
  | mapping (e :: es), nl, n, hv, hl, hn => by
    refine ⟨fun t => stopsAt_blockTree (v := mapping (e :: es)) hv nl n t, fun s t hs ht => ?_⟩
    have h := cuts_lined hl (readAtBlock_blockEntryTrees (e :: es) n hv hl hn) hs ht
    simpa [blockTree, leaves] using h

/-- So each item of a sequence is read. -/
theorem readAtBlock_blockItemTrees : ∀ (vs : List Value) {nl : Text} (n : Nat), AllMade vs →
    IsNewline nl → ∀ x ∈ blockItemTrees nl n vs, ReadAtBlock n x
  | v :: vs, nl, n, hv, hl, x, hx => by
    rcases List.mem_cons.mp hx with rfl | hx
    · exact (cuts_block v (n + 2) hv.1 hl nofun).itemNode
    · exact readAtBlock_blockItemTrees vs n hv.2 hl x hx

/-- So each entry of a mapping is read. At the left margin no key may be taken for the marker of
a document. -/
theorem readAtBlock_blockEntryTrees : ∀ (es : List (Text × Value)) {nl : Text} (n : Nat),
    EntriesMade es → IsNewline nl → (n = 0 → ∀ e ∈ es, ¬EndsDocument e.1) →
      ∀ x ∈ blockEntryTrees nl n es, ReadAtBlock n x
  | (k, v) :: es, nl, n, hv, hl, hn, x, hx => by
    have hk (h0 : n = 0) : ¬EndsDocument k := hn h0 (k, v) (by simp)
    rcases List.mem_cons.mp hx with rfl | hx
    · split
      · exact (cuts_block v (n + 2) hv.1 hl nofun).blockEntryNode hl hk
      · exact readAtBlock_entryNode hv.1 hk
    · exact readAtBlock_blockEntryTrees es n hv.2 hl (fun h0 e he =>
        hn h0 e (List.mem_cons_of_mem _ he)) x hx

end

end Value

end YamlPatch
