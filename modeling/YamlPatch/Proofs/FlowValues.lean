import YamlPatch.Proofs.AtomTokens
import YamlPatch.Proofs.Facing
import YamlPatch.Value

/-!
# Values on one line

A value written on one line has the tree `Value.flowTree`, whose text it is
(`Value.text_flowTree`). Where a node may start, the text is read as the leaves of that tree
(`Value.cuts_flow`), and the parser makes the tree of them (`Value.leads_flow`).
`Value.IsReadAs` says that a tree stands for a value; `flowTree` does
(`Value.isReadAs_flowTree`).

All is by recursion on the value, so that each statement comes with one for lists of items and
one for lists of entries. The lexer knows of a value only in what context its first character is
read and in what context it leaves the text behind (`Inside`). A collection is read from its
bracket on; between the brackets what is read is a list of trees, each behind a separator at
which a node may start (`ReadInside`), so nothing is remembered from one item to the next.
-/

namespace YamlPatch

open TokenKind LexState

/-! ## Marks

Separators and indicators are written with a space behind them, always. -/

namespace Tree

/-- A single character as a tree. -/
def mark (k : TokenKind) (c : Char) : Tree := .token ⟨k, [c]⟩

/-- The comma and the space between two items. -/
def separator : List Tree := [mark comma ',', mark space ' ']

/-- The colon and the space behind a key. -/
def indicator : List Tree := [mark colon ':', mark space ' ']

/-- The trees with a separator between each two. -/
def separated : List Tree → List Tree
  | [] => []
  | [t] => [t]
  | t :: u :: ts => t :: (separator ++ separated (u :: ts))

/-- The text of trees with separators is theirs, joined by a comma and a space. -/
theorem textOf_separated (ts : List Tree) :
    textOf (separated ts) = Text.joinWith ", ".toList (ts.map text) := by
  fun_induction separated ts with
  | case1 => rfl
  | case2 t => simp [Text.joinWith]
  | case3 t u ts ih =>
    have h : textOf separator = ", ".toList := rfl
    have hj : Text.joinWith ", ".toList ((t :: u :: ts).map text) =
        t.text ++ ", ".toList ++ Text.joinWith ", ".toList ((u :: ts).map text) := rfl
    rw [hj, textOf_cons, textOf_append, ih, h, List.append_assoc]

/-- The trees are the nodes among what separates them. -/
theorem filter_separated {k : NodeKind} (ts : List Tree) (h : ∀ t ∈ ts, t.isNode k = true) :
    (separated ts).filter (isNode k) = ts := by
  fun_induction separated ts with
  | case1 => rfl
  | case2 t => simp [h t]
  | case3 t u ts ih =>
    have hs : separator.filter (isNode k) = [] := rfl
    rw [List.filter_cons_of_pos (h t (by simp)), List.filter_append, hs,
      ih fun v hv => h v (List.mem_cons_of_mem t hv)]
    rfl

end Tree

open YamlPatch.Tree

namespace Value

/-! ## Made values

A value is made if its atoms are. Keys are texts and need no assumption. -/

mutual

/-- All atoms of the value are made in one of the usual ways. -/
def Made : Value → Prop
  | atom a => a.Made
  | sequence vs => AllMade vs
  | mapping es => EntriesMade es

/-- So are all values of a list. -/
def AllMade : List Value → Prop
  | [] => True
  | v :: vs => v.Made ∧ AllMade vs

/-- So are all values of entries. The keys may be any text. -/
def EntriesMade : List (Text × Value) → Prop
  | [] => True
  | (_, v) :: es => v.Made ∧ EntriesMade es

end

/-! ## What a tree stands for

This is the specification of reading : it names the kind of a node, its items or entries, and in
the end the text of a scalar and whether it is null. -/

mutual

/-- The tree stands for the value : a scalar for the text of an atom, a sequence for a sequence item
by item, a mapping for a mapping entry by entry. -/
def IsReadAs : Value → Tree → Prop
  | atom a, t => t.isNode .scalar = true ∧ Scalar.value t = a.text
  | sequence vs, t => t.isNode .sequence = true ∧ ItemsReadAs vs (t.childNodes .item)
  | mapping es, t => t.isNode .mapping = true ∧ EntriesReadAs es (t.childNodes .entry)

/-- The trees are items, and the content of each stands for the value in its place. -/
def ItemsReadAs : List Value → List Tree → Prop
  | [], ts => ts = []
  | v :: vs, ts => ∃ i w us, ts = i :: us ∧ i.content? = some w ∧ v.IsReadAs w ∧ ItemsReadAs vs us

/-- The trees are entries, each with the key that is in its place, and a value that stands for
its. -/
def EntriesReadAs : List (Text × Value) → List Tree → Prop
  | [], ts => ts = []
  | (k, v) :: es, ts => ∃ e w us, ts = e :: us ∧ e.keyText? = some k ∧
      e.valueNode?.bind content? = some w ∧ v.IsReadAs w ∧ EntriesReadAs es us

end

/-! ## The tree of a value on one line

The tree that is given here will turn out to be the one that the parser makes. -/

/-- The node of a key. -/
def keyNode (k : Text) : Tree := .node .key [(Atom.ofText k).node]

/-- The entry of a key with a value on its line. -/
def entryNode (k : Text) (t : Tree) : Tree :=
  .node .entry (keyNode k :: (indicator ++ [.node .value [t]]))

mutual

/-- The tree of a value on one line. -/
def flowTree : Value → Tree
  | atom a => a.node
  | sequence vs =>
    .node .sequence (mark leftBracket '[' ::
      (separated (flowItemTrees vs) ++ [mark rightBracket ']']))
  | mapping es =>
    .node .mapping
      (mark leftBrace '\x7b' :: (separated (flowEntryTrees es) ++ [mark rightBrace '\x7d']))

/-- The items of a sequence, without what separates them. -/
def flowItemTrees : List Value → List Tree
  | [] => []
  | v :: vs => .node .item [v.flowTree] :: flowItemTrees vs

/-- The entries of a mapping, without what separates them. -/
def flowEntryTrees : List (Text × Value) → List Tree
  | [] => []
  | (k, v) :: es => entryNode k v.flowTree :: flowEntryTrees es

end

/-- Items are items. -/
theorem isNode_of_mem_flowItemTrees : ∀ {vs : List Value},
    ∀ t ∈ flowItemTrees vs, t.isNode .item = true
  | v :: vs, t, h => by
    rcases List.mem_cons.mp h with rfl | h
    · rfl
    · exact isNode_of_mem_flowItemTrees t h

/-- Entries are entries. -/
theorem isNode_of_mem_flowEntryTrees : ∀ {es : List (Text × Value)},
    ∀ t ∈ flowEntryTrees es, t.isNode .entry = true
  | (k, v) :: es, t, h => by
    rcases List.mem_cons.mp h with rfl | h
    · rfl
    · exact isNode_of_mem_flowEntryTrees t h

/-! ## Its text

By recursion on the value, with items and entries joined by their separators. -/

/-- A key is written like the string that it is. -/
theorem text_keyNode (k : Text) : (keyNode k).text = keyText k := by
  simp [keyNode, keyText, Atom.text_node]

/-- Behind the key stand a colon and a space. -/
theorem text_entryNode (k : Text) (t : Tree) :
    (entryNode k t).text = keyText k ++ ": ".toList ++ t.text := by
  have h : textOf indicator = ": ".toList := rfl
  simp [entryNode, text_keyNode, h]

mutual

/-- The text of the tree is the value on one line. -/
theorem text_flowTree : ∀ v : Value, v.flowTree.text = v.flow
  | atom a => a.text_node
  | sequence vs => by
    have := map_text_flowItemTrees vs
    simp [flowTree, flow, mark, textOf_separated, this]
  | mapping es => by
    have := map_text_flowEntryTrees es
    simp [flowTree, flow, mark, textOf_separated, this]

/-- The texts of the items are the items on one line. -/
theorem map_text_flowItemTrees : ∀ vs : List Value, (flowItemTrees vs).map text = flowItems vs
  | [] => rfl
  | v :: vs => by
    have h1 := text_flowTree v
    have h2 := map_text_flowItemTrees vs
    simp [flowItemTrees, flowItems, h1, h2]

/-- The texts of the entries are the entries on one line. -/
theorem map_text_flowEntryTrees :
    ∀ es : List (Text × Value), (flowEntryTrees es).map text = flowEntries es
  | [] => rfl
  | (k, v) :: es => by
    have h1 := text_flowTree v
    have h2 := map_text_flowEntryTrees es
    simp [flowEntryTrees, flowEntries, text_entryNode, h1, h2]

end

/-! ## It stands for the value

A reader goes through the tree as it was made. -/

/-- The tree of a value is content. -/
theorem isContent_flowTree (v : Value) : v.flowTree.isContent = true := by
  cases v <;> rfl

/-- A node with content alone in it has this content. -/
theorem content?_of_isContent (k : NodeKind) {t : Tree} (h : t.isContent = true) :
    (Tree.node k [t]).content? = some t := by
  simp [content?, children, h]

/-- The key of an entry is the text that was written. -/
theorem keyText?_keyNode (k : Text) (ts : List Tree) :
    (Tree.node .entry (keyNode k :: ts)).keyText? = some k := by
  have hk : (keyNode k).isNode .key = true := rfl
  have hs : (Atom.ofText k).node.isNode .scalar = true := rfl
  have hv := (Atom.Made.ofText k).value_node
  rw [keyText?, children, List.find?_cons, hk]
  simp [keyNode, children, hs, hv]
  rfl

mutual

/-- The tree stands for the value. -/
theorem isReadAs_flowTree : ∀ v : Value, v.Made → v.IsReadAs v.flowTree
  | atom _, h => ⟨rfl, Atom.Made.value_node h⟩
  | sequence vs, h => by
    refine ⟨rfl, ?_⟩
    have hf := filter_separated (flowItemTrees vs) isNode_of_mem_flowItemTrees
    have hr := itemsReadAs_flowItemTrees vs h
    simpa [flowTree, childNodes, children, mark, isNode, kind?, hf] using hr
  | mapping es, h => by
    refine ⟨rfl, ?_⟩
    have hf := filter_separated (flowEntryTrees es) isNode_of_mem_flowEntryTrees
    have hr := entriesReadAs_flowEntryTrees es h
    simpa [flowTree, childNodes, children, mark, isNode, kind?, hf] using hr

/-- The items stand for the values of the sequence. -/
theorem itemsReadAs_flowItemTrees :
    ∀ vs : List Value, AllMade vs → ItemsReadAs vs (flowItemTrees vs)
  | [], _ => rfl
  | v :: vs, h =>
    ⟨_, _, _, rfl, content?_of_isContent _ v.isContent_flowTree, isReadAs_flowTree v h.1,
      itemsReadAs_flowItemTrees vs h.2⟩

/-- The entries stand for those of the mapping. -/
theorem entriesReadAs_flowEntryTrees : ∀ es : List (Text × Value), EntriesMade es →
    EntriesReadAs es (flowEntryTrees es)
  | [], _ => rfl
  | (k, v) :: es, h =>
    ⟨_, _, _, rfl, keyText?_keyNode k _, content?_of_isContent .value v.isContent_flowTree,
      isReadAs_flowTree v h.1, entriesReadAs_flowEntryTrees es h.2⟩

end

/-! ## Its tokens

Inside a collection the state of the lexer is known from the depth, and every node starts behind
a bracket, a comma or a colon. That is all the induction has to carry. -/

/-- The last token was read inside a line, `n` flow collections being open. -/
structure Inside (s : LexState) (n : Nat) : Prop where
  depth : s.depth = n
  line : s.atLineStart = false

/-- With some collection open the context is that of a flow collection. -/
theorem Inside.inFlow {s : LexState} {n : Nat} (h : Inside s (n + 1)) : s.inFlow = true := by
  simp [LexState.inFlow, h.depth]

/-- Behind a mark the line has begun. -/
theorem inside_after (s : LexState) (k : TokenKind) {c : Char} (hc : c ≠ '\n') :
    Inside (s.after ⟨k, [c]⟩) (depthAfter s.depth k) :=
  ⟨rfl, s.atLineStart_after (by simp) (by simpa using Ne.symm hc)⟩

/-- An atom does not begin with white space, so white space before it ends there. -/
theorem stopsAt_render {a : Atom} (ha : a.Made) (t : Text) :
    StopsAt isSpaceOrTab (a.render ++ t) := by
  rintro c u h
  rcases a.tokens_cases with ⟨hw, -, hr⟩ | ⟨-, -, hr⟩ | ⟨-, -, hr⟩ <;> rw [hr] at h
  · obtain ⟨d, w, hd⟩ := List.exists_cons_of_ne_nil (ha.plainText hw).ne_nil
    rw [hd] at h
    obtain ⟨rfl, -⟩ := List.cons.inj h
    exact not_isSpaceOrTab ((ha.plainText hw).head _ _ hd).1
  · obtain ⟨rfl, -⟩ := List.cons.inj h
    decide
  · obtain ⟨rfl, -⟩ := List.cons.inj h
    decide

/-- A value does not begin with white space. -/
theorem stopsAt_flowTree {v : Value} (hv : v.Made) (t : Text) :
    StopsAt isSpaceOrTab (v.flowTree.text ++ t) := by
  rw [text_flowTree]
  cases v with
  | atom a => exact stopsAt_render hv t
  | sequence vs | mapping es =>
    rintro c u h
    obtain ⟨rfl, -⟩ := List.cons.inj h
    decide

/-- In a flow collection a mark ends a word. -/
theorem wordLength_mark {c : Char} (hc : isFlowMark c = true) (t : Text) :
    wordLength true (c :: t) = 0 := by
  simp [wordLength, hc]

/-- A colon with a space behind it ends a word in any context. -/
theorem wordLength_indicator (f : Bool) (t : Text) : wordLength f (':' :: ' ' :: t) = 0 := by
  have h : isBlank ' ' = true := by decide
  simp [wordLength, colonEndsWord, h]

/-- A comma and a space lead to a place where a node may start. -/
theorem cuts_separator {s : LexState} {n : Nat} {t : Text} (hs : Inside s (n + 1))
    (ht : StopsAt isSpaceOrTab t) :
    Cuts s (leavesOf separator) t ∧ Inside (s.afterAll (leavesOf separator)) (n + 1) ∧
      (s.afterAll (leavesOf separator)).atNodeStart = true := by
  have hmark := (s.reads_mark (by simp [hs.inFlow]) (' ' :: t)).2.2.2.2
  have h1 := inside_after s comma (show ',' ≠ '\n' by decide)
  have h2 := inside_after (s.after ⟨comma, [',']⟩) space (show ' ' ≠ '\n' by decide)
  exact ⟨.cons hmark (.cons (reads_space h1.line ht) (.nil _ t)), ⟨hs.depth, h2.line⟩, rfl⟩

/-- So do a colon and a space. -/
theorem cuts_indicator {s : LexState} {t : Text} (ht : StopsAt isSpaceOrTab t) :
    Cuts s (leavesOf indicator) t ∧ Inside (s.afterAll (leavesOf indicator)) s.depth ∧
      (s.afterAll (leavesOf indicator)).atNodeStart = true := by
  have hb : isBlank ' ' = true := by decide
  have h1 := inside_after s colon (show ':' ≠ '\n' by decide)
  have h2 := inside_after (s.after ⟨colon, [':']⟩) space (show ' ' ≠ '\n' by decide)
  have hcolon : s.Reads ⟨colon, [':']⟩ (' ' :: t) := reads_colon (by simp [colonEndsWord, hb])
  exact ⟨.cons hcolon (.cons (reads_space h1.line ht) (.nil _ t)), ⟨rfl, h2.line⟩, rfl⟩

/-- A key that is written plain needs no quotes. -/
theorem needsQuotes_of_written {k : Text} (h : (Atom.ofText k).written = .plain) :
    needsQuotes k = false := by
  by_contra hn
  have hstyle : Style.fitting k = .singleQuoted ∨ Style.fitting k = .doubleQuoted := by
    unfold Style.fitting
    repeat' split
    all_goals simp_all
  rcases hstyle with hs | hs <;> simp only [Atom.written, Atom.ofText, Atom.withStyle, hs] at h
  · split at h <;> cases h
  · cases h

/-- Where it begins a line the key is taken for the marker that ends a document : it is written
plain, and white space stands behind its first three full stops. -/
def EndsDocument (k : Text) : Prop :=
  needsQuotes k = false ∧ ∃ c u, k = '.' :: '.' :: '.' :: c :: u ∧ isBlank c = true

/-- Before a colon no other key that is written plain is a marker. -/
theorem isMarkerLine_key {k : Text} (hw : (Atom.ofText k).written = .plain) (h : ¬EndsDocument k)
    {c : Char} {u : Text} (hc : k = c :: u) (t : Text) :
    isMarkerLine '-' c (u ++ ':' :: t) = false ∧ isMarkerLine '.' c (u ++ ':' :: t) = false := by
  have hdash : ∀ v, k ≠ '-' :: '-' :: v := ((Atom.Made.ofText k).plainText hw).dash
  have hblank : ∀ d v, k = '.' :: '.' :: '.' :: d :: v → isBlank d = false := fun d v hk =>
    Bool.eq_false_iff.mpr fun hd => h ⟨needsQuotes_of_written hw, d, v, hk, hd⟩
  have hcolon : isBlank ':' = false := by decide
  match u with
  | [] => cases t <;> simp [isMarkerLine]
  | [d] => simp [isMarkerLine]
  | d :: e :: v =>
    simp only [List.cons_append, isMarkerLine, Bool.and_eq_false_imp, Bool.and_eq_true,
      beq_iff_eq, and_imp]
    refine ⟨?_, ?_⟩
    · rintro rfl rfl rfl
      exact absurd hc (hdash _)
    · rintro rfl rfl rfl
      cases v with
      | nil => exact hcolon
      | cons d v => exact hblank d v hc

/-- A key is read before its colon. -/
theorem cuts_keyNode (k : Text) {s : LexState} {t : Text} (hs : s.atNodeStart = true)
    (hline : s.atLineStart = true → ¬EndsDocument k) (ht : wordLength s.inFlow (':' :: t) = 0) :
    Cuts s (keyNode k).leaves (':' :: t) ∧ (s.afterAll (keyNode k).leaves).depth = s.depth := by
  have hl : (keyNode k).leaves = (Atom.ofText k).tokens := by
    simp [keyNode, Atom.node, leaves, leavesOf]
  rw [hl]
  exact ⟨(Atom.Made.ofText k).cuts_tokens hs (fun _ => ht) (fun _ => stopsAt_of_wordLength ht)
    fun hw hstart _ _ hc => isMarkerLine_key hw (hline hstart) hc t, Atom.depth_afterAll_tokens _ s⟩

/-- The tokens that open and close a flow collection. -/
inductive Brackets : Token → Token → Prop where
  | square : Brackets ⟨leftBracket, ['[']⟩ ⟨rightBracket, [']']⟩
  | curly : Brackets ⟨leftBrace, ['\x7b']⟩ ⟨rightBrace, ['\x7d']⟩

/-- What is read inside of a flow collection makes one where a node may start. -/
theorem cuts_brackets {o c : Token} (hb : Brackets o c) {s : LexState} {xs : List Token} {t : Text}
    (hs : s.atNodeStart = true) (h : Cuts (s.after o) xs (c.text ++ t))
    (hi : Inside ((s.after o).afterAll xs) (s.depth + 1)) :
    Cuts s (o :: (xs ++ [c])) t ∧ (s.afterAll (o :: (xs ++ [c]))).Within ∧
      (s.afterAll (o :: (xs ++ [c]))).depth = s.depth := by
  have hflow := hi.inFlow
  have hd := hi.depth
  have hs : (s.inFlow || s.atNodeStart) = true := by simp [hs]
  rw [afterAll_cons, afterAll_append, afterAll_cons, afterAll_nil]
  generalize hr : (s.after o).afterAll xs = r at hflow hd
  have hr' : (r.inFlow || r.atNodeStart) = true := by simp [hflow]
  cases hb with
  | square =>
    have hl := (inside_after r rightBracket (show ']' ≠ '\n' by decide)).line
    refine ⟨.cons (s.reads_mark hs _).1 (.append h ?_), ⟨rfl, rfl, hl⟩, ?_⟩
    · rw [hr]
      exact .cons (r.reads_mark hr' t).2.1 (.nil _ t)
    · simp [after, depthAfter, hd]
  | curly =>
    have hl := (inside_after r rightBrace (show '\x7d' ≠ '\n' by decide)).line
    refine ⟨.cons (s.reads_mark hs _).2.2.1 (.append h ?_), ⟨rfl, rfl, hl⟩, ?_⟩
    · rw [hr]
      exact .cons (r.reads_mark hr' t).2.2.2.1 (.nil _ t)
    · simp [after, depthAfter, hd]

/-- Inside of flow collections the tree is read as its leaves, wherever a node may start. -/
def ReadInside (x : Tree) : Prop :=
  (∀ t, StopsAt isSpaceOrTab (x.text ++ t)) ∧
    ∀ (n : Nat) (s : LexState) (t : Text), Inside s (n + 1) → s.atNodeStart = true →
      wordLength true t = 0 → Cuts s x.leaves t ∧ Inside (s.afterAll x.leaves) (n + 1)

/-- Trees that are read one by one are read with separators between them. -/
theorem cuts_separated {ts : List Tree} (h : ∀ x ∈ ts, ReadInside x) {n : Nat} {s : LexState}
    {t : Text} (hs : Inside s (n + 1)) (hnode : s.atNodeStart = true) (ht : wordLength true t = 0) :
    Cuts s (leavesOf (separated ts)) t ∧ Inside (s.afterAll (leavesOf (separated ts))) (n + 1) := by
  -- By induction on the items. Behind each the state is inside the collection, and a comma or the
  -- bracket ends its last word.
  fun_induction separated ts generalizing s with
  | case1 => exact ⟨.nil s t, hs⟩
  | case2 x => simpa [leavesOf] using (h x (by simp)).2 n s t hs hnode ht
  | case3 x y ts ih =>
    have hl : leavesOf (x :: (separator ++ separated (y :: ts))) =
        x.leaves ++ (leavesOf separator ++ leavesOf (separated (y :: ts))) := by
      rw [leavesOf, leavesOf_append]
    have hcomma :
        wordLength true (Token.join (leavesOf separator ++ leavesOf (separated (y :: ts))) ++ t) =
          0 :=
      wordLength_mark (by decide) _
    obtain ⟨hx, h1⟩ := (h x (by simp)).2 n s _ hs hnode hcomma
    -- The space behind the comma is one token, as the next item does not begin with a space.
    have hstop : StopsAt isSpaceOrTab (Token.join (leavesOf (separated (y :: ts))) ++ t) := by
      have hy := (h y (by simp)).1
      cases ts with
      | nil =>
        have := hy t
        simpa [separated, leavesOf, text] using this
      | cons z ts =>
        have := hy (textOf (separator ++ separated (z :: ts)) ++ t)
        simpa [separated, leavesOf, textOf, text] using this
    obtain ⟨hsep, h2, hnode⟩ := cuts_separator h1 hstop
    obtain ⟨hrest, h3⟩ := ih (fun z hz => h z (List.mem_cons_of_mem x hz)) h2 hnode
    rw [hl, afterAll_append, afterAll_append]
    exact ⟨.append hx (.append hsep hrest), h3⟩

mutual

/-- Where a node may start, the text of a value is read as the leaves of its tree. -/
theorem cuts_flow : ∀ v : Value, v.Made → ∀ (s : LexState) (t : Text), s.atNodeStart = true →
    (∀ a, v = atom a → wordLength s.inFlow t = 0 ∧ s.atLineStart = false) →
      Cuts s v.flowTree.leaves t ∧ (s.afterAll v.flowTree.leaves).Within ∧
        (s.afterAll v.flowTree.leaves).depth = s.depth
  | atom a, hv, s, t, hs, ha => by
    obtain ⟨ht, hline⟩ := ha a rfl
    have hl : (flowTree (atom a)).leaves = a.tokens := by simp [flowTree, Atom.node, leaves]
    rw [hl]
    exact ⟨Atom.Made.cuts_tokens hv hs (fun _ => ht) (fun _ => stopsAt_of_wordLength ht)
      (by simp [hline]), Atom.Made.within_afterAll hv s, a.depth_afterAll_tokens s⟩
  | sequence vs, hv, s, t, hs, _ => by
    have hl : (flowTree (sequence vs)).leaves =
        ⟨leftBracket, ['[']⟩ ::
          (leavesOf (separated (flowItemTrees vs)) ++ [⟨rightBracket, [']']⟩]) := by
      simp [flowTree, leaves, leavesOf, mark]
    have h := inside_after s leftBracket (show '[' ≠ '\n' by decide)
    obtain ⟨hc, hi⟩ := cuts_separated (readInside_flowItemTrees vs hv) h rfl
      (wordLength_mark (show isFlowMark ']' = true by decide) t)
    rw [hl]
    exact cuts_brackets .square hs hc hi
  | mapping es, hv, s, t, hs, _ => by
    have hl : (flowTree (mapping es)).leaves =
        ⟨leftBrace, ['\x7b']⟩ ::
          (leavesOf (separated (flowEntryTrees es)) ++ [⟨rightBrace, ['\x7d']⟩]) := by
      simp [flowTree, leaves, leavesOf, mark]
    have h := inside_after s leftBrace (show '\x7b' ≠ '\n' by decide)
    obtain ⟨hc, hi⟩ := cuts_separated (readInside_flowEntryTrees es hv) h rfl
      (wordLength_mark (show isFlowMark '\x7d' = true by decide) t)
    rw [hl]
    exact cuts_brackets .curly hs hc hi

/-- Each item is read as its leaves. -/
theorem readInside_flowItemTrees :
    ∀ vs : List Value, AllMade vs → ∀ x ∈ flowItemTrees vs, ReadInside x
  | v :: vs, hv, x, hx => by
    rcases List.mem_cons.mp hx with rfl | hx
    · have hl : (Tree.node .item [v.flowTree]).leaves = v.flowTree.leaves := by
        simp [leaves, leavesOf]
      refine ⟨fun t => by simpa using stopsAt_flowTree hv.1 t, fun n s t hs hnode ht => ?_⟩
      obtain ⟨hc, hw, hd⟩ := cuts_flow v hv.1 s t hnode fun _ _ => ⟨by rw [hs.inFlow, ht], hs.line⟩
      rw [hl]
      exact ⟨hc, hd.trans hs.depth, hw.line⟩
    · exact readInside_flowItemTrees vs hv.2 x hx

/-- Each entry is read as its leaves, key, colon and value. -/
theorem readInside_flowEntryTrees : ∀ es : List (Text × Value), EntriesMade es →
    ∀ x ∈ flowEntryTrees es, ReadInside x
  | (k, v) :: es, hv, x, hx => by
    rcases List.mem_cons.mp hx with rfl | hx
    · have hl : (entryNode k v.flowTree).leaves =
          (keyNode k).leaves ++ (leavesOf indicator ++ v.flowTree.leaves) := by
        simp [entryNode, leaves, leavesOf]
      refine ⟨fun t => ?_, fun n s t hs hnode ht => ?_⟩
      · rw [text_entryNode, List.append_assoc, List.append_assoc]
        exact stopsAt_render (Atom.Made.ofText k) _
      · have hcolon : wordLength s.inFlow (textOf indicator ++ (v.flowTree.text ++ t)) = 0 :=
          wordLength_indicator _ _
        obtain ⟨hk, hkd⟩ := cuts_keyNode k hnode (by simp [hs.line]) hcolon
        obtain ⟨hi, h1, hnode⟩ := cuts_indicator (stopsAt_flowTree hv.1 t)
        have h1 : Inside _ (n + 1) := ⟨h1.depth.trans (hkd.trans hs.depth), h1.line⟩
        obtain ⟨hc, hw, hd⟩ :=
          cuts_flow v hv.1 _ t hnode fun _ _ => ⟨by rw [h1.inFlow, ht], h1.line⟩
        rw [hl, afterAll_append, afterAll_append]
        refine ⟨.append ?_ (.append hi hc), hd.trans h1.depth, hw.line⟩
        rwa [Token.join_append, List.append_assoc]
    · exact readInside_flowEntryTrees es hv.2 x hx

end

end Value

end YamlPatch
