import YamlPatch.Proofs.Commuting

/-!
# Writing twice

The second of two like writes finds other things than the first one did : a value where there
was none, a flow sequence where a block sequence was emptied, the quotes that were just written,
perhaps another first line break. None of that matters. Where a value was written the place is
settled for it (`Cursor.Settled`, `Cursor.Fresh.settled`) : what a write of the value would put
there is what stands there. So the second write leaves the text as it is and returns what the
first one returned (`Cursor.attempt_again`).
-/

namespace YamlPatch

open TokenKind YamlPatch.Tree

/-! ## Quotes

A scalar that takes the place of another takes over its quotes if it is a string that may be
written in them. The node that is made of it then has quotes which lead to the same choice. -/

/-- What a scalar takes over of the style of the one it replaces. -/
def Style.quotes? (s : Style) : Option Style := if s.isQuoted then some s else none

/-- A scalar that begins with a word or a marker has no quotes. -/
theorem Scalar.quotes?_style {t : Tree} {k : TokenKind} (h : firstKind? t = some k)
    (hk : k.isPlain = true ∨ k.isMarker = true) : (style t).quotes? = none := by
  have hplain : style t = .plain := by
    simp only [style, h]
    cases k <;> first | rfl | exact absurd hk (by decide)
  rw [hplain]
  rfl

namespace Atom

variable {a b : Atom}

/-- An atom is written by its text and its style, and nothing else of it. -/
theorem render_eq_of_written (hw : a.written = b.written) (ht : a.text = b.text) :
    a.render = b.render := by
  rw [render, render, hw, ht]

/-- The node of an atom has the quotes in which the atom is written. -/
theorem Made.quotes?_node (ha : a.Made) : (Scalar.style a.node).quotes? = a.written.quotes? := by
  have hl : a.node.leaves = a.tokens := by simp [node, leaves]
  rcases a.tokens_cases with ⟨hw, ht, -⟩ | ⟨hw, ht, -⟩ | ⟨hw, ht, -⟩
  · obtain ⟨x, xs, hx, hk⟩ := (ha.plainText hw).exists_cons
    have htrivia : x.kind.isTrivia = false := by
      generalize x.kind = k at hk
      cases k <;> first | rfl | cases hk
    have hfirst : Scalar.firstKind? a.node = some x.kind := by
      simp [Scalar.firstKind?, hl, ht, hx, htrivia]
    rw [Scalar.quotes?_style hfirst (.inl hk), hw]
    rfl
  · simp [Scalar.style, Scalar.firstKind?, hl, ht, hw, isTrivia]
  · simp [Scalar.style, Scalar.firstKind?, hl, ht, hw, isTrivia]

/-- So has its tree, also where its text is taken for a marker. -/
theorem Made.quotes?_tree (ha : a.Made) : (Scalar.style a.tree).quotes? = a.written.quotes? := by
  by_cases hw : a.written = .plain
  · obtain ⟨c, u, hc, hfirst⟩ := ha.firstKind?_tree hw
    rw [Scalar.quotes?_style hfirst ((hc ▸ ha.plainText hw).kind_scan {}), hw]
    rfl
  · rw [ha.tree_eq_node hw, ha.quotes?_node]

/-- The quotes in which an atom was written are taken over when it is written again. -/
theorem render_styledLike {s s' : Style} (h : s'.quotes? = (a.styledLike s).written.quotes?) :
    (a.styledLike s').render = (a.styledLike s).render := by
  by_cases hstring : a.type = .string
  · rcases (a.styledLike s).written_cases with hw | hw | hw
    · -- an atom that was written plain has found no quotes
      have hs : s.isQuoted = false := by
        cases s with
        | singleQuoted =>
          simp only [styledLike, hstring, Style.isQuoted, written, true_and, if_true] at hw
          split at hw <;> cases hw
        | doubleQuoted => simp [styledLike, hstring, Style.isQuoted, written] at hw
        | plain | literal | folded => rfl
      have hs' : s'.isQuoted = false := by
        cases s' <;> first | rfl | simp [hw, Style.quotes?, Style.isQuoted] at h
      simp [styledLike, hs, hs']
    · obtain rfl : s' = .singleQuoted := by
        cases s' <;> simp [hw, Style.quotes?, Style.isQuoted] at h ⊢
      have hcontrol : a.text.any isControl = false :=
        a.text_styledLike s ▸ not_isControl_of_written hw
      refine render_eq_of_written ?_ (by simp)
      rw [hw]
      simp [styledLike, hstring, Style.isQuoted, written, hcontrol]
    · obtain rfl : s' = .doubleQuoted := by
        cases s' <;> simp [hw, Style.quotes?, Style.isQuoted] at h ⊢
      refine render_eq_of_written ?_ (by simp)
      rw [hw]
      simp [styledLike, hstring, Style.isQuoted, written]
  · simp [styledLike, hstring]

end Atom

/-! ## The quotes of the items

Items take over quotes one by one. What is written again has as many items as before, and each
of them the quotes that it was given. -/

namespace Value

/-- The styles have the quotes in which the atoms among the items are written. -/
def QuotedAs : List Value → List Style → Prop :=
  List.Forall₂ fun v s => ∀ a, v = atom a → s.quotes? = a.written.quotes?

/-- The items of a flow sequence are the trees of its values. -/
theorem items_flowTree (vs : List Value) : (sequence vs).flowTree.items = vs.map flowTree := by
  have hfilter : (sequence vs).flowTree.childNodes .item = flowItemTrees vs := by
    simp only [flowTree, childNodes, children]
    rw [List.filter_cons_of_neg (by decide), List.filter_append,
      filter_separated _ isNode_of_mem_flowItemTrees]
    simp [isNode, kind?, mark]
  rw [items, hfilter]
  clear hfilter
  induction vs with
  | nil => rfl
  | cons v vs ih =>
    rw [flowItemTrees, List.filterMap_cons_some (content?_of_isContent _ v.isContent_flowTree), ih]
    rfl

/-- So are the items of a block sequence, two columns further. -/
theorem items_blockTree (nl : Text) (n : Nat) {vs : List Value} (hne : vs ≠ []) :
    ((sequence vs).blockTree nl n).items = vs.map (blockTree nl (n + 2)) := by
  have hfilter : ((sequence vs).blockTree nl n).childNodes .item = blockItemTrees nl n vs := by
    rw [blockTree, if_neg (by simpa using hne)]
    exact filter_lined _ _ _ (isNode_of_mem_blockItemTrees nl n)
  rw [items, hfilter]
  clear hfilter hne
  induction vs with
  | nil => rfl
  | cons v vs ih =>
    rw [blockItemTrees,
      List.filterMap_cons_some (content?_itemNode (v.isContent_blockTree nl (n + 2))), ih]
    rfl

/-- The styles of the items in a tree have the quotes of the atoms that the items were made of. -/
theorem quotedAs_itemStyles {t : Tree} {f : Value → Tree} (hf : ∀ a, f (atom a) = a.node)
    {vs : List Value} (hv : AllMade vs) (ht : t.items = vs.map f) : QuotedAs vs t.itemStyles := by
  rw [itemStyles, ht]
  clear ht
  induction vs with
  | nil => exact .nil
  | cons v vs ih =>
    refine .cons ?_ (ih hv.2)
    rintro a rfl
    have hscalar : a.node.isNode .scalar = true := rfl
    simp only [hf, hscalar, if_true]
    exact Atom.Made.quotes?_node hv.1

/-- The first item takes over the first style if it is an atom. -/
theorem styledLike_cons (ss : List Style) (v : Value) (vs : List Value) :
    ∃ w, Value.styledLike ss (v :: vs) =
      w :: Value.styledLike (if ss.length ≤ 1 then ss else ss.tail) vs ∧
      ((∃ a, v = atom a ∧ w = atom (a.styledLike (ss.head?.getD .plain))) ∨ (∀ a, v ≠ atom a) ∧
        w = v) := by
  refine ⟨_, rfl, ?_⟩
  cases v with
  | atom a => exact .inl ⟨a, rfl, by cases ss <;> simp⟩
  | sequence | mapping => exact .inr ⟨nofun, rfl⟩

/-- Items that take over the quotes in which they were written are the same lines again. -/
theorem lines_styledLike {ss ss' : List Style} {vs : List Value}
    (h : QuotedAs (Value.styledLike ss vs) ss') :
    flowItems (Value.styledLike ss' vs) = flowItems (Value.styledLike ss vs) ∧
      itemLines (Value.styledLike ss' vs) = itemLines (Value.styledLike ss vs) := by
  induction vs generalizing ss ss' with
  | nil => exact ⟨rfl, rfl⟩
  | cons v vs ih =>
    obtain ⟨w, hw, hv⟩ := styledLike_cons ss v vs
    rw [hw] at h ⊢
    obtain ⟨s', rest, hs', hrest, rfl⟩ := List.forall₂_cons_left_iff.mp h
    obtain ⟨w', hw', hv'⟩ := styledLike_cons (s' :: rest) v vs
    rw [hw']
    have hlines : w'.flow = w.flow ∧ w'.blockLines = w.blockLines := by
      rcases hv with ⟨a, rfl, rfl⟩ | ⟨hv, rfl⟩
      · rcases hv' with ⟨b, hb, rfl⟩ | ⟨hv', -⟩
        · cases hb
          have hrender := Atom.render_styledLike (hs' _ rfl)
          exact ⟨hrender, congrArg (fun t => [t]) hrender⟩
        · exact absurd rfl (hv' a)
      · rcases hv' with ⟨b, rfl, -⟩ | ⟨-, rfl⟩
        · exact absurd rfl (hv b)
        · exact ⟨rfl, rfl⟩
    cases rest with
    | nil =>
      -- there is no item behind this one
      obtain rfl := styledLike_eq_nil.mp (List.forall₂_nil_right_iff.mp hrest)
      simp [Value.styledLike, flowItems, itemLines, hlines]
    | cons r rest =>
      obtain ⟨hflow, hitems⟩ := ih hrest
      simp [flowItems, itemLines, hlines, hflow, hitems]

/-- Sequences with the same lines have the same text in either layout. -/
theorem text_eq_of_lines {vs ws : List Value} (hflow : flowItems vs = flowItems ws)
    (hitems : itemLines vs = itemLines ws) :
    (sequence vs).flow = (sequence ws).flow ∧
    ∀ n, (sequence vs).block n = (sequence ws).block n := by
  refine ⟨by rw [flow, flow, hflow], fun n => ?_⟩
  cases vs with
  | nil =>
    cases ws with
    | nil => rfl
    | cons w ws => cases hflow
  | cons v vs =>
    cases ws with
    | nil => cases hflow
    | cons w ws => simp [block, isBlock, blockLines, hitems]

end Value

/-! ## The first line break

Block sequences are written with the line break of the document, which is that of its first line
break. A sequence that was written with it does not change which one it is. -/

namespace Cursor

variable {c d slot : Cursor} {vs : List Value} {v : Value} {t : Tree}

/-- A tree that has the line breaks of the document does not change what the first one tells. -/
theorem hasReturns_replace {nl : Text} {x : Tree} (hr : c.rebuild.hasReturns = (nl == ['\r', '\n']))
    (hx : BreaksAs nl x.leaves) (hbreak : ∃ z ∈ x.leaves, z.kind = lineBreak) :
    (c.replace x).rebuild.hasReturns = c.rebuild.hasReturns := by
  obtain ⟨before, behind, h⟩ := c.exists_leaves_rebuild
  have hc : c.rebuild.leaves = before ++ c.focus.leaves ++ behind := h c.focus
  cases hb : before.find? fun z => z.kind == lineBreak with
  | some z => simp [hasReturns, h x, hc, List.find?_append, hb]
  | none =>
    have hsome : (x.leaves.find? fun z => z.kind == lineBreak).isSome = true := by
      simpa [List.find?_isSome] using hbreak
    obtain ⟨y, hy⟩ := Option.isSome_iff_exists.mp hsome
    have hfirst : (c.replace x).rebuild.hasReturns = x.hasReturns := by
      simp [hasReturns, h x, List.find?_append, hb, hy]
    rw [hfirst, hr]
    exact hasReturns_eq hx hbreak

/-- The text of a block sequence is read as its tree, with the line breaks of the document. -/
theorem exists_blockTree (hv : Value.AllMade vs) (hne : vs ≠ []) {s : Tree}
    (hs : readSequence (c.blockText (.sequence vs)) = .ok s) :
    ∃ nl, c.rebuild.hasReturns = (nl == ['\r', '\n']) ∧
    s = (Value.sequence vs).blockTree nl c.column := by
  obtain ⟨nl, hl, hr⟩ : ∃ nl, IsNewline nl ∧ c.rebuild.hasReturns = (nl == ['\r', '\n']) := by
    cases c.rebuild.hasReturns
    · exact ⟨_, .lf, rfl⟩
    · exact ⟨_, .crlf, rfl⟩
  have hblock : (Value.sequence vs).isBlock = true := by simpa [Value.isBlock] using hne
  rw [blockText_eq hl hr (v := .sequence vs) hv hblock] at hs
  exact ⟨nl, hr, Except.ok.inj (hs.symm.trans (Value.readSequence_block hv hne hl c.column))⟩

/-- Over a block sequence that was just written the same text is written again. -/
theorem blockText_replace (hv : Value.AllMade vs) (hne : vs ≠ []) {s : Tree}
    (hs : readSequence (c.blockText (.sequence vs)) = .ok s) :
    (c.replace s).blockText (.sequence vs) = c.blockText (.sequence vs) := by
  obtain ⟨nl, hr, rfl⟩ := exists_blockTree hv hne hs
  rcases Value.length_blockLines_eq_one_or nl (.sequence vs) c.column with hline | hbreak
  · -- the new text has no line breaks, so it does not matter which ones the document has now
    obtain ⟨l, hl⟩ := List.length_eq_one_iff.mp hline
    have hnone : '\n' ∉ (Value.sequence vs).block c.column := by
      have hblock : (Value.sequence vs).isBlock = true := by simpa [Value.isBlock] using hne
      have hcontrols :=
        Value.noControls_indentBy c.column (Value.noControls_blockLines (.sequence vs) hv)
      rw [hl] at hcontrols
      simp only [Value.block, hblock, if_true, hl]
      exact (hcontrols (List.replicate c.column ' ' ++ l) (by simp [Value.indentBy])).not_mem
        (by decide)
    have htext (d : Cursor) (hd : d.column = c.column) :
        d.blockText (.sequence vs) = (Value.sequence vs).block c.column := by
      unfold blockText
      rw [hd]
      split
      · exact Value.replaceChar_of_not_mem _ hnone
      · rfl
    rw [htext (c.replace ((Value.sequence vs).blockTree nl c.column)) rfl, htext c rfl]
  · have hreturns := hasReturns_replace hr (Value.breaksAs_blockTree (.sequence vs) c.column) hbreak
    unfold blockText
    rw [hreturns]
    rfl

/-! ## Settled places

There is one lemma for each sort of value and layout that a write may leave. -/

/-- What a write of the value over the content at `d` would write is what stands there. -/
inductive Settled (d : Cursor) : Value → Prop where
  | atom (hk : d.focus.kind? = some .scalar) {a : Atom}
      (h : (a.styledLike (Scalar.style d.focus)).render = d.focus.text) : Settled d (.atom a)
  | sequence (hk : d.focus.kind? = some .sequence) {vs : List Value}
      (hne : d.focus.isFlow = true ∨ vs ≠ [])
      (h : (d.newSequenceText vs).dropWhile (· == ' ') = d.focus.text) : Settled d (.sequence vs)

/-- So the write leaves the text as it is. -/
theorem Settled.write (h : d.Settled v) (hv : v.Made) (hc : slot.content? = some d) :
    ∃ t, slot.write v = .ok t ∧ t.text = slot.rebuild.text := by
  have htext {x : Tree} (hx : x.text = d.focus.text) :
      (d.replace x).rebuild.text = slot.rebuild.text := by
    rw [← rebuild_content? hc, Cursor.text_rebuild, Cursor.text_rebuild]
    simp [replace, hx]
  cases h with
  | atom hk h => exact ⟨_, (Written.scalar hc hk _).write_eq, htext ((Atom.text_tree _).trans h)⟩
  | sequence hk hne h =>
    obtain ⟨s, hs, -, hstext⟩ := d.exists_newSequence hv hne
    exact ⟨_, (Written.sequence hc hk hne hs).write_eq, htext (hstext.trans h)⟩

/-- A place that holds the tree of the atom is settled for it, whatever quotes it took over. -/
theorem settled_tree {a : Atom} {s : Style} (ha : a.Made) (hd : d.focus = (a.styledLike s).tree) :
    d.Settled (.atom a) := by
  have hquotes := (ha.styledLike s).quotes?_tree
  refine .atom (by rw [hd]; rfl) ?_
  rw [hd, Atom.render_styledLike hquotes, Atom.text_tree]

/-- A place that holds the sequence in brackets is settled for it. -/
theorem settled_flowTree (ss : List Style) (hv : Value.AllMade vs)
    (hd : d.focus = (Value.sequence (Value.styledLike ss vs)).flowTree) :
    d.Settled (.sequence vs) := by
  have hf : d.focus.isFlow = true := by rw [hd]; rfl
  have hquotes :=
    Value.quotedAs_itemStyles (fun _ => rfl) (hv.styledLike ss) (Value.items_flowTree _)
  obtain ⟨hflow, hitems⟩ := Value.lines_styledLike hquotes
  refine .sequence (by rw [hd]; rfl) (.inl hf) ?_
  simp only [newSequenceText, hf, if_true, newSequence]
  rw [hd, (Value.text_eq_of_lines hflow hitems).1, Value.text_flowTree]
  rfl

/-- So is one that holds the text of the block sequence as it was read. -/
theorem settled_block (hv : Value.AllMade vs) (hne : vs ≠ []) (hf : d.focus.isFlow = false)
    {s : Tree} (hs : readSequence (d.newSequenceText vs) = .ok s) :
    (d.replace s).Settled (.sequence vs) := by
  obtain ⟨s', hs', -, htext⟩ := d.exists_newSequence hv (.inr hne)
  obtain rfl := Except.ok.inj (hs.symm.trans hs')
  have hnew : Value.AllMade (Value.styledLike d.focus.itemStyles vs) := hv.styledLike _
  obtain ⟨hitems, -⟩ := d.isBlock_newSequence hne
  have hold : d.newSequenceText vs = d.blockText (d.newSequence vs) := by simp [newSequenceText, hf]
  rw [hold] at hs htext
  obtain ⟨nl, -, htree⟩ := exists_blockTree hnew hitems hs
  -- The tree that was read has the quotes that were written, so the same items take over the same
  -- quotes again.
  have hquotes : Value.QuotedAs (Value.styledLike d.focus.itemStyles vs) s.itemStyles :=
    Value.quotedAs_itemStyles (fun _ => rfl) hnew (htree ▸ Value.items_blockTree nl d.column hitems)
  obtain ⟨hflow, hlines⟩ := Value.lines_styledLike hquotes
  have hsame := (Value.text_eq_of_lines hflow hlines).2
  have hkind : s.kind? = some .sequence ∧ s.isFlow = false := by
    obtain ⟨w, ws, hws⟩ := List.exists_cons_of_ne_nil hitems
    rw [htree, hws]
    exact ⟨rfl, rfl⟩
  refine .sequence hkind.1 (.inr hne) ?_
  -- So the lines are the same, and they are written at the same column with the same line break.
  have hagain : (d.replace s).newSequenceText vs = d.blockText (d.newSequence vs) := calc
    (d.replace s).newSequenceText vs = (d.replace s).blockText ((d.replace s).newSequence vs) := by
      simp [newSequenceText, replace, hkind.2]
    _ = (d.replace s).blockText (d.newSequence vs) := by
      simp only [blockText]
      rw [show ((d.replace s).newSequence vs).block _ = _ from hsame _]
      rfl
    _ = d.blockText (d.newSequence vs) := blockText_replace hnew hitems hs
  rw [hagain, ← htext]
  rfl

/-- After a write the place is settled for the value. -/
theorem Fresh.settled (h : d.Fresh v) (hv : v.Made) : d.Settled v := by
  cases h with
  | atom s h => exact settled_tree hv h
  | flow ss h => exact settled_flowTree ss hv h
  | block hf hne hs => exact settled_block hv hne hf hs

/-! ## Writing twice

A write that fails changes nothing, and fails again. One that succeeds leaves its place settled. -/

/-- The document after a write from `c`, which is as it was if the write fails, and why it fails
if it does. -/
def attempt (c : Cursor) (p : KeyPath) (v : Value) (m : MissingPolicy) : Tree × Option WriteError :=
  match c.set p v m with
  | .ok t => (t, none)
  | .error e => (c.rebuild, some e)

/-- A value is put where the path leads to a place. -/
theorem put_of_slot {p : KeyPath} (h : (c.entry? p).bind slot? = some slot) (v : Value) :
    c.put p v = slot.write v := by
  obtain ⟨entry, hentry, hslot⟩ := Option.bind_eq_some_iff.mp h
  simp [put, hentry, hslot]

/-- A write that was made is read back, and made again it leaves the text as it is. -/
theorem exists_put_again {p : KeyPath} (hv : v.Made) (h : c.put p v = .ok t) :
    ∃ y, (c.replace y).rebuild = t ∧ (∃ d, (c.replace y).find? p = some d ∧ v.IsReadAs d.focus) ∧
      ∃ t', (c.replace y).put p v = .ok t' ∧ t'.text = t.text := by
  obtain ⟨slot, hslot, hvalue, hw⟩ := written_of_put h
  obtain ⟨x, d, hx, hd, hfresh, rfl⟩ := hw.exists_fresh hv hvalue
  have hrole : SameRole slot.focus x :=
    .of_kind (by simpa [isNode] using hvalue) (by simpa [isNode] using hx) (by decide)
  obtain ⟨y, hy, hfollow⟩ := exists_follow?_replace (c.slot_eq p ▸ hslot) hrole
  have hslot' : (Cursor.entry? (c.replace y) p).bind slot? = some (slot.replace x) := by
    rw [slot_eq]
    simpa only [replace, hy.kind] using hfollow
  obtain ⟨t', ht', htext⟩ := (hfresh.settled hv).write hv hd
  refine ⟨y, (rebuild_follow? hfollow).symm, ⟨d, ?_, (hfresh.shownBy hv).reads⟩, t', ?_, htext⟩
  · rw [find?_eq, ← slot_eq, hslot', Option.bind_some, hd]
  · rw [put_of_slot hslot', ht']

/-- A value that was written is read back, and the same write once more, from where the first
one was made, leaves the text of the document as it is and returns what the first one returned.
-/
theorem attempt_again (c : Cursor) (p : KeyPath) {v : Value} (hv : v.Made) (m : MissingPolicy) :
    ∃ y, (c.replace y).rebuild = (c.attempt p v m).1 ∧
      (∀ t, c.put p v = .ok t → ∃ d, (c.replace y).find? p = some d ∧ v.IsReadAs d.focus) ∧
      ((c.replace y).attempt p v m).1.text = (c.attempt p v m).1.text ∧
      ((c.replace y).attempt p v m).2 = (c.attempt p v m).2 := by
  cases hput : c.put p v with
  | ok t =>
    obtain ⟨y, hrebuild, hread, t', hagain, htext⟩ := exists_put_again hv hput
    refine ⟨y, ?_, fun _ _ => hread, ?_⟩
    · simp [attempt, set_of_put hput, hrebuild]
    · simp [attempt, set_of_put hput, set_of_put hagain, htext]
  | error r =>
    -- nothing was written, so the second write is the first
    have hrebuild : (c.attempt p v m).1 = c.rebuild := by
      cases r <;> cases m <;> simp [attempt, set, hput]
    refine ⟨c.focus, hrebuild.symm, fun t ht => ?_, rfl, rfl⟩
    cases ht

/-- A block sequence is emptied, and the second write finds a flow sequence. -/
theorem attempt_again_emptied :
    let c := ofTree (parse "a:\n  - 'x'\n  - y\nb: 1".toList).tree
    let p : KeyPath := ⟨[['a']], by simp⟩
    let v := Value.sequence []
    v.Made ∧ ∃ t, (c.attempt p v .error).1 = t ∧ t.text = "a: []\nb: 1".toList ∧
      ((ofTree t).attempt p v .error).1.text = "a: []\nb: 1".toList ∧
      ((ofTree t).attempt p v .error).2 = (c.attempt p v .error).2 := by
  intro c p v
  have hv : v.Made := trivial
  have htext : (c.attempt p v .error).1.text = "a: []\nb: 1".toList := by decide +kernel
  obtain ⟨y, hy, -, hagain, hresult⟩ := attempt_again c p hv .error
  have hy : (c.attempt p v .error).1 = y := hy.symm
  exact ⟨hv, y, hy, hy ▸ htext, hagain.trans htext, hresult⟩

end Cursor

end YamlPatch
