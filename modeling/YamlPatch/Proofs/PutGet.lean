import YamlPatch.Proofs.Writes

/-!
# Reading after a write

The tree of an atom is cut from its text alone, at the start of a line. There `...` and `---`
are the markers of a document, not words, and yet the scalar stands for the text
(`Atom.Made.value_tree`). So whatever a write did, the place that it came to holds one value,
and that value stands for what was written (`Cursor.Written.exists_fresh`,
`Cursor.Fresh.shownBy`).

Two paths are apart (`KeyPath.Apart`) if neither leads on from the other. The way to the one
then parts at a key from the way to the other, and what is read there is not changed
(`Cursor.find?_of_set`).

A null needs care in both directions. A place that holds null is read as having no string, so a
string that was written is read as a string only if it does not begin with a word for null : the
reader looks at the first token of a scalar, and that token may be such a word with others
behind it (`StartsNull`). What is shown at the place is therefore said of the tree, and the
reading of strings follows with that condition.

What is written at a path that another one leads on from would replace a mapping, and no write
does so (`Cursor.Written.not_mapping`). Hence a scalar that was there before is apart from every
write that succeeds, or was written itself (`Cursor.apart_of_isScalar`).
-/

namespace YamlPatch

open YamlPatch.Tree

/-! ## The tree of an atom

The text of an atom is lexed by itself when its tree is made. Only a marker is read otherwise
there than inside a line. -/

/-- A marker in the place of a scalar is read like a plain scalar. -/
theorem Scalar.value_of_isMarker {t : Tree} {k : TokenKind} (h : firstKind? t = some k)
    (hk : k.isMarker = true) : value t = foldLines t.text := by
  cases k <;> first | exact absurd hk Bool.false_ne_true | simp [value, h]

/-- Inside a line plain text begins with a word. -/
theorem PlainText.scanInLine_eq {c : Char} {u : Text} (hw : PlainText (c :: u)) (s : LexState) :
    s.scanInLine c u = s.scanPlain c u := by
  obtain ⟨hblank, hquestion, hdash⟩ := hw.head c u rfl
  exact scanInLine_of_isPlainChar (hw.chars c (by simp)) (not_isSpaceOrTab hblank)
    (fun hc => by simp [hdash hc]) fun hc => absurd hc hquestion

/-- Before plain text every context reads a word or a marker. -/
theorem PlainText.kind_scan {c : Char} {u : Text} (hw : PlainText (c :: u)) (s : LexState) :
    (s.scan c u).1.isPlain = true ∨ (s.scan c u).1.isMarker = true := by
  have hspace := not_isSpaceOrTab (hw.head c u rfl).1
  unfold LexState.scan
  rw [hw.scanInLine_eq]
  have hword := LexState.isPlain_scanPlain s c u
  split
  · unfold LexState.scanLineStart
    repeat' split
    · exact .inr rfl
    · exact .inr rfl
    · exact .inr rfl
    · exact absurd ‹_› (by simp [hspace])
    · exact .inl hword
  · exact .inl hword

/-- The first word of the text is a word for null. -/
def StartsNull (t : Text) : Prop := t.takeWhile isWordChar ∈ nullWords

/-- The first word of plain text is cut off at white space, in every context. -/
theorem take_wordLength {f : Bool} {w : Text} (hw : ∀ c ∈ w, isPlainChar c = true) :
    w.take (wordLength f w) = w.takeWhile isWordChar := by
  induction w with
  | nil => rfl
  | cons c w ih =>
    obtain ⟨hc, hf, -⟩ := ne_of_isPlainChar (hw c (by simp))
    have ih := ih fun d hd => hw d (List.mem_cons_of_mem c hd)
    cases hb : isBlank c with
    | true => simp [wordLength, isWordChar, hb]
    | false => simp [wordLength, isWordChar, hb, hc, hf, ih]

/-- Before plain text a null is read only if its first word is one. -/
theorem PlainText.startsNull {c : Char} {u : Text} (hw : PlainText (c :: u)) {s : LexState}
    (h : (s.scan c u).1 = .null) : StartsNull (c :: u) := by
  have hnull : (s.scanPlain c u).1 = .null := by
    unfold LexState.scan at h
    rw [hw.scanInLine_eq] at h
    split at h
    · unfold LexState.scanLineStart at h
      repeat' split at h
      all_goals first | exact h | cases h
    · exact h
  have hblank := (hw.head c u rfl).1
  have hword : c :: u.take (wordLength s.inFlow u) = (c :: u).takeWhile isWordChar := by
    rw [take_wordLength fun d hd => hw.chars d (List.mem_cons_of_mem c hd)]
    simp [isWordChar, hblank]
  simp only [LexState.scanPlain, hword] at hnull
  exact classify_eq_null_iff.mp hnull

namespace Atom

/-- The tree of an atom has the tokens of its text as leaves. -/
theorem leaves_tree (a : Atom) : a.tree.leaves = lex a.render := by
  simp [tree, leaves]

/-- Quoted text is read in the same way wherever it stands. -/
theorem Made.lex_render {a : Atom} (ha : a.Made) (hw : a.written ≠ .plain) :
    lex a.render = a.tokens := by
  have hcuts : Cuts {} a.tokens [] :=
    ha.cuts_tokens rfl (fun h => absurd h hw) (fun _ _ _ h => nomatch h) fun h => absurd h hw
  rw [lex, ← join_tokens]
  exact hcuts.lexFrom_eq

/-- Quoted text is one token, so the tree of such an atom is the usual one. -/
theorem Made.tree_eq_node {a : Atom} (ha : a.Made) (hw : a.written ≠ .plain) : a.tree = a.node := by
  rw [tree, node, ha.lex_render hw]

/-- The first token of a plain atom is read at the start of a line. -/
theorem Made.firstKind?_tree {a : Atom} (ha : a.Made) (hw : a.written = .plain) :
    ∃ c u, a.text = c :: u ∧ Scalar.firstKind? a.tree = some (LexState.scan {} c u).1 := by
  have hplain := ha.plainText hw
  have hr : a.render = a.text := by simp [render, hw]
  obtain ⟨c, u, hc⟩ := List.exists_cons_of_ne_nil hplain.ne_nil
  have hkind := (hc ▸ hplain).kind_scan {}
  have htrivia : (LexState.scan {} c u).1.isTrivia = false := by
    generalize (LexState.scan {} c u).1 = k at hkind
    cases k <;> first | rfl | exact absurd hkind (by decide)
  exact ⟨c, u, hc,
    by simp [Scalar.firstKind?, leaves_tree, hr, hc, lex, lexFrom, LexState.token, htrivia]⟩

/-- The tree of an atom stands for its text. -/
theorem Made.value_tree {a : Atom} (ha : a.Made) : Scalar.value a.tree = a.text := by
  by_cases hw : a.written = .plain
  · have hr : a.render = a.text := by simp [render, hw]
    have hfold : foldLines a.tree.text = a.text := by
      rw [text_tree, hr, foldLines_of_not_mem (hr ▸ ha.newline_not_mem)]
    obtain ⟨c, u, hc, hfirst⟩ := ha.firstKind?_tree hw
    rcases (hc ▸ ha.plainText hw).kind_scan {} with hk | hk
    · rw [Scalar.value_of_isPlain hfirst hk, hfold]
    · rw [Scalar.value_of_isMarker hfirst hk, hfold]
  · rw [ha.tree_eq_node hw, ha.value_node]

/-- It is null only if its text starts with a word for null. -/
theorem Made.startsNull_of_isNull {a : Atom} (ha : a.Made) (h : Scalar.isNull a.tree = true) :
    StartsNull a.text := by
  by_cases hw : a.written = .plain
  · obtain ⟨c, u, hc, hfirst⟩ := ha.firstKind?_tree hw
    simp only [Scalar.isNull, hfirst] at h
    split at h
    · cases ‹some _ = none›
    · rw [hc]
      exact (hc ▸ ha.plainText hw).startsNull (Option.some.inj ‹some _ = some _›)
    · cases h
  · have hl : a.node.leaves = a.tokens := by simp [node, leaves]
    have hquoted : ∃ k, Scalar.firstKind? a.node = some k ∧ k.isQuoted = true := by
      rcases a.tokens_cases with ⟨hp, -, -⟩ | ⟨-, ht, -⟩ | ⟨-, ht, -⟩
      · exact absurd hp hw
      · exact ⟨.singleQuoted, by simp [Scalar.firstKind?, hl, ht, TokenKind.isTrivia], rfl⟩
      · exact ⟨.doubleQuoted, by simp [Scalar.firstKind?, hl, ht, TokenKind.isTrivia], rfl⟩
    obtain ⟨k, hf, hk⟩ := hquoted
    rw [ha.tree_eq_node hw] at h
    simp only [Scalar.isNull, hf] at h
    cases k <;> first | exact absurd hk Bool.false_ne_true | exact absurd h Bool.false_ne_true

end Atom

/-! ## What a write leaves

What can be read of a value is the tree of an atom or of a sequence. The text of a plain atom
may start with a word for null, and then it is read as null. -/

namespace Value

/-- The tree stands for the value. If that is an atom then the tree is null only if the text starts
with a word for null. -/
structure ShownBy (v : Value) (t : Tree) : Prop where
  reads : v.IsReadAs t
  startsNull : ∀ a, v = atom a → Scalar.isNull t = true → StartsNull a.text

/-- A sequence is never null. -/
theorem ShownBy.of_sequence {vs : List Value} {t : Tree} (h : (sequence vs).IsReadAs t) :
    (sequence vs).ShownBy t := ⟨h, nofun⟩

end Value

/-- The text decides what shows an atom, not the quotes. -/
theorem Atom.Made.shownBy_tree {a b : Atom} (hb : b.Made) (ht : b.text = a.text) :
    (Value.atom a).ShownBy b.tree where
  reads := ⟨rfl, hb.value_tree.trans ht⟩
  startsNull := by
    rintro _ ⟨⟩ h
    exact ht ▸ hb.startsNull_of_isNull h

/-! ## The place that was written

Content that has just been put into a place is found as the content of that place, as none
stands before it. -/

namespace Cursor

/-- At the place there is what a write makes of a value : an atom or a flow sequence in quotes
that it took over, or a block sequence that was laid out for this very place. -/
inductive Fresh : Cursor → Value → Prop where
  | atom {d : Cursor} {a : Atom} (s : Style) (h : d.focus = (a.styledLike s).tree) :
      Fresh d (.atom a)
  | flow {d : Cursor} {vs : List Value} (ss : List Style)
      (h : d.focus = (Value.sequence (Value.styledLike ss vs)).flowTree) : Fresh d (.sequence vs)
  | block {d : Cursor} {vs : List Value} (hf : d.focus.isFlow = false) (hne : vs ≠ []) {s : Tree}
      (hs : readSequence (d.newSequenceText vs) = .ok s) : Fresh (d.replace s) (.sequence vs)

/-- It shows the value. -/
theorem Fresh.shownBy {d : Cursor} {v : Value} (h : d.Fresh v) (hv : v.Made) :
    v.ShownBy d.focus := by
  cases h with
  | @atom _ a s h =>
    have hnew : (a.styledLike s).Made := (show a.Made from hv).styledLike _
    exact h ▸ hnew.shownBy_tree (a.text_styledLike _)
  | flow ss h =>
    have hread :=
      Value.isReadAs_flowTree (.sequence (Value.styledLike ss _)) (Value.AllMade.styledLike _ hv)
    exact h ▸ .of_sequence ⟨hread.1, hread.2.of_styledLike _⟩
  | @block d vs hf hne s hs =>
    obtain ⟨s', hs', hread, -⟩ := d.exists_newSequence hv (.inr hne)
    obtain rfl := Except.ok.inj (hs.symm.trans hs')
    exact .of_sequence ⟨hread.1, hread.2.of_styledLike _⟩

/-- What is put between the children of a place that have no content is found there. -/
theorem exists_content?_insertBetween (slot : Cursor) {left : List Tree} (right : List Tree)
    {new : Tree} (hleft : ∀ t ∈ left, t.isContent = false) (hnew : new.isContent = true) :
    ∃ d, (slot.replace (slot.insertBetween left right new)).content? = some d ∧ d.focus = new := by
  have hfocus := focus_content? (slot.replace (slot.insertBetween left right new))
  exact Option.map_eq_some_iff.mp (hfocus.trans (slot.content?_insertBetween right hleft hnew).2)

/-- So is a tree that takes the place of the content. -/
theorem exists_content?_replace {slot content : Cursor} (hvalue : slot.focus.isNode .value = true)
    (hc : slot.content? = some content) {k : NodeKind} (hk : content.focus.kind? = some k)
    {u : Tree} (hu : u.kind? = some k) (hentry : k ≠ .entry) :
    ∃ x, x.isNode .value = true ∧ (slot.replace x).content? = some (content.replace u) := by
  have hfollow : slot.follow? [.content] = some content := by
    rw [follow?_singleton]
    exact hc
  obtain ⟨x, hrole, hx⟩ := exists_follow?_replace hfollow (.of_kind hk hu hentry)
  rw [follow?_singleton] at hx
  exact ⟨x, (hrole.isNode _).trans hvalue, hx⟩

/-- Whatever a write did, the place that it came to holds what it made of the value. -/
theorem Written.exists_fresh {slot : Cursor} {v : Value} {t : Tree} (h : slot.Written v t)
    (hv : v.Made) (hvalue : slot.focus.isNode .value = true) :
    ∃ x d, x.isNode .value = true ∧ (slot.replace x).content? = some d ∧ d.Fresh v ∧
      (slot.replace x).rebuild = t := by
  -- What stands in the place behind the write is known in each of the cases; what stood there
  -- matters only for the quotes and the layout.
  cases h with
  | fillAtom hc a =>
    obtain ⟨d, hd, hnew⟩ := slot.exists_content?_insertBetween [] (isContent_of_content?_eq_none hc)
      (show a.tree.isContent = true from rfl)
    exact ⟨_, d, rfl, hd, .atom .plain (by rw [hnew, Atom.styledLike_plain]), rfl⟩
  | @fillSequence hc vs s hs =>
    obtain rfl := Except.ok.inj (hs.symm.trans (Value.readSequence_flow hv))
    obtain ⟨d, hd, hnew⟩ := slot.exists_content?_insertBetween [] (isContent_of_content?_eq_none hc)
      (Value.isContent_flowTree (.sequence vs))
    exact ⟨_, d, rfl, hd, .flow [] (by rw [hnew, Value.styledLike_nil]), rfl⟩
  | @scalar content hc hk a =>
    obtain ⟨x, hx, hcontent⟩ :=
      exists_content?_replace hvalue hc hk
        (u := (a.styledLike (Scalar.style content.focus)).tree) rfl (by decide)
    exact ⟨x, _, hx, hcontent, .atom _ rfl, (rebuild_content? hcontent).symm⟩
  | @sequence content hc hk vs hne s hs =>
    obtain ⟨s', hs', hread, -⟩ := content.exists_newSequence hv hne
    obtain rfl := Except.ok.inj (hs.symm.trans hs')
    obtain ⟨x, hx, hcontent⟩ :=
      exists_content?_replace hvalue hc hk (u := s) (by simpa [isNode] using hread.1) (by decide)
    refine ⟨x, _, hx, hcontent, ?_, (rebuild_content? hcontent).symm⟩
    cases hf : content.focus.isFlow with
    | true =>
      have hflow : readSequence (content.newSequence vs).flow = .ok s := by
        simpa [newSequenceText, hf] using hs
      have hnew := Value.AllMade.styledLike content.focus.itemStyles (show Value.AllMade vs from hv)
      exact .flow _ (Except.ok.inj (hflow.symm.trans (Value.readSequence_flow hnew)))
    | false => exact .block hf (hne.resolve_left (by simp [hf])) hs
  | @emptied content hc hk hf s hs =>
    obtain rfl := Except.ok.inj (hs.symm.trans Value.readSequence_nil)
    obtain ⟨left, right, heq, hleft, -⟩ := exists_insertEmptied hc (Value.sequence []).flowTree
    obtain ⟨d, hd, hnew⟩ := slot.exists_content?_insertBetween right (fun u hu => (hleft u hu).2)
      (Value.isContent_flowTree (.sequence []))
    exact ⟨_, d, rfl, hd, .flow [] hnew, by rw [heq]⟩

/-- So the place holds a value that shows the one written. -/
theorem Written.exists_place {slot : Cursor} {v : Value} {t : Tree} (h : slot.Written v t)
    (hv : v.Made) (hvalue : slot.focus.isNode .value = true) :
    ∃ x new, x.isNode .value = true ∧ x.content? = some new ∧ v.ShownBy new ∧
      t = (slot.replace x).rebuild := by
  obtain ⟨x, d, hx, hd, hfresh, ht⟩ := h.exists_fresh hv hvalue
  have hcontent := focus_content? (slot.replace x)
  rw [hd] at hcontent
  exact ⟨x, d.focus, hx, hcontent.symm, hfresh.shownBy hv, ht.symm⟩

end Cursor

/-! ## Paths that are apart

Two paths that are apart lead through the same entries up to one mapping, and part at its
entries. -/

/-- Two ways that part still do so behind the same steps. -/
theorem Parts.append_left {ss ts : List Step} (h : Parts ss ts) (us : List Step) :
    Parts (us ++ ss) (us ++ ts) := by
  obtain ⟨vs, k, l, ws, ws', hkl, rfl, rfl⟩ := h
  exact ⟨us ++ vs, k, l, ws, ws', hkl, by simp, by simp⟩

/-- Two ways that part still do so when both go on. -/
theorem Parts.append_right {ss ts : List Step} (h : Parts ss ts) (us vs : List Step) :
    Parts (ss ++ us) (ts ++ vs) := by
  obtain ⟨ws, k, l, xs, ys, hkl, rfl, rfl⟩ := h
  exact ⟨ws, k, l, xs ++ us, ys ++ vs, hkl, by simp, by simp⟩

/-- A way along keys begins with the first of them. -/
theorem exists_entrySteps (k : Text) (ks : List Text) :
    ∃ ss, entrySteps (k :: ks) = .entry k :: ss := by
  cases ks <;> exact ⟨_, rfl⟩

/-- From one key to the next the way leads through the value and its content. -/
theorem entrySteps_cons (k : Text) {ks : List Text} (hne : ks ≠ []) :
    entrySteps (k :: ks) = [.entry k, .value, .content] ++ entrySteps ks := by
  obtain ⟨l, ls, rfl⟩ := List.exists_cons_of_ne_nil hne
  rfl

/-- The ways along two lists of keys part at the first key in which these differ. -/
theorem parts_entrySteps {ks ls : List Text} (hks : ¬ks <+: ls) (hls : ¬ls <+: ks) :
    Parts (entrySteps ks) (entrySteps ls) := by
  induction ks generalizing ls with
  | nil => exact absurd List.nil_prefix hks
  | cons k ks ih =>
    cases ls with
    | nil => exact absurd List.nil_prefix hls
    | cons l ls =>
      by_cases hkl : k = l
      · subst hkl
        have hks' : ¬ks <+: ls := fun h => hks (List.cons_prefix_cons.mpr ⟨rfl, h⟩)
        have hls' : ¬ls <+: ks := fun h => hls (List.cons_prefix_cons.mpr ⟨rfl, h⟩)
        have hne : ks ≠ [] := by
          rintro rfl
          exact hks' List.nil_prefix
        have hne' : ls ≠ [] := by
          rintro rfl
          exact hls' List.nil_prefix
        rw [entrySteps_cons k hne, entrySteps_cons k hne']
        exact (ih hks' hls').append_left _
      · obtain ⟨ss, hss⟩ := exists_entrySteps k ks
        obtain ⟨ts, hts⟩ := exists_entrySteps l ls
        exact ⟨[], k, l, ss, ts, hkl, hss, hts⟩

namespace KeyPath

/-- Neither path leads on from the other. -/
def Apart (p q : KeyPath) : Prop := ¬p.keys <+: q.keys ∧ ¬q.keys <+: p.keys

/-- The ways to their places part. -/
theorem Apart.parts_steps {p q : KeyPath} (h : p.Apart q) (k : Option NodeKind) :
    Parts (p.steps k) (q.steps k) :=
  ((parts_entrySteps h.1 h.2).append_left _).append_right _ _

/-- The ways to the place of the one and to the value of the other part. -/
theorem Apart.parts {p q : KeyPath} (h : p.Apart q) (k : Option NodeKind) :
    Parts (p.steps k) (q.steps k ++ [.content]) := by
  simpa using (h.parts_steps k).append_right [] [.content]

end KeyPath

/-! ## Reading

The value is found at its own path because the write went the way of the reader, and elsewhere
the way parts from that of the write. -/

namespace Cursor

/-- The value at a path is decided by the focus. -/
theorem focus_find? (c : Cursor) (p : KeyPath) :
    (c.find? p).map focus = c.focus.follow? (p.steps c.focus.kind? ++ [.content]) := by
  rw [← focus_follow?, follow?_append, find?_eq, follow?_singleton]
  rfl

/-- So is the text of a scalar. -/
theorem string?_eq (c : Cursor) (p : KeyPath) :
    c.string? p = ((c.find? p).map focus).bind fun t =>
      if t.isNode .scalar && !Scalar.isNull t then some (Scalar.value t) else none := by
  rw [string?, Option.bind_map]
  rfl

/-- What was written is found at its path, and at the paths that are apart from it the same
trees are found as before. -/
theorem exists_of_set {c : Cursor} {p : KeyPath} {v : Value} {t : Tree} (hv : v.Made)
    (h : c.set p v .error = .ok t) :
    ∃ y new, t = (c.replace y).rebuild ∧ ((c.replace y).find? p).map focus = some new ∧
    v.ShownBy new ∧
      ∀ q, p.Apart q → ((c.replace y).find? q).map focus = (c.find? q).map focus := by
  obtain ⟨slot, hslot, hvalue, hw⟩ := written_of_put (put_of_set_error h)
  obtain ⟨x, new, hx, hcontent, hshown, rfl⟩ := hw.exists_place hv hvalue
  obtain ⟨y, hy, hrebuild⟩ := exists_swapped (c.slot_eq p ▸ hslot) x
  have hrole : SameRole slot.focus x :=
    .of_kind (by simpa [isNode] using hvalue) (by simpa [isNode] using hx) (by decide)
  have hkind : y.kind? = c.focus.kind? := (hy.sameRole hrole).kind
  -- The steps are those of the old focus, since the new one is of its kind.
  have hfind (q : KeyPath) : ((c.replace y).find? q).map focus =
      y.follow? (q.steps c.focus.kind? ++ [.content]) := by
    rw [focus_find?]
    simp only [replace, hkind]
  refine ⟨y, new, hrebuild, ?_, hshown, fun q hq => ?_⟩
  · rw [hfind, hy.follow?_append hrole]
    simp only [Tree.follow?, Tree.step?, Step.admits, if_true, Option.bind_fun_some]
    exact hcontent
  · rw [hfind, hy.follow?_of_parts hrole (hq.parts _), focus_find?]

/-- What was written is read back, and at the paths that are apart from it nothing has changed. -/
theorem find?_of_set {c : Cursor} {p : KeyPath} {v : Value} {t : Tree} (hv : v.Made)
    (h : c.set p v .error = .ok t) :
    ∃ y, t = (c.replace y).rebuild ∧ (∃ d, (c.replace y).find? p = some d ∧ v.IsReadAs d.focus) ∧
      ∀ q, p.Apart q → ((c.replace y).find? q).map focus = (c.find? q).map focus ∧
        (c.replace y).string? q = c.string? q := by
  obtain ⟨y, new, ht, hnew, hshown, hrest⟩ := exists_of_set hv h
  obtain ⟨d, hd, rfl⟩ := Option.map_eq_some_iff.mp hnew
  refine ⟨y, ht, ⟨d, hd, hshown.reads⟩, fun q hq => ⟨hrest q hq, ?_⟩⟩
  rw [string?_eq, string?_eq, hrest q hq]

/-- Over a number the marker `...` is written, and the entry after it still has its string. -/
theorem find?_of_set_marker :
    let x : Tree := .node .mapping [
      .node .entry [.node .key [.node .scalar [mark .string 'a']], mark .colon ':', mark .space ' ',
        .node .value [.node .scalar [mark .integer '1']]], mark .lineBreak '\n',
      .node .entry [.node .key [.node .scalar [mark .string 'b']], mark .colon ':', mark .space ' ',
        .node .value [.node .scalar [.token ⟨.singleQuoted, "'x'".toList⟩]]]]
    ∃ p q : KeyPath, p.keys = [['a']] ∧ q.keys = [['b']] ∧ p.Apart q ∧
      ∃ t, (ofTree x).set p (Value.ofText "...".toList) .error = .ok t ∧
        (∃ d, (ofTree t).find? p = some d ∧ d.focus.isNode .scalar = true ∧
          Scalar.value d.focus = "...".toList) ∧
        (ofTree t).string? q = some ['x'] := by
  intro x
  have hapart : KeyPath.Apart ⟨[['a']], by simp⟩ ⟨[['b']], by simp⟩ := ⟨by decide, by decide⟩
  refine ⟨⟨[['a']], by simp⟩, ⟨[['b']], by simp⟩, rfl, rfl, hapart, _, rfl, ?_⟩
  obtain ⟨y, ht, ⟨d, hd, hread⟩, hrest⟩ := find?_of_set (c := ofTree x)
    (p := ⟨[['a']], by simp⟩) (show (Value.ofText "...".toList).Made from .ofText _) rfl
  cases ht
  exact ⟨⟨d, hd, hread⟩, (hrest _ hapart).2⟩

/-! ## Paths that lead on from others

No value that can be written, and none that is written over, is a mapping, so no scalar is found
below or above the path of a write. -/

/-- A path that leads on from another comes through a mapping. -/
theorem exists_mapping_of_prefix {c e : Cursor} {p q : KeyPath} (hpre : p.keys <+: q.keys)
    (hne : p ≠ q) (h : c.entry? q = some e) :
    ∃ d, c.find? p = some d ∧ d.focus.isNode .mapping = true := by
  obtain ⟨ls, hls⟩ := hpre
  have hls' : ls ≠ [] := by
    rintro rfl
    obtain ⟨ks, _⟩ := p
    obtain ⟨ks', _⟩ := q
    simp only [List.append_nil] at hls
    exact hne (by simp [hls])
  -- The way along the longer path leads through what is found at the shorter one.
  have hentry : c.entry? q = (c.find? p).bind fun d => d.entryAt? ls := by
    have happend : (fun d => entryAt? d q.keys) =
        fun d => ((d.entryAt? p.keys).bind value?).bind fun d => d.entryAt? ls :=
      hls ▸ funext (entryAt?_append p.keys_ne_nil hls')
    simp only [Cursor.entry?, find?, happend, Option.bind_assoc]
  obtain ⟨d, hd, he⟩ := Option.bind_eq_some_iff.mp (hentry ▸ h)
  refine ⟨d, hd, ?_⟩
  obtain ⟨l, ls, rfl⟩ := List.exists_cons_of_ne_nil hls'
  have hmember : ∃ f, d.member? l = some f := by
    cases ls with
    | nil => exact ⟨e, he⟩
    | cons m ms =>
      obtain ⟨v, hv, -⟩ := Option.bind_eq_some_iff.mp he
      obtain ⟨f, hf, -⟩ := Option.bind_eq_some_iff.mp hv
      exact ⟨f, hf⟩
  obtain ⟨f, hf⟩ := hmember
  unfold member? at hf
  split at hf
  · assumption
  · cases hf

/-- What a write puts its value in place of is no mapping. -/
theorem Written.not_mapping {slot content : Cursor} {v : Value} {t : Tree} (h : slot.Written v t)
    (hc : slot.content? = some content) : content.focus.isNode .mapping = false := by
  have hkind {d : Cursor} {k : NodeKind} (hd : slot.content? = some d) (hk : d.focus.kind? = some k)
      (hne : k ≠ .mapping) : content.focus.isNode .mapping = false := by
    obtain rfl := Option.some.inj (hc.symm.trans hd)
    simp [isNode, hk, hne]
  cases h with
  | fillAtom hnone a => cases hnone.symm.trans hc
  | fillSequence hnone hs => cases hnone.symm.trans hc
  | scalar hd hk a => exact hkind hd hk (by decide)
  | sequence hd hk hne hs => exact hkind hd hk (by decide)
  | emptied hd hk hf hs => exact hkind hd hk (by decide)

/-- A scalar at another path than that of a write is apart from it. -/
theorem apart_of_isScalar {c d : Cursor} {p q : KeyPath} {v : Value} {t : Tree}
    (h : c.set p v .error = .ok t) (hd : c.find? q = some d)
    (hscalar : d.focus.isNode .scalar = true) (hne : p ≠ q) : p.Apart q := by
  obtain ⟨slot, hslot, -, hw⟩ := written_of_put (put_of_set_error h)
  have hfind : c.find? p = slot.content? := by
    rw [find?_eq, ← slot_eq, hslot, Option.bind_some]
  constructor
  · -- the write would have come to a mapping
    intro hpre
    obtain ⟨e, he, -⟩ := Option.bind_eq_some_iff.mp hd
    obtain ⟨m, hm, hmapping⟩ := exists_mapping_of_prefix hpre hne he
    exact absurd hmapping (by simp [hw.not_mapping (hfind ▸ hm)])
  · -- the write would have passed the scalar
    intro hpre
    obtain ⟨e, he, -⟩ := Option.bind_eq_some_iff.mp hslot
    obtain ⟨m, hm, hmapping⟩ := exists_mapping_of_prefix hpre hne.symm he
    obtain rfl := Option.some.inj (hd.symm.trans hm)
    simp only [isNode, beq_iff_eq] at hscalar hmapping
    exact absurd (hscalar.symm.trans hmapping) (by decide)

end Cursor

end YamlPatch
