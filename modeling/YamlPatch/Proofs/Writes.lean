import YamlPatch.Proofs.Descent
import YamlPatch.Proofs.Rendering

/-!
# What a write does

A write that succeeds has done one of five things to the place it came to (`Cursor.Written`) :
put an atom or a sequence into an empty place, put one in place of another, or emptied a block
sequence. All around the old value, and around the place in which there was none, the text is
kept (`Cursor.set_frame`).

Whoever wants to know something of all writes that succeed goes through these five cases. Each
says which tree is put there and in which layout, and no later module opens the functions that
write. That the cases are complete is proved once (`written_of_put`), and that each of them is
what the writer does (`Written.write_eq`).

The text is kept since a write changes the tree in one place. What stands around the place is
the text of its crumbs, which are those of the old document.
-/

namespace YamlPatch

open YamlPatch.Tree

/-! ## Values in the quotes of others

Whether a string may be written in the quotes of another depends on what it holds; if it may
not, it keeps its own. -/

/-- A scalar without quotes leaves the atom its style. -/
@[simp] theorem Atom.styledLike_plain (a : Atom) : a.styledLike .plain = a := by
  simp [styledLike, Style.isQuoted]

namespace Value

/-- Without old items the new ones keep their style. -/
@[simp] theorem styledLike_nil (vs : List Value) : Value.styledLike [] vs = vs := by
  induction vs with
  | nil => rfl
  | cons v vs ih => simp [Value.styledLike, ih]

/-- Values stay made in the usual ways whichever quotes are taken over. -/
theorem AllMade.styledLike (ss : List Style) {vs : List Value} (h : AllMade vs) :
    AllMade (Value.styledLike ss vs) := by
  induction vs generalizing ss with
  | nil => trivial
  | cons v vs ih =>
    refine ⟨?_, ih _ h.2⟩
    split
    · rename_i a s _
      exact Atom.Made.styledLike (show a.Made from h.1) s
    · exact h.1

/-- Taking over quotes adds no item and leaves none out. -/
theorem styledLike_eq_nil {ss : List Style} {vs : List Value} :
    Value.styledLike ss vs = [] ↔ vs = [] := by
  cases vs <;> simp [Value.styledLike]

/-- Quotes do not change what stands for the items. -/
theorem ItemsReadAs.of_styledLike (ss : List Style) {vs : List Value} {ts : List Tree}
    (h : ItemsReadAs (Value.styledLike ss vs) ts) : ItemsReadAs vs ts := by
  induction vs generalizing ss ts with
  | nil => exact h
  | cons v vs ih =>
    obtain ⟨i, w, us, rfl, hi, hw, hus⟩ := h
    refine ⟨i, w, us, rfl, hi, ?_, ih _ hus⟩
    split at hw
    · rename_i a s _
      exact ⟨hw.1, hw.2.trans (a.text_styledLike s)⟩
    · exact hw

end Value

/-- The tree of an atom has the text that is written. -/
theorem Atom.text_tree (a : Atom) : a.tree.text = a.render := by
  simp [Atom.tree, textOf, join_lex]

namespace Cursor

/-! ## Outcomes

A write goes down to a place and then does one of five things there. -/

/-- The sequence that is written over the one at `content`. -/
def newSequence (content : Cursor) (vs : List Value) : Value :=
  .sequence (Value.styledLike content.focus.itemStyles vs)

/-- Its text, in the layout of the sequence at `content`. -/
def newSequenceText (content : Cursor) (vs : List Value) : Text :=
  if content.focus.isFlow then (content.newSequence vs).flow
    else content.blockText (content.newSequence vs)

/-- The document has come about by writing the value into the place `slot`. -/
inductive Written (slot : Cursor) : Value → Tree → Prop where
  | fillAtom (h : slot.content? = none) (a : Atom) :
      Written slot (.atom a) (slot.replace (slot.insertLast a.tree)).rebuild
  | fillSequence (h : slot.content? = none) {vs : List Value} {s : Tree}
      (hs : readSequence (Value.sequence vs).flow = .ok s) :
      Written slot (.sequence vs) (slot.replace (slot.insertLast s)).rebuild
  | scalar {content : Cursor} (h : slot.content? = some content)
      (hk : content.focus.kind? = some .scalar) (a : Atom) :
      Written slot (.atom a) (content.setScalar (a.styledLike (Scalar.style content.focus))).rebuild
  | sequence {content : Cursor} (h : slot.content? = some content)
      (hk : content.focus.kind? = some .sequence) {vs : List Value}
      (hne : content.focus.isFlow = true ∨ vs ≠ []) {s : Tree}
      (hs : readSequence (content.newSequenceText vs) = .ok s) :
      Written slot (.sequence vs) (content.replace s).rebuild
  | emptied {content : Cursor} (h : slot.content? = some content)
      (hk : content.focus.kind? = some .sequence) (hf : content.focus.isFlow = false) {s : Tree}
      (hs : readSequence "[]".toList = .ok s) :
      Written slot (.sequence []) (slot.replace (slot.insertEmptied content s)).rebuild

/-- Into an empty place an atom or a sequence is put. -/
theorem written_of_fill {slot : Cursor} {v : Value} {t : Tree} (hc : slot.content? = none)
    (h : slot.fill v = .ok t) : Written slot v t := by
  cases v with
  | atom a =>
    cases h
    exact .fillAtom hc a
  | sequence vs =>
    simp only [fill] at h
    split at h
    · rename_i s hs
      cases h
      exact .fillSequence hc hs
    · cases h
  | mapping es => cases h

/-- Over a sequence another one is written, or a block sequence is emptied. -/
theorem written_of_replaceSequence {slot content : Cursor} {vs : List Value} {t : Tree}
    (hc : slot.content? = some content) (hk : content.focus.kind? = some .sequence)
    (h : slot.replaceSequence content vs = .ok t) : Written slot (.sequence vs) t := by
  simp only [replaceSequence] at h
  split at h
  · cases h
  · rename_i s hs
    cases hf : content.focus.isFlow with
    | true =>
      simp only [hf, if_true, Bool.not_true, Bool.false_and, Bool.false_eq_true, if_false] at hs h
      cases h
      exact .sequence hc hk (.inl hf) (by simpa [newSequenceText, hf, newSequence] using hs)
    | false =>
      cases vs with
      | nil =>
        simp only [hf, Bool.false_eq_true, if_false, List.isEmpty_nil, if_true, Bool.not_false,
          Bool.true_and] at hs h
        cases h
        exact .emptied hc hk hf hs
      | cons v vs =>
        simp only [hf, List.isEmpty_cons, Bool.and_false, Bool.false_eq_true, if_false] at hs h
        cases h
        exact .sequence hc hk (.inr (by simp))
          (by simpa [newSequenceText, hf, newSequence] using hs)

/-- In a place there is a value, over which it is written, or none. -/
theorem written_of_write {slot : Cursor} {v : Value} {t : Tree} (h : slot.write v = .ok t) :
    Written slot v t := by
  unfold write at h
  split at h
  · exact written_of_fill ‹_› h
  · rename_i content hc
    split at h
    · cases h
      exact .scalar hc ‹_› _
    · exact written_of_replaceSequence hc ‹_› h
    · cases h

/-- The outcomes are those of the writes that succeed. -/
theorem Written.write_eq {slot : Cursor} {v : Value} {t : Tree} (h : slot.Written v t) :
    slot.write v = .ok t := by
  cases h with
  | fillAtom hc a => simp [write, hc, fill]
  | fillSequence hc hs => simp [write, hc, fill, hs]
  | scalar hc hk a => simp [write, hc, hk]
  | @sequence content hc hk vs hne s hs =>
    cases hf : content.focus.isFlow with
    | true =>
      have hread : readSequence (content.newSequence vs).flow = .ok s := by
        simpa [newSequenceText, hf] using hs
      rw [newSequence] at hread
      simp [write, hc, hk, replaceSequence, hf, hread]
    | false =>
      obtain ⟨v, vs, rfl⟩ := List.exists_cons_of_ne_nil (hne.resolve_left (by simp [hf]))
      have hread : readSequence (content.blockText (content.newSequence (v :: vs))) = .ok s := by
        simpa [newSequenceText, hf] using hs
      rw [newSequence] at hread
      simp [write, hc, hk, replaceSequence, hf, hread]
  | emptied hc hk hf hs =>
    simp only [write, hc, hk, replaceSequence, hf, Bool.false_eq_true, if_false, List.isEmpty_nil,
      if_true, hs]
    rfl

/-- A write that succeeds has come to a place and written there. -/
theorem written_of_put {c : Cursor} {p : KeyPath} {v : Value} {t : Tree} (h : c.put p v = .ok t) :
    ∃ slot, (c.entry? p).bind slot? = some slot ∧ slot.focus.isNode .value = true ∧
    Written slot v t := by
  unfold put at h
  split at h
  · cases h
  · rename_i entry hentry
    split at h
    · cases h
    · rename_i slot hslot
      exact ⟨slot, by rw [hentry]; exact hslot, focus_child? hslot, written_of_write h⟩

/-- What is written is the document that the policy for missing fields passes on. -/
theorem set_of_put {c : Cursor} {p : KeyPath} {v : Value} {t : Tree} (h : c.put p v = .ok t)
    (m : MissingPolicy) : c.set p v m = .ok t := by
  simp [set, h]

/-- Where missing fields are errors a write that returns a document has been made. -/
theorem put_of_set_error {c : Cursor} {p : KeyPath} {v : Value} {t : Tree}
    (h : c.set p v .error = .ok t) : c.put p v = .ok t := by
  unfold set at h
  split at h
  · cases h
    assumption
  · cases h
  · contradiction
  · cases h
  · cases h

/-! ## The trees that are written

What is put into the tree has been read back from its own text, so its shape is known by the
round trip. -/

/-- Line breaks as in the document, the text of a block is that of a tree behind its margin. -/
theorem exists_blockText (c : Cursor) {v : Value} (hv : v.Made) (hb : v.isBlock = true) :
    ∃ nl, IsNewline nl ∧
      c.blockText v = List.replicate c.column ' ' ++ (v.blockTree nl c.column).text := by
  unfold blockText
  split
  · exact ⟨_, .crlf, Value.replaceChar_block hv hb _ _⟩
  · exact ⟨_, .lf, Value.block_eq hb _⟩

/-- A sequence that is not empty is a block also with the quotes of the old items. -/
theorem isBlock_newSequence (content : Cursor) {vs : List Value} (hne : vs ≠ []) :
    Value.styledLike content.focus.itemStyles vs ≠ [] ∧
    (content.newSequence vs).isBlock = true := by
  have hitems : Value.styledLike content.focus.itemStyles vs ≠ [] :=
    mt Value.styledLike_eq_nil.mp hne
  exact ⟨hitems, by simpa [newSequence, Value.isBlock] using hitems⟩

/-- A new sequence is written and read in brackets, or as a block behind its margin. -/
theorem newSequence_cases (content : Cursor) {vs : List Value} (hv : Value.AllMade vs)
    (hne : content.focus.isFlow = true ∨ vs ≠ []) :
    (content.focus.isFlow = true ∧ content.newSequenceText vs = (content.newSequence vs).flow ∧
        readSequence (content.newSequenceText vs) = .ok (content.newSequence vs).flowTree) ∨
      content.focus.isFlow = false ∧ Value.styledLike content.focus.itemStyles vs ≠ [] ∧
      ∃ nl, IsNewline nl ∧
        content.newSequenceText vs =
          List.replicate content.column ' ' ++
            ((content.newSequence vs).blockTree nl content.column).text ∧
        readSequence (content.newSequenceText vs) =
          .ok ((content.newSequence vs).blockTree nl content.column) := by
  have hnew : (content.newSequence vs).Made := hv.styledLike _
  cases hf : content.focus.isFlow with
  | true =>
    have htext : content.newSequenceText vs = (content.newSequence vs).flow := by
      rw [newSequenceText, hf, if_pos rfl]
    exact .inl ⟨rfl, htext, htext ▸ Value.readSequence_flow hnew⟩
  | false =>
    obtain ⟨hitems, hb⟩ := content.isBlock_newSequence (hne.resolve_left (by simp [hf]))
    obtain ⟨nl, hl, hblock⟩ := content.exists_blockText hnew hb
    have htext : content.newSequenceText vs = content.blockText (content.newSequence vs) := by
      rw [newSequenceText, hf, if_neg Bool.false_ne_true]
    rw [htext, hblock]
    exact .inr ⟨rfl, hitems, nl, hl, rfl, Value.readSequence_block hnew hitems hl _⟩

/-- The text of a new sequence is read as a sequence with that text, which stands for the items. -/
theorem exists_newSequence (content : Cursor) {vs : List Value} (hv : Value.AllMade vs)
    (hne : content.focus.isFlow = true ∨ vs ≠ []) :
    ∃ s, readSequence (content.newSequenceText vs) = .ok s ∧ (content.newSequence vs).IsReadAs s ∧
      s.text = (content.newSequenceText vs).dropWhile (· == ' ') := by
  have hnew : (content.newSequence vs).Made := hv.styledLike _
  obtain ⟨-, htext, hread⟩ | ⟨-, -, nl, -, htext, hread⟩ := content.newSequence_cases hv hne
  · refine ⟨_, hread, Value.isReadAs_flowTree _ hnew, ?_⟩
    rw [htext, Value.text_flowTree]
    rfl
  · refine ⟨_, hread, Value.isReadAs_blockTree _ _ _ hnew, ?_⟩
    rw [htext]
    have hstop := Value.stopsAt_blockTree hnew nl content.column []
    rw [List.append_nil] at hstop
    rw [List.dropWhile_append_of_pos (by simp)]
    exact (StopsAt.dropWhile_eq fun d u hd => by
      have := hstop d u hd
      simp only [isSpaceOrTab, Bool.or_eq_false_iff] at this
      exact this.1).symm

/-- No tree, or a single space. -/
def IsGap (g : List Tree) : Prop := g = [] ∨ g = [space]

/-- What is put into a place stands between the trees before and behind it, with a gap on either
side. -/
theorem insertBetween_eq (slot : Cursor) (left right : List Tree) (new : Tree) :
    ∃ l m g g', left = l ++ m ∧ IsGap g ∧ IsGap g' ∧
      slot.insertBetween left right new = .node .value (l ++ g ++ new :: (g' ++ (m ++ right))) := by
  have hleft : left = (left.reverse.dropWhile isLineEnd).reverse ++
      (left.reverse.takeWhile isLineEnd).reverse := by
    rw [← List.reverse_append, List.takeWhile_append_dropWhile, List.reverse_reverse]
  obtain ⟨a, b, h⟩ : ∃ a b : Bool, slot.insertBetween left right new =
      .node .value ((left.reverse.dropWhile isLineEnd).reverse ++
        (if a then [] else [space]) ++ [new] ++
        (if b then [space] else []) ++ ((left.reverse.takeWhile isLineEnd).reverse ++ right)) :=
    ⟨_, _, rfl⟩
  refine ⟨_, _, if a then [] else [space], if b then [space] else [], hleft, ?_, ?_, by simp [h]⟩
  · cases a <;> simp [IsGap]
  · cases b <;> simp [IsGap]

/-- If no content stands before it, it is the content of the place. -/
theorem content?_insertBetween (slot : Cursor) {left : List Tree} (right : List Tree) {new : Tree}
    (hleft : ∀ t ∈ left, t.isContent = false) (hnew : new.isContent = true) :
    (slot.insertBetween left right new).isNode .value = true ∧
      (slot.insertBetween left right new).content? = some new := by
  obtain ⟨l, m, g, g', rfl, hg, -, heq⟩ := slot.insertBetween_eq left right new
  have hl : l.find? isContent = none :=
    List.find?_eq_none.mpr fun t ht => by simp [hleft t (List.mem_append_left m ht)]
  have hgap : g.find? isContent = none := by
    rcases hg with rfl | rfl <;> rfl
  rw [heq]
  exact ⟨rfl, by simp [Tree.content?, children, List.find?_append, hl, hgap, hnew]⟩

/-- Where nothing stands no child is content. -/
theorem isContent_of_content?_eq_none {slot : Cursor} (h : slot.content? = none) :
    ∀ u ∈ slot.focus.children, u.isContent = false := by
  have hfind : slot.focus.content? = none := by rw [← focus_content?, h, Option.map_none]
  simpa [Tree.content?] using hfind

/-- The empty list comes between the children before the lines of the old sequence and those
behind it. -/
theorem exists_insertEmptied {slot content : Cursor} (hc : slot.content? = some content)
    (new : Tree) :
    ∃ left right, slot.insertEmptied content new = slot.insertBetween left right new ∧
      (∀ u ∈ left, u ∈ slot.focus.children ∧ u.isContent = false) ∧
      ∀ u ∈ right, u ∈ slot.focus.children := by
  obtain ⟨k, l, r, hfocus, hcrumbs, -, hl, -⟩ := step?_eq_some (content?_eq slot ▸ hc)
  refine ⟨l.takeWhile fun u => !u.isToken .lineBreak, r, by simp only [insertEmptied, hcrumbs],
    fun u hu => ?_, fun u hu => by simp [hfocus, children, hu]⟩
  have hu := List.takeWhile_subset _ hu
  exact ⟨by simp [hfocus, children, hu], hl u hu⟩

/-! ## The text around a write

The crumbs of the place keep the text before and behind it, and a write changes what is between. -/

/-- The text that is written for a value, without the spaces before its first line. -/
def newText (slot : Cursor) (v : Value) : Text :=
  match slot.content?, v with
  | some d, .atom a => (a.styledLike (Scalar.style d.focus)).render
  | some d, .sequence vs => (d.newSequenceText vs).dropWhile (· == ' ')
  | _, v => v.flow

/-- Between the texts `before` and `behind` of the document the place holds `old`, a scalar or a
sequence, or it holds nothing. -/
inductive Holds (slot : Cursor) : Text → Text → Text → Prop where
  | content {d : Cursor} (h : slot.content? = some d)
      (hk : d.focus.kind? = some .scalar ∨ d.focus.kind? = some .sequence) :
      Holds slot (Crumb.textBefore d.crumbs) d.focus.text (Crumb.textAfter d.crumbs)
  | empty {l r : List Tree} (h : slot.content? = none) (hs : slot.focus.children = l ++ r) :
      Holds slot (Crumb.textBefore slot.crumbs ++ textOf l) []
        (textOf r ++ Crumb.textAfter slot.crumbs)

/-- The text of the document is that of what a place holds and what stands around it. -/
theorem Holds.text_rebuild {slot : Cursor} {before old behind : Text}
    (h : slot.Holds before old behind) (hslot : slot.focus.isNode .value = true) :
    slot.rebuild.text = before ++ old ++ behind := by
  cases h with
  | content h hk => rw [← rebuild_content? h, Cursor.text_rebuild]
  | @empty l r h hs =>
    obtain ⟨ts, hts⟩ : ∃ ts, slot.focus = .node .value ts := by
      cases hf : slot.focus with
      | token x => simp [hf, isNode, Tree.kind?] at hslot
      | node k ts =>
        simp only [hf, isNode, Tree.kind?, beq_iff_eq, Option.some.injEq] at hslot
        exact ⟨ts, by rw [hslot]⟩
    rw [hts, children] at hs
    rw [Cursor.text_rebuild, hts, text_node, hs]
    simp

/-- The text of a gap. -/
def IsGapText (s : Text) : Prop := s = [] ∨ s = [' ']

/-- A gap has the text of one. -/
theorem IsGap.textOf {g : List Tree} (h : IsGap g) : IsGapText (textOf g) := by
  rcases h with rfl | rfl
  · exact .inl rfl
  · exact .inr rfl

/-- A value put into an empty place stands in it with a gap on either side. -/
theorem exists_holds_insertLast {slot : Cursor} (h : slot.content? = none) (new : Tree) :
    ∃ before behind s₁ s₂, slot.Holds before [] behind ∧ IsGapText s₁ ∧ IsGapText s₂ ∧
      (slot.replace (slot.insertLast new)).rebuild.text = before ++ s₁ ++ new.text ++ s₂ ++
        behind := by
  obtain ⟨l, m, g, g', hs, hg, hg', heq⟩ := slot.insertBetween_eq slot.focus.children [] new
  refine ⟨_, _, _, _, .empty h hs, hg.textOf, hg'.textOf, ?_⟩
  rw [insertLast, heq, Cursor.text_rebuild]
  simp [replace]

/-- An empty list is to be written over a block sequence. -/
def EmptiesBlock (c : Cursor) (p : KeyPath) (v : Value) : Prop :=
  v = .sequence [] ∧ ∃ d, c.find? p = some d ∧ d.focus.isNode .sequence = true ∧
  d.focus.isFlow = false

/-- All around a write the text is kept. With `before ++ old ++ behind` the text of the document, in
which the place at the path holds `old`, the text afterwards has the new text there, and a space on
either side at most if the place held nothing. -/
theorem set_frame {c : Cursor} {p : KeyPath} {v : Value} {m : MissingPolicy} {t : Tree}
    (hv : v.Made) (h : c.set p v m = .ok t) (heffect : ∃ u, c.put p v = .ok u)
    (hne : ¬c.EmptiesBlock p v) :
    ∃ slot before old behind s₁ s₂, (c.entry? p).bind slot? = some slot ∧
    slot.Holds before old behind ∧
      c.rebuild.text = before ++ old ++ behind ∧
      t.text = before ++ s₁ ++ slot.newText v ++ s₂ ++ behind ∧
      (s₁ = [] ∧ s₂ = [] ∨ slot.content? = none ∧ IsGapText s₁ ∧ IsGapText s₂) := by
  obtain ⟨u, hput⟩ := heffect
  obtain rfl : u = t := Except.ok.inj ((set_of_put hput m).symm.trans h)
  obtain ⟨slot, hslot, hvalue, hw⟩ := written_of_put hput
  have hfollow := c.slot_eq p ▸ hslot
  have hrebuild := rebuild_follow? hfollow
  -- Both texts are read off the crumbs of the place, which the write has left as they were.
  suffices hs : ∃ before old behind s₁ s₂, slot.Holds before old behind ∧
      u.text = before ++ s₁ ++ slot.newText v ++ s₂ ++ behind ∧
      (s₁ = [] ∧ s₂ = [] ∨ slot.content? = none ∧ IsGapText s₁ ∧ IsGapText s₂) by
    obtain ⟨before, old, behind, s₁, s₂, hh, ht, hgap⟩ := hs
    exact ⟨slot, before, old, behind, s₁, s₂, hslot, hh,
      by rw [← hrebuild, hh.text_rebuild hvalue], ht, hgap⟩
  -- An empty place gets the value between gaps, and a value is replaced as it stands. An emptied
  -- block sequence is the case that is excluded.
  cases hw with
  | fillAtom hc a =>
    obtain ⟨before, behind, s₁, s₂, hh, h₁, h₂, ht⟩ := exists_holds_insertLast hc a.tree
    refine ⟨before, [], behind, s₁, s₂, hh, ?_, .inr ⟨hc, h₁, h₂⟩⟩
    have hnew : slot.newText (.atom a) = a.render := by simp [newText, hc, Value.flow]
    rw [ht, Atom.text_tree, hnew]
  | @fillSequence hc vs s hs =>
    obtain ⟨before, behind, s₁, s₂, hh, h₁, h₂, ht⟩ := exists_holds_insertLast hc s
    refine ⟨before, [], behind, s₁, s₂, hh, ?_, .inr ⟨hc, h₁, h₂⟩⟩
    obtain rfl := Except.ok.inj (hs.symm.trans (Value.readSequence_flow hv))
    have hnew : slot.newText (.sequence vs) = (Value.sequence vs).flow := by simp [newText, hc]
    rw [ht, Value.text_flowTree, hnew]
  | @scalar content hc hk a =>
    refine ⟨_, _, _, [], [], .content hc (.inl hk), ?_, .inl ⟨rfl, rfl⟩⟩
    rw [Cursor.text_rebuild]
    simp [newText, hc, setScalar, replace, Atom.text_tree]
  | @sequence content hc hk vs hflow s hs =>
    refine ⟨_, _, _, [], [], .content hc (.inr hk), ?_, .inl ⟨rfl, rfl⟩⟩
    obtain ⟨s', hs', -, htext⟩ := content.exists_newSequence hv hflow
    obtain rfl := Except.ok.inj (hs.symm.trans hs')
    rw [Cursor.text_rebuild]
    simp [newText, hc, replace, htext]
  | @emptied content hc hk hf s hs =>
    refine absurd ⟨rfl, content, ?_, by simp [isNode, hk], hf⟩ hne
    rw [find?_eq, hfollow, Option.bind_some, hc]

/-- An empty place before a comment : the value gets a space behind it. -/
theorem set_frame_comment :
    let x : Tree := .node .mapping [.node .entry [.node .key [.node .scalar [mark .string 'a']],
      mark .colon ':', mark .space ' ', .node .value [], mark .comment '#']]
    let c := ofTree x
    ∃ p : KeyPath, p.keys = [['a']] ∧ (Value.atom (.ofInt 1)).Made ∧
    ¬c.EmptiesBlock p (.atom (.ofInt 1)) ∧
      c.rebuild.text = "a: #".toList ∧ ∃ t, c.set p (.atom (.ofInt 1)) .ignore = .ok t ∧
        ∃ before behind s₁ s₂, c.rebuild.text = before ++ behind ∧
          t.text = before ++ s₁ ++ ['1'] ++ s₂ ++ behind ∧ IsGapText s₁ ∧ IsGapText s₂ := by
  intro x c
  have hne : ¬c.EmptiesBlock ⟨[['a']], by simp⟩ (.atom (.ofInt 1)) := fun h => nomatch h.1
  refine ⟨⟨[['a']], by simp⟩, rfl, .ofInt 1, hne, rfl, _, rfl, ?_⟩
  obtain ⟨slot, before, old, behind, s₁, s₂, hslot, hh, hc, ht, hgap⟩ :=
    set_frame (c := c)
      (m := .ignore) (show (Value.atom (.ofInt 1)).Made from .ofInt 1) rfl ⟨_, rfl⟩ hne
  cases hslot
  cases hh with
  | content h hk => cases h
  | empty h hs =>
    exact ⟨_, _, s₁, s₂, by simpa using hc, ht, hgap.elim (fun h => ⟨.inl h.1, .inl h.2⟩) (·.2)⟩

end Cursor

end YamlPatch
