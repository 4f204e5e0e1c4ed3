import YamlPatch.Proofs.Hanging
import YamlPatch.Proofs.Layout
import YamlPatch.Proofs.LineBreaks
import YamlPatch.Proofs.Refusals

/-!
# Writes that commute

A write finds a place and swaps the tree there. Two swaps of which neither is inside the other
lead to one tree in either order (`Swapped.exists_both`), and a swap makes one tree only
(`Swapped.unique`). What is left to show is that the second write does the same as it would
without the first : its place holds the same, between the same neighbours, but the document
around it has changed.

Two such places are `Cursor.Alike`, and a write makes the same of both. It counts the column of
a block sequence from the line break before it, which is inside the place, as block sequences
hang below their keys. It looks at the first line break of the whole document, but only
where there is a line break in the place, and then all line breaks of the document are like it. So a
write succeeds in both places, with the same tree, or it is refused in both for the same reason
(`Cursor.put_cases`).

If one path leads on from the other, then one of the two writes is refused whatever the order
(`Release.Plan.Commute.of_leadsOn`); otherwise neither changes what the other finds
(`Release.Plan.Commute.of_apart`).
-/

namespace YamlPatch

open TokenKind YamlPatch.Tree

/-! ## Swapping in two places

A place is given by the steps from the root. Two places lie apart if their steps part at some
node, and then the one step of the two picks a child before that of the other. -/

/-- There is only one way to cut a list at the first element that satisfies `p`. -/
theorem eq_of_append_cons {α : Type} {p : α → Bool} {l l' r r' : List α} {a a' : α}
    (h : l ++ a :: r = l' ++ a' :: r') (hl : ∀ u ∈ l, p u = false) (ha : p a = true)
    (hl' : ∀ u ∈ l', p u = false) (ha' : p a' = true) : l = l' ∧ a = a' ∧ r = r' := by
  have hindex {l r : List α} {a : α} (hl : ∀ u ∈ l, p u = false) (ha : p a = true) :
      (l ++ a :: r).findIdx p = l.length := by
    simp [List.findIdx_append, List.findIdx_eq_length.mpr hl, List.findIdx_cons, ha]
  obtain ⟨hl, hr⟩ := List.append_inj h (by rw [← hindex hl ha, h, hindex hl' ha'])
  obtain ⟨ha, hr⟩ := List.cons.inj hr
  exact ⟨hl, ha, hr⟩

namespace Swapped

variable {x x' y y' t a b e e' f f' : Tree} {ss ts : List Step} {s s' : Step}

/-- A swap below a node is one in the child that the first step picks. -/
theorem exists_child (h : Swapped x x' (s :: ss) t a) : ∃ k l r u u', t = .node k (l ++ u :: r) ∧
    a = .node k (l ++ u' :: r) ∧ s.admits t = true ∧ (∀ v ∈ l, s.picks v = false) ∧
    s.picks u = true ∧
      Swapped x x' ss u u' := by
  cases h with
  | under hadmits hl ht h => exact ⟨_, _, _, _, _, rfl, rfl, hadmits, hl, ht, h⟩

/-- A swap makes one tree only. -/
theorem unique (h : Swapped x x' ss t a) (h' : Swapped x x' ss t b) : a = b := by
  induction ss generalizing t a b with
  | nil =>
    cases h
    cases h'
    rfl
  | cons s ss ih =>
    obtain ⟨k, l, r, u, v, rfl, rfl, -, hl, hu, hsub⟩ := h.exists_child
    obtain ⟨k', l', r', u', v', ht, rfl, -, hl', hu', hsub'⟩ := h'.exists_child
    obtain ⟨rfl, hts⟩ := Tree.node.inj ht
    obtain ⟨rfl, rfl, rfl⟩ := eq_of_append_cons hts hl hu hl' hu'
    rw [ih hsub hsub']

/-- Two children of one node. -/
theorem exists_beside {n : NodeKind} {l m r : List Tree} (he : Swapped x x' ss e e')
    (hx : SameRole x x') (hf : Swapped y y' ts f f') (hy : SameRole y y')
    (hadmits : s.admits (.node n (l ++ e :: (m ++ f :: r))) = true)
    (hadmits' : s'.admits (.node n (l ++ e :: (m ++ f :: r))) = true)
    (hl : ∀ v ∈ l, s.picks v = false) (hse : s.picks e = true)
    (hl' : ∀ v ∈ l ++ e :: m, s'.picks v = false) (hsf : s'.picks f = true) :
    ∃ u, Swapped y y' (s' :: ts) (.node n (l ++ e' :: (m ++ f :: r))) u ∧
      Swapped x x' (s :: ss) (.node n (l ++ e :: (m ++ f' :: r))) u := by
  have hrole := he.sameRole hx
  have hrole' := hf.sameRole hy
  have hfirst := (hrole.node (Step.not_key_of_picks hse) n l (m ++ f :: r)).admits s'
  have hsecond := (hrole'.node (Step.not_key_of_picks hsf) n (l ++ e :: m) r).admits s
  simp only [List.append_assoc, List.cons_append] at hsecond
  have hsplit (v w : Tree) : l ++ v :: (m ++ w :: r) = (l ++ v :: m) ++ w :: r := by simp
  refine ⟨.node n (l ++ e' :: (m ++ f' :: r)), ?_, .under (hsecond.trans hadmits) hl hse he⟩
  rw [hadmits', hsplit] at hfirst
  rw [hsplit, hsplit]
  refine .under hfirst ?_ hsf hf
  intro v hv
  simp only [List.mem_append, List.mem_cons] at hv hl'
  rcases hv with hv | rfl | hv
  · exact hl' v (.inl hv)
  · rw [hrole.picks]
    exact hl' e (.inr (.inl rfl))
  · exact hl' v (.inr (.inr hv))

/-- Trees can be swapped in two places, of which neither is in the other. -/
theorem exists_both (h : Swapped x x' ss t a) (hx : SameRole x x') (h' : Swapped y y' ts t b)
    (hy : SameRole y y') (hp : Parts ss ts) : ∃ u, Swapped y y' ts a u ∧ Swapped x x' ss b u := by
  obtain ⟨us, k, l, vs, ws, hkl, rfl, rfl⟩ := hp
  -- By induction on the steps that both places share. Where they part, both swaps are made in the
  -- same node, and the children that they pick are different ones.
  induction us generalizing t a b with
  | nil =>
    obtain ⟨n, left, right, e, e', rfl, rfl, hadmits, hleft, he, hsub⟩ := h.exists_child
    obtain ⟨n', left', right', f, f', ht, rfl, hadmits', hleft', hf, hsub'⟩ := h'.exists_child
    obtain ⟨rfl, hts⟩ := Tree.node.inj ht
    have hother {k l : Text} {e : Tree} (hkl : k ≠ l) (he : (Step.entry k).picks e = true) :
        (Step.entry l).picks e = false := by
      simp only [Step.picks, isEntryOf, Bool.and_eq_true, beq_iff_eq] at he
      simp [Step.picks, isEntryOf, he.2, hkl]
    -- One of the two children stands before the other.
    rcases List.append_eq_append_iff.mp hts with ⟨m, rfl, hm⟩ | ⟨m, rfl, hm⟩
    · cases m with
      | nil =>
        obtain ⟨rfl, -⟩ := List.cons.inj hm
        exact absurd hf (by simp [hother hkl he])
      | cons c m =>
        obtain ⟨rfl, rfl⟩ := List.cons.inj hm
        simpa using exists_beside hsub hx hsub' hy hadmits
          (by simpa using hadmits') hleft he hleft' hf
    · cases m with
      | nil =>
        obtain ⟨rfl, -⟩ := List.cons.inj hm
        exact absurd he (by simp [hother hkl.symm hf])
      | cons c m =>
        obtain ⟨rfl, rfl⟩ := List.cons.inj hm
        obtain ⟨u, hu, hu'⟩ :=
          exists_beside hsub' hy hsub hx hadmits' (by simpa using hadmits) hleft' hf hleft he
        exact ⟨u, by simpa using hu', by simpa using hu⟩
  | cons s us ih =>
    obtain ⟨n, left, right, e, e', rfl, rfl, hadmits, hleft, he, hsub⟩ := h.exists_child
    obtain ⟨n', left', right', f, f', ht, rfl, -, hleft', hf, hsub'⟩ := h'.exists_child
    obtain ⟨rfl, hts⟩ := Tree.node.inj ht
    obtain ⟨rfl, rfl, rfl⟩ := eq_of_append_cons hts hleft he hleft' hf
    obtain ⟨u, hu, hu'⟩ := ih hsub hsub'
    have hrole := hsub.sameRole hx
    have hrole' := hsub'.sameRole hy
    have hnode := hrole.node (Step.not_key_of_picks he) n left right
    have hnode' := hrole'.node (Step.not_key_of_picks he) n left right
    exact ⟨_, .under (by rwa [hnode.admits]) hleft (by rwa [hrole.picks]) hu,
      .under (by rwa [hnode'.admits]) hleft (by rwa [hrole'.picks]) hu'⟩

/-- The leaves are those of the old tree and those of the tree swapped in. -/
theorem mem_leaves (h : Swapped x x' ss t a) {z : Token} (hz : z ∈ a.leaves) :
    z ∈ t.leaves ∨ z ∈ x'.leaves := by
  induction h with
  | here => exact .inr hz
  | @under s ss k l r t t' _ _ _ _ ih =>
    obtain ⟨u, hu, hzu⟩ := mem_leaves_node.mp hz
    rcases List.mem_append.mp hu with hu | hu
    · exact .inl (mem_leaves_node.mpr ⟨u, by simp [hu], hzu⟩)
    · rcases List.mem_cons.mp hu with rfl | hu
      · exact (ih hzu).imp_left fun hzt => mem_leaves_node.mpr ⟨t, by simp, hzt⟩
      · exact .inl (mem_leaves_node.mpr ⟨u, by simp [hu], hzu⟩)

/-- If both trees have the line breaks of the document then so has the result. -/
theorem breaksAs {nl : Text} (h : Swapped x x' ss t a) (ht : BreaksAs nl t.leaves)
    (hx' : BreaksAs nl x'.leaves) :
    BreaksAs nl a.leaves := fun z hz => (h.mem_leaves hz).elim (ht z) (hx' z)

end Swapped

/-! ## Places that look the same to a write

What a write asks of a document is its place, the neighbours of the place and the first line
break. If these agree, two documents are the same to it. -/

/-- Behind a line break it does not matter where the counting began. -/
theorem Tree.columnAfterAll_eq_of_hasBreak {nl : Text} (hl : IsNewline nl) {ts : List Tree}
    (h : HasBreak ts) (hn : BreaksAs nl (leavesOf ts)) (n m : Nat) :
    columnAfterAll n ts = columnAfterAll m ts := by
  induction ts generalizing n m with
  | nil => exact absurd h (by simp [HasBreak])
  | cons t ts ih =>
    have hts : BreaksAs nl (leavesOf ts) := fun x hx => hn x (List.mem_append_right t.leaves hx)
    obtain ⟨u, hu, hbreak⟩ := h
    rcases List.mem_cons.mp hu with rfl | hu
    · cases u with
      | node k us => simp [isToken, tokenKind?] at hbreak
      | token x =>
        have htext : x.text = nl :=
          hn x (by simp [leavesOf, leaves]) (by simpa [isToken, tokenKind?] using hbreak)
        have hzero (n : Nat) : (token x).columnAfter n = 0 := by
          cases hl <;> simp [columnAfter, htext, textColumn]
        rw [columnAfterAll, columnAfterAll, hzero, hzero]
    · exact ih ⟨u, hu, hbreak⟩ hts _ _

namespace Cursor

/-- A child is found by the focus alone. -/
theorem child?_of_focus {c c' d : Cursor} {p : Tree → Bool} {n : Nat} (hf : c'.focus = c.focus)
    (h : c.child? p n = some d) :
    ∃ b : Crumb, d.crumbs = b :: c.crumbs ∧ c'.child? p n = some ⟨d.focus, b :: c'.crumbs⟩ := by
  unfold child? at h ⊢
  rw [hf]
  split at h
  · cases h
  · rename_i k ts hc
    obtain ⟨r, hr, rfl⟩ := Option.map_eq_some_iff.mp h
    exact ⟨_, rfl, by simp [hr]⟩

/-- That no child is found is also a matter of the focus. -/
theorem child?_eq_none_of_focus {c c' : Cursor} {p : Tree → Bool} {n : Nat}
    (hf : c'.focus = c.focus) (h : c.child? p n = none) : c'.child? p n = none := by
  cases h' : c'.child? p n with
  | none => rfl
  | some d =>
    obtain ⟨b, -, hb⟩ := child?_of_focus hf.symm h'
    cases h.symm.trans hb

/-- Two places that hold the same and have the same around them, in documents with the same line
breaks. -/
structure Alike (nl : Text) (slot slot' : Cursor) : Prop where
  focus : slot'.focus = slot.focus
  previous : slot'.previous? = slot.previous?
  next : slot'.next? = slot.next?
  value : slot.focus.isNode .value = true
  hanging : slot.focus.Hanging
  breaks : BreaksAs nl slot.rebuild.leaves
  breaks' : BreaksAs nl slot'.rebuild.leaves

/-- Around the tokens of a tree in the place are those of the document. -/
theorem exists_leaves_rebuild (c : Cursor) :
    ∃ before behind, ∀ x, (c.replace x).rebuild.leaves = before ++ x.leaves ++ behind := by
  obtain ⟨t, bs⟩ := c
  induction bs with
  | nil => exact ⟨[], [], fun x => by simp [replace, rebuild]⟩
  | cons b bs ih =>
    obtain ⟨before, behind, h⟩ := ih
    refine ⟨before ++ leavesOf b.before, leavesOf b.after ++ behind, fun x => ?_⟩
    have hfill : (b.fill x).leaves = leavesOf b.before ++ x.leaves ++ leavesOf b.after := by
      simp [Crumb.fill, leaves, leavesOf]
    have hrebuild : rebuild ⟨x, b :: bs⟩ = rebuild ⟨b.fill x, bs⟩ := rfl
    have h : (rebuild ⟨b.fill x, bs⟩).leaves = before ++ (b.fill x).leaves ++ behind := h (b.fill x)
    rw [replace, hrebuild, h, hfill]
    simp

/-- The tokens of a place are tokens of the document. -/
theorem mem_leaves_rebuild {c : Cursor} {z : Token} (hz : z ∈ c.focus.leaves) :
    z ∈ c.rebuild.leaves := by
  obtain ⟨before, behind, h⟩ := c.exists_leaves_rebuild
  rw [show c.rebuild.leaves = _ from h c.focus]
  simp [hz]

/-- With the line breaks of the document, the text of a block is that of a tree behind its
margin. -/
theorem blockText_eq {c : Cursor} {nl : Text} (hl : IsNewline nl)
    (hr : c.rebuild.hasReturns = (nl == ['\r', '\n'])) {v : Value} (hv : v.Made)
    (hb : v.isBlock = true) :
    c.blockText v = List.replicate c.column ' ' ++ (v.blockTree nl c.column).text := by
  unfold blockText
  rw [hr]
  cases hl with
  | lf => exact Value.block_eq hb _
  | crlf => exact Value.replaceChar_block hv hb _ _

namespace Alike

variable {nl : Text} {slot slot' d : Cursor}

/-- The content of the one place is the content of the other, with the same siblings around it.
-/
theorem content? (h : Alike nl slot slot') (hd : slot.content? = some d) :
    ∃ b : Crumb, d.crumbs = b :: slot.crumbs ∧ slot.focus = b.fill d.focus ∧
      slot'.content? = some ⟨d.focus, b :: slot'.crumbs⟩ := by
  obtain ⟨b, hb, hd'⟩ := child?_of_focus h.focus hd
  obtain ⟨k, l, r, hfocus, hcrumbs, -⟩ := step?_eq_some (content?_eq slot ▸ hd)
  obtain ⟨rfl, -⟩ := List.cons.inj (hb.symm.trans hcrumbs)
  exact ⟨_, hb, hfocus, hd'⟩

/-- If the one place is empty then so is the other. -/
theorem content?_eq_none (h : Alike nl slot slot') (hc : slot.content? = none) :
    slot'.content? = none :=
  child?_eq_none_of_focus h.focus hc

/-- A block sequence stands at the same column in both documents, and their line breaks are
known. -/
theorem block (h : Alike nl slot slot') (hl : IsNewline nl) {b : Crumb} {t : Tree}
    (hb : slot.focus = b.fill t) (ht : t.isBlockSequence = true) :
    column ⟨t, b :: slot'.crumbs⟩ = column ⟨t, b :: slot.crumbs⟩ ∧
      slot.rebuild.hasReturns = (nl == ['\r', '\n']) ∧
      slot'.rebuild.hasReturns = (nl == ['\r', '\n']) := by
  obtain ⟨k, before, after⟩ := b
  obtain rfl : k = .value := by simpa [hb, Crumb.fill, isNode, kind?] using h.value
  have hbreak : HasBreak before := by
    have hhanging := h.hanging
    rw [hb] at hhanging
    exact hhanging before t after rfl ht
  have hmem {x : Token} (hx : x ∈ leavesOf before) : x ∈ slot.focus.leaves := by
    simp [hb, Crumb.fill, leaves, hx]
  have hbefore : BreaksAs nl (leavesOf before) :=
    fun x hx => h.breaks x (mem_leaves_rebuild (hmem hx))
  obtain ⟨x, hx, hk⟩ : ∃ x ∈ slot.focus.leaves, x.kind = lineBreak := by
    obtain ⟨u, hu, hk⟩ := hbreak
    cases u with
    | node k us => simp [isToken, tokenKind?] at hk
    | token x =>
      refine ⟨x, ?_, by simpa [isToken, tokenKind?] using hk⟩
      rw [hb]
      exact mem_leaves_node.mpr ⟨token x, by simp [hu], by simp [leaves]⟩
  exact ⟨columnAfterAll_eq_of_hasBreak hl hbreak hbefore _ _,
    hasReturns_eq h.breaks ⟨x, mem_leaves_rebuild hx, hk⟩,
    hasReturns_eq h.breaks' ⟨x, mem_leaves_rebuild (h.focus ▸ hx), hk⟩⟩

/-- What is put into the one place is put into the other in the same way. -/
theorem insertBetween_eq (h : Alike nl slot slot') (left right : List Tree) (new : Tree) :
    slot'.insertBetween left right new = slot.insertBetween left right new := by
  simp only [insertBetween, h.previous, h.next]

/-- A place has the line breaks of the document if what is put into it and the trees around do. -/
theorem breaksAs_insertBetween {left right : List Tree} {new : Tree}
    (hl : ∀ t ∈ left, BreaksAs nl t.leaves) (hr : ∀ t ∈ right, BreaksAs nl t.leaves)
    (hnew : BreaksAs nl new.leaves) : BreaksAs nl (slot.insertBetween left right new).leaves := by
  obtain ⟨l, m, g, g', rfl, hg, hg', heq⟩ := slot.insertBetween_eq left right new
  have hgap {g : List Tree} (hg : IsGap g) : ∀ t ∈ g, BreaksAs nl t.leaves := by
    rcases hg with rfl | rfl
    · simp
    · exact fun t ht => List.mem_singleton.mp ht ▸ BreaksAs.mark (by decide) ' '
  rw [heq]
  refine .node fun t ht => ?_
  simp only [List.mem_append, List.mem_cons] at ht hl
  rcases ht with (ht | ht) | rfl | ht | ht | ht
  · exact hl t (.inl ht)
  · exact hgap hg t ht
  · exact hnew
  · exact hgap hg' t ht
  · exact hl t (.inr ht)
  · exact hr t ht

/-- The children of the place have the line breaks of the document. -/
theorem breaksAs_of_mem (h : Alike nl slot slot') {t : Tree} (ht : t ∈ slot.focus.children) :
    BreaksAs nl t.leaves := by
  intro x hx
  refine h.breaks x (mem_leaves_rebuild ?_)
  cases hf : slot.focus with
  | token y => simp [hf, children] at ht
  | node k ts => exact mem_leaves_node.mpr ⟨t, by simpa [hf, children] using ht, hx⟩

/-- The place with another content. -/
theorem refill (h : Alike nl slot slot') {b : Crumb} {t new : Tree} (hb : slot.focus = b.fill t)
    (hnew : BreaksAs nl new.leaves) :
    (b.fill new).isNode .value = true ∧ BreaksAs nl (b.fill new).leaves := by
  refine ⟨by simpa [hb, Crumb.fill, isNode, kind?] using h.value, .node fun u hu => ?_⟩
  have hmem (hu : u ∈ b.before ∨ u ∈ b.after) : u ∈ slot.focus.children := by
    rw [hb, Crumb.fill, children, List.mem_append, List.mem_cons]
    exact hu.imp_right .inr
  rcases List.mem_append.mp hu with hu | hu
  · exact h.breaksAs_of_mem (hmem (.inl hu))
  · rcases List.mem_cons.mp hu with rfl | hu
    · exact hnew
    · exact h.breaksAs_of_mem (hmem (.inr hu))

/-- The text of a new sequence is the same in both documents, and it has the line breaks of the
document. -/
theorem newSequenceText (h : Alike nl slot slot') (hl : IsNewline nl) {b : Crumb}
    (hcrumbs : d.crumbs = b :: slot.crumbs) (hb : slot.focus = b.fill d.focus)
    (hk : d.focus.kind? = some .sequence) {vs : List Value} (hv : Value.AllMade vs)
    (hne : d.focus.isFlow = true ∨ vs ≠ []) {s : Tree}
    (hs : readSequence (d.newSequenceText vs) = .ok s) :
    Cursor.newSequenceText ⟨d.focus, b :: slot'.crumbs⟩ vs = d.newSequenceText vs ∧
    BreaksAs nl s.leaves := by
  have hnew : Value.AllMade (Value.styledLike d.focus.itemStyles vs) :=
    Value.AllMade.styledLike _ hv
  have hsame : newSequence ⟨d.focus, b :: slot'.crumbs⟩ vs = d.newSequence vs := rfl
  unfold Cursor.newSequenceText at hs ⊢
  -- In brackets the text depends on the values alone. In block style it depends on the column and
  -- the line break, which both documents share.
  cases hf : d.focus.isFlow with
  | true =>
    rw [hf, if_pos rfl] at hs
    obtain rfl := Except.ok.inj (hs.symm.trans (Value.readSequence_flow hnew))
    exact ⟨rfl, Value.breaksAs_flowTree _⟩
  | false =>
    simp only [hf, Bool.false_eq_true, if_false] at hs ⊢
    obtain ⟨hitems, hblock⟩ := d.isBlock_newSequence (hne.resolve_left (by simp [hf]))
    have hd : d = ⟨d.focus, b :: slot.crumbs⟩ := by rw [← hcrumbs]
    obtain ⟨hcolumn, hr, hr'⟩ := h.block hl hb (isBlockSequence_of_not_isFlow hk hf)
    have hrebuild : d.rebuild.hasReturns = (nl == ['\r', '\n']) := by
      rw [hd, ← hr, rebuild, rebuild, hb]
      rfl
    have hrebuild' : (rebuild ⟨d.focus, b :: slot'.crumbs⟩).hasReturns = (nl == ['\r', '\n']) := by
      rw [← hr', rebuild, rebuild, h.focus, hb]
      rfl
    have hmade : (d.newSequence vs).Made := hnew
    rw [blockText_eq hl hrebuild hmade hblock] at hs ⊢
    rw [hsame, blockText_eq hl hrebuild' hmade hblock, hcolumn, ← hd]
    obtain rfl := Except.ok.inj (hs.symm.trans (Value.readSequence_block hnew hitems hl _))
    exact ⟨rfl, Value.breaksAs_blockTree _ _⟩

/-- A write that succeeds in the one place makes the same of the other. -/
theorem of_written (h : Alike nl slot slot') (hl : IsNewline nl) {v : Value} (hv : v.Made)
    {t : Tree} (hw : slot.Written v t) :
    ∃ x, t = (slot.replace x).rebuild ∧ slot'.Written v (slot'.replace x).rebuild ∧
      x.isNode .value = true ∧ BreaksAs nl x.leaves := by
  have hinsert {new : Tree} (hnew : BreaksAs nl new.leaves) :
      slot'.insertLast new = slot.insertLast new ∧ BreaksAs nl (slot.insertLast new).leaves := by
    refine ⟨?_, breaksAs_insertBetween (fun t => h.breaksAs_of_mem) (by simp) hnew⟩
    rw [insertLast, insertLast, h.focus, h.insertBetween_eq]
  -- The value is put into both places between the same trees, or takes the place of the same tree
  -- in both.
  cases hw with
  | fillAtom hc a =>
    obtain ⟨heq, hbreaks⟩ := hinsert ((show a.Made from hv).breaksAs_tree nl)
    exact ⟨_, rfl, heq ▸ .fillAtom (h.content?_eq_none hc) a, rfl, hbreaks⟩
  | @fillSequence hc vs s hs =>
    obtain rfl := Except.ok.inj (hs.symm.trans (Value.readSequence_flow hv))
    obtain ⟨heq, hbreaks⟩ := hinsert (Value.breaksAs_flowTree _)
    exact ⟨_, rfl, heq ▸ .fillSequence (h.content?_eq_none hc) hs, rfl, hbreaks⟩
  | @scalar d hc hk a =>
    obtain ⟨b, hcrumbs, hb, hc'⟩ := h.content? hc
    have hnew : (a.styledLike (Scalar.style d.focus)).Made := (show a.Made from hv).styledLike _
    refine ⟨b.fill _, ?_, .scalar hc' hk a, h.refill hb (hnew.breaksAs_tree nl)⟩
    simp [setScalar, replace, rebuild, hcrumbs]
  | @sequence d hc hk vs hne s hs =>
    obtain ⟨b, hcrumbs, hb, hc'⟩ := h.content? hc
    obtain ⟨htext, hbreaks⟩ := h.newSequenceText hl hcrumbs hb hk hv hne hs
    refine ⟨b.fill s, ?_, .sequence hc' hk hne (htext ▸ hs), h.refill hb hbreaks⟩
    simp [replace, rebuild, hcrumbs]
  | @emptied d hc hk hf s hs =>
    obtain ⟨b, hcrumbs, hb, hc'⟩ := h.content? hc
    obtain rfl := Except.ok.inj (hs.symm.trans Value.readSequence_nil)
    have heq (slot d : Cursor) (hcrumbs : d.crumbs = b :: slot.crumbs) (new : Tree) :
        slot.insertEmptied d new =
          slot.insertBetween (b.before.takeWhile fun t => !t.isToken .lineBreak) b.after new := by
      simp only [insertEmptied, hcrumbs]
    have hwritten : slot'.Written _ _ := .emptied hc' hk hf hs
    rw [heq slot' _ rfl, h.insertBetween_eq] at hwritten
    refine ⟨_, rfl, (heq slot d hcrumbs _).symm ▸ hwritten, by rw [heq slot d hcrumbs]; rfl, ?_⟩
    rw [heq slot d hcrumbs]
    refine breaksAs_insertBetween (fun t ht => ?_) (fun t ht => ?_) (Value.breaksAs_flowTree _)
    · exact h.breaksAs_of_mem (by simp [hb, Crumb.fill, children, List.takeWhile_subset _ ht])
    · exact h.breaksAs_of_mem (by simp [hb, Crumb.fill, children, ht])

/-- A write that the one place refuses is refused by the other. -/
theorem of_refused (h : Alike nl slot slot') {v : Value} (hv : v.Made) {r : Refusal}
    (hr : slot.write v = .error r) : slot'.write v = .error r := by
  have hnot : ¬slot.Accepts v := fun ha => by
    obtain ⟨t, ht⟩ := ha.exists_write hv
    cases hr.symm.trans ht
  rw [← hr, write, write]
  cases hc : slot.content? with
  | none =>
    rw [h.content?_eq_none hc]
    cases v with
    | mapping es => rfl
    | atom a => exact absurd ⟨by simp [Value.kind], by simp [hc]⟩ hnot
    | sequence vs => exact absurd ⟨by simp [Value.kind], by simp [hc]⟩ hnot
  | some d =>
    obtain ⟨b, -, -, hc'⟩ := h.content? hc
    rw [hc']
    dsimp only
    split
    · rename_i a hk
      exact absurd ⟨by simp [Value.kind], by simpa [hc, Value.kind] using hk⟩ hnot
    · rename_i vs hk
      exact absurd ⟨by simp [Value.kind], by simpa [hc, Value.kind] using hk⟩ hnot
    · rfl

end Alike

end Cursor

/-! ## Writes at a path

A path leads to places in two documents, of which one has been written to elsewhere. If the
entry holds the same in both, the places look the same. -/

namespace Cursor

variable {nl : Text} {t t' : Tree} {p q : KeyPath} {v w : Value}

/-- A write is refused in both places for the same reason, or it swaps the same trees in both. -/
theorem Alike.write_cases {slot slot' : Cursor} {ss ss' : List Step} (h : Alike nl slot slot')
    (hl : IsNewline nl) (hv : v.Made) (hfollow : (ofTree t).follow? ss = some slot)
    (hfollow' : (ofTree t').follow? ss' = some slot') :
    (∃ r, slot.write v = .error r ∧ slot'.write v = .error r) ∨
      ∃ y y' a a', SameRole y y' ∧ BreaksAs nl y'.leaves ∧ slot.write v = .ok a ∧
      Swapped y y' ss t a ∧
        slot'.write v = .ok a' ∧ Swapped y y' ss' t' a' := by
  cases hw : slot.write v with
  | error r => exact .inl ⟨r, rfl, h.of_refused hv hw⟩
  | ok a =>
    obtain ⟨x, rfl, hwritten, hx, hbreaks⟩ := h.of_written hl hv (written_of_write hw)
    obtain ⟨a, ha, hra⟩ := exists_swapped hfollow x
    obtain ⟨a', ha', hra'⟩ := exists_swapped hfollow' x
    have hrole : SameRole slot.focus x :=
      .of_kind (by simpa [isNode] using h.value) (by simpa [isNode] using hx) (by decide)
    refine .inr ⟨_, _, a, a', hrole, hbreaks, by rw [hra]; rfl, ha, ?_, h.focus ▸ ha'⟩
    rw [hwritten.write_eq, hra']
    rfl

/-- If a path leads to the same entry in two documents then the places of their values are alike. -/
theorem alike_slots (ht : t.Every Hanging) (hn : BreaksAs nl t.leaves) (hn' : BreaksAs nl t'.leaves)
    {e e' slot : Cursor} (he : Cursor.entry? (ofTree t) p = some e)
    (he' : Cursor.entry? (ofTree t') p = some e') (hfocus : e'.focus = e.focus)
    (hs : e.slot? = some slot) :
    ∃ slot', e'.slot? = some slot' ∧ (ofTree t).follow? (p.steps t.kind?) = some slot ∧
      (ofTree t').follow? (p.steps t'.kind?) = some slot' ∧ Alike nl slot slot' := by
  obtain ⟨b, hb, hs'⟩ := child?_of_focus hfocus hs
  have hs' : e'.slot? = some ⟨slot.focus, b :: e'.crumbs⟩ := hs'
  have hfollow : (ofTree t).follow? (p.steps t.kind?) = some slot := by
    have h := slot_eq (ofTree t) p
    rw [he, Option.bind_some, hs] at h
    exact h.symm
  have hfollow' : (ofTree t').follow? (p.steps t'.kind?) = some ⟨slot.focus, b :: e'.crumbs⟩ := by
    have h := slot_eq (ofTree t') p
    rw [he', Option.bind_some, hs'] at h
    exact h.symm
  have hrebuild : slot.rebuild = t := rebuild_follow? hfollow
  have hrebuild' : rebuild ⟨slot.focus, b :: e'.crumbs⟩ = t' := rebuild_follow? hfollow'
  -- The crumb of the place in its entry is the same in both documents, so the neighbours are.
  exact ⟨_, hs', hfollow, hfollow',
    { focus := rfl
      previous := by simp [previous?, hb]
      next := by simp [next?, hb]
      value := focus_child? hs
      hanging := (every_focus (hrebuild.symm ▸ ht)).self
      breaks := hrebuild.symm ▸ hn
      breaks' := hrebuild'.symm ▸ hn' }⟩

/-- Then a write there is refused in both for the same reason, or it swaps the same trees in
both. -/
theorem put_cases (hl : IsNewline nl) (hv : v.Made) (ht : t.Every Hanging)
    (hn : BreaksAs nl t.leaves) (hn' : BreaksAs nl t'.leaves)
    (hentry : (Cursor.entry? (ofTree t') p).map focus = (Cursor.entry? (ofTree t) p).map focus) :
    (∃ r, (ofTree t).put p v = .error r ∧ (ofTree t').put p v = .error r) ∨
      ∃ y y' a a', SameRole y y' ∧ BreaksAs nl y'.leaves ∧
        (ofTree t).put p v = .ok a ∧ Swapped y y' (p.steps t.kind?) t a ∧
        (ofTree t').put p v = .ok a' ∧ Swapped y y' (p.steps t'.kind?) t' a' := by
  unfold put
  cases he : Cursor.entry? (ofTree t) p with
  | none =>
    have he' : Cursor.entry? (ofTree t') p = none := by simpa [he] using hentry
    exact .inl ⟨_, rfl, by simp [he']⟩
  | some e =>
    obtain ⟨e', he', hfocus⟩ :
        ∃ e', Cursor.entry? (ofTree t') p = some e' ∧ e'.focus = e.focus := by
      simpa [he, Option.map_eq_some_iff] using hentry
    rw [he']
    dsimp only
    cases hs : e.slot? with
    | none =>
      have hs' : e'.slot? = none := child?_eq_none_of_focus hfocus hs
      exact .inl ⟨_, rfl, by simp [hs']⟩
    | some slot =>
      obtain ⟨slot', hs', hfollow, hfollow', halike⟩ := alike_slots ht hn hn' he he' hfocus hs
      rw [hs']
      exact halike.write_cases hl hv hfollow hfollow'

/-- What a write makes elsewhere does not change where a path leads. -/
theorem entry?_of_swapped {y y' : Tree} (h : Swapped y y' (q.steps t.kind?) t t')
    (hrole : SameRole y y') (hpq : p.Apart q) :
    (Cursor.entry? (ofTree t') p).map focus = (Cursor.entry? (ofTree t) p).map focus := by
  have hkind : t'.kind? = t.kind? := (h.sameRole hrole).kind
  have hparts : Parts (q.steps t.kind?) (rootSteps t.kind? ++ entrySteps p.keys) := by
    have h :=
      ((parts_entrySteps hpq.2 hpq.1).append_left (rootSteps t.kind?)).append_right [.value] []
    rwa [List.append_nil] at h
  have hfollow (t : Tree) : (Cursor.entry? (ofTree t) p).map focus =
      t.follow? (rootSteps t.kind? ++ entrySteps p.keys) := by
    rw [entry?_eq, focus_follow?]
    rfl
  rw [hfollow, hfollow, hkind, h.follow?_of_parts hrole hparts]

/-- A value is not put in place of a mapping. -/
theorem put_of_mapping {c d : Cursor} (h : c.find? p = some d) (hd : d.focus.isNode .mapping = true)
    (v : Value) : c.put p v = .error (.mismatch (.replace .mapping v.kind)) := by
  obtain ⟨e, he, hv⟩ := Option.bind_eq_some_iff.mp h
  obtain ⟨slot, hslot, hcontent⟩ := Option.bind_eq_some_iff.mp hv
  have hk : d.focus.kind? = some .mapping := by simpa [isNode] using hd
  simp only [put, he, hslot, write, hcontent, hk]
  cases v <;> rfl

/-- What was written is no mapping. -/
theorem not_mapping_of_put {c : Cursor} {new : Tree} (h : c.put p v = .ok t)
    (hnew : v.ShownBy new) : new.isNode .mapping = false := by
  obtain ⟨slot, -, -, hw⟩ := written_of_put h
  have hother {k : NodeKind} (hk : new.isNode k = true) (hne : k ≠ .mapping) :
      new.isNode .mapping = false := by
    simp only [isNode, beq_iff_eq] at hk
    simp [isNode, hk, hne]
  cases v with
  | atom a => exact hother (k := .scalar) hnew.reads.1 (by decide)
  | sequence vs => exact hother (k := .sequence) hnew.reads.1 (by decide)
  | mapping es => cases hw

end Cursor

/-! ## Two writes

The first write is made or refused, and so is the second. In each case it is to be shown that
the second does behind the first what it would have done alone. -/

namespace Release.Plan

open Cursor

variable {nl : Text} {m : MissingPolicy} {t t' : Tree} {a b : Update}

/-- A write that succeeds leaves its document and returns no failure. -/
theorem applyUpdates_of_put {u : Tree} (h : (ofTree t).put a.path a.value = .ok u) :
    applyUpdates m [a] t = (u, none) :=
  applyUpdates_cons (set_of_put h m) []

/-- A write that is refused leaves the document as it is, and what it returns depends on the
reason only. -/
theorem applyUpdates_of_refused {r : Refusal} (h : (ofTree t).put a.path a.value = .error r)
    (h' : (ofTree t').put a.path a.value = .error r) :
    ∃ e, applyUpdates m [a] t = (t, e) ∧ applyUpdates m [a] t' = (t', e) := by
  have hrebuild (t : Tree) : (ofTree t).rebuild = t := rfl
  simp only [applyUpdates, Cursor.set, h, h']
  cases r <;> cases m <;> simp [hrebuild]

/-- Made in either order, the two writes leave the same document, and each returns the same. -/
def Commute (m : MissingPolicy) (a b : Update) (t : Tree) : Prop :=
  ∃ t₁ t₂ u r s, applyUpdates m [a] t = (t₁, r) ∧ applyUpdates m [b] t₁ = (u, s) ∧
    applyUpdates m [b] t = (t₂, s) ∧ applyUpdates m [a] t₂ = (u, r)

namespace Commute

/-- The order does not matter to the statement. -/
theorem symm (h : Commute m a b t) : Commute m b a t := by
  obtain ⟨t₁, t₂, u, r, s, h₁, h₂, h₃, h₄⟩ := h
  exact ⟨t₂, t₁, u, s, r, h₃, h₄, h₁, h₂⟩

/-- A write that is refused before the other and behind it. -/
theorem of_refused {r : Refusal} (ha : (ofTree t).put a.path a.value = .error r)
    (hab : ∀ t', (ofTree t).put b.path b.value = .ok t' →
      (ofTree t').put a.path a.value = .error r) :
    Commute m a b t := by
  cases hb : (ofTree t).put b.path b.value with
  | error r' =>
    obtain ⟨e, he, -⟩ := applyUpdates_of_refused (m := m) ha ha
    obtain ⟨e', he', -⟩ := applyUpdates_of_refused (m := m) hb hb
    exact ⟨t, t, t, e, e', he, he', he', he⟩
  | ok t' =>
    obtain ⟨e, he, he'⟩ := applyUpdates_of_refused (m := m) ha (hab t' hb)
    exact ⟨t, t', t', e, none, he, applyUpdates_of_put hb, applyUpdates_of_put hb, he'⟩

end Commute

namespace Commute

/-- One path leads on from the other : there is a mapping on the way, into which the first write
is refused, or the second write finds nothing at its path. -/
theorem of_leadsOn (hpre : a.path.keys <+: b.path.keys) (hne : a.path ≠ b.path) (ha : a.value.Made)
    (hb : b.value.Made) : Commute m a b t := by
  cases he : Cursor.entry? (ofTree t) b.path with
  | some e =>
    obtain ⟨d, hd, hmapping⟩ := exists_mapping_of_prefix hpre hne he
    refine .of_refused (put_of_mapping hd hmapping _) fun t' hput => ?_
    obtain ⟨y, new, rfl, hnew, -⟩ := exists_of_set hb (set_of_put hput .error)
    obtain ⟨d', hd', -⟩ := Option.map_eq_some_iff.mp hnew
    obtain ⟨e', he', -⟩ := Option.bind_eq_some_iff.mp hd'
    obtain ⟨f, hf, hmapping⟩ := exists_mapping_of_prefix hpre hne he'
    exact put_of_mapping hf hmapping _
  | none =>
    refine symm (.of_refused (r := .missing) (by simp [put, he]) fun t' hput => ?_)
    cases he' : Cursor.entry? (ofTree t') b.path with
    | none => simp [put, he']
    | some e' =>
      obtain ⟨d, hd, hmapping⟩ := exists_mapping_of_prefix hpre hne he'
      obtain ⟨y, new, rfl, hnew, hshown, -⟩ := exists_of_set ha (set_of_put hput .error)
      have hfocus : d.focus = new :=
        Option.some.inj ((congrArg (Option.map focus) hd).symm.trans hnew)
      exact absurd (hfocus ▸ hmapping) (by simp [not_mapping_of_put hput hshown])

variable (hl : IsNewline nl) (ht : t.Every Hanging) (hn : BreaksAs nl t.leaves)
include hl ht hn

/-- A write that is refused is refused behind another at a path apart. -/
theorem refused_of_apart (hab : a.path.Apart b.path) (ha : a.value.Made) (hb : b.value.Made)
    {r : Refusal} (hra : (ofTree t).put a.path a.value = .error r)
    (hput : (ofTree t).put b.path b.value = .ok t') :
    (ofTree t').put a.path a.value = .error r := by
  rcases put_cases hl hb ht hn hn rfl with ⟨r', hrb, -⟩ | ⟨y, y', tb, -, hy, hny, htb, hyb, -⟩
  · cases hrb.symm.trans hput
  · obtain rfl := Except.ok.inj (htb.symm.trans hput)
    rcases put_cases hl ha ht hn (hyb.breaksAs hn hny) (entry?_of_swapped hyb hy hab) with
      ⟨r', hr, hr'⟩ | ⟨_, _, _, _, -, -, hok, -⟩
    · exact (Except.error.inj (hra.symm.trans hr)) ▸ hr'
    · cases hra.symm.trans hok

/-- Neither path leads on from the other : neither write changes what the other does. -/
theorem of_apart (hab : a.path.Apart b.path) (ha : a.value.Made) (hb : b.value.Made) :
    Commute m a b t := by
  rcases put_cases hl ha ht hn hn rfl with ⟨r, hra, -⟩ | ⟨x, x', ta, -, hx, hnx, hta, hxa, -⟩
  · exact .of_refused hra fun t' => refused_of_apart hl ht hn hab ha hb hra
  rcases put_cases hl hb ht hn hn rfl with ⟨r, hrb, -⟩ | ⟨y, y', tb, -, hy, hny, htb, hyb, -⟩
  · exact symm (.of_refused hrb fun t' => refused_of_apart hl ht hn hab.symm hb ha hrb)
  -- The one write is made behind the other as it is made before it.
  rcases put_cases hl ha ht hn (hyb.breaksAs hn hny) (entry?_of_swapped hyb hy hab) with
    ⟨_, hra, -⟩ | ⟨v, v', _, u, hv, hnv, hta', hva, hu, hvu⟩
  · cases hta.symm.trans hra
  obtain rfl := Except.ok.inj (hta.symm.trans hta')
  rcases put_cases hl hb ht hn (hva.breaksAs hn hnv) (entry?_of_swapped hva hv hab.symm) with
    ⟨_, hrb, -⟩ | ⟨w, w', _, u', hw, hnw, htb', hwb, hu', hwu⟩
  · cases htb.symm.trans hrb
  obtain rfl := Except.ok.inj (htb.symm.trans htb')
  -- Either way both places are swapped.
  obtain ⟨z, hz, hz'⟩ := hva.exists_both hv hwb hw (hab.parts_steps _)
  rw [(hyb.sameRole hy).kind] at hvu
  rw [(hva.sameRole hv).kind] at hwu
  obtain rfl := hvu.unique hz'
  obtain rfl := hwu.unique hz
  exact ⟨_, _, _, none, none, applyUpdates_of_put hta, applyUpdates_of_put hu',
    applyUpdates_of_put htb, applyUpdates_of_put hu⟩

end Commute

/-- Writes at different paths of a document that was parsed commute, whether the text is well
formed or not, if its line breaks are all line feeds or all carriage returns with line feeds. In
either order the documents at the end are the same, and each write returns the same. -/
theorem commute_of_parse {T : Text} (hl : IsNewline nl) (hT : BreaksAs nl (lex T)) {p q : KeyPath}
    (hne : p.keys ≠ q.keys) {v w : Value} (hv : v.Made) (hw : w.Made) (m : MissingPolicy) :
    Commute m ⟨p, v⟩ ⟨q, w⟩ (parse T).tree := by
  have hpaths : p ≠ q := fun h => hne (congrArg KeyPath.keys h)
  by_cases hpq : p.keys <+: q.keys
  · exact .of_leadsOn hpq hpaths hv hw
  by_cases hqp : q.keys <+: p.keys
  · exact .symm (.of_leadsOn hqp hpaths.symm hw hv)
  exact .of_apart hl (parse_hanging T) (by rwa [leaves_parse]) ⟨hpq, hqp⟩ hv hw

/-- One write makes a list of a block sequence, the other fills an empty place. -/
theorem commute_of_parse_block :
    let T : Text := "a:\r\n  - x\r\nb: # c".toList
    let p : KeyPath := ⟨[['a']], by simp⟩
    let q : KeyPath := ⟨[['b']], by simp⟩
    let v : Value := .sequence [.ofText ['u'], .ofText ['v']]
    let w : Value := .ofText ['w']
    BreaksAs ['\r', '\n'] (lex T) ∧ v.Made ∧ w.Made ∧ Commute .error ⟨p, v⟩ ⟨q, w⟩ (parse T).tree ∧
      (applyUpdates .error [⟨p, v⟩, ⟨q, w⟩] (parse T).tree).1.text =
        "a:\r\n  - u\r\n  - v\r\nb: w # c".toList := by
  intro T p q v w
  have hT : BreaksAs ['\r', '\n'] (lex T) := by
    unfold BreaksAs
    decide +kernel
  have hv : v.Made := ⟨.ofText _, .ofText _, trivial⟩
  have hw : w.Made := .ofText _
  exact ⟨hT, hv, hw, commute_of_parse .crlf hT (by decide) hv hw .error, by decide +kernel⟩

end Release.Plan

end YamlPatch
