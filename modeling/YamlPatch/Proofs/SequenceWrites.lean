import YamlPatch.Proofs.Settled

/-!
# Sequences written over sequences

A new item takes over the quotes of an old one : the item at `i` those of the item at `i` among
the old ones that hold something, and the items past these those of the last
(`Cursor.items_of_put`). If an old item is empty then this is not the one in the same place.

An empty list takes the place of a block sequence on the line of the key. With the sequence goes
whatever stands between the end of that line and the sequence, comments, anchors and tags among
it, and nothing else (`Cursor.annotations_of_put_empty`).

In the first statement items are counted from the front on both sides, those of the new list
among all items and those of the old one among the items that hold something. In the second one
the children before the sequence are cut in two at the first line break, and the lines behind it
are what is lost.
-/

namespace YamlPatch

open TokenKind YamlPatch.Tree

/-! ## The styles of items

The list of the old styles is used up from the front, but its last element stays. -/

namespace Value

/-- The style at `i`, or the last one. -/
def styleAt (ss : List Style) (i : Nat) : Style := ss[min i (ss.length - 1)]?.getD .plain

/-- The first item takes the first style. -/
theorem styleAt_zero (ss : List Style) : styleAt ss 0 = ss.head?.getD .plain := by
  rw [styleAt, Nat.zero_min, List.head?_eq_getElem?]

/-- Each item but the last uses up a style. -/
theorem styleAt_succ (ss : List Style) (i : Nat) :
    styleAt ss (i + 1) = styleAt (if ss.length ≤ 1 then ss else ss.tail) i := by
  unfold styleAt
  split
  · rename_i h
    rw [show ss.length - 1 = 0 by omega, Nat.min_zero, Nat.min_zero]
  · rename_i h
    rw [List.getElem?_tail, List.length_tail]
    congr 2
    omega

/-- Taking over quotes leaves the number of items as it is. -/
theorem length_styledLike (ss : List Style) (vs : List Value) :
    (Value.styledLike ss vs).length = vs.length := by
  induction vs generalizing ss with
  | nil => rfl
  | cons v vs ih => simp only [Value.styledLike, List.length_cons, ih]

/-- A string takes over the style at its number. -/
theorem getElem?_styledLike {vs : List Value} {i : Nat} {a : Atom} (ss : List Style)
    (h : vs[i]? = some (atom a)) :
    (Value.styledLike ss vs)[i]? = some (atom (a.styledLike (styleAt ss i))) := by
  induction vs generalizing ss i with
  | nil => simp at h
  | cons v vs ih =>
    obtain ⟨w, hcons, hw⟩ := styledLike_cons ss v vs
    rw [hcons]
    cases i with
    | zero =>
      obtain rfl : v = atom a := by simpa using h
      obtain ⟨b, hb, rfl⟩ | ⟨hnone, -⟩ := hw
      · obtain rfl : a = b := by simpa using hb
        rw [List.getElem?_cons_zero, styleAt_zero]
      · exact absurd rfl (hnone a)
    | succ i =>
      rw [List.getElem?_cons_succ, styleAt_succ]
      exact ih _ (by simpa using h)

end Value

namespace Tree

/-- The items of a sequence that hold something. -/
def fullItems (t : Tree) : List Tree := (t.childNodes .item).filter fun u => u.content?.isSome

/-- How what an item holds is written. Only scalars are in quotes. -/
def heldStyle (u : Tree) : Style :=
  match u.content? with
  | some v => if v.isNode .scalar then Scalar.style v else .plain
  | none => .plain

/-- The styles are those of what the items hold, empty items apart. -/
theorem itemStyles_eq (t : Tree) : t.itemStyles = t.fullItems.map heldStyle := by
  unfold itemStyles items fullItems
  induction t.childNodes .item with
  | nil => rfl
  | cons u us ih =>
    cases hu : u.content? with
    | none => simpa [hu] using ih
    | some v => simpa [hu, heldStyle] using ih

end Tree

namespace Cursor

variable {c d : Cursor} {p : KeyPath}

/-- The value at a path is the content of the place that is written to. -/
theorem exists_slot (hd : c.find? p = some d) : ∃ slot, (c.entry? p).bind slot? = some slot ∧
    slot.content? = some d := by
  rw [find?_eq, ← slot_eq] at hd
  exact Option.bind_eq_some_iff.mp hd

/-- The tree of the items that are written over a sequence. -/
theorem exists_items {vs : List Value} (hv : Value.AllMade vs)
    (hne : d.focus.isFlow = true ∨ vs ≠ []) :
    ∃ s f, readSequence (d.newSequenceText vs) = .ok s ∧ (∀ a, f (.atom a) = a.node) ∧
      s.items = (Value.styledLike d.focus.itemStyles vs).map f := by
  obtain ⟨-, -, hread⟩ | ⟨-, hitems, nl, -, -, hread⟩ := d.newSequence_cases hv hne
  · exact ⟨_, Value.flowTree, hread, fun _ => rfl, Value.items_flowTree _⟩
  · exact ⟨_, Value.blockTree nl (d.column + 2), hread, fun _ => rfl,
      Value.items_blockTree nl d.column hitems⟩

/-- Of the items that are written over a sequence each string takes over the quotes of the old
item with its number, the empty ones not counted, or those of the last. -/
theorem items_of_put {vs : List Value} (hv : Value.AllMade vs) (hd : c.find? p = some d)
    (hs : d.focus.isNode .sequence = true) (hne : d.focus.isFlow = true ∨ vs ≠ []) :
    ∃ s, c.put p (.sequence vs) = .ok (d.replace s).rebuild ∧ s.items.length = vs.length ∧
      ∀ (i : Nat) (a : Atom), vs[i]? = some (.atom a) →
        s.items[i]? =
          some (a.styledLike (Value.styleAt (d.focus.fullItems.map heldStyle) i)).node := by
  rw [← itemStyles_eq]
  obtain ⟨slot, hslot, hc⟩ := exists_slot hd
  obtain ⟨s, f, hread, hf, hitems⟩ := exists_items (d := d) hv hne
  have hw : slot.Written (.sequence vs) (d.replace s).rebuild :=
    .sequence hc (by simpa [isNode] using hs) hne hread
  refine ⟨s, by rw [put_of_slot hslot, hw.write_eq], ?_, fun i a ha => ?_⟩
  · rw [hitems, List.length_map, Value.length_styledLike]
  · rw [hitems, List.getElem?_map, Value.getElem?_styledLike _ ha, Option.map_some, hf]

end Cursor

/-! ## Emptied sequences

Comments, anchors and tags are followed through the write as a list, in the order of the text. -/

namespace Token

/-- The comments, anchors and tags among the tokens. -/
def annotations (ts : List Token) : List Token :=
  ts.filter fun x => x.kind == comment || x.kind.isProperty

/-- The annotations of tokens in a row are those of both parts. -/
theorem annotations_append (ts us : List Token) :
    annotations (ts ++ us) = annotations ts ++ annotations us :=
  List.filter_append ts us

/-- A gap holds none. -/
theorem annotations_gap {g : List Tree} (h : Cursor.IsGap g) : annotations (leavesOf g) = [] := by
  rcases h with rfl | rfl <;> rfl

end Token

namespace Cursor

variable {c d : Cursor} {p : KeyPath}

/-- What the place around the focus holds before it, from its first line break on. -/
def linesBefore (d : Cursor) : List Tree :=
  match d.crumbs with
  | [] => []
  | b :: _ => b.before.dropWhile fun u => !u.isToken .lineBreak

/-- An empty list can be written over every block sequence. It takes the place of the lines
before the sequence as well, and all other comments, anchors and tags are kept in their order.
So these are all that are outside the sequence just if there are none on those lines. -/
theorem annotations_of_put_empty (hd : c.find? p = some d) (hs : d.focus.isNode .sequence = true)
    (hf : d.focus.isFlow = false) :
    ∃ before behind t, c.rebuild.leaves = before ++ leavesOf d.linesBefore ++
      d.focus.leaves ++ behind ∧
      c.put p (.sequence []) = .ok t ∧
      Token.annotations t.leaves = Token.annotations (before ++ behind) ∧
      (Token.annotations t.leaves = Token.annotations (before ++ leavesOf d.linesBefore ++ behind) ↔
        Token.annotations (leavesOf d.linesBefore) = []) := by
  obtain ⟨slot, hslot, hc⟩ := exists_slot hd
  obtain ⟨k, l, r, hfocus, hcrumbs, -⟩ := step?_eq_some (content?_eq slot ▸ hc)
  obtain rfl : k = .value := by
    obtain ⟨e, -, he⟩ := Option.bind_eq_some_iff.mp hslot
    simpa [hfocus, isNode, Tree.kind?] using focus_child? he
  obtain ⟨before, behind, hleaves⟩ := slot.exists_leaves_rebuild
  obtain ⟨new, hread, hnew⟩ :
      ∃ new, readSequence "[]".toList = .ok new ∧ Token.annotations new.leaves = [] :=
    ⟨_, Value.readSequence_flow (show Value.AllMade [] from trivial), by decide⟩
  have hw : slot.Written (.sequence []) _ := .emptied hc (by simpa [isNode] using hs) hf hread
  have hlines : d.linesBefore = l.dropWhile fun u => !u.isToken .lineBreak := by
    rw [linesBefore, hcrumbs]
  have hold : leavesOf l = leavesOf (l.takeWhile fun u => !u.isToken .lineBreak) ++
      leavesOf d.linesBefore := by
    rw [hlines, ← leavesOf_append, List.takeWhile_append_dropWhile]
  have hkept : Token.annotations (slot.replace (slot.insertEmptied d new)).rebuild.leaves =
      Token.annotations
      (before ++ leavesOf (l.takeWhile fun u => !u.isToken .lineBreak) ++
        (leavesOf r ++ behind)) := by
    have hinsert : slot.insertEmptied d new =
        slot.insertBetween (l.takeWhile fun u => !u.isToken .lineBreak) r new := by
          rw [insertEmptied, hcrumbs]
    -- Between what is kept and the new list there are only gaps.
    obtain ⟨kept, m, g, g', hsplit, hg, hg', heq⟩ :=
      slot.insertBetween_eq (l.takeWhile fun u => !u.isToken .lineBreak) r new
    rw [hleaves, hinsert, heq, hsplit]
    simp [leaves, leavesOf, Token.annotations_append, hnew, Token.annotations_gap hg,
      Token.annotations_gap hg']
  refine ⟨before ++ leavesOf (l.takeWhile fun u => !u.isToken .lineBreak),
    leavesOf r ++ behind, _, ?_,
    by rw [put_of_slot hslot, hw.write_eq], hkept, ?_⟩
  · have hrebuild := rebuild_follow? (slot_eq c p ▸ hslot)
    rw [← hrebuild, ← show slot.replace slot.focus = slot from rfl, hleaves, hfocus]
    simp [leaves, leavesOf, hold]
  · rw [hkept]
    simp [Token.annotations_append]

end Cursor

end YamlPatch
