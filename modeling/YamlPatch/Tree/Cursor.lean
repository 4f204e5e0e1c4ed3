import YamlPatch.Model

/-!
# Places in a tree

A `Cursor` is a tree in its surroundings : the focus, and for each node around it, the
innermost first, the children on either side. It knows what a tree alone does not : its
column, its neighbours, and the whole tree (`Cursor.rebuild`).

Going down changes nothing (`Cursor.rebuild_child?`), and replacing the focus keeps the text
before and behind it (`Cursor.text_rebuild`).
-/

namespace YamlPatch

/-- A node with one child left out. -/
structure Crumb where
  kind : NodeKind
  before : List Tree
  after : List Tree

/-- A place in a tree : the tree in focus, with all that stands around it. -/
structure Cursor where
  focus : Tree
  /-- The nodes around the focus, the innermost first. -/
  crumbs : List Crumb

namespace Crumb

/-- The node with its child. -/
def fill (b : Crumb) (t : Tree) : Tree := .node b.kind (b.before ++ t :: b.after)

/-- The text before the children left out. -/
def textBefore : List Crumb → Text
  | [] => []
  | b :: bs => textBefore bs ++ Tree.textOf b.before

/-- The text behind them. -/
def textAfter : List Crumb → Text
  | [] => []
  | b :: bs => Tree.textOf b.after ++ textAfter bs

end Crumb

namespace Cursor

/-- The place of the tree itself. -/
def ofTree (t : Tree) : Cursor := ⟨t, []⟩

/-- The whole tree. -/
def rebuild (c : Cursor) : Tree := c.crumbs.foldl (fun t b => b.fill t) c.focus

/-- The same place with another tree in it. -/
def replace (c : Cursor) (t : Tree) : Cursor := ⟨t, c.crumbs⟩

/-- The column at which the focus starts. -/
def column (c : Cursor) : Nat :=
  c.crumbs.foldr (fun b n => Tree.columnAfterAll n b.before) 0

/-- The tree before the focus, under the same node. -/
def previous? (c : Cursor) : Option Tree := c.crumbs.head?.bind fun b => b.before.getLast?

/-- The tree behind the focus, under the same node. -/
def next? (c : Cursor) : Option Tree := c.crumbs.head?.bind fun b => b.after.head?

/-! ## Going down -/

/-- The trees around the one that satisfies `p` and has `n` such before it. -/
def pick? (p : Tree → Bool) : Nat → List Tree → Option (List Tree × Tree × List Tree)
  | _, [] => none
  | n, t :: ts =>
    if p t then
      match n with
      | 0 => some ([], t, ts)
      | n + 1 => (pick? p n ts).map fun r => (t :: r.1, r.2)
    else (pick? p n ts).map fun r => (t :: r.1, r.2)

/-- The child that satisfies `p` and has `n` such before it. -/
def child? (c : Cursor) (p : Tree → Bool) (n : Nat) : Option Cursor :=
  match c.focus with
  | .token _ => none
  | .node k ts => (pick? p n ts).map fun r => ⟨r.2.1, ⟨k, r.1, r.2.2⟩ :: c.crumbs⟩

/-- The first scalar, mapping or sequence under the focus. -/
def content? (c : Cursor) : Option Cursor := c.child? Tree.isContent 0

/-- Picking a tree from a list keeps the list : the parts before and behind it are given as
well. -/
theorem append_of_pick? {p : Tree → Bool} {n : Nat} {ts : List Tree}
    {r : List Tree × Tree × List Tree} (h : pick? p n ts = some r) :
    r.1 ++ r.2.1 :: r.2.2 = ts := by
  induction ts generalizing n r with
  | nil => simp [pick?] at h
  | cons t ts ih =>
    unfold pick? at h
    split at h
    · split at h
      · cases h
        rfl
      · obtain ⟨r', h', rfl⟩ := Option.map_eq_some_iff.mp h
        simp [ih h']
    · obtain ⟨r', h', rfl⟩ := Option.map_eq_some_iff.mp h
      simp [ih h']

/-- The tree that was picked is one that was asked for. -/
theorem of_pick? {p : Tree → Bool} {n : Nat} {ts : List Tree}
    {r : List Tree × Tree × List Tree} (h : pick? p n ts = some r) : p r.2.1 = true := by
  induction ts generalizing n r with
  | nil => simp [pick?] at h
  | cons t ts ih =>
    unfold pick? at h
    split at h
    · split at h
      · cases h
        assumption
      · obtain ⟨r', h', rfl⟩ := Option.map_eq_some_iff.mp h
        have hr := ih h'
        exact hr
    · obtain ⟨r', h', rfl⟩ := Option.map_eq_some_iff.mp h
      have hr := ih h'
      exact hr

/-- Without children to skip, the first that satisfies `p` is picked. -/
theorem map_pick?_zero (p : Tree → Bool) (ts : List Tree) :
    (pick? p 0 ts).map (fun r => r.2.1) = ts.find? p := by
  induction ts with
  | nil => rfl
  | cons t ts ih =>
    cases h : p t
    · simp [pick?, h, ← ih, Function.comp_def]
    · simp [pick?, h]

/-- Going down to a child changes nothing in the whole tree. -/
theorem rebuild_child? {c d : Cursor} {p : Tree → Bool} {n : Nat} (h : c.child? p n = some d) :
    d.rebuild = c.rebuild := by
  unfold child? at h
  split at h
  · cases h
  · rename_i k ts hc
    obtain ⟨r, hr, rfl⟩ := Option.map_eq_some_iff.mp h
    simp [rebuild, Crumb.fill, append_of_pick? hr, hc]

/-- The child that is found is one that was asked for. -/
theorem focus_child? {c d : Cursor} {p : Tree → Bool} {n : Nat} (h : c.child? p n = some d) :
    p d.focus = true := by
  unfold child? at h
  split at h
  · cases h
  · obtain ⟨r, hr, rfl⟩ := Option.map_eq_some_iff.mp h
    exact of_pick? hr

/-- The content under a cursor is the content of its tree. -/
theorem focus_content? (c : Cursor) : c.content?.map focus = c.focus.content? := by
  unfold content? child? Tree.content?
  cases c.focus with
  | token => rfl
  | node k ts => simp [Tree.children, Function.comp_def, map_pick?_zero]

/-! ## The text around the focus -/

/-- The text of the whole tree is the text of the focus between two texts that do not depend on
it. -/
theorem text_rebuild (c : Cursor) :
    c.rebuild.text = Crumb.textBefore c.crumbs ++ c.focus.text ++ Crumb.textAfter c.crumbs := by
  obtain ⟨t, bs⟩ := c
  induction bs generalizing t with
  | nil => simp [rebuild, Crumb.textBefore, Crumb.textAfter]
  | cons b bs ih =>
    have h : rebuild ⟨t, b :: bs⟩ = rebuild ⟨b.fill t, bs⟩ := rfl
    rw [h, ih]
    simp [Crumb.fill, Crumb.textBefore, Crumb.textAfter]

end Cursor

end YamlPatch
