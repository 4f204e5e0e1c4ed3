import YamlPatch.Proofs.Forming

/-!
# Trees laid out by columns

A tree stands at the column at which its text begins, counted from the preceding line feed
(`Tree.textColumn`). What may stand there depends on the nodes around it (`Spot`) : the entries
of a block mapping and the items of a block sequence start at the column of their collection, a
block collection under an entry or an item starts to the right of that column, save that a block
sequence may start at the column of the mapping whose value it is, and flow collections hold no
block collections. `Tree.LaidOut` says so of a whole tree.

A reader counts columns differently, back to the last empty node at most. Where no node is empty
it counts the same (`Cursor.column_eq`).

A tree does not carry its column. It is computed on the way down, from the column of the node
and the texts of the children before, so a statement about a list of trees takes the column at
which the first of them starts, and the lemma for `++` moves it on by the text of what comes
first.
-/

namespace YamlPatch

open TokenKind

/-! ## Where a tree may stand

Columns are lengths of texts behind the last line feed. The column of a tree is handed down from
its parent, and it is moved on from child to child. -/

/-- The surroundings of a tree, as far as they tell what may stand there. -/
inductive Spot where
  /-- Inside a flow collection. -/
  | flow
  /-- In a place : a block mapping and a block sequence start at these columns or to the right. -/
  | place (mapping sequence : Nat)
  /-- Directly in the block mapping at a column. -/
  | inMapping (column : Nat)
  /-- Directly in the block sequence at a column. -/
  | inSequence (column : Nat)
  deriving DecidableEq, Repr

namespace Spot

/-- A node of the kind may start at `column`. -/
def Admits (b : Spot) (column : Nat) (isFlow : Bool) : NodeKind → Prop
  | .mapping => isFlow = true ∨ ∃ m q, b = place m q ∧ m ≤ column
  | .sequence => isFlow = true ∨ ∃ m q, b = place m q ∧ q ≤ column
  | .entry => ∀ n, b = inMapping n → column = n
  | .item => ∀ n, b = inSequence n → column = n
  | _ => True

/-- Where the children of a node stand that starts at `column`. -/
def within (b : Spot) (column : Nat) (isFlow : Bool) : NodeKind → Spot
  | .mapping => if isFlow then flow else inMapping column
  | .sequence => if isFlow then flow else inSequence column
  | .entry =>
    match b with
    | inMapping n => place (n + 1) n
    | b => b
  | .item =>
    match b with
    | inSequence n => place (n + 1) (n + 1)
    | b => b
  | _ => b

end Spot

namespace Tree

mutual

/-- The tree may stand in the spot at `column`, and so may every tree in it where it stands. -/
def LaidOut (b : Spot) (column : Nat) : Tree → Prop
  | .token _ => True
  | .node k ts =>
    b.Admits column (node k ts).isFlow k ∧
    LaidOutAll (b.within column (node k ts).isFlow k) column ts

/-- Several trees, of which the first starts at `column`. -/
def LaidOutAll (b : Spot) (column : Nat) : List Tree → Prop
  | [] => True
  | t :: ts => t.LaidOut b column ∧ LaidOutAll b (textColumn column t.text) ts

end

variable {b : Spot} {n : Nat}

/-- A token may stand anywhere. -/
theorem laidOut_token {x : Token} : (token x).LaidOut b n := by
  rw [LaidOut]
  trivial

/-- A node has to be admitted where it starts, and the trees in it where they stand in it. -/
theorem laidOut_node {k : NodeKind} {ts : List Tree} : (node k ts).LaidOut b n ↔
    b.Admits n (node k ts).isFlow k ∧ LaidOutAll (b.within n (node k ts).isFlow k) n ts := by
  rw [LaidOut]

/-- Behind a tree the next one starts at the column to which its text leads. -/
theorem laidOutAll_cons {t : Tree} {ts : List Tree} :
    LaidOutAll b n (t :: ts) ↔ t.LaidOut b n ∧ LaidOutAll b (textColumn n t.text) ts := by
  rw [LaidOutAll]

theorem laidOutAll_nil : LaidOutAll b n [] := by
  rw [LaidOutAll]
  trivial

/-- Columns are counted from one piece of text to the next. -/
theorem textColumn_append (n : Nat) (s t : Text) :
    textColumn n (s ++ t) = textColumn (textColumn n s) t := by
  simp [textColumn]

/-- Behind some trees the others start at the column to which their text leads. -/
theorem laidOutAll_append {ts us : List Tree} :
    LaidOutAll b n (ts ++ us) ↔ LaidOutAll b n ts ∧ LaidOutAll b (textColumn n (textOf ts)) us := by
  induction ts generalizing n with
  | nil => simp [laidOutAll_nil, textColumn]
  | cons t ts ih => simp [laidOutAll_cons, ih, textColumn_append, and_assoc]

/-- Tokens may stand anywhere. -/
theorem laidOutAll_tokens (xs : List Token) : LaidOutAll b n (xs.map token) := by
  induction xs generalizing n with
  | nil => exact laidOutAll_nil
  | cons x xs ih => exact laidOutAll_cons.mpr ⟨laidOut_token, ih⟩

/-- Without a line feed the column moves on by the length. -/
theorem textColumn_of_not_mem {n : Nat} {t : Text} (h : '\n' ∉ t) :
    textColumn n t = n + t.length := by
  induction t generalizing n with
  | nil => rfl
  | cons c t ih =>
    simp only [List.mem_cons, not_or] at h
    have hstep : textColumn n (c :: t) = textColumn (n + 1) t := by simp [textColumn, Ne.symm h.1]
    rw [hstep, ih h.2, List.length_cons]
    omega

mutual

/-- Where no node is empty a reader counts the columns of the text. -/
theorem columnAfter_eq : ∀ (t : Tree) (n : Nat), t.Every (fun u => ∀ k, u ≠ node k []) →
    t.columnAfter n = textColumn n t.text
  | .token x, n, _ => by simp [columnAfter]
  | .node k [], n, h => absurd rfl ((every_node.mp h).1 k)
  | .node k (t :: ts), n, h => by
    obtain ⟨ht, hts⟩ := everyOf_cons.mp (every_node.mp h).2
    rw [columnAfter, columnAfter_eq t n ht, columnAfterAll_eq ts _ hts, text_node, textOf_cons,
      textColumn_append]

/-- So it is with several trees. -/
theorem columnAfterAll_eq : ∀ (ts : List Tree) (n : Nat), EveryOf (fun u => ∀ k, u ≠ node k []) ts →
    columnAfterAll n ts = textColumn n (textOf ts)
  | [], n, _ => rfl
  | t :: ts, n, h => by
    obtain ⟨ht, hts⟩ := everyOf_cons.mp h
    rw [columnAfterAll, columnAfter_eq t n ht, columnAfterAll_eq ts _ hts, textOf_cons,
      textColumn_append]

end

end Tree

open YamlPatch.Tree

/-- What holds of all trees in the whole tree holds of all in the focus. -/
theorem Cursor.every_focus {P : Tree → Prop} {c : Cursor} (h : c.rebuild.Every P) :
    c.focus.Every P := by
  obtain ⟨t, bs⟩ := c
  induction bs generalizing t with
  | nil => exact h
  | cons b bs ih =>
    obtain ⟨-, hchildren⟩ := every_node.mp (ih (b.fill t) h)
    exact (everyOf_cons.mp (everyOf_append.mp hchildren).2).1

/-- Where no node is empty, the column of a place is that of the text before it. -/
theorem Cursor.column_eq {c : Cursor} (h : c.rebuild.Every fun u => ∀ k, u ≠ .node k []) :
    c.column = textColumn 0 (Crumb.textBefore c.crumbs) := by
  obtain ⟨t, bs⟩ := c
  induction bs generalizing t with
  | nil => rfl
  | cons b bs ih =>
    have hfill := every_focus (c := ⟨b.fill t, bs⟩) h
    have hbefore := (everyOf_append.mp (every_node.mp hfill).2).1
    have hcolumn : column ⟨t, b :: bs⟩ = columnAfterAll (column ⟨t, bs⟩) b.before := rfl
    rw [hcolumn, show column ⟨t, bs⟩ = column ⟨b.fill t, bs⟩ from rfl, ih (b.fill t) h,
      columnAfterAll_eq _ _ hbefore, Crumb.textBefore, textColumn_append]

/-! ## Tokens that stay on a line

Behind an indicator, a property or a space the next token stands further to the right. That is
how the column of a collection comes to be greater than the one of its parent. -/

/-- Item indicators, properties and spaces. -/
def TokenKind.isStraight : TokenKind → Bool
  | anchor | tag | space | dash => true
  | _ => false

/-- Other tokens are not asked about. -/
theorem isStraight_of_isOther {k : TokenKind} (h : LexState.isOther k = true) :
    k.isStraight = false := by
  cases k <;> first | rfl | cases h

/-- A token of this kind moves on in its line. -/
def Straight (x : Token) : Prop := x.kind.isStraight = true → '\n' ∉ x.text ∧ x.text ≠ []

/-- A run of a kind that excludes line feeds has none. -/
theorem newline_not_mem_take_runLength {p : Char → Bool} (hp : p '\n' = false) (t : Text) :
    '\n' ∉ t.take (runLength p t) := by
  intro hm
  have htake : t.take (runLength p t) = t.takeWhile p := by
    calc t.take (runLength p t)
        = (t.takeWhile p ++ t.dropWhile p).take (runLength p t) := by
          rw [List.takeWhile_append_dropWhile]
      _ = t.takeWhile p := List.take_left
  rw [htake] at hm
  have := List.mem_takeWhile_imp hm
  simp [hp] at this

/-- The lexer cuts off an indicator, a property or white space before the line feed. -/
theorem LexState.straight_token (s : LexState) (c : Char) (t : Text) : Straight (s.token c t) := by
  intro hk
  refine ⟨?_, by simp [token]⟩
  have hs := s.scanned c t
  simp only [token] at hk ⊢
  generalize s.scan c t = r at hk hs ⊢
  have hline {p : Char → Bool} (hp : p '\n' = false) (hc : c ≠ '\n') :
      '\n' ∉ c :: t.take (runLength p t) := by
    simp [Ne.symm hc, newline_not_mem_take_runLength hp]
  cases hs with
  | space _ hc => exact hline rfl (by rintro rfl; cases hc)
  | dash hc => simp [hc]
  | property hc =>
    refine hline ?_ ?_
    · decide
    · rcases hc with ⟨rfl, -⟩ | ⟨rfl, -⟩ <;> decide
  | mark hc =>
    unfold markKind? at hc
    split at hc <;> simp at hc <;> subst hc <;> cases hk
  | other hother => simp [isStraight_of_isOther hother] at hk
  | _ => cases hk

/-- So it is with all tokens of a text. -/
theorem straight_of_mem_lexFrom {s : LexState} {t : Text} {x : Token} (h : x ∈ lexFrom s t) :
    Straight x := by
  fun_induction lexFrom s t with
  | case1 => simp at h
  | case2 s c t ih =>
    rcases List.mem_cons.mp h with rfl | h
    · exact s.straight_token c t
    · exact ih h

/-- Straight tokens move the column on. -/
theorem le_textColumn_join {n : Nat} {xs : List Token} (hx : ∀ x ∈ xs, Straight x)
    (hk : ∀ x ∈ xs, x.kind.isStraight = true) : n + xs.length ≤ textColumn n (Token.join xs) := by
  induction xs generalizing n with
  | nil => exact le_rfl
  | cons x xs ih =>
    obtain ⟨hline, hne⟩ := hx x (by simp) (hk x (by simp))
    have hlen := List.length_pos_iff.mpr hne
    have := ih (n := textColumn n x.text) (fun y hy => hx y (by simp [hy])) fun y hy =>
      hk y (by simp [hy])
    rw [Token.join_cons, textColumn_append, List.length_cons]
    rw [textColumn_of_not_mem hline] at this ⊢
    omega

end YamlPatch
