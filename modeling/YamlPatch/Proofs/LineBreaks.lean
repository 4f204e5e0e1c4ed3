import YamlPatch.Proofs.Endings
import YamlPatch.Proofs.PutGet

/-!
# One kind of line break

All line breaks of a document may be written alike (`BreaksAs`). What is put into a document
keeps it that way : an atom and a value on one line have no line breaks
(`Atom.Made.breaksAs_tree`, `Value.breaksAs_flowTree`), and a value on several lines has those
that it is given (`Value.breaksAs_blockTree`). Then the first line tells what they all are
(`Tree.hasReturns_eq`).
-/

namespace YamlPatch

open TokenKind YamlPatch.Tree

/-- Every line break is written `nl`. -/
def BreaksAs (nl : Text) (xs : List Token) : Prop := ∀ x ∈ xs, x.kind = lineBreak → x.text = nl

/-- Line breaks written alike contain a line feed if one of them does. -/
theorem BreaksAs.hasLineFeeds {nl : Text} {xs : List Token} (h : BreaksAs nl xs)
    (hl : IsNewline nl) : HasLineFeeds xs := by
  intro x hx hk
  rw [h x hx hk]
  exact hl.newline_mem

/-- The leaves of a node are those of the trees under it. -/
theorem Tree.mem_leaves_node {k : NodeKind} {ts : List Tree} {x : Token} :
    x ∈ (node k ts).leaves ↔ ∃ t ∈ ts, x ∈ t.leaves := by
  rw [leaves]
  induction ts with
  | nil => simp [leavesOf]
  | cons t ts ih => simp [leavesOf, ih]

namespace BreaksAs

variable {nl : Text}

/-- A node has the line breaks of the trees under it. -/
theorem node {k : NodeKind} {ts : List Tree} (h : ∀ t ∈ ts, BreaksAs nl t.leaves) :
    BreaksAs nl (Tree.node k ts).leaves := by
  intro x hx
  obtain ⟨t, ht, hx⟩ := mem_leaves_node.mp hx
  exact h t ht x hx

/-- A mark is no line break. -/
theorem mark {k : TokenKind} (hk : k ≠ lineBreak) (c : Char) :
    BreaksAs nl (Tree.mark k c).leaves := by
  intro x hx h
  obtain rfl : x = ⟨k, [c]⟩ := by simpa [Tree.mark, leaves] using hx
  exact absurd h hk

/-- Separators have no line breaks. -/
theorem of_mem_separated {ts : List Tree} (h : ∀ t ∈ ts, BreaksAs nl t.leaves) :
    ∀ t ∈ separated ts, BreaksAs nl t.leaves := by
  fun_induction separated ts with
  | case1 => exact h
  | case2 t => exact h
  | case3 t u ts ih =>
    intro v hv
    rcases List.mem_cons.mp hv with rfl | hv
    · exact h v (by simp)
    · rcases List.mem_append.mp hv with hv | hv
      · simp only [separator, List.mem_cons, List.not_mem_nil, or_false] at hv
        rcases hv with rfl | rfl <;> exact mark (by decide) _
      · exact ih (fun w hw => h w (by simp [List.mem_cons.mp hw])) v hv

/-- What leads from one line to the next has the line break that it is made with. -/
theorem of_mem_lineStart (n : Nat) : ∀ t ∈ lineStart nl n, BreaksAs nl t.leaves := by
  intro t ht x hx hk
  rcases List.mem_cons.mp ht with rfl | ht
  · obtain rfl : x = ⟨lineBreak, nl⟩ := by simpa [leaves] using hx
    rfl
  · split at ht
    · cases ht
    · obtain rfl := List.mem_singleton.mp ht
      obtain rfl : x = ⟨indent, List.replicate n ' '⟩ := by simpa [leaves] using hx
      cases hk

/-- Trees on lines of their own have that line break between them. -/
theorem of_mem_lined (n : Nat) {ts : List Tree} (h : ∀ t ∈ ts, BreaksAs nl t.leaves) :
    ∀ t ∈ lined nl n ts, BreaksAs nl t.leaves := by
  cases ts with
  | nil => exact h
  | cons u us =>
    intro t ht
    rcases List.mem_cons.mp ht with rfl | ht
    · exact h t (by simp)
    · obtain ⟨w, hw, ht⟩ := List.mem_flatMap.mp ht
      rcases List.mem_append.mp ht with ht | ht
      · exact of_mem_lineStart n t ht
      · obtain rfl := List.mem_singleton.mp ht
        exact h t (by simp [hw])

end BreaksAs

/-! ## Atoms

Atoms hold no control characters, so no token of theirs is a line break. -/

/-- A line break begins with a line feed or a carriage return. -/
theorem exists_newline_of_mem_lexFrom {s : LexState} {t : Text} {x : Token} (h : x ∈ lexFrom s t)
    (hx : x.kind = lineBreak) : '\n' ∈ x.text ∨ '\r' ∈ x.text := by
  fun_induction lexFrom s t with
  | case1 => simp at h
  | case2 s c t ih =>
    rcases List.mem_cons.mp h with rfl | h
    · rcases (s.scanned c t).of_isTrivia (by rw [show (s.scan c t).1 = lineBreak from hx]; rfl) with
        ⟨hk | hk, -⟩ | ⟨-, hc⟩ | ⟨hk, -⟩
      · cases hk.symm.trans hx
      · cases hk.symm.trans hx
      · exact hc.imp (fun hc => by simp [LexState.token, hc]) fun hc => by simp [LexState.token, hc]
      · cases hk.symm.trans hx
    · exact ih h

namespace Atom

/-- The tokens of an atom are scalars and spaces. -/
theorem breaksAs_node (nl : Text) (a : Atom) : BreaksAs nl a.node.leaves := by
  intro x hx hk
  have hmem : x ∈ a.tokens := by simpa [node, leaves] using hx
  rcases kind_of_mem_tokens hmem with h | h | h <;> simp [hk, isPlain, isQuoted] at h

/-- An atom has no line breaks. -/
theorem Made.breaksAs_tree {a : Atom} (ha : a.Made) (nl : Text) : BreaksAs nl a.tree.leaves := by
  by_cases hw : a.written = .plain
  · intro x hx hk
    rw [leaves_tree, show a.render = a.text by simp [render, hw]] at hx
    have hmem {c : Char} (hc : c ∈ x.text) : isPlainChar c = true := by
      refine (ha.plainText hw).chars c ?_
      rw [← join_lex a.text]
      exact List.mem_flatMap.mpr ⟨x, hx, hc⟩
    rcases exists_newline_of_mem_lexFrom hx hk with hc | hc
    · exact absurd (hmem hc) (by decide)
    · exact absurd (hmem hc) (by decide)
  · rw [ha.tree_eq_node hw]
    exact a.breaksAs_node nl

end Atom

/-! ## Values

By recursion on the value. The only line breaks are those before the lines of a block. -/

namespace Value

variable {nl : Text}

/-- A key and its colon have no line breaks. -/
theorem breaksAs_entryNode (k : Text) {t : Tree} (ht : BreaksAs nl t.leaves) :
    BreaksAs nl (entryNode k t).leaves := by
  refine .node fun u hu => ?_
  simp only [indicator, List.mem_cons, List.mem_append, List.not_mem_nil, or_false] at hu
  rcases hu with rfl | (rfl | rfl) | rfl
  · exact .node fun u hu => List.mem_singleton.mp hu ▸ (Atom.ofText k).breaksAs_node nl
  · exact .mark (by decide) _
  · exact .mark (by decide) _
  · exact .node fun u hu => List.mem_singleton.mp hu ▸ ht

mutual

/-- A value on one line has no line breaks. -/
theorem breaksAs_flowTree : ∀ v : Value, BreaksAs nl v.flowTree.leaves
  | atom a => a.breaksAs_node nl
  | sequence vs => by
    refine .node fun t ht => ?_
    simp only [List.mem_cons, List.mem_append, List.not_mem_nil, or_false] at ht
    rcases ht with rfl | ht | rfl
    · exact .mark (by decide) _
    · exact .of_mem_separated (breaksAs_flowItemTrees vs) t ht
    · exact .mark (by decide) _
  | mapping es => by
    refine .node fun t ht => ?_
    simp only [List.mem_cons, List.mem_append, List.not_mem_nil, or_false] at ht
    rcases ht with rfl | ht | rfl
    · exact .mark (by decide) _
    · exact .of_mem_separated (breaksAs_flowEntryTrees es) t ht
    · exact .mark (by decide) _

/-- Items on one line have none. -/
theorem breaksAs_flowItemTrees : ∀ vs : List Value, ∀ t ∈ flowItemTrees vs, BreaksAs nl t.leaves
  | v :: vs, t, ht => by
    rcases List.mem_cons.mp ht with rfl | ht
    · exact .node fun u hu => List.mem_singleton.mp hu ▸ breaksAs_flowTree v
    · exact breaksAs_flowItemTrees vs t ht

/-- Entries on one line have none. -/
theorem breaksAs_flowEntryTrees :
    ∀ es : List (Text × Value), ∀ t ∈ flowEntryTrees es, BreaksAs nl t.leaves
  | (k, v) :: es, t, ht => by
    rcases List.mem_cons.mp ht with rfl | ht
    · exact breaksAs_entryNode k (breaksAs_flowTree v)
    · exact breaksAs_flowEntryTrees es t ht

end

mutual

/-- A value on several lines has the line breaks that it is given. -/
theorem breaksAs_blockTree : ∀ (v : Value) (n : Nat), BreaksAs nl (v.blockTree nl n).leaves
  | atom a, n => a.breaksAs_node nl
  | sequence vs, n => by
    rw [blockTree]
    split
    · exact breaksAs_flowTree _
    · exact .node (.of_mem_lined n (breaksAs_blockItemTrees vs n))
  | mapping es, n => by
    rw [blockTree]
    split
    · exact breaksAs_flowTree _
    · exact .node (.of_mem_lined n (breaksAs_blockEntryTrees es n))

/-- Items on several lines have the line break that they are given. -/
theorem breaksAs_blockItemTrees :
    ∀ (vs : List Value) (n : Nat), ∀ t ∈ blockItemTrees nl n vs, BreaksAs nl t.leaves
  | v :: vs, n, t, ht => by
    rcases List.mem_cons.mp ht with rfl | ht
    · refine .node fun u hu => ?_
      simp only [List.mem_cons, List.not_mem_nil, or_false] at hu
      rcases hu with rfl | rfl | rfl
      · exact .mark (by decide) _
      · exact .mark (by decide) _
      · exact breaksAs_blockTree v (n + 2)
    · exact breaksAs_blockItemTrees vs n t ht

/-- So do entries on several lines. -/
theorem breaksAs_blockEntryTrees :
    ∀ (es : List (Text × Value)) (n : Nat), ∀ t ∈ blockEntryTrees nl n es, BreaksAs nl t.leaves
  | (k, v) :: es, n, t, ht => by
    rcases List.mem_cons.mp ht with rfl | ht
    · split
      · refine .node fun u hu => ?_
        simp only [List.mem_cons, List.not_mem_nil, or_false] at hu
        rcases hu with rfl | rfl | rfl
        · exact .node fun u hu => List.mem_singleton.mp hu ▸ (Atom.ofText k).breaksAs_node nl
        · exact .mark (by decide) _
        · refine .node fun u hu => ?_
          rcases List.mem_append.mp hu with hu | hu
          · exact .of_mem_lineStart (n + 2) u hu
          · exact List.mem_singleton.mp hu ▸ breaksAs_blockTree v (n + 2)
      · exact breaksAs_entryNode k (breaksAs_flowTree v)
    · exact breaksAs_blockEntryTrees es n t ht

end

/-- Of two trees on lines of their own the second has a line break before it. -/
theorem lineBreak_mem_lined (nl : Text) (n : Nat) (t u : Tree) (ts : List Tree) :
    ⟨lineBreak, nl⟩ ∈ leavesOf (lined nl n (t :: u :: ts)) := by
  simp [lined, linesBelow, lineStart, leavesOf, leaves]

/-- A value is one line, or it has a line break. -/
theorem length_blockLines_eq_one_or (nl : Text) : ∀ (v : Value) (n : Nat),
    v.blockLines.length = 1 ∨ ∃ x ∈ (v.blockTree nl n).leaves, x.kind = lineBreak
  | atom a, n => .inl rfl
  | sequence [], n => .inl rfl
  | sequence [v], n => by
    refine (length_blockLines_eq_one_or nl v (n + 2)).imp (fun h => ?_) fun ⟨x, hx, hk⟩ =>
      ⟨x, ?_, hk⟩
    · obtain ⟨l, hl⟩ := List.length_eq_one_iff.mp h
      simp [blockLines, itemLines, hl, hang, indentBy]
    · simpa [blockTree, blockItemTrees, lined, linesBelow, itemNode, leaves, leavesOf]
        using .inr (.inr hx)
  | sequence (v :: w :: vs), n => .inr ⟨_, lineBreak_mem_lined nl n _ _ _, rfl⟩
  | mapping [], n => .inl rfl
  | mapping [(k, v)], n => by
    cases hv : v.isBlock with
    | true =>
      refine .inr ⟨⟨lineBreak, nl⟩, ?_, rfl⟩
      simp [blockTree, blockEntryTrees, hv, lined, linesBelow, blockEntryNode, lineStart, leaves,
        leavesOf]
    | false => exact .inl (by simp [blockLines, entryLines, hv])
  | mapping (d :: e :: es), n => .inr ⟨_, lineBreak_mem_lined nl n _ _ _, rfl⟩

end Value

/-! ## What the first line tells

The layout of a new block sequence is decided by the first line break of the document. It stands
for all of them if they are alike. -/

/-- The first line break is like all the others. -/
theorem Tree.hasReturns_eq {nl : Text} {t : Tree} (h : BreaksAs nl t.leaves)
    (hx : ∃ x ∈ t.leaves, x.kind = lineBreak) : t.hasReturns = (nl == ['\r', '\n']) := by
  obtain ⟨x, hx, hk⟩ := hx
  have hsome : (t.leaves.find? fun x => x.kind == lineBreak).isSome = true :=
    List.find?_isSome.mpr ⟨x, hx, by simp [hk]⟩
  obtain ⟨y, hy⟩ := Option.isSome_iff_exists.mp hsome
  have htext := h y (List.mem_of_find?_eq_some hy) (by simpa using List.find?_some hy)
  simp [hasReturns, hy, htext]

end YamlPatch
