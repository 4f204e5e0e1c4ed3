import YamlPatch.Proofs.Rendering

/-!
# Values come back from their text

A collection on one line and a sequence on several are texts of their own : each is accepted as
one document (`IsDocument`), and the root of the document stands for the value.
`Value.reads_back` says so for all values, from every column and with either kind of line break;
the sequence that a write parses again is that root.

That a tree stands for a value (`Value.IsReadAs`) is said with what a reader sees : kinds,
items, keys and the values of scalars. It does not mention how the tree was made, so it can be
asked of the root of any document.
-/

namespace YamlPatch

open YamlPatch.Tree

/-- The text is accepted as one document, whose root is at `root`. -/
def IsDocument (t : Text) (root : Cursor) : Prop :=
  ∃ tree, parseStrict t = .ok tree ∧ (tree.childNodes .document).length = 1 ∧
    (Cursor.ofTree tree).root? = some root

/-- Nothing changes if a character takes its own place. -/
theorem Text.replaceChar_self (c : Char) (t : Text) : Text.replaceChar c [c] t = t := by
  induction t with
  | nil => rfl
  | cons d t ih =>
    by_cases hd : d = c
    · simp [Text.replaceChar, hd, ih]
    · simp [Text.replaceChar, hd, ih]

namespace Cursor

/-- The place of the root `x` in a text that has nothing but `zs` before it. -/
def ofRoot (zs : List Token) (x : Tree) : Cursor :=
  ⟨x, [⟨.document, [], []⟩, ⟨.stream, zs.map .token, []⟩]⟩

/-- Behind tokens the first document is found. -/
theorem pick?_document (zs : List Token) (ts us : List Tree) :
    pick? (isNode .document) 0 (zs.map .token ++ .node .document ts :: us) =
      some (zs.map .token, .node .document ts, us) := by
  induction zs with
  | nil => rfl
  | cons z zs ih => simp [pick?, isNode, Tree.kind?, ih]

/-- The root is the first node of the first document, if that is content. -/
theorem root?_stream (zs : List Token) {x : Tree} (hx : x.isContent = true) (ts us : List Tree) :
    (ofTree (.node .stream (zs.map .token ++ .node .document (x :: ts) :: us))).root? =
      some ⟨x, [⟨.document, [], ts⟩, ⟨.stream, zs.map .token, us⟩]⟩ := by
  simp [root?, ofTree, Tree.kind?, document?, child?, pick?_document, content?, pick?, hx]

/-- Behind a margin the root stands where the margin ends. -/
theorem column_ofRoot_margin (n : Nat) (x : Tree) : (ofRoot (Value.margin n) x).column = n := by
  have hspaces (m k : Nat) : Tree.textColumn m (List.replicate k ' ') = m + k := by
    induction k generalizing m with
    | zero => rfl
    | succ k ih =>
      have h := ih (m + 1)
      simp only [Tree.textColumn, List.replicate_succ, List.foldl_cons] at h ⊢
      simpa [Nat.add_assoc, Nat.add_comm 1] using h
  cases n with
  | zero => rfl
  | succ n =>
    have h := hspaces 0 (n + 1)
    rw [Nat.zero_add] at h
    simpa [column, ofRoot, Value.margin, columnAfterAll, columnAfter] using h

end Cursor

/-- A text that the parser makes one document of is accepted as that document. -/
theorem isDocument_of_parse {t : Text} {zs : List Token} {x : Tree} (hx : x.isContent = true)
    (h : parse t = ⟨.node .stream (zs.map .token ++ [.node .document [x]]), []⟩) :
    IsDocument t (.ofRoot zs x) := by
  refine ⟨.node .stream (zs.map .token ++ [.node .document [x]]), ?_, ?_,
    Cursor.root?_stream zs hx [] []⟩
  · rw [parseStrict, h]
  · have hzs : (zs.map Tree.token).filter (isNode .document) = [] := by
      simp [List.filter_eq_nil_iff, isNode, Tree.kind?]
    simp [childNodes, children, List.filter_append, hzs, isNode, Tree.kind?]

namespace Value

/-- A sequence on several lines is none in brackets. -/
theorem isFlow_blockTree_sequence {vs : List Value} (hne : vs ≠ []) (nl : Text) (n : Nat) :
    ((sequence vs).blockTree nl n).isFlow = false := by
  obtain ⟨v, vs, rfl⟩ := List.exists_cons_of_ne_nil hne
  rfl

/-- Nor is a mapping on several lines. -/
theorem isFlow_blockTree_mapping {es : List (Text × Value)} (hne : es ≠ []) (nl : Text) (n : Nat) :
    ((mapping es).blockTree nl n).isFlow = false := by
  obtain ⟨⟨k, v⟩, es, rfl⟩ := List.exists_cons_of_ne_nil hne
  obtain ⟨y, ys, hy, -⟩ := (Atom.Made.ofText k).starts_tokens
  have hkey : (keyNode k).firstToken = some y := by
    simp [keyNode, Atom.node, firstToken, firstTokenOf, hy]
  have hfirst : ((mapping ((k, v) :: es)).blockTree nl n).firstToken = some y := by
    by_cases hb : v.isBlock = true <;>
      simp [blockTree, blockEntryTrees, lined, hb, blockEntryNode, entryNode, firstToken,
        firstTokenOf, hkey]
  have hkind := Atom.kind_of_mem_tokens (show y ∈ (Atom.ofText k).tokens by simp [hy])
  rw [isFlow, hfirst]
  cases hk : y.kind <;> simp_all [TokenKind.isPlain, TokenKind.isQuoted]

/-- On one line a collection is accepted as a document, whose root stands for it. -/
theorem reads_back_flow {v : Value} (hv : v.Made) (hc : v.kind ≠ .scalar) :
    ∃ r, IsDocument v.flow r ∧ v.IsReadAs r.focus ∧
      (v.kind = .sequence → readSequence v.flow = .ok r.focus) := by
  have hparse : parse v.flow = ⟨.node .stream (([] : List Token).map .token ++
      [.node .document [v.flowTree]]), []⟩ := parse_flow hv hc
  refine ⟨_, isDocument_of_parse v.isContent_flowTree hparse, isReadAs_flowTree v hv, fun hk => ?_⟩
  cases v with
  | sequence vs => exact readSequence_flow hv
  | atom a | mapping es => cases hk

/-- So is a collection on several lines that may stand at its column, with either kind of line
break. -/
theorem isDocument_block {v : Value} (hv : v.Made) (hb : v.isBlock = true) {nl : Text}
    (hl : IsNewline nl) (n : Nat) (hn : n = 0 → v.BeginsLine) :
    IsDocument (Text.replaceChar '\n' nl (v.block n)) (.ofRoot (margin n) (v.blockTree nl n)) := by
  rw [replaceChar_block hv hb n nl]
  exact isDocument_of_parse (v.isContent_blockTree nl n) (parse_block hv hl n hn)

/-- For a sequence every column will do. -/
theorem reads_back_block {vs : List Value} (hv : AllMade vs) (hne : vs ≠ []) {nl : Text}
    (hl : IsNewline nl) (n : Nat) :
    ∃ r, IsDocument (Text.replaceChar '\n' nl ((sequence vs).block n)) r ∧
      (sequence vs).IsReadAs r.focus ∧ r.focus.isFlow = false ∧ r.column = n ∧
      readSequence (Text.replaceChar '\n' nl ((sequence vs).block n)) = .ok r.focus := by
  have hb : (sequence vs).isBlock = true := by simpa [isBlock] using hne
  refine ⟨_, isDocument_block (v := sequence vs) hv hb hl n fun _ => trivial,
    isReadAs_blockTree (sequence vs) nl n hv, isFlow_blockTree_sequence hne nl n,
    Cursor.column_ofRoot_margin n _, ?_⟩
  rw [replaceChar_block (v := sequence vs) hv hb n nl]
  exact readSequence_block hv hne hl n

/-- What is rendered reads back. A collection on one line is accepted as one document, whose
root stands for the value. A sequence on several lines from column `n`, as it is and with a
carriage return before each line feed, is accepted as one document, whose root is a block
sequence at that column which stands for the value. Where a write parses the text of a sequence
again it gets the root. -/
theorem reads_back {v : Value} (hv : v.Made) (hc : v.kind ≠ .scalar) :
    (∃ r, IsDocument v.flow r ∧ v.IsReadAs r.focus ∧
      (v.kind = .sequence → readSequence v.flow = .ok r.focus)) ∧
    ∀ vs, v = sequence vs → vs ≠ [] →
      ∀ (n : Nat) (t : Text), t = v.block n ∨ t = Text.replaceChar '\n' ['\r', '\n'] (v.block n) →
        ∃ r, IsDocument t r ∧ v.IsReadAs r.focus ∧ r.focus.isNode .sequence = true ∧
          r.focus.isFlow = false ∧ r.column = n ∧ readSequence t = .ok r.focus := by
  refine ⟨reads_back_flow hv hc, ?_⟩
  rintro vs rfl hne n t ht
  have hnl : ∃ nl, IsNewline nl ∧ t = Text.replaceChar '\n' nl ((sequence vs).block n) := by
    rcases ht with rfl | rfl
    · exact ⟨['\n'], .lf, (Text.replaceChar_self '\n' _).symm⟩
    · exact ⟨['\r', '\n'], .crlf, rfl⟩
  obtain ⟨nl, hl, rfl⟩ := hnl
  obtain ⟨r, hr, hread, hflow, hcolumn, hsequence⟩ :=
    reads_back_block (show AllMade vs from hv) hne hl n
  exact ⟨r, hr, hread, hread.1, hflow, hcolumn, hsequence⟩

/-- A sequence with a mapping in it, on one line and on three from the second column. -/
theorem reads_back_nested :
    let v :=
      sequence [mapping [("a".toList, ofText "x: y".toList), ("b".toList, atom Atom.null)],
        sequence []]
    v.Made ∧ v.kind ≠ .scalar ∧
      (∃ r, IsDocument "[\x7ba: 'x: y', b: null\x7d, []]".toList r ∧ v.IsReadAs r.focus) ∧
      ∃ r, IsDocument "  - a: 'x: y'\r\n    b: null\r\n  - []".toList r ∧ v.IsReadAs r.focus ∧
      r.column = 2 := by
  intro v
  have hv : v.Made := ⟨⟨.ofText _, .null, trivial⟩, trivial, trivial⟩
  have hc : v.kind ≠ .scalar := by decide
  have h := reads_back hv hc
  obtain ⟨r, hr, hread, -⟩ := h.1
  obtain ⟨b, hb, hblock, -, -, hcolumn, -⟩ := h.2 _ rfl (by simp) 2 _ (.inr rfl)
  exact ⟨hv, hc, ⟨r, hr, hread⟩, b, hb, hblock, hcolumn⟩

end Value

end YamlPatch
