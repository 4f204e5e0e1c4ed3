import YamlPatch.Proofs.PlainLines
import YamlPatch.Proofs.ScalarPlaces

/-!
# Plain scalars over several lines in a document

A plain scalar of any number of lines may be the value of an entry in any block mapping of a
document, if its lines are indented beyond the key (`BlockEntry.parse_plainLines`). As in
`ValueLine.parse_literal`, the document is known without faults with some other scalar in its
place, and nothing else is asked of what stands around. In particular what follows on the next
line is parsed as before : an entry of the same mapping, or whatever the document goes on with.

The lines are read, taken and joined in the module on plain lines. Here it is shown that the
place of the other scalar is one that they can take : it stands behind a colon, to the right of
its line's start, and a line break or the end of the text follows.
-/

namespace YamlPatch

open TokenKind YamlPatch.Tree

/-- The surroundings of what an entry of a mapping has as its value. -/
structure BlockEntry where
  /-- What stands around the mapping. -/
  outer : List Crumb
  /-- What the mapping holds before the entry. -/
  before : List Tree
  /-- What the entry holds before its value : the key, the colon and a space. -/
  key : List Tree
  /-- The anchors and tags of the value. -/
  heads : List Token
  /-- What the mapping holds behind the entry. -/
  after : List Tree

namespace BlockEntry

variable {p : BlockEntry}

/-- The place of the entry. -/
def entries (p : BlockEntry) : List Crumb := ⟨.mapping, p.before, p.after⟩ :: p.outer

/-- The place of what the value holds. -/
def crumbs (p : BlockEntry) : List Crumb :=
  ⟨.value, p.heads.map .token, []⟩ :: ⟨.entry, p.key, []⟩ :: p.entries

/-- The document with `x` as the value. -/
def document (p : BlockEntry) (x : Tree) : Tree := Cursor.rebuild ⟨x, p.crumbs⟩

/-- The mapping. -/
def mapping (p : BlockEntry) (x : Tree) : Tree :=
  .node .mapping (p.before ++
    .node .entry (p.key ++ [.node .value (p.heads.map .token ++ [x])]) :: p.after)

/-- The column of the key. -/
def column (p : BlockEntry) : Nat := textColumn 0 (Crumb.textBefore p.entries)

/-- The document is its mapping in the nodes around. -/
theorem document_eq (p : BlockEntry) (x : Tree) :
    p.document x = Cursor.rebuild ⟨p.mapping x, p.outer⟩ := rfl

open Config in
/-- A scalar that ends its line may be replaced. -/
theorem exists_scalarAt {t : Text} {x : Tree} (hx : parseStrict t = .ok (p.document x))
    (hs : x.isNode .scalar = true) (hblock : (p.mapping x).isFlow = false)
    (hend : Value.AtLineEnd (Crumb.textAfter p.crumbs)) :
    ∃ xs x₀ heads ys, ScalarAt t x p.crumbs p.column xs x₀ heads ys := by
  have hz := (parseStrict_eq_ok.mp hx).1
  have houter : p.outer ≠ [] := by
    intro hnil
    have hroot := (parseStrict_eq_ok.mp hx).2
    rw [document_eq, hnil] at hroot
    cases hroot
  obtain ⟨after, hlog, -⟩ := @Cursor.exists_log t
    ⟨.node .value (p.heads.map Tree.token ++ [x]), ⟨.entry, p.key, []⟩ :: p.entries⟩ hx rfl
      (by simp)
  obtain ⟨o, k, xs, x₀, ys₀, h, hbefore⟩ := exists_colon hz hlog
  cases o with
  | none =>
    obtain ⟨us, hus⟩ := h.tasks
    obtain ⟨tr, g, ws, c, -, -, -, -, hcase⟩ := exists_flowPlace hz h.leads hus h.slot h.rest
    obtain ⟨Xs, ws, hc⟩ : ∃ Xs ws, Completed t none k g Xs ws c := by
      rcases hcase with hc | ⟨X, -, -, -, -, ws, -, -, -, -, -, -, hc⟩
      · exact ⟨[], _, hc⟩
      · exact ⟨[X], ws, hc⟩
    have hflow := hc.isFlow_eq hus houter hbefore
    rw [mapping, hflow] at hblock
    cases hblock
  | some column =>
    obtain rfl : column = p.column := h.column_eq hbefore
    obtain ⟨heads, ys, hat⟩ := h.exists_scalarAt (by simp) hx hbefore hs hend
    exact ⟨xs, x₀, heads, ys, hat⟩

/-- A plain scalar of several lines reads back its lines, joined. Take a document without faults
in which the value of an entry of a block mapping is a scalar `x` that ends its line. Put lines
of plain text in its place, the first behind the key and the others indented beyond it, with any
number of empty lines before each : there are no faults either, the value is the scalar made of
the lines, and all else is parsed as before. The scalar stands for the lines joined by a space,
or by as many line feeds as there are empty lines between. -/
theorem parse_plainLines {x : Tree} {w : Text} {ls : List PlainLine}
    (hx : parseStrict (p.document x).text = .ok (p.document x)) (hscalar : x.isNode .scalar = true)
    (hold : StopsAt isBlank x.text) (hblock : (p.mapping x).isFlow = false)
    (hend : Value.AtLineEnd (Crumb.textAfter p.crumbs)) (hw : needsQuotes w = false)
    (hls : ∀ l ∈ ls, l.Continues p.column) :
    ∃ s : Tree, s.isNode .scalar = true ∧ s.text = plainLines w ls ∧
    Scalar.value s = joinedLines w ls ∧
      parseStrict (Crumb.textBefore p.crumbs ++ plainLines w ls ++ Crumb.textAfter p.crumbs) =
        .ok (p.document s) := by
  have hplain := plainText_of_needsQuotes hw
  obtain ⟨xs, x₀, heads, ys, h⟩ := exists_scalarAt hx hscalar hblock hend
  obtain ⟨-, hdepth, hline, -⟩ := h.lexState rfl
  have hleaves : (plainScalar w ls).leaves = plainTokens w ++ ls.flatMap PlainLine.tokens := by
    rw [plainScalar, leaves, leavesOf_map_token]
  obtain ⟨y, zs, hy, hk⟩ := hplain.exists_cons
  have hkind : y.kind.isTrivia = false ∧ y.kind.isProperty = false ∧ y.kind.isMarker = false := by
    revert hk
    cases y.kind <;> simp [isPlain, isTrivia, isProperty, isMarker]
  -- The three readers of the lines : the parser, the lexer, and below the reader of the value.
  have hfills : Fills p.column (plainScalar w ls) ys := fun s hs c d fs q =>
    Config.reaches_plainScalar hplain hls h.breaks.endsLine h.outside c .value d fs q hs
  have hbegin : BeginsPlain (plainScalar w ls).text := by
    obtain ⟨c, u, hc⟩ := List.exists_cons_of_ne_nil hplain.ne_nil
    have hmark := (ne_of_isPlainChar (hplain.chars c (by simp [hc]))).2.1
    exact ⟨c, _,
      by rw [text_plainScalar, plainLines, hc, List.cons_append], (hplain.head c u hc).1, hmark⟩
  have hquiet : depthAfterAll 0 (plainScalar w ls).leaves = 0 :=
    depthAfterAll_of_isQuiet (fun z hz => isQuiet_of_mem_plainLines (hleaves ▸ hz)) 0
  have hcuts :=
    cuts_plainLines hplain hls hdepth hline (Value.AtLineEnd.wordLength (h.after ▸ hend) false)
  have hparse :=
    h.parse_replaced hold (by rw [hleaves, hy, List.cons_append]) hkind hfills hbegin hquiet
    (hleaves ▸ hcuts)
  rw [text_plainScalar] at hparse
  exact ⟨plainScalar w ls, rfl, text_plainScalar w ls, value_plainScalar hplain hls, hparse⟩

/-- The value of the key `b` in the item of a sequence, with the key `c` below it. -/
def inItem : BlockEntry where
  outer :=
    [⟨.item, [mark dash '-', mark space ' '], []⟩, ⟨.sequence, [], []⟩,
      ⟨.value, lineStart ['\n'] 2, []⟩,
      ⟨.entry, [Value.keyNode ['a'], mark colon ':'], []⟩, ⟨.mapping, [], []⟩,
      ⟨.document, [], [mark lineBreak '\n']⟩, ⟨.stream, [], []⟩]
  before := []
  key := Value.keyNode ['b'] :: indicator
  heads := []
  after := lineStart ['\n'] 4 ++ [Value.entryNode ['c'] (Atom.ofText ['z']).node]

/-- Two lines that may continue it. -/
def inItemLines : List PlainLine :=
  [⟨['\r', '\n'], [['\n'], ['\r', '\n']], 7, "two 2 null".toList⟩, ⟨['\n'], [], 5, "three".toList⟩]

/-- Both are indented beyond the key. -/
theorem continues_inItemLines : ∀ l ∈ inItemLines, l.Continues inItem.column := by
  rw [show inItem.column = 4 by decide +kernel]
  simp only [inItemLines, List.mem_cons, List.not_mem_nil, or_false, forall_eq_or_imp, forall_eq]
  refine ⟨⟨.crlf, ?_, by decide, by decide +kernel⟩, ⟨.lf, by simp, by decide, by decide +kernel⟩⟩
  simp only [List.mem_cons, List.not_mem_nil, or_false, forall_eq_or_imp, forall_eq]
  exact ⟨.lf, .crlf⟩

/-- Three lines with both kinds of line breaks and an empty line, one with a number and a word
for null. -/
theorem parse_plainLines_inItem : ∃ s, Scalar.value s = "one\n\ntwo 2 null three".toList ∧
    parseStrict "a:\n  - b: one\r\n\n\r\n       two 2 null\n     three\n    c: z\n".toList =
      .ok (inItem.document s) := by
  have hx : parseStrict (inItem.document (Atom.ofText ['x']).node).text =
      .ok (inItem.document (Atom.ofText ['x']).node) := by
    refine parseStrict_eq_ok.mpr ⟨List.eq_nil_of_length_eq_zero (by decide +kernel), ?_⟩
    have htree : [(Config.start (inItem.document (Atom.ofText ['x']).node).text).run.stream] =
        [inItem.document (Atom.ofText ['x']).node] := eq_of_eventsOf_eq (by decide +kernel)
    exact List.singleton_inj.mp htree
  have hold : StopsAt isBlank (Atom.ofText ['x']).node.text := by
    rintro c u hc
    rw [show (Atom.ofText ['x']).node.text = ['x'] by decide +kernel] at hc
    cases hc
    decide
  have hend : Value.AtLineEnd (Crumb.textAfter inItem.crumbs) :=
    .inr ⟨_, "    c: z\n".toList, .lf, by decide +kernel⟩
  obtain ⟨s, -, -, hvalue, hparse⟩ :=
    parse_plainLines (w := "one".toList) hx (by decide) hold (by decide +kernel)
    hend (by decide +kernel) continues_inItemLines
  have htext : Crumb.textBefore inItem.crumbs ++ plainLines "one".toList inItemLines ++
      Crumb.textAfter inItem.crumbs =
      "a:\n  - b: one\r\n\n\r\n       two 2 null\n     three\n    c: z\n".toList := by
        decide +kernel
  exact ⟨s, hvalue, htext ▸ hparse⟩

end BlockEntry

end YamlPatch
