import YamlPatch.Proofs.BlockScalars
import YamlPatch.Proofs.Folded
import YamlPatch.Proofs.PlainScalars

/-!
# Headers of block scalars

What stands behind `|` or `>` on its line is the header of a block scalar
(`exists_header_of_mem_lex`). The lexer takes the line without a look at it
(`blockLength_header`) and the parser takes the scalar as one token, so in a document without
faults a header may be replaced by any other (`BlockEntry.parse_header`). Only the reader
searches it, for a minus sign before a comment (`Scalar.value_headed`). So a text that begins
with `>` and stands without quotes, like a range of versions, is lost, and nobody reports it.

Each of the three parts of the program has its section, and in each it is said what the result
with another header is. In the lexer the end of the token is the same, in the parser the node,
and in the reader the value if both headers have the sign or neither has it.
-/

namespace YamlPatch

open TokenKind YamlPatch.Tree LexState

namespace Text

/-- A character that is not dropped is in what is left if it was there. -/
theorem mem_dropWhile {p : Char → Bool} {c : Char} (hc : p c = false) {t : Text} :
    c ∈ t.dropWhile p ↔ c ∈ t := by
  refine ⟨fun h => (List.dropWhile_sublist p).subset h, fun h => ?_⟩
  rw [← List.takeWhile_append_dropWhile (p := p) (l := t)] at h
  rcases List.mem_append.mp h with h | h
  · have := List.mem_takeWhile_imp h
    simp [hc] at this
  · exact h

/-- A character that is not white space is in a text after trimming if it was there. -/
theorem mem_trim {c : Char} (hc : isBlank c = false) {t : Text} : c ∈ trim t ↔ c ∈ t := by
  rw [trim, trimEnd, List.mem_reverse, mem_dropWhile hc, List.mem_reverse, trimStart,
    mem_dropWhile hc]

end Text

/-! ## The reader

Only two questions are asked of a header : which sign it begins with, and whether there is a
minus sign before its comment. -/

/-- A block scalar with the header `h`, and `r` behind the header. -/
def headed (c : Char) (h r : Text) : Tree := .node .scalar [.token ⟨.blockScalar, c :: (h ++ r)⟩]

/-- The text of the scalar. -/
theorem text_headed (c : Char) (h r : Text) : (headed c h r).text = c :: (h ++ r) := by
  simp [headed, text, leaves, leavesOf]

section

variable {c : Char} {h h' r : Text}

namespace BlockScalar

variable (hc : c = '|' ∨ c = '>') (hh : '\n' ∉ h) (hr : StopsAt (· != '\n') r)

include hc hh in
/-- The header is on one line, with its indicator. -/
theorem ne_newline_of_mem_header : ∀ d ∈ c :: h, (d != '\n') = true := by
  have : c ≠ '\n' := by rcases hc with rfl | rfl <;> decide
  simpa [this] using fun d hd => ne_of_mem_of_not_mem hd hh

include hc hh hr

/-- A header ends at a line feed or before a comment. -/
theorem header_cons : header (c :: (h ++ r)) = Text.trim (c :: h.takeWhile (· != '#')) := by
  have hmark : (c :: h).takeWhile (· != '#') = c :: h.takeWhile (· != '#') := by
    rcases hc with rfl | rfl <;> exact List.takeWhile_cons_of_pos (by decide)
  rw [header, ← List.cons_append, List.takeWhile_append_of_pos (ne_newline_of_mem_header hc hh),
    hr.takeWhile_eq, List.append_nil, hmark]

/-- What is below the header begins behind its line break. -/
theorem body_cons : body (c :: (h ++ r)) = r.drop 1 := by
  rw [body, ← List.cons_append, List.dropWhile_append_of_pos (ne_newline_of_mem_header hc hh),
    hr.dropWhile_eq]

/-- Whether the scalar is literal is said by its indicator. -/
theorem isLiteral_cons : isLiteral (c :: (h ++ r)) = (c == '|') := by
  have hblank : isBlank c = false := by rcases hc with rfl | rfl <;> decide
  obtain ⟨u, hu⟩ := Text.exists_trim_cons hblank (h.takeWhile (· != '#'))
  rw [isLiteral, header_cons hc hh hr, hu]
  rfl

/-- Whether its last line break goes away is said by a minus sign before a comment. -/
theorem isStripped_cons : isStripped (c :: (h ++ r)) = (h.takeWhile (· != '#')).contains '-' := by
  have hne : '-' ≠ c := by rcases hc with rfl | rfl <;> decide
  rw [isStripped, header_cons hc hh hr, Bool.eq_iff_iff, List.contains_iff_mem,
    List.contains_iff_mem, Text.mem_trim (by decide), List.mem_cons, or_iff_right hne]

end BlockScalar

open BlockScalar in
/-- Headers are read alike if both have a minus sign before a comment, or neither. -/
theorem Scalar.value_headed (hc : c = '|' ∨ c = '>') (hh : '\n' ∉ h) (hh' : '\n' ∉ h')
    (hr : StopsAt (· != '\n') r)
    (hsign : '-' ∈ h.takeWhile (· != '#') ↔ '-' ∈ h'.takeWhile (· != '#')) :
    value (headed c h r) = value (headed c h' r) := by
  have hkind (h : Text) : firstKind? (headed c h r) = some .blockScalar := rfl
  have hstripped : isStripped (c :: (h ++ r)) = isStripped (c :: (h' ++ r)) := by
    rw [isStripped_cons hc hh hr, isStripped_cons hc hh' hr, Bool.eq_iff_iff, List.contains_iff_mem,
      List.contains_iff_mem, hsign]
  simp only [value, hkind, text_headed, decode, contentLines, hstripped, isLiteral_cons hc hh hr,
    isLiteral_cons hc hh' hr, body_cons hc hh hr, body_cons hc hh' hr]

/-- A range of versions is such a header. -/
example : Scalar.value (headed '>' "=1.29.0 <1.30.0".toList []) = [] := by decide +kernel

/-! ## The lexer

A token of a block scalar is its header line and the lines below that are indented further than
its owner. None of this looks into the header. -/

theorem exists_reads_of_mem_lex {t : Text} {x : Token} (hx : x ∈ lex t) :
    ∃ s u, LexState.Reads s x u := by
  obtain ⟨xs, ys, hlex⟩ := List.append_of_mem hx
  have hcuts : Cuts {} (xs ++ x :: ys) [] := .of_lexFrom hlex
  exact ⟨_, _, (Cuts.cases_cons hcuts.right).1⟩

/-- Any block scalar has a header, which is all that stands on its line. -/
theorem exists_header_of_mem_lex {t : Text} {x : Token} (hx : x ∈ lex t)
    (hk : x.kind = blockScalar) :
    ∃ c h r, x.text = c :: (h ++ r) ∧ (c = '|' ∨ c = '>') ∧ (∀ d ∈ h, isBreakChar d = false) ∧
      StopsAt (fun d => !isBreakChar d) r := by
  obtain ⟨s, v, hread⟩ := exists_reads_of_mem_lex hx
  obtain ⟨c, u, n, hu, hspans, -, -⟩ := hread.exists_spans
  rw [hk] at hspans
  have hc : c = '|' ∨ c = '>' := by
    cases hspans with
    | blockScalar hc owner => exact hc
    | inLine hmay => cases hmay
  obtain ⟨h, r, rfl, hh, hr⟩ := exists_run (fun d => !isBreakChar d) u
  exact ⟨c, h, r, hu, hc, by simpa using hh, hr⟩

/-- The extent of a scalar is counted from where the counting began. -/
theorem blockExtent_add (owner kept start n : Nat) (ls : List Text) :
    blockExtent owner (n + kept) (n + start) ls = n + blockExtent owner kept start ls := by
  induction ls generalizing kept start with
  | nil => rfl
  | cons l ls ih =>
    have ih (k : Nat) := ih k (start + l.length + 1)
    simp only [← Nat.add_assoc] at ih
    simp only [blockExtent]
    split
    · exact ih kept
    · split
      · rfl
      · rw [Nat.add_assoc n start, ih]

/-- The line of a header is taken whatever it holds, and what comes behind does not depend on it. -/
theorem blockLength_header (owner : Nat) (hh : ∀ d ∈ h, isBreakChar d = false) {t : Text}
    (ht : StopsAt (fun d => !isBreakChar d) t) :
    blockLength owner (h ++ t) = h.length + blockLength owner t := by
  have hline {u : Text} (hu : ∀ d ∈ u, isBreakChar d = false) : lineLength (u ++ t) = u.length := by
    have heq : (fun d => d != '\n' && d != '\r') = fun d => !isBreakChar d := by
      funext d
      rw [isBreakChar, Bool.not_or]
      rfl
    rw [lineLength, heq]
    exact runLength_append (by simpa using hu) ht
  have hnone : lineLength t = 0 := hline (u := []) (by simp)
  rw [blockLength, blockLength, hline hh, hnone, List.drop_left, ← List.drop_drop, List.drop_left,
    List.drop_zero, Nat.zero_add, ← blockExtent_add]
  simp

/-- Where a node may start outside of flow collections, an indicator begins a block scalar. -/
theorem LexState.scan_indicator {s : LexState} (hc : c = '|' ∨ c = '>')
    (hnode : s.atNodeStart = true) (hdepth : s.depth = 0) (t : Text) :
    s.scan c t = (blockScalar, blockLength (headerColumn s.line.reverse) t) := by
  rw [scan_eq_scanInLine (.inr (by rcases hc with rfl | rfl <;> decide))]
  rcases hc with rfl | rfl <;> simp [scanInLine, LexState.inFlow, hnode, hdepth]

/-- With another header the token ends in the same place. -/
theorem LexState.Reads.headed {s : LexState} {c' : Char} {t : Text}
    (hs : s.Reads ⟨blockScalar, c :: (h ++ r)⟩ t) (hnode : s.atNodeStart = true)
    (hdepth : s.depth = 0) (hc : c = '|' ∨ c = '>') (hc' : c' = '|' ∨ c' = '>')
    (hh : ∀ d ∈ h, isBreakChar d = false) (hh' : ∀ d ∈ h', isBreakChar d = false)
    (ht : StopsAt (fun d => !isBreakChar d) (r ++ t)) :
    s.Reads ⟨blockScalar, c' :: (h' ++ r)⟩ t := by
  obtain ⟨_, _, heq, -, hdrop⟩ := hs
  obtain ⟨rfl, rfl⟩ := List.cons.inj heq
  rw [scan_indicator hc hnode hdepth, List.append_assoc, blockLength_header _ hh ht,
    ← List.drop_drop, List.drop_left] at hdrop
  refine ⟨c', h' ++ r, rfl, by rw [scan_indicator hc' hnode hdepth], ?_⟩
  rw [scan_indicator hc' hnode hdepth, List.append_assoc, blockLength_header _ hh' ht,
    ← List.drop_drop, List.drop_left, hdrop]

/-! ## The parser

The scalar is one token with one place in the tree. With another header the tokens around it are
the same, so the value of the entry is all that changes. -/

/-- In a document without faults in which the value of an entry of a block mapping is a block
scalar, its header may be replaced by any other line that begins with `|` or `>`. -/
theorem BlockEntry.parse_header {p : BlockEntry} {c' : Char} (hc : c = '|' ∨ c = '>')
    (hc' : c' = '|' ∨ c' = '>')
    (hx : parseStrict (p.document (headed c h r)).text = .ok (p.document (headed c h r)))
    (hblock : (p.mapping (headed c h r)).isFlow = false)
    (hend : Value.AtLineEnd (Crumb.textAfter p.crumbs)) (hh : ∀ d ∈ h, isBreakChar d = false)
    (hh' : ∀ d ∈ h', isBreakChar d = false) (hr : StopsAt (fun d => !isBreakChar d) r) :
    parseStrict (p.document (headed c' h' r)).text = .ok (p.document (headed c' h' r)) := by
  obtain ⟨xs, x₀, heads, ys, hat⟩ := exists_scalarAt hx rfl hblock hend
  obtain ⟨hnode, hdepth, -, hcuts⟩ := hat.lexState rfl
  -- Behind the header the line is over, be it that the scalar has lines or that the next line of
  -- the document follows.
  have hstop : StopsAt (fun d => !isBreakChar d) (r ++ Token.join ys) := by
    intro d u hd
    cases r with
    | cons e r => exact (List.cons.inj hd).1 ▸ hr e r rfl
    | nil =>
      rw [List.nil_append, hat.after] at hd
      rcases hend with hnil | ⟨nl, v, hl, htext⟩
      · rw [hd] at hnil
        cases hnil
      · rw [htext] at hd
        cases hl <;> exact (List.cons.inj hd).1 ▸ rfl
  have hcuts : Cuts _ (⟨blockScalar, c :: (h ++ r)⟩ :: ys) [] := hcuts
  have hold := (Cuts.cases_cons hcuts).1
  rw [List.append_nil] at hold
  have hread := hold.headed hnode hdepth hc hc' hh hh' hstop
  have hbegin {d : Char} (hd : d = '|' ∨ d = '>') : isBlank d = false ∧ isFlowMark d = false := by
    rcases hd with rfl | rfl <;> decide
  have hstart : StopsAt isBlank (headed c h r).text := by
    intro d u hd
    rw [text_headed] at hd
    exact (List.cons.inj hd).1 ▸ (hbegin hc).1
  have hparse :=
    hat.parse_replaced hstart (N := headed c' h' r) rfl (by simp [isTrivia, isProperty, isMarker])
    (Config.fills_blockScalar p.column rfl ys) ⟨c', _, text_headed c' h' r, hbegin hc'⟩ rfl
      (.cons hread (.nil _ _))
  rwa [document, Cursor.text_rebuild]

end

end YamlPatch
