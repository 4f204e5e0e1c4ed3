import YamlPatch.Proofs.Layout
import YamlPatch.Proofs.LineStarts
import YamlPatch.Proofs.Literals
import YamlPatch.Proofs.Places

/-!
# Plain scalars over several lines

A plain scalar may go on in later lines (`PlainLine`). Three parts of the program look at such
lines, each on its own. The lexer reads every line as if nothing stood before it
(`cuts_plainLines`). The parser decides at the end of each line whether the next one continues
the scalar (`Config.reaches_plainScalar`). The reader joins the lines (`foldLines_plainLines`).
That the lines are plain text is all that the three need to agree on.

In each of them the induction is on the lines that continue the scalar, and the step is about
one such line behind any beginning. For the lexer it leads from one state inside a line to
another, for the parser it takes the line into the scalar that is open, and for the reader it
puts the text of the line behind what its line breaks stand for.
-/

namespace YamlPatch

open TokenKind Lexeme YamlPatch.Tree LexState

/-- A line that continues a plain scalar. -/
structure PlainLine where
  /-- The break that ends the line before. -/
  nl : Text
  /-- The breaks that end the empty lines between. -/
  empties : List Text
  /-- The number of spaces before the text. -/
  indent : Nat
  text : Text

namespace PlainLine

/-- The empty lines and the line. -/
def body (l : PlainLine) : Text := l.empties.flatten ++ (List.replicate l.indent ' ' ++ l.text)

/-- The line behind the one before it. -/
def render (l : PlainLine) : Text := l.nl ++ l.body

/-- What the line adds to the value : its text behind a space, or behind as many line feeds as
there are empty lines. -/
def joined (l : PlainLine) : Text :=
  (if l.empties = [] then [' '] else List.replicate l.empties.length '\n') ++ l.text

/-- The line may continue the value of an entry at `column`. -/
structure Continues (column : Nat) (l : PlainLine) : Prop where
  newline : IsNewline l.nl
  empties : ∀ nl ∈ l.empties, IsNewline nl
  indent : column < l.indent
  text : needsQuotes l.text = false

/-- The line breaks before the line. -/
def breaks (l : PlainLine) : List Token := (l.nl :: l.empties).map (Token.mk lineBreak)

/-- The white space before the text. -/
def gap (l : PlainLine) : List Token := l.breaks ++ [⟨.indent, List.replicate l.indent ' '⟩]

/-- The tokens of the line, from its first line break on. -/
def tokens (l : PlainLine) : List Token := l.gap ++ plainTokens l.text

end PlainLine

/-- A line of plain text and those that continue it. -/
def plainLines (w : Text) (ls : List PlainLine) : Text := w ++ ls.flatMap PlainLine.render

/-- What these lines stand for. -/
def joinedLines (w : Text) (ls : List PlainLine) : Text := w ++ ls.flatMap PlainLine.joined

/-- The scalar that the parser makes of these lines. -/
def plainScalar (w : Text) (ls : List PlainLine) : Tree :=
  .node .scalar ((plainTokens w ++ ls.flatMap PlainLine.tokens).map .token)

/-! ## Line breaks

White space between two lines ends with a line feed and the indentation, so it decides the
column of what follows. -/

/-- Line breaks end with a line feed. -/
theorem getLast?_flatten_newlines {nls : List Text} (hne : nls ≠ [])
    (h : ∀ nl ∈ nls, IsNewline nl) : nls.flatten.getLast? = some '\n' := by
  obtain ⟨nls, nl, rfl⟩ := List.eq_nil_or_concat' nls |>.resolve_left hne
  have hlast : nl.getLast? = some '\n' := by
    cases h nl (by simp) <;> rfl
  simp [List.getLast?_append, hlast]

/-- Behind a line feed the columns are counted anew. -/
theorem textColumn_of_getLast? (n : Nat) {t : Text} (h : t.getLast? = some '\n') :
    textColumn n t = 0 := by
  obtain ⟨u, rfl⟩ := List.getLast?_eq_some_iff.mp h
  simp [textColumn]

/-! ## White space around plain text

Plain text neither begins nor ends with white space, and trimming takes away just what was put
around it. -/

/-- Spaces are white space. -/
theorem isBlank_of_mem_replicate (n : Nat) : ∀ c ∈ List.replicate n ' ', isBlank c = true := by
  intro c hc
  rw [List.eq_of_mem_replicate hc]
  decide

namespace PlainText

variable {w : Text}

/-- A plain text is on one line. -/
theorem newline_not_mem (hw : PlainText w) : '\n' ∉ w :=
  fun h => (ne_of_isPlainChar (hw.chars '\n' h)).2.2 rfl

/-- It does not end in a carriage return. -/
theorem dropReturns_eq (hw : PlainText w) : Text.dropReturns w = w :=
  Text.dropReturns_of_getLast? fun h => absurd (hw.last _ h) (by decide)

/-- White space before it is cut off, and what follows stays. -/
theorem trimStart_append (hw : PlainText w) {u : Text} (hu : ∀ c ∈ u, isBlank c = true) (v : Text) :
    Text.trimStart (u ++ (w ++ v)) = w ++ v := by
  obtain ⟨c, x, rfl⟩ := List.exists_cons_of_ne_nil hw.ne_nil
  rw [Text.trimStart, List.dropWhile_append_of_pos hu, List.cons_append,
    List.dropWhile_cons_of_neg (by simp [(hw.head c x rfl).1])]

/-- White space behind it is cut off. -/
theorem trimEnd_append (hw : PlainText w) {v : Text} (hv : ∀ c ∈ v, isBlank c = true) :
    Text.trimEnd (w ++ v) = w := by
  obtain ⟨u, c, rfl⟩ := List.eq_nil_or_concat' w |>.resolve_left hw.ne_nil
  have hc : isBlank c = false := hw.last c (by simp)
  rw [Text.trimEnd, List.reverse_append, List.dropWhile_append_of_pos (by simpa using hv)]
  simp [hc]

/-- Between white space a plain text is what is left of a line. -/
theorem trim_append (hw : PlainText w) {u v : Text} (hu : ∀ c ∈ u, isBlank c = true)
    (hv : ∀ c ∈ v, isBlank c = true) : Text.trim (u ++ (w ++ v)) = w := by
  rw [Text.trim, hw.trimStart_append hu, hw.trimEnd_append hv]

end PlainText

/-- Nothing is left of white space. -/
theorem Text.trim_eq_nil {u : Text} (hu : ∀ c ∈ u, isBlank c = true) : trim u = [] := by
  rw [trim, trimStart, List.dropWhile_eq_nil_iff.mpr hu]
  rfl

/-- What `dropReturns` takes away is white space. -/
theorem exists_returns (l : Text) :
    ∃ v, (∀ c ∈ v, isBlank c = true) ∧ l = Text.dropReturns l ++ v := by
  refine ⟨(l.reverse.takeWhile (· = '\r')).reverse, fun c hc => ?_, ?_⟩
  · have hreturn := List.mem_takeWhile_imp (List.mem_reverse.mp hc)
    obtain rfl : c = '\r' := by simpa using hreturn
    decide
  · rw [Text.dropReturns, ← List.reverse_append, List.takeWhile_append_dropWhile,
      List.reverse_reverse]

/-- The first line of a text, up to a carriage return that belongs to its line break. -/
theorem exists_lines {nl w : Text} (hl : IsNewline nl) (hw : '\n' ∉ w) (hr : Text.dropReturns w = w)
    (t : Text) :
    ∃ v, (∀ c ∈ v, isBlank c = true) ∧ Text.lines (w ++ (nl ++ t)) = (w ++ v) :: Text.lines t := by
  obtain ⟨r, hlines, hdrop, -⟩ := Text.exists_lines_newline hl hw t
  obtain ⟨v, hv, hsplit⟩ := exists_returns r
  exact ⟨v, hv, by rw [hlines, hsplit, hdrop, hr]⟩

/-! ## The value

By induction on the lines. What the reader carries along is the number of empty lines since the
last text. -/

/-- A line before another is counted if it is blank, or else stands behind the break before it.
-/
theorem foldRest_cons (n : Nat) (l : Text) {ls : List Text} (h : ls ≠ []) : foldRest n (l :: ls) =
    if Text.trim l = [] then foldRest (n + 1) ls
        else foldedBreak n ++ Text.trim l ++ foldRest 0 ls := by
  obtain ⟨m, ls, rfl⟩ := List.exists_cons_of_ne_nil h
  rw [foldRest]
  simp

/-- A line that is not the last. -/
theorem foldRest_lines (n : Nat) (l t : Text) : foldRest n (l :: Text.lines t) =
    if Text.trim l = [] then foldRest (n + 1) (Text.lines t)
    else foldedBreak n ++ Text.trim l ++ foldRest 0 (Text.lines t) :=
  foldRest_cons n l (Text.splitOn_ne_nil _ _)

/-- The first line is trimmed at its end, and the others are folded behind it. -/
theorem foldLines_of_lines {t l u : Text} (h : Text.lines t = l :: Text.lines u) :
    foldLines t = Text.trimEnd l ++ foldRest 0 (Text.lines u) := by
  obtain ⟨m, ls, hu⟩ :=
    List.exists_cons_of_ne_nil (show Text.lines u ≠ [] from Text.splitOn_ne_nil _ _)
  rw [foldLines, h, hu]

/-- Empty lines are counted. -/
theorem foldRest_empties {nls : List Text} (h : ∀ nl ∈ nls, IsNewline nl) (n : Nat) (t : Text) :
    foldRest n (Text.lines (nls.flatten ++ t)) = foldRest (n + nls.length) (Text.lines t) := by
  induction nls generalizing n with
  | nil => rfl
  | cons nl nls ih =>
    obtain ⟨r, hr, hlines⟩ :=
      exists_lines (w := []) (h nl (by simp)) (by simp) rfl (nls.flatten ++ t)
    rw [List.nil_append, List.nil_append] at hlines
    rw [List.flatten_cons, List.append_assoc, hlines, foldRest_lines, Text.trim_eq_nil hr,
      if_pos rfl,
      ih fun m hm => h m (by simp [hm]), List.length_cons, Nat.add_assoc, Nat.add_comm 1]

namespace PlainLine

variable {column : Nat} {l : PlainLine} {ls : List PlainLine}

/-- The text of such a line is plain. -/
theorem Continues.plainText (h : l.Continues column) : PlainText l.text :=
  plainText_of_needsQuotes h.text

/-- What the line adds is its break, folded, and its text. -/
theorem joined_eq (l : PlainLine) : l.joined = foldedBreak l.empties.length ++ l.text := by
  simp [joined, foldedBreak]

/-- The line is one line, with the spaces before it. -/
theorem Continues.newline_not_mem (h : l.Continues column) :
    '\n' ∉ List.replicate l.indent ' ' ++ l.text := by
  simp [h.plainText.newline_not_mem]

/-- It does not end in a carriage return. -/
theorem Continues.dropReturns_eq (h : l.Continues column) :
    Text.dropReturns (List.replicate l.indent ' ' ++ l.text) = List.replicate l.indent ' ' ++
      l.text :=
  Text.dropReturns_indented _ fun hr => absurd (h.plainText.last _ hr) (by decide)

/-- A line before another is read behind the break before it. -/
theorem Continues.foldRest_line (h : l.Continues column) {nl : Text} (hl : IsNewline nl)
    (t : Text) :
    foldRest 0 (Text.lines (l.body ++ (nl ++ t))) = l.joined ++ foldRest 0 (Text.lines t) := by
  obtain ⟨v, hv, hlines⟩ := exists_lines hl h.newline_not_mem h.dropReturns_eq t
  have htrim : Text.trim (List.replicate l.indent ' ' ++ l.text ++ v) = l.text := by
    rw [List.append_assoc, h.plainText.trim_append (isBlank_of_mem_replicate _) hv]
  rw [body, List.append_assoc, foldRest_empties h.empties, hlines, foldRest_lines, htrim,
    if_neg h.plainText.ne_nil, Nat.zero_add, joined_eq]

/-- So is the last line. -/
theorem Continues.foldRest_last (h : l.Continues column) :
    foldRest 0 (Text.lines l.body) = l.joined := by
  obtain ⟨v, vs, hlines, hone⟩ := lines_cons (List.replicate l.indent ' ' ++ l.text)
  obtain ⟨rfl, rfl⟩ := hone h.newline_not_mem
  have htrim := h.plainText.trimStart_append (isBlank_of_mem_replicate l.indent) []
  rw [List.append_nil] at htrim
  rw [body, foldRest_empties h.empties, hlines, foldRest, h.dropReturns_eq, htrim, Nat.zero_add,
    joined_eq]

/-- Lines that continue a scalar are joined one by one. -/
theorem foldRest_lines_eq (hl : l.Continues column) (hls : ∀ m ∈ ls, m.Continues column) :
    foldRest 0 (Text.lines (l.body ++ ls.flatMap render)) = l.joined ++ ls.flatMap joined := by
  induction ls generalizing l with
  | nil => simpa using hl.foldRest_last
  | cons m ls ih =>
    have hm := hls m (by simp)
    rw [List.flatMap_cons, render, List.append_assoc, hl.foldRest_line hm.newline,
      ih hm fun k hk => hls k (List.mem_cons_of_mem m hk), List.flatMap_cons]

end PlainLine

/-- The lines of a plain scalar are joined by a space, or by the line feeds of the empty lines
between them. -/
theorem foldLines_plainLines {w : Text} {ls : List PlainLine} {column : Nat} (hw : PlainText w)
    (h : ∀ l ∈ ls, l.Continues column) : foldLines (plainLines w ls) = joinedLines w ls := by
  cases ls with
  | nil =>
    obtain ⟨v, vs, hlines, hone⟩ := lines_cons w
    obtain ⟨rfl, rfl⟩ := hone hw.newline_not_mem
    simp [foldLines, plainLines, joinedLines, hlines]
  | cons l ls =>
    have hl := h l (by simp)
    obtain ⟨v, hv, hlines⟩ := exists_lines hl.newline hw.newline_not_mem hw.dropReturns_eq
      (l.body ++ ls.flatMap PlainLine.render)
    have htext : plainLines w (l :: ls) =
        w ++ (l.nl ++ (l.body ++ ls.flatMap PlainLine.render)) := by
      simp [plainLines, PlainLine.render]
    rw [htext, foldLines_of_lines hlines, hw.trimEnd_append hv,
      PlainLine.foldRest_lines_eq hl fun m hm => h m (List.mem_cons_of_mem l hm)]
    rfl

/-! ## The tokens

Each line is read from its break on, and behind it the next break is what ends its last word. -/

namespace PlainLine

variable {column : Nat} {l : PlainLine} {ls : List PlainLine}

/-- The line breaks make up the end of the line before and the empty lines. -/
theorem join_breaks (l : PlainLine) : Token.join l.breaks = (l.nl :: l.empties).flatten := by
  rw [breaks, Token.join, List.flatMap_map, List.flatMap_id']

/-- The tokens make up the line. -/
theorem join_tokens (l : PlainLine) : Token.join l.tokens = l.render := by
  simp [tokens, gap, join_breaks, join_plainTokens, render, body]

/-- So it is with several lines. -/
theorem join_flatMap_tokens (ls : List PlainLine) :
    Token.join (ls.flatMap tokens) = ls.flatMap render := by
  induction ls with
  | nil => rfl
  | cons l ls ih => rw [List.flatMap_cons, Token.join_append, join_tokens, ih, List.flatMap_cons]

/-- Each of the line breaks is one. -/
theorem Continues.isNewline (h : l.Continues column) : ∀ nl ∈ l.nl :: l.empties, IsNewline nl :=
  List.forall_mem_cons.mpr ⟨h.newline, h.empties⟩

/-- They end with a line feed. -/
theorem Continues.getLast?_breaks (h : l.Continues column) :
    (Token.join l.breaks).getLast? = some '\n' := by
  rw [join_breaks]
  exact getLast?_flatten_newlines (List.cons_ne_nil _ _) h.isNewline

/-- The white space is what the parser passes over between the lines of a scalar. -/
theorem isGap_of_mem_gap {x : Token} (h : x ∈ l.gap) : isGap x.kind = true := by
  rcases List.mem_append.mp h with h | h
  · obtain ⟨nl, -, rfl⟩ := List.mem_map.mp h
    rfl
  · obtain rfl := List.mem_singleton.mp h
    rfl

/-- Line breaks are read one by one, in every state. -/
theorem cuts_newlines {nls : List Text} (h : ∀ nl ∈ nls, IsNewline nl) (s : LexState) (t : Text) :
    Cuts s (nls.map (Token.mk lineBreak)) t := by
  induction nls generalizing s with
  | nil => exact .nil s t
  | cons nl nls ih =>
    exact .cons ((h nl (by simp)).reads s _) (ih (fun m hm => h m (by simp [hm])) _)

/-- The white space before a line is read as it is written, and behind it the line has begun. -/
theorem Continues.cuts_gap (h : l.Continues column) (s : LexState) {t : Text}
    (ht : StopsAt isSpaceOrTab t) : Cuts s l.gap t ∧ (s.afterAll l.gap).atLineStart = false := by
  obtain ⟨n, hn⟩ : ∃ n, l.indent = n + 1 := ⟨l.indent - 1, by have := h.indent; omega⟩
  have hline : (s.afterAll l.breaks).atLineStart = true := by
    simp [atLineStart, LexState.line_afterAll, LexState.lineAfter_of_getLast? _ h.getLast?_breaks]
  rw [gap, afterAll_append, hn]
  exact ⟨.append (cuts_newlines h.isNewline s _)
    (.cons (reads_indent hline n (by simpa using ht)) (.nil _ _)),
    LexState.atLineStart_after _ (by simp) (by simp)⟩

/-- White space opens and closes no collection. -/
theorem isQuiet_of_mem_gap {x : Token} (h : x ∈ l.gap) : x.kind.isQuiet = true := by
  have hgap := isGap_of_mem_gap h
  revert hgap
  cases x.kind <;> simp [isGap, TokenKind.isQuiet]

/-- The text of a line does not begin with a space. -/
theorem Continues.stopsAt (h : l.Continues column) (t : Text) :
    StopsAt isSpaceOrTab (l.text ++ t) := by
  obtain ⟨c, u, hc⟩ := List.exists_cons_of_ne_nil h.plainText.ne_nil
  intro d v hd
  rw [hc] at hd
  obtain ⟨rfl, -⟩ := List.cons.inj hd
  exact not_isSpaceOrTab (h.plainText.head c u hc).1

/-- A word ends before a line. -/
theorem wordLength_render (h : ∀ l ∈ ls, l.Continues column) {t : Text}
    (ht : wordLength false t = 0) : wordLength false (ls.flatMap render ++ t) = 0 := by
  cases ls with
  | nil => exact ht
  | cons l ls =>
    have htext : (l :: ls).flatMap render ++ t = l.nl ++ (l.body ++ ls.flatMap render ++ t) := by
      simp [render]
    exact Value.AtLineEnd.wordLength (.inr ⟨l.nl, _, (h l (by simp)).newline, htext⟩) false

end PlainLine

/-- Neither do the words of a text. -/
theorem isQuiet_of_mem_plainTokens {w : Text} {x : Token} (h : x ∈ plainTokens w) :
    x.kind.isQuiet = true := by
  rcases kind_of_mem_plainTokens h with h | h
  · exact isQuiet_of_isPlain _ h
  · rw [h]
    rfl

/-- The tokens of the lines open and close no collection. -/
theorem isQuiet_of_mem_plainLines {w : Text} {ls : List PlainLine} {x : Token}
    (h : x ∈ plainTokens w ++ ls.flatMap PlainLine.tokens) : x.kind.isQuiet = true := by
  rcases List.mem_append.mp h with h | h
  · exact isQuiet_of_mem_plainTokens h
  · obtain ⟨l, -, h⟩ := List.mem_flatMap.mp h
    rcases List.mem_append.mp h with h | h
    · exact PlainLine.isQuiet_of_mem_gap h
    · exact isQuiet_of_mem_plainTokens h

/-- Outside of flow collections, and not at the start of a line, the lines are read one by one. -/
theorem cuts_plainLines {s : LexState} {w t : Text} {ls : List PlainLine} {column : Nat}
    (hw : PlainText w) (h : ∀ l ∈ ls, l.Continues column) (hs : s.depth = 0)
    (hline : s.atLineStart = false) (ht : wordLength false t = 0) :
    Cuts s (plainTokens w ++ ls.flatMap PlainLine.tokens) t := by
  have hflow : s.inFlow = false := by simp [inFlow, hs]
  induction ls generalizing s w with
  | nil =>
    rw [List.flatMap_nil, List.append_nil]
    exact cuts_plainTokens hw (hflow ▸ ht) (by simp [hline])
  | cons l ls ih =>
    have hl := h l (by simp)
    have hword := PlainLine.wordLength_render h ht
    have hgap :=
      hl.cuts_gap (s.afterAll (plainTokens w)) (hl.stopsAt (ls.flatMap PlainLine.render ++ t))
    have hdepth : ((s.afterAll (plainTokens w)).afterAll l.gap).depth = 0 := by
      rw [← afterAll_append, LexState.depth_afterAll, hs]
      refine depthAfterAll_of_isQuiet (fun x hx => ?_) 0
      exact (List.mem_append.mp hx).elim isQuiet_of_mem_plainTokens PlainLine.isQuiet_of_mem_gap
    have hrest :=
      ih hl.plainText (fun m hm => h m (List.mem_cons_of_mem l hm)) hdepth hgap.2
        (by simp [inFlow, hdepth])
    rw [List.flatMap_cons, PlainLine.tokens, List.append_assoc]
    refine .append (cuts_plainTokens hw ?_ (by simp [hline])) (.append ?_ hrest)
    · rw [hflow]
      simpa [PlainLine.join_flatMap_tokens, PlainLine.render, PlainLine.body, PlainLine.gap,
        PlainLine.join_breaks, join_plainTokens] using hword
    · simpa [PlainLine.join_flatMap_tokens, join_plainTokens] using hgap.1

/-! ## The parse

The parser has one step for each line that goes on with the scalar, and the last step closes it. -/

namespace PlainLine

variable {column : Nat} {l : PlainLine} {ls : List PlainLine}

/-- Behind the lines comes the end of a line, and before each of them. -/
theorem endsLine_append (ls : List PlainLine) {ys : List Token} (h : EndsLine ys) :
    EndsLine (ls.flatMap tokens ++ ys) := by
  cases ls with
  | nil => exact h
  | cons l ls => exact .inl rfl

/-- Behind the white space the column is the indentation of the line. -/
theorem Continues.column_gap (h : l.Continues column) (p : Position) :
    (p.advance (Token.join l.gap)).column = l.indent := by
  have hspaces : '\n' ∉ List.replicate l.indent ' ' := by simp
  rw [Position.column_advance, gap, Token.join_append, textColumn_append,
    textColumn_of_getLast? _ h.getLast?_breaks, Token.join_cons, Token.join_nil, List.append_nil,
    textColumn_of_not_mem hspaces, List.length_replicate, Nat.zero_add]

/-- The parser takes the line for one that continues a scalar. -/
theorem Continues.continuation_eq (h : l.Continues column) (p : Position) {ys : List Token}
    (hys : Config.NoColon ys) :
    continuation (column + 1) (locate p (l.tokens ++ ys)) = some l.gap.length := by
  obtain ⟨x, xs, hx, hk⟩ := h.plainText.exists_cons
  have hnot : isGap x.kind = false := by
    revert hk
    cases x.kind <;> simp [isPlain, isGap]
  have hgap : kindRun isGap (locate p (l.tokens ++ ys)) = l.gap.length := by
    rw [tokens, List.append_assoc]
    refine kindRun_locate p (fun y hy => isGap_of_mem_gap hy) fun y zs hy => ?_
    rw [hx, List.cons_append] at hy
    exact (List.cons.inj hy).1 ▸ hnot
  have hrest : (locate p (l.tokens ++ ys)).dropWhile (fun l => isGap l.kind) =
      locate (p.advance (Token.join l.gap)) (plainTokens l.text ++ ys) := by
    rw [← drop_kindRun, hgap, tokens, List.append_assoc, Config.drop_locate_append]
  have hkey : startsKey (locate (p.advance (Token.join l.gap)) (plainTokens l.text ++ ys)) =
      false := by
    rw [Config.startsKey_plainTokens h.plainText, hys]
  -- The three questions of the parser : the gap has a line break, the column is far enough to the
  -- right, and the words behind it are no key.
  have hbreak : ((locate p (l.tokens ++ ys)).takeWhile fun l => isGap l.kind).any
      (·.kind == lineBreak) = true := by
    simp [tokens, gap, breaks, locate, Lexeme.kind, isGap]
  have hcolumn : column + 1 ≤ (p.advance (Token.join l.gap)).column := by
    rw [h.column_gap]
    exact h.indent
  rw [hx, List.cons_append, locate] at hkey hrest
  rw [continuation, hrest, hgap]
  refine if_pos ?_
  rw [hbreak, hkey]
  simpa using ⟨hk, hcolumn⟩

end PlainLine

namespace Config

/-- A step takes a line into the scalar. -/
theorem stepPlain_line {l : PlainLine} {column : Nat} (h : l.Continues column) {ys : List Token}
    (hys : EndsLine ys) (c : Config) (d : List Tree) (fs : List Frame) (p : Position) :
    (c.facing (⟨.plain (column + 1), d⟩ :: fs) p (l.tokens ++ ys)).stepPlain (column + 1) =
      c.facing (⟨.plain (column + 1), d ++ l.tokens.map .token⟩ :: fs)
        (p.advance (Token.join l.tokens)) ys := by
  have hgap := c.take_facing (.plain (column + 1)) d fs p l.gap (plainTokens l.text ++ ys) rfl
  have hlength :=
    plainLength_locate (p.advance (Token.join l.gap)) (wordy_plainTokens h.plainText.last)
    fun q => hys.plainLength_eq q
  rw [stepPlain, rest_facing, h.continuation_eq p hys.noColon]
  dsimp only
  rw [PlainLine.tokens, List.append_assoc, hgap, rest_facing, take_facing _ _ _ _ _ _ _ hlength]
  simp [Position.advance_append]

/-- The parser takes the lines into the scalar, and then closes it. -/
theorem reaches_continued {ls : List PlainLine} {column : Nat} (h : ∀ l ∈ ls, l.Continues column)
    {ys : List Token} (hys : EndsLine ys) (hout : ∀ q, Outside (column + 1) (locate q ys))
    (c : Config) (u : Task) (d e : List Tree) (fs : List Frame) (p : Position) :
    Reaches
      (c.facing (⟨.plain (column + 1), d⟩ :: ⟨u, e⟩ :: fs) p (ls.flatMap PlainLine.tokens ++ ys)) c
      (⟨u, e ++ [.node .scalar (d ++ (ls.flatMap PlainLine.tokens).map .token)]⟩ :: fs) ys := by
  induction ls generalizing d p with
  | nil =>
    refine ⟨p, .of_step ?_⟩
    rw [step_facing, stepTask, stepPlain, rest_facing, List.flatMap_nil, List.nil_append,
      (hout p).continuation_eq, close_facing]
    simp [Task.nodeKind]
  | cons l ls ih =>
    have hends := PlainLine.endsLine_append ls hys
    have hrest := ih (fun m hm => h m (List.mem_cons_of_mem l hm)) (d ++ l.tokens.map .token)
      (p.advance (Token.join l.tokens))
    rw [List.flatMap_cons, List.append_assoc]
    refine .head (step_facing _ _ _ _ _ _) ?_
    rw [stepTask, stepPlain_line (h l (by simp)) hends]
    simpa using hrest

/-- A place is filled with a plain scalar of several lines. -/
theorem reaches_plainScalar {w : Text} {ls : List PlainLine} {column : Nat} (hw : PlainText w)
    (h : ∀ l ∈ ls, l.Continues column) {ys : List Token} (hys : EndsLine ys)
    (hout : ∀ q, Outside (column + 1) (locate q ys)) (c : Config) (u : Task) (d : List Tree)
    (fs : List Frame) (p : Position) {s : Slot} (hs : s.minColumn = column + 1) :
    Reaches ((c.facing (⟨u, d⟩ :: fs) p ((plainScalar w ls).leaves ++ ys)).fillContent s) c
      (⟨u, d ++ [plainScalar w ls]⟩ :: fs) ys := by
  have hends := PlainLine.endsLine_append ls hys
  have hkey : startsKey (locate p (plainTokens w ++ (ls.flatMap PlainLine.tokens ++ ys))) =
      false := by
    rw [startsKey_plainTokens hw, hends.noColon]
  have hlength := plainLength_locate p (wordy_plainTokens hw.last) fun q => hends.plainLength_eq q
  have htake := c.take_facing (.plain (column + 1)) [] (⟨u, d⟩ :: fs) p (plainTokens w)
    (ls.flatMap PlainLine.tokens ++ ys) hlength
  obtain ⟨x, xs, hx, hk⟩ := hw.exists_cons
  rw [plainScalar, leaves, leavesOf_map_token, List.append_assoc]
  rw [hx, List.cons_append] at hkey htake ⊢
  rw [fillContent_eq_takeInline _ _ _ _ (by simp [isStart, hk]) hkey, takeInline_of_isPlain hk,
    rest_facing, push_facing, hs, htake, ← hx]
  simpa using reaches_continued h hys hout c u ((plainTokens w).map .token) d fs
    (p.advance (Token.join (plainTokens w)))

end Config

/-! ## The node

The node holds the words of all lines with the white space between them, so its text is that of
the lines. -/

/-- The text of the scalar is that of its lines. -/
theorem text_plainScalar (w : Text) (ls : List PlainLine) :
    (plainScalar w ls).text = plainLines w ls := by
  rw [plainScalar, text_node, textOf, leavesOf_map_token, Token.join_append, join_plainTokens,
    PlainLine.join_flatMap_tokens, plainLines]

/-- Its value is that of its lines, joined. -/
theorem value_plainScalar {w : Text} {ls : List PlainLine} {column : Nat} (hw : PlainText w)
    (h : ∀ l ∈ ls, l.Continues column) : Scalar.value (plainScalar w ls) = joinedLines w ls := by
  obtain ⟨x, xs, hx, hk⟩ := hw.exists_cons
  have hfirst : Scalar.firstKind? (plainScalar w ls) = some x.kind := by
    have htrivia : x.kind.isTrivia = false := by
      revert hk
      cases x.kind <;> simp [isPlain, isTrivia]
    rw [Scalar.firstKind?, plainScalar, leaves, leavesOf_map_token, hx, List.cons_append,
      List.find?_cons_of_pos (by simp [htrivia])]
    rfl
  have hvalue : Scalar.value (plainScalar w ls) = foldLines (plainScalar w ls).text := by
    rw [Scalar.value, hfirst]
    revert hk
    cases x.kind <;> simp [isPlain]
  rw [hvalue, text_plainScalar, foldLines_plainLines hw h]

end YamlPatch
