import YamlPatch.Proofs.Contents
import YamlPatch.Proofs.Lookbehind
import YamlPatch.Proofs.Surroundings

/-!
# Where lines begin

Only line breaks, quoted scalars and block scalars hold a line feed or a carriage return, and
`LexState.Spans` says where. No token but a line break ends with one, so behind any other the
line has begun (`LexState.Reads.atLineStart_after`).

Indentation and the markers of documents are read at the start of a line only : a marker comes
first or follows a line break. Behind a node inside a flow collection there are only spaces,
comments and what belongs to the collection, up to the next line break.

A quoted scalar ends with its quote, and a block scalar with the last character of a line that
is not blank, or of its header : the line break behind it is left for the lexer. Only a quoted
scalar that is never closed may end with a line break, and then there is nothing behind it that
could stand at the start of a line.
-/

namespace YamlPatch

open TokenKind

/-! ## The characters of line breaks

These are the line feed and the carriage return. They are white space, so no word holds one, and
no run of spaces, as spaces and tabs are all it is made of. -/

/-- The two characters that line breaks are made of. -/
def isBreakChar (c : Char) : Bool := c == '\n' || c == '\r'

/-- The kinds of tokens that may hold line breaks. -/
def TokenKind.mayBreak : TokenKind → Bool
  | lineBreak | singleQuoted | doubleQuoted | unterminated | blockScalar => true
  | _ => false

/-- No word of a plain scalar holds a line break. -/
theorem mayBreak_of_isPlain {k : TokenKind} (h : k.isPlain = true) : k.mayBreak = false := by
  cases k <;> first | rfl | cases h

/-- Spaces and tabs are no line breaks. -/
theorem isBreakChar_of_isSpaceOrTab {c : Char} (h : isSpaceOrTab c = true) :
    isBreakChar c = false := by
  have hc : c = ' ' ∨ c = '\t' := by simpa [isSpaceOrTab] using h
  rcases hc with rfl | rfl <;> decide

/-- What is no white space is no line break either. -/
theorem isBreakChar_of_isBlank {c : Char} (h : isBlank c = false) : isBreakChar c = false := by
  cases hc : isBreakChar c with
  | false => rfl
  | true =>
    have hc : c = '\n' ∨ c = '\r' := by simpa [isBreakChar] using hc
    rcases hc with rfl | rfl <;> exact absurd h (by decide)

/-- A run of characters holds no line break, if its kind excludes them. -/
theorem isBreakChar_of_mem_runLength {p : Char → Bool}
    (hp : ∀ c, p c = true → isBreakChar c = false) {t : Text} {c : Char}
    (h : c ∈ t.take (runLength p t)) : isBreakChar c = false := by
  rw [runLength, ← List.prefix_iff_eq_take.mp (List.takeWhile_prefix p)] at h
  exact hp c (List.mem_takeWhile_imp h)

/-- The rest of a line ends before its line break. -/
theorem isBreakChar_of_mem_line {t : Text} {c : Char} (h : c ∈ t.take (lineLength t)) :
    isBreakChar c = false :=
  isBreakChar_of_mem_runLength (fun c hc => by simpa [isBreakChar] using hc) h

/-- A word ends at white space. -/
theorem isBreakChar_of_mem_word {f : Bool} {t : Text} {c : Char} (h : c ∈ t.take (wordLength f t)) :
    isBreakChar c = false := by
  fun_induction wordLength f t with
  | case1 => simp at h
  | case2 => simp at h
  | case3 d t hd ih =>
    rcases List.mem_cons.mp h with rfl | h
    · simp only [Bool.or_eq_true, not_or, Bool.not_eq_true] at hd
      exact isBreakChar_of_isBlank hd.1.1
    · exact ih h

/-- The last character of the text belongs to no line break. -/
def EndsInLine (t : Text) : Prop := ∀ c, t.getLast? = some c → isBreakChar c = false

/-- A text without line breaks does not end with one. -/
theorem EndsInLine.of_forall {t : Text} (h : ∀ c ∈ t, isBreakChar c = false) : EndsInLine t :=
  fun c hc => h c (List.mem_of_getLast? hc)

/-- Nor does it if such a character is put in front. -/
theorem EndsInLine.cons {c : Char} {t : Text} (hc : isBreakChar c = false) (h : EndsInLine t) :
    EndsInLine (c :: t) := by
  intro d hd
  cases t with
  | nil =>
    obtain rfl : c = d := by simpa using hd
    exact hc
  | cons e t => exact h d (by rwa [List.getLast?_cons_cons] at hd)

/-- The end of a text does not depend on its first character. -/
theorem EndsInLine.of_cons {c : Char} {t : Text} (h : EndsInLine (c :: t)) : EndsInLine t :=
  fun d hd => h d (by simp [List.getLast?_cons, hd])

/-! ## Last characters

A quoted scalar that is closed ends with its quote. -/

/-- What a text ends with does not change when a character is put in front. -/
theorem getLast?_take_cons {c d : Char} {t : Text} {n : Nat} (h : (t.take n).getLast? = some d) :
    (c :: t.take n).getLast? = some d := by
  cases ht : t.take n with
  | nil => simp [ht] at h
  | cons e u => rw [List.getLast?_cons_cons, ← ht, h]

/-- What is found between single quotes ends with the quote. -/
theorem getLast?_singleQuoted {t : Text} {n : Nat} (h : singleQuotedLength t = some n) :
    (t.take n).getLast? = some '\'' := by
  fun_induction singleQuotedLength t generalizing n with
  | case1 => cases h
  | case2 t ih =>
    obtain ⟨m, hm, rfl⟩ := Option.map_eq_some_iff.mp h
    exact getLast?_take_cons (t := '\'' :: t) (n := m + 1) (getLast?_take_cons (ih hm))
  | case3 =>
    cases h
    rfl
  | case4 c t hc hc' ih =>
    obtain ⟨m, hm, rfl⟩ := Option.map_eq_some_iff.mp h
    exact getLast?_take_cons (ih hm)

/-- What is found between double quotes ends with the quote. -/
theorem getLast?_doubleQuoted {t : Text} {n : Nat} (h : doubleQuotedLength t = some n) :
    (t.take n).getLast? = some '"' := by
  fun_induction doubleQuotedLength t generalizing n with
  | case1 => cases h
  | case2 => cases h
  | case3 c t ih =>
    obtain ⟨m, hm, rfl⟩ := Option.map_eq_some_iff.mp h
    exact getLast?_take_cons (t := c :: t) (n := m + 1) (getLast?_take_cons (ih hm))
  | case4 =>
    cases h
    rfl
  | case5 c t _ _ _ ih =>
    obtain ⟨m, hm, rfl⟩ := Option.map_eq_some_iff.mp h
    exact getLast?_take_cons (ih hm)

/-! ## Block scalars

The lexer keeps the lines of a block scalar without the break of the last one, so that break
becomes a token by itself. -/

/-- The first line of a text, and the lines behind it. -/
theorem lines_eq_cons {u l : Text} {ls : List Text} (h : Text.lines u = l :: ls) :
    u.take l.length = l ∧ '\n' ∉ l ∧ (ls = [] ∨ Text.lines (u.drop (l.length + 1)) = ls) := by
  by_cases hu : '\n' ∈ u
  · obtain ⟨v, w, rfl, hv⟩ := exists_append_newline hu
    rw [lines_break v w hv] at h
    obtain ⟨rfl, rfl⟩ := List.cons.inj h
    exact ⟨by simp, hv, .inr (by simp)⟩
  · obtain ⟨l', ls', hlines, hone⟩ := lines_cons u
    obtain ⟨rfl, rfl⟩ := List.cons.inj (h.symm.trans hlines)
    obtain ⟨rfl, rfl⟩ := hone hu
    exact ⟨by simp, hu, .inl rfl⟩

/-- A line without the carriage returns at its end does not end with a line break. -/
theorem endsInLine_dropReturns {l : Text} (h : '\n' ∉ l) : EndsInLine (Text.dropReturns l) := by
  intro c hc
  have hsub : (l.reverse.dropWhile (· = '\r')).head? = some c := by
    simpa [Text.dropReturns] using hc
  have hmem : c ∈ l := by
    have := (List.dropWhile_suffix _).subset (List.mem_of_head? hsub)
    simpa using this
  have hreturn : c ≠ '\r' := by simpa [hsub] using List.head?_dropWhile_not (· = '\r') l.reverse
  have hfeed : c ≠ '\n' := fun hn => h (hn ▸ hmem)
  simp [isBreakChar, hreturn, hfeed]

/-- A block scalar ends with its header, or with a line that is not blank. -/
theorem blockExtent_eq_or {t : Text} {owner kept start : Nat} {ls : List Text}
    (hls : ls = [] ∨ Text.lines (t.drop start) = ls) : blockExtent owner kept start ls = kept ∨
      ∃ l, '\n' ∉ l ∧ Text.allBlank (Text.dropReturns l) = false ∧
        Text.dropReturns l <:+ t.take (blockExtent owner kept start ls) := by
  -- By induction on the lines that are left. A blank line is kept only if a line with text
  -- follows, so the extent ends with the last such line, or where it began.
  induction ls generalizing kept start with
  | nil => exact .inl rfl
  | cons l ls ih =>
    obtain ⟨hl, hnewline, hnext⟩ := lines_eq_cons (hls.resolve_left (by simp))
    have hnext : ls = [] ∨ Text.lines (t.drop (start + l.length + 1)) = ls := by
      simpa [List.drop_drop, Nat.add_assoc] using hnext
    dsimp only [blockExtent]
    split
    · exact ih hnext
    · rename_i hblank
      split
      · exact .inl rfl
      · refine .inr ?_
        rcases @ih (start + (Text.dropReturns l).length) _ hnext with heq | hline
        · have htake : (t.drop start).take (Text.dropReturns l).length = Text.dropReturns l := by
            calc (t.drop start).take (Text.dropReturns l).length
                = ((t.drop start).take l.length).take (Text.dropReturns l).length := by
                  rw [List.take_take, Nat.min_eq_left (length_dropReturns_le l)]
              _ = l.take (Text.dropReturns l).length := by rw [hl]
              _ = Text.dropReturns l := (List.prefix_iff_eq_take.mp (isPrefix_dropReturns l)).symm
          refine ⟨l, hnewline, by simpa using hblank, t.take start, ?_⟩
          rw [heq, List.take_add, htake]
        · exact hline

/-- A block scalar ends with a character of a line, its header or one that is not blank. -/
theorem endsInLine_take_blockLength (owner : Nat) (t : Text) :
    EndsInLine (t.take (blockLength owner t)) := by
  rcases @blockExtent_eq_or t owner (lineLength t) _ _ (.inr rfl) with heq | ⟨l, hnewline,
    hblank, u, hu⟩
  · rw [blockLength, heq]
    exact .of_forall fun _ => isBreakChar_of_mem_line
  · have hne : Text.dropReturns l ≠ [] := by
      intro hnil
      rw [hnil] at hblank
      cases hblank
    intro c hc
    rw [blockLength, ← hu, List.getLast?_append, Option.or_of_isSome (by simpa using hne)] at hc
    exact endsInLine_dropReturns hnewline c hc

namespace LexState

/-- The line so far is counted from one piece of text to the next. -/
theorem lineAfter_append (l t u : Text) : lineAfter l (t ++ u) = lineAfter (lineAfter l t) u := by
  induction t generalizing l with
  | nil => rfl
  | cons c t ih =>
    rw [List.cons_append, lineAfter, lineAfter]
    split
    · exact ih []
    · exact ih (c :: l)

/-- Without a line feed the line goes on. -/
theorem lineAfter_of_not_mem (l : Text) {t : Text} (h : '\n' ∉ t) :
    lineAfter l t = t.reverse ++ l := by
  induction t generalizing l with
  | nil => rfl
  | cons c t ih =>
    simp only [List.mem_cons, not_or] at h
    simp [lineAfter, Ne.symm h.1, ih _ h.2]

/-- Behind a line feed a new line begins, with nothing in it. -/
theorem lineAfter_of_getLast? (l : Text) {t : Text} (h : t.getLast? = some '\n') :
    lineAfter l t = [] := by
  obtain ⟨u, rfl⟩ := List.getLast?_eq_some_iff.mp h
  simp [lineAfter_append, lineAfter]

/-- What the line holds before a token is the end of the text before it. -/
theorem line_afterAll (s : LexState) (xs : List Token) :
    (s.afterAll xs).line = lineAfter s.line (Token.join xs) := by
  induction xs generalizing s with
  | nil => rfl
  | cons x xs ih =>
    rw [afterAll_cons, ih, Token.join_cons, lineAfter_append]
    rfl

/-- Behind any other character the line is not empty. -/
theorem lineAfter_ne_nil_of_getLast? {t : Text} (l : Text) (hne : t ≠ [])
    (hlast : t.getLast? ≠ some '\n') : lineAfter l t ≠ [] := by
  induction t generalizing l with
  | nil => exact absurd rfl hne
  | cons c t ih =>
    cases t with
    | nil =>
      have hc : c ≠ '\n' := by simpa using hlast
      simp [lineAfter, hc]
    | cons d t =>
      have hlast' : (d :: t).getLast? ≠ some '\n' := by simpa using hlast
      rw [lineAfter]
      split
      · exact ih _ (by simp) hlast'
      · exact ih _ (by simp) hlast'

/-- The line so far has as many characters as the column says. -/
theorem length_lineAfter {l : Text} {p : Position} (h : l.length = p.column) (t : Text) :
    (lineAfter l t).length = (p.advance t).column := by
  induction t generalizing l p with
  | nil => exact h
  | cons c t ih =>
    have hp : p.advance (c :: t) = (p.step c).advance t := rfl
    rw [lineAfter, hp]
    split
    · rename_i hc
      exact ih (by simp [Position.step, hc])
    · rename_i hc
      exact ih (by simp [Position.step, hc, h])

/-- The line so far is as long as the column says. -/
theorem length_line_afterAll {s : LexState} {p : Position} (h : s.line.length = p.column)
    (xs : List Token) : (s.afterAll xs).line.length = (p.advance (Token.join xs)).column := by
  rw [line_afterAll]
  exact length_lineAfter h _

/-! ## The line breaks in a token

A line feed or a carriage return is found at the start of a token, which is a line break then, or
inside of a scalar in quotes or on lines of its own. -/

/-- What is scanned is a line break, or a scalar that may hold some, or it stays on its line. -/
inductive Spans (c : Char) (t : Text) : TokenKind × Nat → Prop where
  | lineFeed (hc : c = '\n') : Spans c t (lineBreak, 0)
  | carriageReturn (hc : c = '\r') : Spans c t (lineBreak, if t.head? = some '\n' then 1 else 0)
  | singleQuoted (hc : c = '\'') {n : Nat} (hn : singleQuotedLength t = some n) :
      Spans c t (.singleQuoted, n)
  | doubleQuoted (hc : c = '"') {n : Nat} (hn : doubleQuotedLength t = some n) :
      Spans c t (.doubleQuoted, n)
  | unterminated
      (h : c = '\'' ∧ singleQuotedLength t = none ∨ c = '"' ∧ doubleQuotedLength t = none) :
      Spans c t (.unterminated, t.length)
  | blockScalar (hc : c = '|' ∨ c = '>') (owner : Nat) :
      Spans c t (.blockScalar, blockLength owner t)
  | inLine {k : TokenKind} {n : Nat} (hk : k.mayBreak = false) (hc : isBreakChar c = false)
      (ht : ∀ d ∈ t.take n, isBreakChar d = false) : Spans c t (k, n)

/-- A run of a kind that excludes line breaks stays on its line. -/
theorem spans_run {k : TokenKind} {p : Char → Bool} {c : Char} {t : Text} (hk : k.mayBreak = false)
    (hc : isBreakChar c = false) (hp : ∀ d, p d = true → isBreakChar d = false) :
    Spans c t (k, runLength p t) :=
  .inLine hk hc fun _ => isBreakChar_of_mem_runLength hp

/-- A word stays on its line. -/
theorem spans_plain (s : LexState) {c : Char} (hc : isBreakChar c = false) (t : Text) :
    Spans c t (s.scanPlain c t) :=
  .inLine (mayBreak_of_isPlain (s.isPlain_scanPlain c t)) hc fun _ => isBreakChar_of_mem_word

/-- A quoted scalar ends with its quote, or it is never closed and takes all the text. -/
theorem spans_quoted {k : TokenKind} {c : Char} {t : Text} {l : Option Nat}
    (hsome : ∀ n, l = some n → Spans c t (k, n))
    (hnone : l = none → Spans c t (.unterminated, t.length)) : Spans c t (quotedToken k l t) := by
  cases l with
  | none => exact hnone rfl
  | some n => exact hsome n rfl

/-- So it is with all tokens that may stand inside a line. -/
theorem spans_inLine (s : LexState) (c : Char) (t : Text) : Spans c t (s.scanInLine c t) := by
  have hspace (hc : isBreakChar c = false) : Spans c t (space, runLength isSpaceOrTab t) :=
    spans_run rfl hc fun _ => isBreakChar_of_isSpaceOrTab
  have hproperty {k : TokenKind} (hk : k.mayBreak = false) (hc : isBreakChar c = false) :
      Spans c t (k, propertyLength t) := by
    refine spans_run hk hc fun d hd => ?_
    simp only [Bool.and_eq_true, Bool.not_eq_true'] at hd
    exact isBreakChar_of_isBlank hd.1
  have hmark {k : TokenKind} (hk : k.mayBreak = false) (hc : isBreakChar c = false) :
      Spans c t (k, 0) :=
    .inLine hk hc (by simp)
  -- One case for each first character. All others fall under `h_21`, and no line break is among
  -- them.
  dsimp only [scanInLine]
  split
  case h_1 => exact .lineFeed rfl
  case h_2 => exact .carriageReturn rfl
  case h_3 => exact hspace (by decide)
  case h_4 => exact hspace (by decide)
  case h_5 => exact .inLine rfl (by decide) fun _ => isBreakChar_of_mem_line
  case h_14 =>
    split
    · exact spans_quoted (fun n hn => .singleQuoted rfl hn) fun h => .unterminated (.inl ⟨rfl, h⟩)
    · exact s.spans_plain (by decide) t
  case h_15 =>
    split
    · exact spans_quoted (fun n hn => .doubleQuoted rfl hn) fun h => .unterminated (.inr ⟨rfl, h⟩)
    · exact s.spans_plain (by decide) t
  case h_16 =>
    split
    · exact .blockScalar (.inl rfl) _
    · exact s.spans_plain (by decide) t
  case h_17 =>
    split
    · exact .blockScalar (.inr rfl) _
    · exact s.spans_plain (by decide) t
  case h_21 hfeed hreturn _ _ _ _ _ _ _ _ _ _ _ _ _ _ _ _ _ _ =>
    have hc : isBreakChar c = false := by simpa [isBreakChar] using ⟨hfeed, hreturn⟩
    exact s.spans_plain hc t
  all_goals
    split
    · first | exact hmark rfl (by decide) | exact hproperty rfl (by decide)
    · exact s.spans_plain (by decide) t

/-- What only the start of a line can hold stays on that line. -/
theorem spans_lineStart {s : LexState} {c : Char} {t : Text} {r : TokenKind × Nat}
    (h : s.scanLineStart c t = some r) : Spans c t r := by
  have hmarker {k : TokenKind} (hk : k.mayBreak = false) {m : Char} (hm : isBreakChar m = false)
      (h : isMarkerLine m c t = true) : Spans c t (k, 2) := by
    unfold isMarkerLine at h
    split at h
    · simp only [Bool.and_eq_true, beq_iff_eq] at h
      obtain ⟨⟨⟨rfl, rfl⟩, rfl⟩, -⟩ := h
      exact .inLine hk hm (by simpa using hm)
    · cases h
  unfold scanLineStart at h
  split at h
  · cases h
    exact hmarker rfl (m := '-') (by decide) ‹_›
  · split at h
    · cases h
      exact hmarker rfl (m := '.') (by decide) ‹_›
    · split at h
      · rename_i hc
        cases h
        obtain ⟨rfl, -⟩ := hc
        exact .inLine rfl (by decide) fun _ => isBreakChar_of_mem_line
      · split at h
        · rename_i hc
          cases h
          exact spans_run rfl (isBreakChar_of_isSpaceOrTab hc) fun _ => isBreakChar_of_isSpaceOrTab
        · cases h

/-- And with all tokens. -/
theorem spans (s : LexState) (c : Char) (t : Text) : Spans c t (s.scan c t) := by
  unfold scan
  split
  · cases hr : s.scanLineStart c t with
    | none => exact s.spans_inLine c t
    | some r => exact spans_lineStart hr
  · exact s.spans_inLine c t

/-- Only a line break, or a quoted scalar that is never closed, ends with a line break. -/
theorem Spans.endsInLine {c : Char} {t : Text} {r : TokenKind × Nat} (h : Spans c t r)
    (hk : r.1 ≠ lineBreak) (hq : r.1 = .unterminated → t.drop r.2 ≠ []) :
    EndsInLine (c :: t.take r.2) := by
  have hquote {q : Char} (hq : isBreakChar q = false) {n : Nat}
      (hn : (t.take n).getLast? = some q) : EndsInLine (t.take n) := by
    intro d hd
    obtain rfl := Option.some.inj (hn.symm.trans hd)
    exact hq
  cases h with
  | lineFeed hc => exact absurd rfl hk
  | carriageReturn hc => exact absurd rfl hk
  | singleQuoted hc hn =>
    exact .cons (by rw [hc]; decide) (hquote (by decide) (getLast?_singleQuoted hn))
  | doubleQuoted hc hn =>
    exact .cons (by rw [hc]; decide) (hquote (by decide) (getLast?_doubleQuoted hn))
  | unterminated h => exact absurd (hq rfl) (by simp)
  | blockScalar hc owner =>
    exact .cons (by rcases hc with rfl | rfl <;> decide) (endsInLine_take_blockLength owner t)
  | inLine hk hc ht => exact .cons hc (.of_forall ht)

variable {s : LexState} {x : Token} {t : Text}

/-- What is read as a token is scanned, and the token ends where the scan does. -/
theorem Reads.exists_spans (h : s.Reads x t) :
    ∃ c u n, x.text = c :: u ∧ Spans c (u ++ t) (x.kind, n) ∧ (u ++ t).take n = u ∧
    (u ++ t).drop n = t := by
  obtain ⟨c, u, hu, hk, hd⟩ := h
  refine ⟨c, u, (s.scan c (u ++ t)).2, hu, ?_, ?_, hd⟩
  · rw [← hk]
    exact s.spans c (u ++ t)
  · have htake := List.take_append_drop (s.scan c (u ++ t)).2 (u ++ t)
    rw [hd] at htake
    exact List.append_cancel_right htake

/-- Behind a token that is no line break the line has begun. A quoted scalar that is never
closed has nothing behind it. -/
theorem Reads.atLineStart_after (h : s.Reads x t) (hx : x.kind ≠ lineBreak)
    (hq : x.kind = unterminated → t ≠ []) : (s.after x).atLineStart = false := by
  obtain ⟨c, u, n, hu, hspans, htake, hd⟩ := h.exists_spans
  have hend := hspans.endsInLine hx (by rwa [hd])
  rw [htake, ← hu] at hend
  have hlast : x.text.getLast? ≠ some '\n' := fun h => absurd (hend _ h) (by decide)
  have := lineAfter_ne_nil_of_getLast? s.line (by simp [hu]) hlast
  simpa [atLineStart, after] using this

/-- Behind a node inside a flow collection the line has begun. -/
theorem Reads.atLineStart_after_node (h : s.Reads x t) (hx : TokenKind.endsNode x.kind = true) :
    (s.after x).atLineStart = false := by
  refine h.atLineStart_after ?_ ?_
  · intro hk
    rw [hk] at hx
    cases hx
  · intro hk
    rw [hk] at hx
    cases hx

/-- Markers are not looked for inside a line. -/
theorem not_isMarker_scanInLine (s : LexState) (c : Char) (t : Text) :
    (s.scanInLine c t).1.isMarker = false := by
  have hplain : (s.scanPlain c t).1.isMarker = false := by
    have h := s.isPlain_scanPlain c t
    revert h
    cases (s.scanPlain c t).1 <;> simp [isPlain, isMarker]
  dsimp only [scanInLine, quotedToken]
  split
  all_goals try split
  all_goals first | rfl | exact hplain | skip
  all_goals split <;> rfl

/-- Markers stand at the start of a line. -/
theorem Reads.atLineStart_of_isMarker (h : s.Reads x t) (hx : x.kind.isMarker = true) :
    s.atLineStart = true := by
  obtain ⟨c, u, -, hk, -⟩ := h
  by_contra hs
  rw [scan_eq_scanInLine (.inl (by simpa using hs))] at hk
  rw [← hk, s.not_isMarker_scanInLine] at hx
  cases hx

end LexState

/-- Where the line has begun and only trivia come before a marker, the line ends. -/
theorem EndsLine.of_cuts {s : LexState} {zs ys : List Token} (h : Cuts s (zs ++ ys) [])
    (hs : s.atLineStart = false) (hzs : ∀ z ∈ zs, z.kind.isTrivia = true)
    (hys : ∀ y us, ys = y :: us → y.kind.isMarker = true) : EndsLine (zs ++ ys) := by
  -- By induction on the trivia. Spaces and comments stay on the line; an indentation or a marker
  -- would have to stand at its start.
  induction zs generalizing s with
  | nil =>
    cases ys with
    | nil => trivial
    | cons y us =>
      have := (Cuts.cases_cons h).1.atLineStart_of_isMarker (hys y us rfl)
      rw [hs] at this
      cases this
  | cons z zs ih =>
    rw [List.cons_append] at h
    obtain ⟨hz, h⟩ := Cuts.cases_cons h
    have hnext (hk : z.kind = space ∨ z.kind = comment) : EndsLine (zs ++ ys) :=
      ih h (s.atLineStart_after hz.text_ne_nil (hz.newline_not_mem (hk.imp_right .inr)))
        fun w hw => hzs w (by simp [hw])
    have ht := hzs z (by simp)
    cases hk : z.kind with
    | space => exact .inr ⟨.inl hk, hnext (.inl hk)⟩
    | comment => exact .inr ⟨.inr hk, hnext (.inr hk)⟩
    | lineBreak => exact .inl hk
    | indent =>
      have := hz.atLineStart_eq.2 hk
      rw [hs] at this
      cases this
    | _ =>
      rw [hk] at ht
      cases ht

end YamlPatch
