import YamlPatch.Proofs.QuotedBytes

/-!
# A text is cut into tokens

The tokens of a text are a partition of it (`lex_partitions`) : none is empty, they are cut
between characters, and joined they are the text. What the layout of a document is read from
holds of every text, well formed or not. Line breaks are what they look like, indentation stands
at the start of a line, white space inside a line is not cut in two, and only scalars with more
than one line hold a line break besides.

Each of these is a fact about one token and the place where it is read, and is taken from what the
lexer may do there (`LexState.Spans`, `LexState.Scanned`). Where two neighbours are spoken of, it is
a fact about the first of them and what the text behind it begins with.
-/

namespace YamlPatch

open TokenKind

/-- The token of a quoted scalar begins with its quote and ends where the bytes of the text
close it; a quote that they do not close takes all of the text. -/
def Token.EndsAtQuote (x : Token) (behind : Text) : Prop :=
  match x.kind with
  | singleQuoted =>
    ∃ u, x.text = '\'' :: u ∧ closingSingle (Text.utf8 (u ++ behind)) = some (Text.byteLength u)
  | doubleQuoted =>
    ∃ u, x.text = '"' :: u ∧ closingDouble (Text.utf8 (u ++ behind)) = some (Text.byteLength u)
  | unterminated =>
    behind = [] ∧ ∃ u, x.text = '\'' :: u ∧ closingSingle (Text.utf8 u) = none ∨
      x.text = '"' :: u ∧ closingDouble (Text.utf8 u) = none
  | _ => True

/-- The tokens are a partition of the text, along its lines. -/
structure Partitions (t : Text) (xs : List Token) : Prop where
  length_le : xs.length ≤ t.length
  text_ne_nil : ∀ x ∈ xs, x.text ≠ []
  join_eq : Token.join xs = t
  /-- A token begins and ends between characters. -/
  dropBytes_eq : ∀ ys zs, xs = ys ++ zs → t.dropBytes (Text.byteLength (Token.join ys)) =
    some (Token.join zs)
  endsAtQuote : ∀ ys x zs, xs = ys ++ x :: zs → x.EndsAtQuote (Token.join zs)
  lineBreak_iff : ∀ x ∈ xs, x.kind = lineBreak ↔
    x.text = ['\n'] ∨ x.text = ['\r', '\n'] ∨ x.text = ['\r']
  atLineStart : ∀ ys x zs, xs = ys ++ x :: zs → x.kind = indent →
    Token.join ys = [] ∨ (Token.join ys).getLast? = some '\n'
  /-- White space is as long as it can be. -/
  space_apart : xs.IsChain fun x y => x.kind = space ∨ x.kind = indent → y.kind ≠ space
  mayBreak : ∀ x ∈ xs, '\n' ∈ x.text ∨ '\r' ∈ x.text → x.kind.mayBreak = true

/-- Tokens that are not empty have as many characters at least. -/
theorem Token.length_le_join {xs : List Token} (h : ∀ x ∈ xs, x.text ≠ []) :
    xs.length ≤ (Token.join xs).length := by
  induction xs with
  | nil => exact Nat.zero_le _
  | cons x xs ih =>
    have hx := List.length_pos_of_ne_nil (h x (by simp))
    have hxs := ih fun y hy => h y (by simp [hy])
    simp only [Token.join_cons, List.length_append, List.length_cons]
    omega

namespace LexState

/-- A token takes the quote that closes it. -/
theorem Reads.endsAtQuote {s : LexState} {x : Token} {t : Text} (h : s.Reads x t) :
    x.EndsAtQuote t := by
  obtain ⟨c, u, n, hu, hspans, htake, hd⟩ := h.exists_spans
  obtain ⟨k, text⟩ := x
  dsimp only at hu hspans
  cases hspans with
  | lineFeed => trivial
  | carriageReturn => trivial
  | singleQuoted hc hn =>
    refine ⟨u, by rw [hu, hc], ?_⟩
    rw [closingSingle_utf8, hn, Option.map_some, htake]
  | doubleQuoted hc hn =>
    refine ⟨u, by rw [hu, hc], ?_⟩
    rw [closingDouble_utf8, hn, Option.map_some, htake]
  | unterminated hopen =>
    obtain rfl : t = [] := by simpa using hd.symm
    rw [List.append_nil] at hopen
    refine ⟨rfl, u, hopen.imp (fun ⟨hc, hn⟩ => ⟨by rw [hu, hc], ?_⟩) fun ⟨hc, hn⟩ =>
      ⟨by rw [hu, hc], ?_⟩⟩
    · rw [closingSingle_utf8, hn, Option.map_none]
    · rw [closingDouble_utf8, hn, Option.map_none]
  | blockScalar => trivial
  | inLine hk =>
    cases k with
    | singleQuoted => cases hk
    | doubleQuoted => cases hk
    | unterminated => cases hk
    | _ => trivial

/-- A line break is a line feed, a carriage return or both, and no other token is. -/
theorem Reads.lineBreak_iff {s : LexState} {x : Token} {t : Text} (h : s.Reads x t) :
    x.kind = lineBreak ↔ x.text = ['\n'] ∨ x.text = ['\r', '\n'] ∨ x.text = ['\r'] := by
  obtain ⟨c, u, n, hu, hspans, htake, -⟩ := h.exists_spans
  rw [hu]
  -- A token that begins in the middle of a line is none of the three.
  have hother {k : TokenKind} (hk : k ≠ lineBreak) (hc : isBreakChar c = false) :
      k = lineBreak ↔ c :: u = ['\n'] ∨ c :: u = ['\r', '\n'] ∨ c :: u = ['\r'] := by
    refine iff_of_false hk ?_
    rintro (h | h | h) <;> (obtain ⟨rfl, -⟩ := List.cons.inj h; cases hc)
  generalize x.kind = k at hspans ⊢
  cases hspans with
  | lineFeed hc =>
    subst hc
    obtain rfl : u = [] := by simpa using htake.symm
    simp
  | carriageReturn hc =>
    subst hc
    refine iff_of_true rfl (.inr ?_)
    split at htake
    · rename_i hhead
      obtain ⟨v, hv⟩ := List.head?_eq_some_iff.mp hhead
      refine .inl ?_
      rw [← htake, hv]
      rfl
    · exact .inr (by rw [← htake]; rfl)
  | singleQuoted hc => exact hother (by decide) (by rw [hc]; decide)
  | doubleQuoted hc => exact hother (by decide) (by rw [hc]; decide)
  | unterminated hopen =>
    exact hother (by decide) (by rcases hopen with ⟨rfl, -⟩ | ⟨rfl, -⟩ <;> decide)
  | blockScalar hc => exact hother (by decide) (by rcases hc with rfl | rfl <;> decide)
  | inLine hk hc => exact hother (by rintro rfl; cases hk) hc

/-- A token with a line break in it is of a kind that may hold one. -/
theorem Reads.mayBreak {s : LexState} {x : Token} {t : Text} (h : s.Reads x t) {d : Char}
    (hd : d ∈ x.text) (hb : isBreakChar d = true) : x.kind.mayBreak = true := by
  obtain ⟨c, u, n, hu, hspans, htake, -⟩ := h.exists_spans
  rw [hu] at hd
  generalize x.kind = k at hspans ⊢
  cases hspans with
  | inLine hk hc ht =>
    have : isBreakChar d = false := by
      rcases List.mem_cons.mp hd with rfl | hd
      · exact hc
      · exact ht d (by rwa [htake])
    cases this.symm.trans hb
  | _ => rfl

end LexState

open LexState

/-- Every text is cut into tokens, which are a partition of it. -/
theorem lex_partitions (t : Text) : Partitions t (lex t) := by
  have hcuts : Cuts {} (lex t) [] := .of_lexFrom rfl
  -- Each token is read where those before it have led.
  have hreads {ys zs : List Token} {x : Token} (h : lex t = ys ++ x :: zs) :
      LexState.Reads (afterAll {} ys) x (Token.join zs) := by
    rw [h] at hcuts
    simpa using (Cuts.cases_cons hcuts.right).1
  have hmem {x : Token} (hx : x ∈ lex t) : ∃ s u, LexState.Reads s x u := by
    obtain ⟨ys, zs, h⟩ := List.append_of_mem hx
    exact ⟨_, _, hreads h⟩
  -- White space is not cut in two : behind a space or an indentation no space is read.
  have hspace : (lex t).IsChain fun x y => x.kind = space ∨ x.kind = indent → y.kind ≠ space :=
    hcuts.isChain (R := fun k k' => k = space ∨ k = indent → k' ≠ space) fun hx hy hk =>
      hx.kind_behind_ne_space hk hy
  refine ⟨?_, fun x => text_ne_nil_of_mem_lex, join_lex t, ?_, fun ys x zs h =>
    (hreads h).endsAtQuote, ?_, ?_, hspace, ?_⟩
  · have hlength := Token.length_le_join fun x => text_ne_nil_of_mem_lex (t := t) (x := x)
    rwa [join_lex] at hlength
  · intro ys zs h
    rw [← join_lex t, h, Token.join_append, Text.dropBytes_append]
  · intro x hx
    obtain ⟨s, u, h⟩ := hmem hx
    exact h.lineBreak_iff
  · intro ys x zs h hk
    have hstart := (hreads h).atLineStart_eq.2 hk
    have hline : lineAfter [] (Token.join ys) = [] := by
      simpa [atLineStart, line_afterAll] using hstart
    by_contra hne
    rw [not_or] at hne
    exact lineAfter_ne_nil_of_getLast? [] hne.1 hne.2 hline
  · intro x hx hbreak
    obtain ⟨s, u, h⟩ := hmem hx
    rcases hbreak with hd | hd <;> exact h.mayBreak hd (by decide)

end YamlPatch
