import YamlPatch.Proofs.Headers

/-!
# The end of a block scalar

With a minus sign a header takes the line break at the end of a block scalar away, and with a
plus sign it asks for all of them. The lexer cuts a block scalar behind its last line with text
before it looks at the header (`LexState.Reads.endsWithText`), so there are no others, and a
scalar stands for a text that ends in one line feed or in none, whatever number of empty lines
comes behind it (`BlockScalar.exists_decode`). A plus sign asks in vain
(`BlockScalar.decode_unstripped`).

What is known of the token is that its last line is not blank (`EndsWithText`). This is passed
on from one stage of the reader to the next : to the text below the header, to its last line
without the indentation, and to the end of the folded text, where one line feed is added or
none.
-/

namespace YamlPatch

open TokenKind

/-- The last line of the text is not blank. -/
def EndsWithText (t : Text) : Prop := ∃ l, l <:+ t ∧ '\n' ∉ l ∧ Text.allBlank l = false

/-! ## What the lexer cuts

The lexer keeps a line of a block scalar only up to the last one with text. That the token ends
with it is a fact about the extent of the scalar. -/

/-- A block scalar ends with the last of its lines that is not blank; the header is one. -/
theorem LexState.Reads.endsWithText {s : LexState} {x : Token} {t : Text} (h : s.Reads x t)
    (hk : x.kind = blockScalar) : EndsWithText x.text := by
  obtain ⟨c, u, n, hu, hspans, htake, -⟩ := h.exists_spans
  rw [hk] at hspans
  cases hspans with
  | inLine hk => cases hk
  | blockScalar hc owner =>
    rw [hu]
    rcases @blockExtent_eq_or (u ++ t) owner (lineLength (u ++ t)) _ _ (.inr rfl) with heq | ⟨l,
      hnewline, hblank, hl⟩
    · rw [blockLength, heq] at htake
      have hline : '\n' ∉ u := fun hn => absurd (isBreakChar_of_mem_line (htake ▸ hn)) (by decide)
      refine ⟨c :: u, List.suffix_rfl, ?_, ?_⟩
      · rcases hc with rfl | rfl <;> simpa using hline
      · rcases hc with rfl | rfl <;> rfl
    · rw [← blockLength, htake] at hl
      exact ⟨_, hl.trans (List.suffix_cons c u), fun hn =>
        hnewline ((isPrefix_dropReturns l).subset hn), hblank⟩

namespace Text

/-- The last line of a text holds all that stands behind its last line feed. -/
theorem exists_lines_of_isSuffix {t l : Text} (h : l <:+ t) (hl : '\n' ∉ l) :
    ∃ ls m, lines t = ls ++ [m] ∧ l <:+ m := by
  obtain ⟨v, rfl⟩ := h
  induction v with
  | nil =>
    obtain ⟨m, ls, hlines, hone⟩ := lines_cons l
    obtain ⟨rfl, rfl⟩ := hone hl
    exact ⟨[], m, hlines, List.suffix_rfl⟩
  | cons c v ih =>
    obtain ⟨ls, m, hlines, hm⟩ := ih
    rw [lines] at hlines
    by_cases hc : c = '\n'
    · exact ⟨[] :: ls, m, by simp [lines, splitOn, hc, hlines], hm⟩
    · cases ls with
      | nil =>
        exact ⟨[], c :: m, by simp [lines, splitOn, hc, hlines], hm.trans (List.suffix_cons c m)⟩
      | cons l' ls => exact ⟨(c :: l') :: ls, m, by simp [lines, splitOn, hc, hlines], hm⟩

/-- A line begins with as many spaces as are counted. -/
theorem eq_replicate_append {l : Text} {n : Nat} (h : n ≤ leadingSpaces l) :
    ∃ m, l = List.replicate n ' ' ++ m := by
  induction l generalizing n with
  | nil =>
    obtain rfl : n = 0 := by simpa [leadingSpaces] using h
    exact ⟨[], rfl⟩
  | cons c l ih =>
    cases n with
    | zero => exact ⟨c :: l, rfl⟩
    | succ n =>
      by_cases hc : c = ' '
      · obtain ⟨m, hm⟩ := ih (n := n) (by simpa [leadingSpaces, hc] using h)
        exact ⟨m, by rw [hc, hm]; rfl⟩
      · simp [leadingSpaces, hc] at h

/-- Joined lines end with the last of them. -/
theorem exists_joinWith_append (sep : Text) (ls : List Text) (m : Text) :
    ∃ u, joinWith sep (ls ++ [m]) = u ++ m := by
  induction ls with
  | nil => exact ⟨[], rfl⟩
  | cons l ls ih =>
    obtain ⟨u, hu⟩ := ih
    refine ⟨l ++ sep ++ u, ?_⟩
    rw [List.cons_append, joinWith, hu, List.append_assoc _ u]
    simp

end Text

namespace BlockScalar

/-! ## What the reader makes of it

The last line has text in each of the forms that the reader gives the scalar, so what it stands
for does not end in a line feed before one is added. -/

/-- If the scalar has lines, the last of them has text. -/
theorem endsWithText_body {t : Text} (h : EndsWithText t) (hbody : body t ≠ []) :
    EndsWithText (body t) := by
  obtain ⟨l, hl, hnewline, hblank⟩ := h
  have hdrop : t.dropWhile (· != '\n') = '\n' :: body t := by
    unfold body at hbody ⊢
    cases hd : t.dropWhile (· != '\n') with
    | nil => simp [hd] at hbody
    | cons c u =>
      have hc : c = '\n' := by simpa [hd] using List.head?_dropWhile_not (· != '\n') t
      rw [hc]
      rfl
  have hsuffix : '\n' :: body t <:+ t := hdrop ▸ List.dropWhile_suffix _
  rcases List.suffix_or_suffix_of_suffix hl hsuffix with hle | hle
  · rcases List.suffix_cons_iff.mp hle with rfl | hle
    · simp at hnewline
    · exact ⟨l, hle, hnewline, hblank⟩
  · exact absurd (hle.subset List.mem_cons_self) hnewline

/-- Lines with text are indented as far as the scalar at least. -/
theorem indentation_le {ls : List Text} {l : Text} (hl : l ∈ ls)
    (hblank : Text.allBlank l = false) : indentation ls ≤ Text.leadingSpaces l := by
  have hmem : Text.leadingSpaces l ∈ (ls.filter fun l => !Text.allBlank l).map Text.leadingSpaces :=
    List.mem_map_of_mem (List.mem_filter.mpr ⟨hl, by simp [hblank]⟩)
  unfold indentation
  cases hmin : ((ls.filter fun l => !Text.allBlank l).map Text.leadingSpaces).min? with
  | none => exact Nat.zero_le _
  | some n => exact (List.min?_eq_some_iff.mp hmin).2 _ hmem

/-- The last line keeps its text when the indentation is cut off. -/
theorem exists_contentLines {t : Text} (h : EndsWithText (body t)) :
    ∃ ls m, contentLines t = ls ++ [m] ∧ m ≠ [] := by
  obtain ⟨l, hl, hnewline, hblank⟩ := h
  obtain ⟨ls, w, hlines, hw⟩ := Text.exists_lines_of_isSuffix hl hnewline
  have hblank : Text.allBlank (Text.dropReturns w) = false := by
    rw [Text.allBlank_dropReturns]
    rw [Text.allBlank, List.all_eq_false] at hblank ⊢
    obtain ⟨c, hc, hb⟩ := hblank
    exact ⟨c, hw.subset hc, hb⟩
  obtain ⟨n, hn⟩ : ∃ n, n = indentation ((Text.lines (body t)).map Text.dropReturns) := ⟨_, rfl⟩
  have hle : n ≤ Text.leadingSpaces (Text.dropReturns w) :=
    hn ▸ indentation_le (by simp [hlines]) hblank
  obtain ⟨m, hm⟩ := Text.eq_replicate_append hle
  have hlast : (contentLines t).getLast? = some m := by
    rw [contentLines, List.getLast?_map, List.getLast?_map, ← hn, hlines]
    simp [hm, Text.dropBytes_replicate]
  obtain ⟨us, hus⟩ := List.getLast?_eq_some_iff.mp hlast
  refine ⟨us, m, hus, ?_⟩
  rintro rfl
  rw [hm, Text.allBlank_indented] at hblank
  cases hblank

/-- The last line is folded last, with its own break if it is indented further. -/
theorem exists_fold_append (b : Bool) (ls : List Text) {m : Text} (hm : m ≠ []) :
    ∃ u e, (e = [] ∨ e = ['\n']) ∧ fold b (ls ++ [m]) = u ++ m ++ e := by
  induction ls generalizing b with
  | nil =>
    by_cases hi : m.head? = some ' '
    · exact ⟨_, ['\n'], .inr rfl, fold_indented b hi []⟩
    · exact ⟨_, [], .inl rfl, fold_text b hm hi []⟩
  | cons l ls ih =>
    rw [List.cons_append]
    by_cases hl : l = []
    · obtain ⟨u, e, he, hfold⟩ := ih false
      exact ⟨'\n' :: u, e, he, by rw [hl, fold, hfold]; rfl⟩
    · by_cases hi : l.head? = some ' '
      · obtain ⟨u, e, he, hfold⟩ := ih false
        exact ⟨(if b then ['\n'] else []) ++ l ++ '\n' :: u, e, he,
          by simp [fold_indented b hi, hfold]⟩
      · obtain ⟨u, e, he, hfold⟩ := ih true
        exact ⟨(if b then [' '] else []) ++ l ++ u, e, he, by simp [fold_text b hl hi, hfold]⟩

/-- Without lines a header stands for nothing. -/
theorem decode_of_body {t : Text} (h : body t = []) : decode t = [] := by
  simp only [decode, contentLines_of_body h, h, or_true, if_true]
  split <;> rfl

/-- A block scalar stands for a text that does not end in a line feed, and one line feed unless
the header has a minus sign or there are no lines. -/
theorem exists_decode {t : Text} {x : Token} (hx : x ∈ lex t) (hk : x.kind = blockScalar) :
    ∃ v, v.getLast? ≠ some '\n' ∧
      decode x.text = v ++ if isStripped x.text ∨ body x.text = [] then [] else ['\n'] := by
  obtain ⟨s, u, hread⟩ := exists_reads_of_mem_lex hx
  by_cases hbody : body x.text = []
  · exact ⟨[], by simp, by simp [decode_of_body hbody, hbody]⟩
  · obtain ⟨ls, m, hlines, hm⟩ :=
      exists_contentLines (endsWithText_body (hread.endsWithText hk) hbody)
    have hnewline : '\n' ∉ m := newline_not_mem_of_mem_contentLines (t := x.text) (by simp [hlines])
    have hlast (v : Text) : (v ++ m).getLast? ≠ some '\n' := by
      rw [List.getLast?_append_of_ne_nil _ hm]
      exact fun h => hnewline (List.mem_of_getLast? h)
    obtain ⟨v, hv⟩ : ∃ v, (if isLiteral x.text then Text.joinWith ['\n'] (contentLines x.text)
        else dropFinalBreak (fold false (contentLines x.text))) = v ++ m := by
      rw [hlines]
      split
      · exact Text.exists_joinWith_append ['\n'] ls m
      · obtain ⟨v, e, he, hfold⟩ := exists_fold_append false ls hm
        exact ⟨v, by rw [hfold, dropFinalBreak_append (hlast v) he]⟩
    refine ⟨v ++ m, hlast v, ?_⟩
    rw [decode, hv]
    split
    · rw [List.append_nil]
    · rfl

/-- The empty line at the end of the text is no part of the scalar. -/
example : ((lex "k: |+\n  a\n\n".toList).find? (·.kind == .blockScalar)).map (decode ·.text) =
    some "a\n".toList := by
  decide +kernel

/-- With a plus sign or without a sign, there is one line feed more than with a minus sign. -/
theorem decode_unstripped {c : Char} (hc : c = '|' ∨ c = '>') {sign : Text}
    (hsign : sign = [] ∨ sign = ['+']) (u : Text) : decode (c :: (sign ++ '\n' :: u)) =
      decode (c :: '-' :: '\n' :: u) ++ if u = [] then [] else ['\n'] := by
  have hr : StopsAt (· != '\n') ('\n' :: u) := by
    intro d v hd
    simp [← (List.cons.inj hd).1]
  have hplain : '\n' ∉ sign ∧ '-' ∉ sign.takeWhile (· != '#') := by
    rcases hsign with rfl | rfl <;> decide
  have hstripped : isStripped (c :: (sign ++ '\n' :: u)) = false := by
    rw [isStripped_cons hc hplain.1 hr]
    simpa using hplain.2
  have hminus : isStripped (c :: (['-'] ++ '\n' :: u)) = true := by
    rw [isStripped_cons hc (by decide) hr]
    decide
  rw [show c :: '-' :: '\n' :: u = c :: (['-'] ++ '\n' :: u) from rfl, decode, decode, contentLines,
    contentLines,
    hstripped, hminus, isLiteral_cons hc hplain.1 hr, isLiteral_cons hc (h := ['-']) (by decide) hr,
    body_cons hc hplain.1 hr, body_cons hc (h := ['-']) (by decide) hr, List.drop_one,
    List.tail_cons]
  by_cases hu : u = [] <;> simp [hu]

end BlockScalar

end YamlPatch
