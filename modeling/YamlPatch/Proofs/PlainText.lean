import Mathlib.Data.List.TakeWhile
import YamlPatch.Proofs.Cuts
import YamlPatch.Value.Atom

/-!
# Plain text is read as words

What is written without quotes is a `PlainText` : it holds no indicator and no control
character, white space only inside, and does not begin like an item or a key. Wherever a node
may stand it is read as its words and the spaces between them (`plainTokens`), if what follows
it ends a word (`cuts_plainTokens`). The strings that need no quotes are such texts, and so are
the texts of all numbers.

Only the first word depends on where it stands : a character may be an indicator at the start of
a node and mean nothing behind a word. So the induction along the text is about the contexts
inside a line behind a word (`LexState.Within`, `cuts_plainTokens_of_within`), which every word
and every space leads to again, and the first word is read on its own.
-/

namespace YamlPatch

open TokenKind LexState

/-! ## Words

The tokens are computed from the text by a recursion of their own, which will turn out to agree
with the lexer. -/

/-- A character that may stand in plain text. -/
def isPlainChar (c : Char) : Bool := !isIndicator c && !isControl c

/-- A text that is written without quotes. -/
structure PlainText (w : Text) : Prop where
  ne_nil : w ≠ []
  chars : ∀ c ∈ w, isPlainChar c = true
  head : ∀ c u, w = c :: u → isBlank c = false ∧ c ≠ '?' ∧ (c = '-' → blankAhead u = false)
  last : ∀ c, w.getLast? = some c → isBlank c = false
  dash : ∀ u, w ≠ '-' :: '-' :: u

/-- A character that does not end a word. -/
def isWordChar (c : Char) : Bool := !isBlank c

/-- The words of a text and the spaces between them. White space other than spaces and tabs is a
word or begins one. -/
def plainTokens : Text → List Token
  | [] => []
  | c :: t =>
    if isSpaceOrTab c then
      ⟨space, c :: t.takeWhile isSpaceOrTab⟩ :: plainTokens (t.dropWhile isSpaceOrTab)
    else
      ⟨classify (c :: t.takeWhile isWordChar), c :: t.takeWhile isWordChar⟩ ::
        plainTokens (t.dropWhile isWordChar)
termination_by t => t.length
decreasing_by
  all_goals
    have := (List.dropWhile_suffix isSpaceOrTab (l := t)).length_le
    have := (List.dropWhile_suffix isWordChar (l := t)).length_le
    simp only [List.length_cons]
    omega

/-- The words and spaces make up the text. -/
theorem join_plainTokens (w : Text) : Token.join (plainTokens w) = w := by
  fun_induction plainTokens w with
  | case1 => rfl
  | case2 c t hc ih => simp [ih]
  | case3 c t hc ih => simp [ih]

/-- The tokens of a plain text are words and spaces. -/
theorem kind_of_mem_plainTokens {w : Text} {x : Token} (h : x ∈ plainTokens w) :
    x.kind.isPlain = true ∨ x.kind = space := by
  fun_induction plainTokens w with
  | case1 => cases h
  | case2 c t hc ih =>
    rcases List.mem_cons.mp h with rfl | h
    · exact .inr rfl
    · exact ih h
  | case3 c t hc ih =>
    rcases List.mem_cons.mp h with rfl | h
    · exact .inl (isPlain_classify _)
    · exact ih h

/-- Spaces and tabs are white space. -/
theorem isBlank_of_isSpaceOrTab {c : Char} (h : isSpaceOrTab c = true) : isBlank c = true := by
  rcases Bool.or_eq_true_iff.mp h with h | h <;> simp only [beq_iff_eq] at h <;> subst h <;> decide

/-- What is no white space is neither of them. -/
theorem not_isSpaceOrTab {c : Char} (h : isBlank c = false) : isSpaceOrTab c = false := by
  cases hc : isSpaceOrTab c with
  | false => rfl
  | true => exact absurd (isBlank_of_isSpaceOrTab hc) (by simp [h])

/-- Words with spaces between them. -/
def Wordy : List Token → Prop
  | [] => True
  | x :: xs => (x.kind.isPlain = true ∨
      x.kind = space ∧ ∃ y ys, xs = y :: ys ∧ y.kind.isPlain = true) ∧ Wordy xs

/-! ## Contexts

Behind a word only few things can be read : words, white space, a comment, a colon, or a mark
inside of a flow collection. -/

/-- Inside a line behind a word, where indicators have no meaning. -/
structure LexState.Within (s : LexState) : Prop where
  onlyDashes : s.onlyDashes = false
  before : s.atNodeStart = false
  line : s.atLineStart = false

/-- A line that has begun goes on until a line feed. -/
theorem lineAfter_ne_nil {line t : Text} (hl : line ≠ []) (ht : '\n' ∉ t) :
    lineAfter line t ≠ [] := by
  induction t generalizing line with
  | nil => exact hl
  | cons c t ih =>
    simp only [List.mem_cons, not_or] at ht
    simpa [lineAfter, ht.1, Ne.symm ht.1] using ih (List.cons_ne_nil c line) ht.2

/-- Behind a token without a line feed the line has begun. -/
theorem LexState.atLineStart_after (s : LexState) {x : Token} (hx : x.text ≠ [])
    (hn : '\n' ∉ x.text) : (s.after x).atLineStart = false := by
  obtain ⟨c, u, hc⟩ := List.exists_cons_of_ne_nil hx
  rw [hc] at hn
  simp only [List.mem_cons, not_or] at hn
  have := lineAfter_ne_nil (List.cons_ne_nil c s.line) hn.2
  simpa [atLineStart, after, hc, lineAfter, Ne.symm hn.1] using this

/-- A word leads there from every context. -/
theorem LexState.Within.of_plain (s : LexState) {x : Token} (hk : x.kind.isPlain = true)
    (hx : x.text ≠ []) (hn : '\n' ∉ x.text) : (s.after x).Within := by
  refine ⟨?_, ?_, s.atLineStart_after hx hn⟩
  · obtain ⟨k, t⟩ := x
    cases k <;> first | rfl | cases hk
  · obtain ⟨k, t⟩ := x
    cases k <;> first | rfl | cases hk

/-- A space behind a word stays there. -/
theorem LexState.Within.space {s : LexState} (h : s.Within) {t : Text} (ht : t ≠ [])
    (hn : '\n' ∉ t) : (s.after ⟨.space, t⟩).Within :=
  ⟨h.onlyDashes, h.before, s.atLineStart_after ht hn⟩

/-- Words and spaces open and close nothing. -/
theorem inFlow_after_plain (s : LexState) {x : Token}
    (hk : x.kind.isPlain = true ∨ x.kind = space) : (s.after x).inFlow = s.inFlow := by
  obtain ⟨k, t⟩ := x
  cases k <;> first | rfl | simp [isPlain] at hk

/-! ## Reading words

A word is as long as it can be. It goes on until white space, or to what follows the text. -/

/-- A plain character starts a word, unless it is an indicator where it stands. -/
theorem scanInLine_of_isPlainChar {s : LexState} {c : Char} {t : Text} (hc : isPlainChar c = true)
    (hs : isSpaceOrTab c = false)
    (hd : c = '-' → (blankAhead t && !s.inFlow && s.onlyDashes) = false)
    (hq : c = '?' → (blankAhead t && s.atNodeStart) = false) :
    s.scanInLine c t = s.scanPlain c t := by
  dsimp only [scanInLine]
  split
  case h_6 => simp [hd]
  case h_7 => simp [hq]
  case h_21 => rfl
  all_goals first | exact absurd hc (by decide) | exact absurd hs (by decide)

/-- A word takes the characters that cannot end it, up to where a word ends. -/
theorem scanPlain_append {s : LexState} {c : Char} {u t : Text}
    (hu : ∀ d ∈ u, isBlank d = false ∧ d ≠ ':' ∧ isFlowMark d = false)
    (ht : wordLength s.inFlow t = 0) :
    s.scanPlain c (u ++ t) = (classify (c :: u), u.length) := by
  have h := wordLength_append (f := s.inFlow) t hu
  rw [ht, Nat.zero_add] at h
  simp [scanPlain, h]

/-- A plain character is no colon, no mark and no line feed. -/
theorem ne_of_isPlainChar {c : Char} (h : isPlainChar c = true) :
    c ≠ ':' ∧ isFlowMark c = false ∧ c ≠ '\n' := by
  refine ⟨?_, ?_, ?_⟩
  · rintro rfl
    exact absurd h (by decide)
  · simp only [isFlowMark, Bool.or_eq_false_iff, beq_eq_false_iff_ne]
    refine ⟨⟨⟨⟨?_, ?_⟩, ?_⟩, ?_⟩, ?_⟩ <;> rintro rfl <;> exact absurd h (by decide)
  · rintro rfl
    exact absurd h (by decide)

/-- What stands behind the characters in `p` does not begin with one of them. -/
theorem stopsAt_dropWhile_append {p : Char → Bool} {w : Text} (t : Text) (hw : w.dropWhile p ≠ []) :
    StopsAt p (w.dropWhile p ++ t) := by
  intro c u h
  obtain ⟨d, v, hd⟩ := List.exists_cons_of_ne_nil hw
  have hp := List.head?_dropWhile_not p w
  simp only [hd, List.cons_append, List.head?_cons] at h hp
  obtain ⟨rfl, -⟩ := List.cons.inj h
  simpa using hp

/-- A text that is dropped as a whole ends in a character that is dropped. -/
theorem getLast?_of_dropWhile_eq_nil {p : Char → Bool} {c : Char} {w : Text} (hc : p c = true)
    (hw : w.dropWhile p = []) : ∃ d, (c :: w).getLast? = some d ∧ p d = true := by
  have hall : ∀ d ∈ c :: w, p d = true := by
    intro d hd
    rcases List.mem_cons.mp hd with rfl | hd
    · exact hc
    · exact List.dropWhile_eq_nil_iff.mp hw d hd
  exact ⟨_, List.getLast?_eq_some_getLast (List.cons_ne_nil c w), hall _ (List.getLast_mem _)⟩

/-- Behind the characters of a word a word ends, at white space or at what follows the text. -/
theorem wordLength_dropWhile_append {f : Bool} {w t : Text} (ht : wordLength f t = 0) :
    wordLength f (w.dropWhile isWordChar ++ t) = 0 := by
  by_cases hw : w.dropWhile isWordChar = []
  · rwa [hw]
  · obtain ⟨c, u, hc⟩ := List.exists_cons_of_ne_nil hw
    have hb := stopsAt_dropWhile_append t hw c (u ++ t) (by rw [hc]; rfl)
    simp only [isWordChar, Bool.not_eq_false'] at hb
    simp [hc, wordLength, hb]

/-- The word that a plain character starts. -/
theorem reads_word {s : LexState} {c : Char} {w t : Text} (hw : ∀ d ∈ c :: w, isPlainChar d = true)
    (hs : isSpaceOrTab c = false) (ht : wordLength s.inFlow t = 0)
    (hd : c = '-' → (blankAhead (w ++ t) && !s.inFlow && s.onlyDashes) = false)
    (hq : c = '?' → (blankAhead (w ++ t) && s.atNodeStart) = false)
    (hline : s.atLineStart = true → s.scanLineStart c (w ++ t) = none) :
    s.Reads ⟨classify (c :: w.takeWhile isWordChar), c :: w.takeWhile isWordChar⟩
      (w.dropWhile isWordChar ++ t) := by
  refine .of_scan ?_
  have hsplit : w.takeWhile isWordChar ++ (w.dropWhile isWordChar ++ t) = w ++ t := by
    rw [← List.append_assoc, List.takeWhile_append_dropWhile]
  have hplain := scanInLine_of_isPlainChar (hw c (by simp)) hs hd hq
  have hscan : s.scan c (w ++ t) = s.scanPlain c (w ++ t) := by
    unfold scan
    by_cases hl : s.atLineStart = true
    · simp [hl, hline hl, hplain]
    · simp [hl, hplain]
  rw [hsplit, hscan, ← hsplit]
  refine scanPlain_append ?_ (wordLength_dropWhile_append ht)
  intro d hd
  obtain ⟨h1, h2, -⟩ :=
    ne_of_isPlainChar (hw d (List.mem_cons_of_mem c (List.takeWhile_subset _ hd)))
  have hb := List.mem_takeWhile_imp hd
  simp only [isWordChar, Bool.not_eq_true'] at hb
  exact ⟨hb, h1, h2⟩

/-- What remains has the last character of the text. -/
theorem getLast?_dropWhile {p : Char → Bool} {c d : Char} {w : Text}
    (h : (w.dropWhile p).getLast? = some d) : (c :: w).getLast? = some d := by
  obtain ⟨u, hu⟩ := List.dropWhile_suffix p (l := w)
  rw [← hu, ← List.cons_append, List.getLast?_append, h]
  rfl

/-- In a text that does not end in white space a word follows the spaces. -/
theorem dropWhile_ne_nil_of_last {c : Char} {w : Text} (hc : isSpaceOrTab c = true)
    (hlast : ∀ d, (c :: w).getLast? = some d → isBlank d = false) :
    w.dropWhile isSpaceOrTab ≠ [] := by
  intro hnil
  obtain ⟨d, hd, hp⟩ := getLast?_of_dropWhile_eq_nil hc hnil
  exact absurd (isBlank_of_isSpaceOrTab hp) (by simp [hlast d hd])

/-- A text that does not end in white space is cut into words with spaces between them. -/
theorem wordy_plainTokens {w : Text} (hlast : ∀ c, w.getLast? = some c → isBlank c = false) :
    Wordy (plainTokens w) := by
  fun_induction plainTokens w with
  | case1 => trivial
  | case2 c w hc ih =>
    refine ⟨.inr ⟨rfl, ?_⟩, ih fun d hd => hlast d (getLast?_dropWhile hd)⟩
    obtain ⟨d, u, hd⟩ := List.exists_cons_of_ne_nil (dropWhile_ne_nil_of_last hc hlast)
    have hs := stopsAt_dropWhile_append [] (dropWhile_ne_nil_of_last hc hlast) d u (by simp [hd])
    rw [hd, plainTokens, if_neg (by simp [hs])]
    exact ⟨_, _, rfl, isPlain_classify _⟩
  | case3 c w hc ih =>
    exact ⟨.inl (isPlain_classify _), ih fun d hd => hlast d (getLast?_dropWhile hd)⟩

/-- Behind a word, plain characters are read as words and spaces. -/
theorem cuts_plainTokens_of_within {s : LexState} {w t : Text} (hs : s.Within)
    (hw : ∀ c ∈ w, isPlainChar c = true) (hlast : ∀ c, w.getLast? = some c → isBlank c = false)
    (ht : wordLength s.inFlow t = 0) : Cuts s (plainTokens w) t := by
  -- What is left behind a word or a space is plain as well, and ends as the text does.
  have hrest (p : Char → Bool) {c : Char} {w : Text} (hw : ∀ d ∈ c :: w, isPlainChar d = true)
      (hlast : ∀ d, (c :: w).getLast? = some d → isBlank d = false) :
      (∀ d ∈ w.dropWhile p, isPlainChar d = true) ∧
        ∀ d, (w.dropWhile p).getLast? = some d → isBlank d = false :=
    ⟨fun d hd => hw d (List.mem_cons_of_mem c ((List.dropWhile_suffix p).subset hd)),
      fun d hd => hlast d (getLast?_dropWhile hd)⟩
  fun_induction plainTokens w generalizing s with
  | case1 => exact .nil s t
  -- A space goes on up to the next word, of which there is one, as the text does not end in white
  -- space.
  | case2 c w hc ih =>
    obtain ⟨hw', hlast'⟩ := hrest isSpaceOrTab hw hlast
    have hn : '\n' ∉ c :: w.takeWhile isSpaceOrTab := by
      intro hn
      rcases List.mem_cons.mp hn with rfl | hn
      · cases hc
      · exact absurd (List.mem_takeWhile_imp hn) (by decide)
    refine .cons ?_ (ih (hs.space (by simp) hn) hw' hlast' ht)
    rw [join_plainTokens]
    have hne := dropWhile_ne_nil_of_last hc hlast
    have hr := runLength_append (u := w.takeWhile isSpaceOrTab)
      (fun d hd => List.mem_takeWhile_imp hd) (stopsAt_dropWhile_append t hne)
    refine .of_scan ?_
    rw [scan_eq_scanInLine (.inl hs.line)]
    rcases Bool.or_eq_true_iff.mp hc with hc | hc <;> simp only [beq_iff_eq] at hc <;> subst hc <;>
      simpa [scanInLine] using hr
  -- A word goes on up to white space or to the end of the text, where a word ends.
  | case3 c w hc ih =>
    obtain ⟨hw', hlast'⟩ := hrest isWordChar hw hlast
    have hk := isPlain_classify (c :: w.takeWhile isWordChar)
    have hn : '\n' ∉ c :: w.takeWhile isWordChar := by
      intro hn
      refine (ne_of_isPlainChar (hw '\n' ?_)).2.2 rfl
      exact (List.Sublist.cons_cons c (List.takeWhile_sublist _)).subset hn
    refine .cons ?_ (ih (.of_plain s hk (by simp) hn) hw' hlast' ?_)
    · rw [join_plainTokens]
      refine reads_word hw (by simpa using hc) ht ?_ ?_ ?_
      · simp [hs.onlyDashes]
      · simp [hs.before]
      · simp [hs.line]
    · rw [inFlow_after_plain s (.inl hk)]
      exact ht

/-- A plain text is read as words and spaces, unless it is taken for the marker of a document. -/
theorem cuts_plainTokens {s : LexState} {w t : Text} (hw : PlainText w)
    (ht : wordLength s.inFlow t = 0)
    (hline : s.atLineStart = true → ∀ c u, w = c :: u →
      isMarkerLine '-' c (u ++ t) = false ∧ isMarkerLine '.' c (u ++ t) = false) :
    Cuts s (plainTokens w) t := by
  obtain ⟨c, u, rfl⟩ := List.exists_cons_of_ne_nil hw.ne_nil
  obtain ⟨hb, hq, hd⟩ := hw.head c u rfl
  have hsp := not_isSpaceOrTab hb
  have hk := isPlain_classify (c :: u.takeWhile isWordChar)
  have hn : '\n' ∉ c :: u.takeWhile isWordChar := by
    intro hn
    refine (ne_of_isPlainChar (hw.chars '\n' ?_)).2.2 rfl
    exact (List.Sublist.cons_cons c (List.takeWhile_sublist _)).subset hn
  rw [plainTokens, if_neg (by simp [hsp])]
  -- The first word is read where a node may stand, the rest behind a word.
  refine .cons ?_ (cuts_plainTokens_of_within (.of_plain s hk (by simp) hn) ?_ ?_ ?_)
  · rw [join_plainTokens]
    refine reads_word hw.chars hsp ht ?_ (fun h => absurd h hq) ?_
    · intro hc
      have := hd hc
      cases u with
      | nil => cases this
      | cons d u => simp [blankAhead] at this ⊢; simp [this]
    · intro hl
      obtain ⟨h1, h2⟩ := hline hl c u rfl
      have hp : c ≠ '%' := by
        rintro rfl
        exact absurd (hw.chars '%' (by simp)) (by decide)
      simp [scanLineStart, h1, h2, hp, hsp]
  · intro d hd
    exact hw.chars d (List.mem_cons_of_mem c ((List.dropWhile_suffix _).subset hd))
  · exact fun d hd => hw.last d (getLast?_dropWhile hd)
  · rw [inFlow_after_plain s (.inl hk)]
    exact ht

/-! ## Behind the words

What is asked of the place behind a plain text : the context is still inside the line, and the
depth is that of the start. -/

/-- None of the tokens is empty or has a line feed. -/
theorem newline_not_mem_of_mem_plainTokens {w : Text} (hw : ∀ c ∈ w, isPlainChar c = true)
    {x : Token} (h : x ∈ plainTokens w) : x.text ≠ [] ∧ '\n' ∉ x.text := by
  constructor
  · fun_induction plainTokens w with
    | case1 => cases h
    | case2 c w hc ih | case3 c w hc ih =>
      rcases List.mem_cons.mp h with rfl | h
      · simp
      · refine ih (fun d hd =>
          hw d (List.mem_cons_of_mem c ((List.dropWhile_suffix _).subset hd))) h
  · intro hn
    refine (ne_of_isPlainChar (hw '\n' ?_)).2.2 rfl
    rw [← join_plainTokens w]
    exact List.mem_flatMap.mpr ⟨x, h, hn⟩

/-- Words and spaces without line feeds stay inside the line. -/
theorem LexState.Within.afterAll {s : LexState} (hs : s.Within) {xs : List Token}
    (h : ∀ x ∈ xs, (x.kind.isPlain = true ∨ x.kind = .space) ∧ x.text ≠ [] ∧ '\n' ∉ x.text) :
    (s.afterAll xs).Within := by
  induction xs generalizing s with
  | nil => exact hs
  | cons x xs ih =>
    obtain ⟨hk, hx, hn⟩ := h x (by simp)
    refine ih ?_ fun y hy => h y (List.mem_cons_of_mem x hy)
    rcases hk with hk | hk
    · exact .of_plain s hk hx hn
    · obtain ⟨k, t⟩ := x
      cases hk
      exact hs.space hx hn

/-- A plain text begins with a word. -/
theorem PlainText.exists_cons {w : Text} (hw : PlainText w) :
    ∃ x xs, plainTokens w = x :: xs ∧ x.kind.isPlain = true := by
  obtain ⟨c, u, rfl⟩ := List.exists_cons_of_ne_nil hw.ne_nil
  have hsp := not_isSpaceOrTab (hw.head c u rfl).1
  rw [plainTokens, if_neg (by simp [hsp])]
  exact ⟨_, _, rfl, isPlain_classify _⟩

/-- Behind a plain text indicators have no meaning, wherever it began. -/
theorem PlainText.within_afterAll {w : Text} (hw : PlainText w) (s : LexState) :
    (s.afterAll (plainTokens w)).Within := by
  obtain ⟨x, xs, hx, hk⟩ := hw.exists_cons
  have hmem {y : Token} (hy : y ∈ x :: xs) := newline_not_mem_of_mem_plainTokens hw.chars (hx ▸ hy)
  rw [hx, afterAll_cons]
  refine .afterAll (.of_plain s hk (hmem (by simp)).1 (hmem (by simp)).2) fun y hy => ?_
  have hy := List.mem_cons_of_mem x hy
  exact ⟨kind_of_mem_plainTokens (hx ▸ hy), hmem hy⟩

/-- Tokens that open and close nothing leave the depth as it is. -/
theorem LexState.depth_afterAll_eq {s : LexState} {xs : List Token}
    (h : ∀ x ∈ xs, ∀ n, depthAfter n x.kind = n) : (s.afterAll xs).depth = s.depth := by
  induction xs generalizing s with
  | nil => rfl
  | cons x xs ih =>
    rw [afterAll_cons, ih fun y hy => h y (List.mem_cons_of_mem x hy)]
    exact h x (by simp) s.depth

end YamlPatch
