import YamlPatch.Proofs.Cuts

/-!
# Texts that differ behind a colon

What is read before a colon does not depend on what stands behind it, if a word that ends at the
colon ends there either way (`Cuts.behind_colon`). No token is decided by more than that : the
searches for the end of a run, of a word or of quotes stop at the colon at the latest, and the
line with the colon ends a block scalar by its indentation.

All lemmas have the same form. In the text `v ++ ':' :: a` a search is known to end within `v`,
or at the colon; then it ends at the same character if `b` stands in place of `a`. A bound on
what was found is the only thing that is known about `a`, and for words also whether a colon
ends a word before it, which needs one character of what follows. The lemmas are put together as
the lexer is : searches, scans inside a line and at its start, one token, and all tokens up to
the colon.
-/

namespace YamlPatch

open TokenKind

variable {a b : Text}

/-! ## Searches that stop in time

Each is by induction along the text, until the search has come to its end. -/

/-- A run that ends before a character does not depend on what is behind that character. -/
theorem runLength_append_cons {p : Char → Bool} {v : Text} {x : Char}
    (h : runLength p (v ++ x :: a) ≤ v.length) :
    runLength p (v ++ x :: b) = runLength p (v ++ x :: a) := by
  induction v with
  | nil =>
    by_cases hx : p x = true
    · simp [runLength, hx] at h
    · simp [runLength, hx]
  | cons c v ih =>
    by_cases hc : p c = true
    · simp only [runLength, List.cons_append, hc, List.takeWhile_cons_of_pos, List.length_cons,
        Nat.add_le_add_iff_right] at h ih ⊢
      rw [ih h]
    · simp [runLength, hc]

/-- Whether white space comes next is decided by the next character. -/
theorem blankAhead_append_cons (v : Text) (x : Char) :
    blankAhead (v ++ x :: b) = blankAhead (v ++ x :: a) := by
  cases v <;> rfl

theorem head?_append_cons (v : Text) (x : Char) : (v ++ x :: b).head? = (v ++ x :: a).head? := by
  cases v <;> rfl

/-- Whether a colon ends a word is decided by the character behind it. -/
theorem colonEndsWord_append_cons (f : Bool) (v : Text) (x : Char) :
    colonEndsWord f (v ++ x :: b) = colonEndsWord f (v ++ x :: a) := by
  cases v <;> rfl

/-- A word that ends at a colon or before it ends there too if other text is behind the colon,
unless the colon has become part of the word. -/
theorem wordLength_append_colon {f : Bool} {v : Text}
    (hab : colonEndsWord f a = true → colonEndsWord f b = true)
    (h : wordLength f (v ++ ':' :: a) ≤ v.length) :
    wordLength f (v ++ ':' :: b) = wordLength f (v ++ ':' :: a) := by
  have hb : isBlank ':' = false ∧ isFlowMark ':' = false := by decide
  induction v with
  | nil =>
    by_cases ha : colonEndsWord f a = true
    · simp [wordLength, ha, hab ha]
    · simp [wordLength, hb, ha] at h
  | cons c v ih =>
    have hc := colonEndsWord_append_cons (a := a) (b := b) f v ':'
    simp only [List.cons_append, wordLength, hc, List.length_cons] at h ⊢
    split
    · rfl
    · rename_i hn
      rw [if_neg hn] at h
      rw [ih (by omega)]

/-- The closing quote is at least one character. -/
theorem singleQuotedLength_pos {t : Text} {n : Nat} (h : singleQuotedLength t = some n) :
    0 < n := by
  fun_induction singleQuotedLength t generalizing n with
  | case1 => cases h
  | case2 t ih =>
    obtain ⟨m, -, rfl⟩ := Option.map_eq_some_iff.mp h
    omega
  | case3 =>
    cases h
    exact Nat.one_pos
  | case4 c t hc hc' ih =>
    obtain ⟨m, -, rfl⟩ := Option.map_eq_some_iff.mp h
    omega

/-- Quotes that are closed before a colon are closed in the same place, whatever follows. -/
theorem singleQuotedLength_append_colon {v : Text} {n : Nat}
    (h : singleQuotedLength (v ++ ':' :: a) = some n) (hn : n ≤ v.length) :
    singleQuotedLength (v ++ ':' :: b) = some n := by
  -- The scan passes over two characters at a doubled quote, so the induction is on the length. At
  -- the last character before the colon the scan has to be over.
  induction hk : v.length using Nat.strongRecOn generalizing v n with
  | _ k ih =>
    rcases v with - | ⟨c, - | ⟨d, v⟩⟩
    · have := singleQuotedLength_pos h
      simp only [List.length_nil] at hn
      omega
    · by_cases hc : c = '\''
      · subst hc
        simpa [singleQuotedLength] using h
      · have h' : singleQuotedLength ([c] ++ ':' :: a) =
            (singleQuotedLength (':' :: a)).map (· + 1) := by
          simp [singleQuotedLength, hc]
        rw [h'] at h
        obtain ⟨m, hm, rfl⟩ := Option.map_eq_some_iff.mp h
        have := singleQuotedLength_pos hm
        simp only [List.length_singleton] at hn
        omega
    · by_cases hc : c = '\''
      · subst hc
        by_cases hd : d = '\''
        · subst hd
          simp only [List.cons_append, singleQuotedLength] at h ⊢
          obtain ⟨m, hm, rfl⟩ := Option.map_eq_some_iff.mp h
          simp only [List.length_cons] at hk hn
          rw [ih v.length (by omega) hm (by omega) rfl]
          rfl
        · simpa [singleQuotedLength, hd] using h
      · have hrec (x : Text) : singleQuotedLength (c :: d :: v ++ x) =
            (singleQuotedLength ((d :: v) ++ x)).map (· + 1) := by
          simp [singleQuotedLength, hc]
        rw [hrec] at h ⊢
        obtain ⟨m, hm, rfl⟩ := Option.map_eq_some_iff.mp h
        simp only [List.length_cons] at hk hn
        rw [ih (d :: v).length (by simp only [List.length_cons]; omega) hm
          (by simp only [List.length_cons]; omega) rfl]
        rfl

theorem doubleQuotedLength_pos {t : Text} {n : Nat} (h : doubleQuotedLength t = some n) :
    0 < n := by
  fun_induction doubleQuotedLength t generalizing n with
  | case1 => cases h
  | case2 => cases h
  | case3 c t ih =>
    obtain ⟨m, -, rfl⟩ := Option.map_eq_some_iff.mp h
    omega
  | case4 =>
    cases h
    exact Nat.one_pos
  | case5 c t _ _ _ ih =>
    obtain ⟨m, -, rfl⟩ := Option.map_eq_some_iff.mp h
    omega

/-- So are double quotes; what is escaped before the colon is escaped either way. -/
theorem doubleQuotedLength_append_colon {v : Text} {n : Nat}
    (h : doubleQuotedLength (v ++ ':' :: a) = some n) (hn : n ≤ v.length) :
    doubleQuotedLength (v ++ ':' :: b) = some n := by
  -- As before, but two characters are passed over at a backslash, whatever comes behind it.
  induction hk : v.length using Nat.strongRecOn generalizing v n with
  | _ k ih =>
    rcases v with - | ⟨c, v⟩
    · have := doubleQuotedLength_pos h
      simp only [List.length_nil] at hn
      omega
    · by_cases hc : c = '\\'
      · subst hc
        rcases v with - | ⟨d, v⟩
        · have h' : doubleQuotedLength (['\\'] ++ ':' :: a) =
              (doubleQuotedLength a).map (· + 2) := by
            simp [doubleQuotedLength]
          rw [h'] at h
          obtain ⟨m, hm, rfl⟩ := Option.map_eq_some_iff.mp h
          simp only [List.length_singleton] at hn
          omega
        · simp only [List.cons_append, doubleQuotedLength] at h ⊢
          obtain ⟨m, hm, rfl⟩ := Option.map_eq_some_iff.mp h
          simp only [List.length_cons] at hk hn
          rw [ih v.length (by omega) hm (by omega) rfl]
          rfl
      · by_cases hq : c = '"'
        · subst hq
          simpa [doubleQuotedLength] using h
        · have hrec (x : Text) : doubleQuotedLength (c :: v ++ x) =
              (doubleQuotedLength (v ++ x)).map (· + 1) := by
            rw [List.cons_append, doubleQuotedLength]
            · exact fun hx => absurd hx hc
            · exact fun _ _ hx => absurd hx hc
            · exact fun hx => absurd hx hq
          rw [hrec] at h ⊢
          obtain ⟨m, hm, rfl⟩ := Option.map_eq_some_iff.mp h
          simp only [List.length_cons] at hk hn
          rw [ih v.length (by omega) hm (by omega) rfl]
          rfl

/-- A quoted scalar that ends before a colon is one with its end there. It cannot be one without
an end, which would take all the text. -/
theorem quotedToken_append_colon {k : TokenKind} {f : Text → Option Nat} {v : Text}
    (hf : ∀ n, f (v ++ ':' :: a) = some n → n ≤ v.length → f (v ++ ':' :: b) = some n)
    (h : (quotedToken k (f (v ++ ':' :: a)) (v ++ ':' :: a)).2 ≤ v.length) :
    quotedToken k (f (v ++ ':' :: b)) (v ++ ':' :: b) =
      quotedToken k (f (v ++ ':' :: a)) (v ++ ':' :: a) := by
  unfold quotedToken at h ⊢
  cases hn : f (v ++ ':' :: a) with
  | none =>
    rw [hn] at h
    simp only [List.length_append, List.length_cons] at h
    omega
  | some n =>
    rw [hn] at h
    rw [hf n hn h]

/-! ## Block scalars

A block scalar is looked for line by line, so here the text up to the colon is cut into lines.
The last of these goes on behind the colon, but its indentation is known before. -/

/-- Without the carriage returns at its end a line is a beginning of itself. -/
theorem isPrefix_dropReturns (l : Text) : Text.dropReturns l <+: l := by
  have := l.reverse.dropWhile_suffix (· = '\r')
  rwa [← List.reverse_prefix, List.reverse_reverse] at this

theorem length_dropReturns_le (l : Text) : (Text.dropReturns l).length ≤ l.length :=
  (isPrefix_dropReturns l).length_le

/-- A block scalar is never shorter than what has been kept of it. -/
theorem blockExtent_ge (owner : Nat) {kept start : Nat} (ls : List Text) (h : kept ≤ start) :
    kept ≤ blockExtent owner kept start ls := by
  induction ls generalizing kept start with
  | nil => exact Nat.le_refl _
  | cons l ls ih =>
    dsimp only [blockExtent]
    split
    · exact ih (by omega)
    · split
      · exact Nat.le_refl _
      · have hl : (Text.dropReturns l).length ≤ l.length := by
          have := (l.reverse.dropWhile_suffix (· = '\r')).length_le
          simpa [Text.dropReturns] using this
        have hle : start + (Text.dropReturns l).length ≤ start + l.length + 1 := by omega
        have := ih hle
        omega

/-- The first line of a text and the others. -/
theorem lines_cons (t : Text) :
    ∃ l ls, Text.lines t = l :: ls ∧ ('\n' ∉ t → l = t ∧ ls = []) := by
  unfold Text.lines
  induction t with
  | nil => exact ⟨[], [], rfl, fun _ => ⟨rfl, rfl⟩⟩
  | cons c t ih =>
    obtain ⟨l, ls, h, hl⟩ := ih
    by_cases hc : c = '\n'
    · exact ⟨[], l :: ls, by simp [Text.splitOn, hc, h], by simp [hc]⟩
    · refine ⟨c :: l, ls, by simp [Text.splitOn, hc, h], fun hn => ?_⟩
      simp only [List.mem_cons, not_or] at hn
      obtain ⟨rfl, rfl⟩ := hl hn.2
      exact ⟨rfl, rfl⟩

/-- Text without a line feed goes into the first line. -/
theorem lines_append {v : Text} (t : Text) (h : '\n' ∉ v) {l : Text} {ls : List Text}
    (ht : Text.lines t = l :: ls) : Text.lines (v ++ t) = (v ++ l) :: ls := by
  unfold Text.lines at ht ⊢
  induction v with
  | nil => exact ht
  | cons c v ih =>
    simp only [List.mem_cons, not_or] at h
    simp [Text.splitOn, Ne.symm h.1, ih h.2]

/-- A piece ends at the first separator. -/
theorem splitOn_break {sep : Char} {v : Text} (h : sep ∉ v) (t : Text) :
    Text.splitOn sep (v ++ sep :: t) = v :: Text.splitOn sep t := by
  induction v with
  | nil => simp [Text.splitOn]
  | cons c v ih =>
    simp only [List.mem_cons, not_or] at h
    simp [Text.splitOn, Ne.symm h.1, ih h.2]

/-- A line ends at the first line feed. -/
theorem lines_break (v t : Text) (h : '\n' ∉ v) : Text.lines (v ++ '\n' :: t) = v :: Text.lines t :=
  splitOn_break h t

/-- A line with a colon is not blank, and its indentation is decided before the colon. -/
theorem dropReturns_append_colon (v l : Text) :
    ∃ r, Text.dropReturns (v ++ ':' :: l) = v ++ ':' :: r := by
  have hd : ∃ u, (l.reverse ++ ':' :: v.reverse).dropWhile (· = '\r') = u ++ ':' :: v.reverse := by
    induction l.reverse with
    | nil => exact ⟨[], by simp⟩
    | cons c u ih =>
      by_cases hc : c = '\r'
      · simpa [hc] using ih
      · exact ⟨c :: u, by simp [hc]⟩
  obtain ⟨u, hu⟩ := hd
  refine ⟨u.reverse, ?_⟩
  unfold Text.dropReturns
  rw [List.reverse_append, List.reverse_cons, List.append_assoc, List.singleton_append, hu]
  simp

/-- The spaces that a line begins with end at the colon at the latest. -/
theorem leadingSpaces_append_colon (v r : Text) :
    Text.leadingSpaces (v ++ ':' :: r) = Text.leadingSpaces (v ++ [':']) := by
  induction v with
  | nil => simp [Text.leadingSpaces]
  | cons c v ih =>
    by_cases hc : c = ' '
    · subst hc
      simp only [Text.leadingSpaces, List.cons_append, decide_true, List.takeWhile_cons_of_pos,
        List.length_cons] at ih ⊢
      rw [ih]
    · simp [Text.leadingSpaces, hc]

/-- A text with a line feed has a first line that ends with one. -/
theorem exists_append_newline {t : Text} (h : '\n' ∈ t) :
    ∃ u w, t = u ++ '\n' :: w ∧ '\n' ∉ u := by
  induction t with
  | nil => simp at h
  | cons c t ih =>
    by_cases hc : c = '\n'
    · exact ⟨[], t, by simp [hc], by simp⟩
    · obtain ⟨u, w, rfl, hu⟩ := ih ((List.mem_cons.mp h).resolve_left (Ne.symm hc))
      exact ⟨c :: u, w, rfl, by simp [Ne.symm hc, hu]⟩

/-- The line with the colon belongs to the scalar or ends it, whatever follows the colon. -/
theorem blockExtent_colonLine {owner kept start : Nat} {v : Text} (hv : '\n' ∉ v)
    (h : blockExtent owner kept start (Text.lines (v ++ ':' :: a)) ≤ start + v.length) :
    blockExtent owner kept start (Text.lines (v ++ ':' :: b)) =
      blockExtent owner kept start (Text.lines (v ++ ':' :: a)) := by
  -- The line of the colon goes on differently in the two texts, and so do the lines behind it.
  have hline (x : Text) : ∃ r ls, Text.lines (v ++ ':' :: x) = (v ++ ':' :: r) :: ls := by
    obtain ⟨l, ls, hx, -⟩ := lines_cons x
    exact ⟨l, ls, lines_append _ hv (by
      have := lines_append (v := [':']) x (by decide) hx
      simpa using this)⟩
  obtain ⟨r, ls, hr⟩ := hline a
  obtain ⟨r', ls', hr'⟩ := hline b
  obtain ⟨q, hq⟩ := dropReturns_append_colon v r
  obtain ⟨q', hq'⟩ := dropReturns_append_colon v r'
  have hblank (x : Text) : Text.allBlank (v ++ ':' :: x) = false := by
    have hcolon : isBlank ':' = false := by decide
    simp [Text.allBlank, hcolon]
  simp only [hr, hr', blockExtent, hq, hq', hblank, leadingSpaces_append_colon v,
    Bool.false_eq_true, if_false] at h ⊢
  -- The line has text, for the colon is in it. If it were part of the scalar then the scalar
  -- would reach beyond the colon.
  by_cases ho : Text.leadingSpaces (v ++ [':']) ≤ owner
  · simp [ho]
  · rw [if_neg ho] at h
    have hlen : (v ++ ':' :: q).length ≤ (v ++ ':' :: r).length := by
      rw [← hq]
      exact length_dropReturns_le _
    have hkept : start + (v ++ ':' :: q).length ≤ start + (v ++ ':' :: r).length + 1 := by omega
    have := blockExtent_ge owner ls hkept
    simp only [List.length_append, List.length_cons] at this h
    omega

/-- A block scalar that ends before the colon ends there whatever follows the colon. The lines
before the one with the colon are the same, and that line is decided by its indentation. -/
theorem blockExtent_append_colon {owner kept start : Nat} {v : Text}
    (h : blockExtent owner kept start (Text.lines (v ++ ':' :: a)) ≤ start + v.length) :
    blockExtent owner kept start (Text.lines (v ++ ':' :: b)) =
      blockExtent owner kept start (Text.lines (v ++ ':' :: a)) := by
  induction hn : v.length using Nat.strongRecOn generalizing v kept start with
  | _ n ih =>
    by_cases hv : '\n' ∈ v
    · obtain ⟨u, w, rfl, hu⟩ := exists_append_newline hv
      simp only [List.append_assoc, List.cons_append, lines_break _ _ hu, List.length_append,
        List.length_cons, blockExtent] at h hn ⊢
      have hl := length_dropReturns_le u
      split
      · rename_i hb
        rw [if_pos hb] at h
        exact ih w.length (by omega) (by omega) rfl
      · rename_i hb
        rw [if_neg hb] at h
        split
        · rfl
        · rename_i ho
          rw [if_neg ho] at h
          exact ih w.length (by omega) (by omega) rfl
    · exact blockExtent_colonLine hv (hn ▸ h)

/-- If the colon belongs to a kind then a run of that kind does not end right before it. -/
theorem runLength_lt_of_colon {p : Char → Bool} (hp : p ':' = true) {v : Text}
    (h : runLength p (v ++ ':' :: a) ≤ v.length) : runLength p (v ++ ':' :: a) < v.length := by
  induction v with
  | nil => simp [runLength, hp] at h
  | cons c v ih =>
    by_cases hc : p c = true
    · simp only [runLength, List.cons_append, hc, List.takeWhile_cons_of_pos, List.length_cons,
        Nat.add_le_add_iff_right, Nat.add_lt_add_iff_right] at h ih ⊢
      exact ih h
    · simp [runLength, hc]

/-- A line break is one or two characters, neither of which is a colon. -/
theorem breakLength_append_colon {w : Text} (hw : w ≠ []) :
    breakLength (w ++ ':' :: a) ≤ w.length ∧
    breakLength (w ++ ':' :: b) = breakLength (w ++ ':' :: a) := by
  rcases w with - | ⟨c, - | ⟨d, w⟩⟩
  · exact absurd rfl hw
  · by_cases hc : c = '\r' <;> simp [breakLength, hc]
  · by_cases hc : c = '\r' ∧ d = '\n'
    · obtain ⟨rfl, rfl⟩ := hc
      simp [breakLength]
    · have h (x : Text) : breakLength (c :: d :: w ++ x) = 1 := by
        simp only [List.cons_append, breakLength]
        split
        · simp_all
        · simp_all
        · rfl
      rw [h, h]
      exact ⟨by simp, rfl⟩

/-- A block scalar is its header and its lines, so its length is decided before the colon as
well. -/
theorem blockLength_append_colon {owner : Nat} {v : Text}
    (h : blockLength owner (v ++ ':' :: a) ≤ v.length) :
    blockLength owner (v ++ ':' :: b) = blockLength owner (v ++ ':' :: a) := by
  have hle : lineLength (v ++ ':' :: a) ≤ v.length :=
    Nat.le_trans (blockExtent_ge _ _ (Nat.le_add_right _ _)) h
  have hlt : lineLength (v ++ ':' :: a) < v.length := runLength_lt_of_colon (by decide) hle
  have hline : lineLength (v ++ ':' :: b) = lineLength (v ++ ':' :: a) := runLength_append_cons hle
  unfold blockLength at h ⊢
  rw [hline]
  generalize lineLength (v ++ ':' :: a) = n at h hle hlt
  have hdrop (m : Nat) (hm : m ≤ v.length) (x : Text) :
      (v ++ ':' :: x).drop m = v.drop m ++ ':' :: x :=
    List.drop_append_of_le_length hm
  have hw : v.drop n ≠ [] := by simpa using hlt
  obtain ⟨hbl, hb⟩ := breakLength_append_colon (a := a) (b := b) hw
  rw [List.length_drop] at hbl
  simp only [hdrop n hle, hb] at h ⊢
  rw [hdrop _ (by omega)] at h ⊢
  rw [hdrop _ (by omega)]
  refine blockExtent_append_colon ?_
  rw [List.length_drop]
  omega

/-! ## One token

The lexer decides by the first characters of a text what it is looking for, and each of its
searches has been dealt with. -/

/-- The line of a mark between documents is decided by four characters at most, and none is a
colon. -/
theorem isMarkerLine_append_colon {m : Char} (hm : m ≠ ':') (c : Char) (v : Text) :
    isMarkerLine m c (v ++ ':' :: b) = isMarkerLine m c (v ++ ':' :: a) := by
  have hm' : (':' == m) = false := by simpa using Ne.symm hm
  have h1 (x : Text) : isMarkerLine m c (':' :: x) = false := by
    cases x <;> simp [isMarkerLine, hm']
  rcases v with - | ⟨d, - | ⟨e, v⟩⟩
  · rw [List.nil_append, List.nil_append, h1, h1]
  · simp [isMarkerLine, hm']
  · simp only [List.cons_append, isMarkerLine, blankAhead_append_cons (a := a) v ':']

namespace LexState

variable {s : LexState}

/-- A plain word is the same token as before. -/
theorem scanPlain_append_colon {c : Char} {v : Text}
    (hab : colonEndsWord s.inFlow a = true → colonEndsWord s.inFlow b = true)
    (h : (s.scanPlain c (v ++ ':' :: a)).2 ≤ v.length) :
    s.scanPlain c (v ++ ':' :: b) = s.scanPlain c (v ++ ':' :: a) := by
  dsimp only [scanPlain] at h ⊢
  rw [wordLength_append_colon hab h, List.take_append_of_le_length h,
    List.take_append_of_le_length h]

/-- Of two results only the one that is chosen has to agree. -/
theorem ite_eq_of_le {p : Prop} [Decidable p] {x x' y y' : TokenKind × Nat} {n : Nat}
    (h : (if p then x else y).2 ≤ n) (hx : x.2 ≤ n → x' = x) (hy : y.2 ≤ n → y' = y) :
    (if p then x' else y') = if p then x else y := by
  split
  · rename_i hp
    exact hx (by rwa [if_pos hp] at h)
  · rename_i hp
    exact hy (by rwa [if_neg hp] at h)

/-- So is any token that may stand inside a line, indicator or scalar. -/
theorem scanInLine_append_colon {c : Char} {v : Text}
    (hab : colonEndsWord s.inFlow a = true → colonEndsWord s.inFlow b = true)
    (h : (s.scanInLine c (v ++ ':' :: a)).2 ≤ v.length) :
    s.scanInLine c (v ++ ':' :: b) = s.scanInLine c (v ++ ':' :: a) := by
  have hblank := blankAhead_append_cons (a := a) (b := b) v ':'
  have hword := colonEndsWord_append_cons (a := a) (b := b) s.inFlow v ':'
  have hhead := head?_append_cons (a := a) (b := b) v ':'
  have hplain := scanPlain_append_colon (c := c) (v := v) hab
  unfold scanInLine at h ⊢
  simp only [hblank, hword, hhead] at h ⊢
  -- What decides about a branch of the scanner stands before the colon, or is the colon. What a
  -- branch counts is counted again behind the same guard.
  have hrun (k : TokenKind) {p : Char → Bool} (h : runLength p (v ++ ':' :: a) ≤ v.length) :
      (k, runLength p (v ++ ':' :: b)) = (k, runLength p (v ++ ':' :: a)) := by
    rw [runLength_append_cons h]
  have hblock (k : TokenKind) {n : Nat} (h : blockLength n (v ++ ':' :: a) ≤ v.length) :
      (k, blockLength n (v ++ ':' :: b)) = (k, blockLength n (v ++ ':' :: a)) := by
    rw [blockLength_append_colon h]
  split at h
  case h_1 => rfl
  case h_2 => rfl
  case h_3 => exact hrun _ h
  case h_4 => exact hrun _ h
  case h_5 => exact hrun _ h
  case h_14 =>
    exact ite_eq_of_le h (quotedToken_append_colon fun n => singleQuotedLength_append_colon) hplain
  case h_15 =>
    exact ite_eq_of_le h (quotedToken_append_colon fun n => doubleQuotedLength_append_colon) hplain
  case h_16 => exact ite_eq_of_le h (hblock _) hplain
  case h_17 => exact ite_eq_of_le h (hblock _) hplain
  case h_18 => exact ite_eq_of_le h (hrun _) hplain
  case h_19 => exact ite_eq_of_le h (hrun _) hplain
  case h_20 => exact ite_eq_of_le h (hrun _) hplain
  case h_21 => exact hplain h
  all_goals exact ite_eq_of_le h (fun _ => rfl) hplain

/-- So is a token at the start of a line : indentation, the mark of a document, a directive. -/
theorem scan_append_colon {c : Char} {v : Text}
    (hab : colonEndsWord s.inFlow a = true → colonEndsWord s.inFlow b = true)
    (h : (s.scan c (v ++ ':' :: a)).2 ≤ v.length) :
    s.scan c (v ++ ':' :: b) = s.scan c (v ++ ':' :: a) := by
  have hinline := scanInLine_append_colon (c := c) (v := v) hab
  have hdash := isMarkerLine_append_colon (a := a) (b := b) (show '-' ≠ ':' by decide) c v
  have hdot := isMarkerLine_append_colon (a := a) (b := b) (show '.' ≠ ':' by decide) c v
  unfold scan scanLineStart at h ⊢
  simp only [hdash, hdot] at h ⊢
  split
  · rename_i hs
    rw [if_pos hs] at h
    split
    · rfl
    · split
      · rfl
      · split
        · rename_i h1 h2 h3
          simp only [if_neg h1, if_neg h2, if_pos h3, Option.getD_some] at h ⊢
          rw [lineLength, runLength_append_cons h, ← lineLength]
        · split
          · rename_i h1 h2 h3 h4
            simp only [if_neg h1, if_neg h2, if_neg h3, if_pos h4, Option.getD_some] at h ⊢
            rw [runLength_append_cons h]
          · rename_i h1 h2 h3 h4
            simp only [if_neg h1, if_neg h2, if_neg h3, if_neg h4, Option.getD_none] at h ⊢
            exact hinline h
  · rename_i hs
    rw [if_neg hs] at h
    exact hinline h

/-- A token is cut off where the text behind it begins. -/
theorem Reads.scan_eq {x : Token} {t : Text} (h : s.Reads x t) (ht : t ≠ []) :
    ∃ c u, x.text = c :: u ∧ s.scan c (u ++ t) = (x.kind, u.length) := by
  obtain ⟨c, u, hx, hk, hd⟩ := h
  refine ⟨c, u, hx, Prod.ext hk ?_⟩
  have hlen := congrArg List.length hd
  have := List.length_pos_iff.mpr ht
  simp only [List.length_drop, List.length_append] at hlen
  dsimp only
  omega

/-- A token that ends before the colon is read in the same way, whatever follows the colon. -/
theorem Reads.behind_colon {x : Token} {u : Text} (h : s.Reads x (u ++ ':' :: a))
    (hab : colonEndsWord s.inFlow a = true → colonEndsWord s.inFlow b = true) :
    s.Reads x (u ++ ':' :: b) := by
  obtain ⟨c, w, hx, hs⟩ := h.scan_eq (by simp)
  obtain ⟨k, w'⟩ := x
  simp only at hx hs
  subst hx
  refine .of_scan ?_
  rw [← List.append_assoc] at hs ⊢
  rw [scan_append_colon hab (by rw [hs]; simp), hs]

/-- A colon is read as the indicator of a value where it ends a word or follows a quoted key. -/
theorem Reads.scan_colon {x : Token} (hx : x.kind = colon) (h : s.Reads x a) :
    x.text = [':'] ∧ (colonEndsWord s.inFlow a || s.afterJsonValue) = true := by
  obtain ⟨c, u, ht, hk, hd⟩ := h
  have hscan := s.scanned c (u ++ a)
  rw [hx] at hk
  generalize s.scan c (u ++ a) = r at hscan hk hd
  cases hscan with
  | colon hc hend =>
    obtain rfl : u = [] := by simpa using hd
    exact ⟨by rw [ht, hc], hend⟩
  | mark hc =>
    simp only at hk
    subst hk
    unfold markKind? at hc
    split at hc <;> cases hc
  | property hc => rcases hc with ⟨-, rfl⟩ | ⟨-, rfl⟩ <;> cases hk
  | other h =>
    simp only at hk
    subst hk
    cases h
  | _ => cases hk

/-- The colon of an entry is one whatever follows it. -/
theorem Reads.colon_behind {x : Token} (hx : x.kind = colon) (h : s.Reads x a)
    (hab : colonEndsWord s.inFlow a = true → colonEndsWord s.inFlow b = true) : s.Reads x b := by
  obtain ⟨ht, hend⟩ := h.scan_colon hx
  obtain ⟨k, w⟩ := x
  simp only at hx ht
  subst hx ht
  refine .of_scan ?_
  have : (colonEndsWord s.inFlow b || s.afterJsonValue) = true := by
    rw [Bool.or_eq_true] at hend ⊢
    exact hend.imp_left hab
  rw [List.nil_append, scan_eq_scanInLine (.inr (by decide))]
  simp [scanInLine, this]

end LexState

/-- What is read up to a colon does not depend on what stands behind it. -/
theorem Cuts.behind_colon {s : LexState} {xs : List Token} {x : Token} (hx : x.kind = colon)
    (h : Cuts s (xs ++ [x]) a) (hab : ∀ f, colonEndsWord f a = true → colonEndsWord f b = true) :
    Cuts s (xs ++ [x]) b := by
  have hcolon : x.text = [':'] := ((Cuts.cases_cons h.right).1.scan_colon hx).1
  induction xs generalizing s with
  | nil => exact .cons ((Cuts.cases_cons h).1.colon_behind hx (hab _)) (.nil _ b)
  | cons y ys ih =>
    rw [List.cons_append] at h ⊢
    obtain ⟨hy, h⟩ := Cuts.cases_cons h
    refine .cons ?_ (ih h)
    rw [Token.join_append, Token.join_cons, hcolon, Token.join_nil, List.append_assoc] at hy ⊢
    exact LexState.Reads.behind_colon (u := Token.join ys) hy (hab _)

end YamlPatch
