import YamlPatch.Token.Lexer

/-!
# Where a text is cut

The tokens of a text are known as soon as each is known to be read where it stands :
`LexState.Reads s x t` says that in the context `s` the token `x` is the first of a text that
goes on with `t`, and `Cuts s xs t` that the tokens `xs` are the first ones. The lemmas here say
when a token of each kind is read. What they ask of the text behind it is about its first
characters.

The other way round, `Scanned` says what a token that was read looks like : what its first
character is, how far it goes and in which context it was read. It lists what the lexer may do
at a character, so facts about all tokens of a text are proved by one look at that list, without
opening the lexer again.
-/

namespace YamlPatch

open TokenKind

namespace LexState

/-- The context once the tokens have been read. -/
def afterAll (s : LexState) (xs : List Token) : LexState := xs.foldl after s

/-- No tokens leave the context as it is. -/
@[simp] theorem afterAll_nil (s : LexState) : s.afterAll [] = s := rfl

/-- The first token is read before the others. -/
@[simp] theorem afterAll_cons (s : LexState) (x : Token) (xs : List Token) :
    s.afterAll (x :: xs) = (s.after x).afterAll xs := rfl

/-- So are the tokens of a first part. -/
@[simp] theorem afterAll_append (s : LexState) (xs ys : List Token) :
    s.afterAll (xs ++ ys) = (s.afterAll xs).afterAll ys := List.foldl_append

/-- The token `x` is read in the context `s` if `t` follows it. -/
def Reads (s : LexState) (x : Token) (t : Text) : Prop :=
  ∃ c u, x.text = c :: u ∧ (s.scan c (u ++ t)).1 = x.kind ∧
    (u ++ t).drop (s.scan c (u ++ t)).2 = t

/-- A token is read if the scanner gives its kind and the length behind its first character. -/
theorem Reads.of_scan {s : LexState} {k : TokenKind} {c : Char} {u t : Text}
    (h : s.scan c (u ++ t) = (k, u.length)) : s.Reads ⟨k, c :: u⟩ t :=
  ⟨c, u, rfl, by rw [h], by rw [h, List.drop_left]⟩

/-- The tokens of a text begin with the one that is read, and go on with those of the rest. -/
theorem Reads.lexFrom_eq {s : LexState} {x : Token} {t : Text} (h : s.Reads x t) :
    lexFrom s (x.text ++ t) = x :: lexFrom (s.after x) t := by
  obtain ⟨c, u, hx, hk, hd⟩ := h
  have htake : (u ++ t).take (s.scan c (u ++ t)).2 = u := by
    have h := List.take_append_drop (s.scan c (u ++ t)).2 (u ++ t)
    rw [hd] at h
    exact List.append_cancel_right h
  have htoken : s.token c (u ++ t) = x := by
    rw [LexState.token, htake, hk, ← hx]
  rw [hx, List.cons_append, lexFrom, htoken, hd]

end LexState

open LexState

/-- The first token of a text is read before what follows it. -/
theorem reads_of_lexFrom {s : LexState} {t : Text} {x : Token} {xs : List Token}
    (h : lexFrom s t = x :: xs) :
    s.Reads x (Token.join xs) ∧ lexFrom (s.after x) (Token.join xs) = xs := by
  cases t with
  | nil => simp [lexFrom] at h
  | cons c t =>
    rw [lexFrom] at h
    obtain ⟨hx, hxs⟩ := List.cons.inj h
    have hj : Token.join xs = t.drop (s.scan c t).2 := by rw [← hxs, join_lexFrom]
    have ht : t.take (s.scan c t).2 ++ Token.join xs = t := by rw [hj, List.take_append_drop]
    subst hx
    refine ⟨⟨c, t.take (s.scan c t).2, rfl, ?_, ?_⟩, by rw [hj, hxs]⟩
    · rw [ht]
      rfl
    · rw [ht, hj]

/-! ## Several tokens

Tokens in a row are read if each is, in the context that those before it leave and with the
others before what follows. Rows are put together and taken apart at any point. -/

/-- The tokens `xs` are read one after the other if `t` follows them. -/
def Cuts (s : LexState) (xs : List Token) (t : Text) : Prop :=
  lexFrom s (Token.join xs ++ t) = xs ++ lexFrom (s.afterAll xs) t

namespace Cuts

variable {s : LexState} {x : Token} {xs ys : List Token} {t : Text}

/-- No tokens are always read. -/
theorem nil (s : LexState) (t : Text) : Cuts s [] t := rfl

/-- A token is read and then the others are. -/
theorem cons (hx : s.Reads x (Token.join xs ++ t)) (h : Cuts (s.after x) xs t) :
    Cuts s (x :: xs) t := by
  unfold Cuts at h ⊢
  rw [Token.join_cons, List.append_assoc, hx.lexFrom_eq, h]
  rfl

/-- Tokens that are read in a row may be given in two parts. -/
theorem append (hx : Cuts s xs (Token.join ys ++ t)) (hy : Cuts (s.afterAll xs) ys t) :
    Cuts s (xs ++ ys) t := by
  unfold Cuts at hx hy ⊢
  rw [Token.join_append, List.append_assoc, hx, hy, afterAll_append, List.append_assoc]

/-- The first of some tokens is read before the others. -/
theorem cases_cons (h : Cuts s (x :: xs) t) :
    s.Reads x (Token.join xs ++ t) ∧ Cuts (s.after x) xs t := by
  have h : lexFrom s (Token.join (x :: xs) ++ t) = x :: (xs ++ lexFrom (s.afterAll (x :: xs)) t) :=
    h
  obtain ⟨hx, hxs⟩ := reads_of_lexFrom h
  rw [Token.join_append, join_lexFrom] at hx hxs
  exact ⟨hx, hxs⟩

/-- A first part is read if the second part follows it. -/
theorem left (h : Cuts s (xs ++ ys) t) : Cuts s xs (Token.join ys ++ t) := by
  induction xs generalizing s with
  | nil => exact .nil s _
  | cons x xs ih =>
    obtain ⟨hx, h⟩ := cases_cons h
    exact .cons (by simpa using hx) (ih h)

/-- The second part is read behind the first. -/
theorem right (h : Cuts s (xs ++ ys) t) : Cuts (s.afterAll xs) ys t := by
  induction xs generalizing s with
  | nil => exact h
  | cons x xs ih => exact ih (cases_cons h).2

/-- The tokens of a text are read one after the other. -/
theorem of_lexFrom (h : lexFrom s t = xs) : Cuts s xs [] := by
  unfold Cuts
  rw [← h, join_lexFrom, List.append_nil]
  simp [lexFrom]

/-- If nothing follows, these are the tokens of the whole text. -/
theorem lexFrom_eq (h : Cuts s xs []) : lexFrom s (Token.join xs) = xs := by
  unfold Cuts at h
  simpa [lexFrom] using h

end Cuts

/-! ## Runs of characters

Most tokens are runs : they take the characters with some property and stop at the first that
does not have it. -/

/-- A run ends at an element that does not belong to it. -/
theorem eq_false_of_dropWhile {α : Type} {p : α → Bool} {xs zs : List α} {z : α}
    (h : xs.dropWhile p = z :: zs) : p z = false := by
  simpa [h] using List.head?_dropWhile_not p xs

/-- A list begins with a run, and goes on with what does not belong to it. -/
theorem exists_run {α : Type} (p : α → Bool) (xs : List α) :
    ∃ ys zs, xs = ys ++ zs ∧ (∀ y ∈ ys, p y = true) ∧ ∀ z vs, zs = z :: vs → p z = false :=
  ⟨xs.takeWhile p, xs.dropWhile p, List.takeWhile_append_dropWhile.symm,
    List.all_eq_true.mp List.all_takeWhile, fun _ _ => eq_false_of_dropWhile⟩

/-- The text does not begin with a character in `p`. -/
def StopsAt (p : Char → Bool) (t : Text) : Prop := ∀ c u, t = c :: u → p c = false

/-- Nothing is dropped from such a text. -/
theorem StopsAt.dropWhile_eq {p : Char → Bool} {t : Text} (h : StopsAt p t) :
    t.dropWhile p = t := by
  cases t with
  | nil => rfl
  | cons c u => rw [List.dropWhile_cons_of_neg (by simp [h c u rfl])]

/-- Nothing is taken from it either. -/
theorem StopsAt.takeWhile_eq {p : Char → Bool} {t : Text} (h : StopsAt p t) :
    t.takeWhile p = [] := by
  cases t with
  | nil => rfl
  | cons c u => rw [List.takeWhile_cons_of_neg (by simp [h c u rfl])]

/-- A run goes on up to the first character that does not belong to it. -/
theorem runLength_append {p : Char → Bool} {u t : Text} (hu : ∀ c ∈ u, p c = true)
    (ht : StopsAt p t) : runLength p (u ++ t) = u.length := by
  induction u with
  | nil =>
    cases t with
    | nil => rfl
    | cons c t => simp [runLength, ht c t rfl]
  | cons c u ih =>
    have hc := hu c (by simp)
    have := ih fun d hd => hu d (by simp [hd])
    simpa [runLength, hc] using this

/-- A word goes on over characters that are neither white space nor colons nor marks. -/
theorem wordLength_append {f : Bool} {u : Text} (t : Text)
    (hu : ∀ c ∈ u, isBlank c = false ∧ c ≠ ':' ∧ isFlowMark c = false) :
    wordLength f (u ++ t) = wordLength f t + u.length := by
  induction u with
  | nil => rfl
  | cons c u ih =>
    obtain ⟨hb, hc, hf⟩ := hu c (by simp)
    have ih := ih fun d hd => hu d (by simp [hd])
    have hc : (c == ':') = false := by simpa using hc
    simp [wordLength, hb, hc, hf, ih, Nat.add_assoc]

/-! ## Marks and white space

Marks and the colon are single characters, white space and line breaks are runs. Whether a dash
or a colon is an indicator depends on the character behind it. -/

/-- The marks of flow collections. -/
def markKind? (c : Char) : Option TokenKind :=
  match c with
  | '[' => some leftBracket
  | ']' => some rightBracket
  | '\x7b' => some leftBrace
  | '\x7d' => some rightBrace
  | ',' => some comma
  | _ => none

/-- A word has a plain kind, whichever it is classified as. -/
theorem isPlain_classify (w : Text) : (classify w).isPlain = true := by
  unfold classify
  repeat' split
  all_goals rfl

/-- The words for null are those of the table, and no others. -/
theorem classify_eq_null_iff {w : Text} : classify w = null ↔ w ∈ nullWords := by
  unfold classify
  constructor
  · intro h
    repeat' split at h
    all_goals first | assumption | cases h
  · intro h
    have hboolean : w ∉ booleanWords := by
      simp only [nullWords, List.mem_cons, List.not_mem_nil, or_false] at h
      rcases h with rfl | rfl | rfl | rfl <;> decide
    rw [if_neg hboolean, if_pos h]

namespace LexState

variable {s : LexState} {t : Text}

theorem isPlain_scanPlain (s : LexState) (c : Char) (t : Text) :
    (s.scanPlain c t).1.isPlain = true := isPlain_classify _

/-- Most characters mean the same at the start of a line as inside it. -/
theorem scan_eq_scanInLine {c : Char}
    (h : s.atLineStart = false ∨ c ≠ '-' ∧ c ≠ '.' ∧ c ≠ '%' ∧ c ≠ ' ' ∧ c ≠ '\t') (t : Text) :
    s.scan c t = s.scanInLine c t := by
  unfold scan
  rcases h with h | ⟨h1, h2, h3, h4, h5⟩
  · simp [h]
  · have hm (m : Char) (hm : c ≠ m) : isMarkerLine m c t = false := by
      unfold isMarkerLine
      split <;> simp [hm]
    simp [scanLineStart, hm _ h1, hm _ h2, h3, isSpaceOrTab, h4, h5]

/-- A mark is read in a flow collection and where a node may start. -/
theorem reads_mark (hs : (s.inFlow || s.atNodeStart) = true) (t : Text) :
    s.Reads ⟨leftBracket, ['[']⟩ t ∧ s.Reads ⟨rightBracket, [']']⟩ t ∧
      s.Reads ⟨leftBrace, ['\x7b']⟩ t ∧ s.Reads ⟨rightBrace, ['\x7d']⟩ t ∧
      s.Reads ⟨comma, [',']⟩ t := by
  refine ⟨.of_scan ?_, .of_scan ?_, .of_scan ?_, .of_scan ?_, .of_scan ?_⟩
  all_goals
    rw [scan_eq_scanInLine (.inr (by decide))]
    simp [scanInLine, hs]

/-- So it is with each of the marks. -/
theorem reads_markKind (hs : (s.inFlow || s.atNodeStart) = true) {c : Char} {k : TokenKind}
    (hc : markKind? c = some k) (t : Text) : s.Reads ⟨k, [c]⟩ t := by
  have h := s.reads_mark hs t
  unfold markKind? at hc
  split at hc <;> cases hc
  · exact h.1
  · exact h.2.1
  · exact h.2.2.1
  · exact h.2.2.2.1
  · exact h.2.2.2.2

/-- A colon is an indicator where it ends a word. -/
theorem reads_colon (ht : colonEndsWord s.inFlow t = true) : s.Reads ⟨colon, [':']⟩ t := by
  refine .of_scan ?_
  rw [scan_eq_scanInLine (.inr (by decide))]
  simp [scanInLine, ht]

/-- A space inside a line is one token if no other follows. -/
theorem reads_space (hs : s.atLineStart = false) (ht : StopsAt isSpaceOrTab t) :
    s.Reads ⟨space, [' ']⟩ t := by
  refine .of_scan ?_
  rw [scan_eq_scanInLine (.inl hs)]
  have := runLength_append (u := []) (by simp) ht
  simpa [scanInLine] using this

/-- A line break is read in every context. -/
theorem reads_lineBreak (s : LexState) (t : Text) :
    s.Reads ⟨lineBreak, ['\n']⟩ t ∧ s.Reads ⟨lineBreak, ['\r', '\n']⟩ t := by
  refine ⟨.of_scan ?_, .of_scan ?_⟩
  all_goals
    rw [scan_eq_scanInLine (.inr (by decide))]
    simp [scanInLine]

/-- A return is a line break of its own if no line feed follows. -/
theorem reads_return (s : LexState) {t : Text} (ht : StopsAt (· == '\n') t) :
    s.Reads ⟨lineBreak, ['\r']⟩ t := by
  have hstop : t.head? ≠ some '\n' := by
    intro hh
    cases t with
    | nil => cases hh
    | cons d t =>
      obtain rfl := Option.some.inj hh
      exact absurd (ht _ _ rfl) (by decide)
  refine .of_scan ?_
  rw [scan_eq_scanInLine (.inr (by decide))]
  simp [scanInLine, hstop]

/-- At the start of a line spaces are an indentation. -/
theorem reads_indent (hs : s.atLineStart = true) (n : Nat) (ht : StopsAt isSpaceOrTab t) :
    s.Reads ⟨indent, List.replicate (n + 1) ' '⟩ t := by
  rw [List.replicate_succ]
  refine .of_scan ?_
  have hr := runLength_append (u := List.replicate n ' ') (t := t)
    (by simp +contextual [isSpaceOrTab]) ht
  have hm (m : Char) (hm : ' ' ≠ m) (u : Text) : isMarkerLine m ' ' u = false := by
    unfold isMarkerLine
    split <;> simp [hm]
  simp [scan, hs, scanLineStart, hm _ (show ' ' ≠ '-' by decide), hm _ (show ' ' ≠ '.' by decide),
    isSpaceOrTab, hr]

/-- A dash before a space is an indicator where only dashes stand before it on the line, outside
of flow collections. -/
theorem reads_dash (hf : s.inFlow = false) (hd : s.onlyDashes = true) (t : Text) :
    s.Reads ⟨dash, ['-']⟩ (' ' :: t) := by
  refine .of_scan ?_
  have hm (m : Char) (hm : ' ' ≠ m) : isMarkerLine m '-' (' ' :: t) = false := by
    cases t <;> simp [isMarkerLine, hm]
  have hb : isBlank ' ' = true := by decide
  have hl : s.scanInLine '-' (' ' :: t) = (dash, 0) := by
    simp [scanInLine, blankAhead, hb, hf, hd]
  have hn : s.scanLineStart '-' (' ' :: t) = none := by
    simp [scanLineStart, hm _ (show ' ' ≠ '-' by decide), hm _ (show ' ' ≠ '.' by decide),
      isSpaceOrTab]
  simp [scan, hn, hl]

/-! ## What a token begins with

The converse of the lemmas above : from a token that was read, its first character and its
length, with the state that it was read in. -/

/-- Kinds of tokens whose length and context are of no concern here. -/
def isOther (k : TokenKind) : Bool :=
  k.isPlain || k.isMarker || k.isQuoted || k == unterminated || k == reference || k == question

/-- What is scanned tells what it begins with, how long it is and where it stands. -/
inductive Scanned (s : LexState) (c : Char) (t : Text) : TokenKind × Nat → Prop where
  | indent (hs : s.atLineStart = true) (hc : isSpaceOrTab c = true) :
      Scanned s c t (indent, runLength isSpaceOrTab t)
  | space (hs : s.atLineStart = false) (hc : isSpaceOrTab c = true) :
      Scanned s c t (space, runLength isSpaceOrTab t)
  | lineFeed (hc : c = '\n') : Scanned s c t (lineBreak, 0)
  | carriageReturn (hc : c = '\r') :
      Scanned s c t (lineBreak, if t.head? = some '\n' then 1 else 0)
  | comment (hc : c = '#') : Scanned s c t (comment, lineLength t)
  | colon (hc : c = ':') (ht : (colonEndsWord s.inFlow t || s.afterJsonValue) = true) :
      Scanned s c t (colon, 0)
  | dash (hc : c = '-') (hs : s.inFlow = false) (hd : s.onlyDashes = true) : Scanned s c t (dash, 0)
  | mark {k : TokenKind} (hc : markKind? c = some k) : Scanned s c t (k, 0)
  | property {k : TokenKind} (hc : c = '&' ∧ k = anchor ∨ c = '!' ∧ k = tag)
      (hs : s.atNodeStart = true) (ht : blankAhead t = false) : Scanned s c t (k, propertyLength t)
  | blockScalar {n : Nat} (hs : s.inFlow = false) : Scanned s c t (blockScalar, n)
  | other {k : TokenKind} {n : Nat} (hk : isOther k = true) : Scanned s c t (k, n)

/-- A plain word is one of the other kinds. -/
theorem scanned_plain (s : LexState) (c : Char) (t : Text) : Scanned s c t (s.scanPlain c t) := by
  have h := s.isPlain_scanPlain c t
  generalize s.scanPlain c t = r at h
  exact .other (by simp only [isOther, h, Bool.true_or])

/-- Inside a line there is one case for each kind of first character. White space at the start
of a line is left out, since an indentation would be read there. -/
theorem scanned_inLine (s : LexState) (c : Char) (t : Text)
    (hs : s.atLineStart = true → isSpaceOrTab c = false) : Scanned s c t (s.scanInLine c t) := by
  have hspace (hc : isSpaceOrTab c = true) : s.atLineStart = false := by
    cases h : s.atLineStart
    · rfl
    · exact absurd (hs h) (by simp [hc])
  have hplain := s.scanned_plain c t
  -- One case for each first character that the scanner asks for. Where its guard fails a plain
  -- word is scanned.
  dsimp only [scanInLine, quotedToken]
  split
  case h_1 => exact .lineFeed rfl
  case h_2 => exact .carriageReturn rfl
  case h_3 => exact .space (hspace rfl) rfl
  case h_4 => exact .space (hspace rfl) rfl
  case h_5 => exact .comment rfl
  case h_6 =>
    split
    · rename_i h
      simp only [Bool.and_eq_true, Bool.not_eq_true'] at h
      exact .dash rfl h.1.2 h.2
    · exact hplain
  case h_8 => split <;> first | exact .colon rfl ‹_› | exact hplain
  case h_16 =>
    split
    · rename_i h
      exact .blockScalar (by simp only [Bool.and_eq_true, Bool.not_eq_true'] at h; exact h.1)
    · exact hplain
  case h_17 =>
    split
    · rename_i h
      exact .blockScalar (by simp only [Bool.and_eq_true, Bool.not_eq_true'] at h; exact h.1)
    · exact hplain
  case h_18 =>
    split
    · rename_i h
      simp only [Bool.and_eq_true, Bool.not_eq_true'] at h
      exact .property (.inl ⟨rfl, rfl⟩) h.1 h.2
    · exact hplain
  case h_20 =>
    split
    · rename_i h
      simp only [Bool.and_eq_true, Bool.not_eq_true'] at h
      exact .property (.inr ⟨rfl, rfl⟩) h.1 h.2
    · exact hplain
  case h_21 => exact hplain
  all_goals
    split
    · first | exact .mark rfl | exact .other rfl | (split <;> exact .other rfl)
    · exact hplain

/-- At the start of a line there may also be an indentation or a marker of the document. -/
theorem scanned (s : LexState) (c : Char) (t : Text) : Scanned s c t (s.scan c t) := by
  unfold scan scanLineStart
  split
  · rename_i hs
    split
    · exact .other rfl
    · split
      · exact .other rfl
      · split
        · exact .other rfl
        · split
          · exact .indent hs ‹_›
          · rename_i hc
            exact s.scanned_inLine c t fun _ => by simpa using hc
  · rename_i hs
    exact s.scanned_inLine c t fun h => absurd h hs

/-- Trivia are white space of full length, a line break, or a comment to the end of the line. -/
theorem Scanned.of_isTrivia {s : LexState} {c : Char} {t : Text} {r : TokenKind × Nat}
    (h : Scanned s c t r) (hr : r.1.isTrivia = true) :
    (r.1 = .indent ∨ r.1 = .space) ∧ isSpaceOrTab c = true ∧ r.2 = runLength isSpaceOrTab t ∨
      r.1 = .lineBreak ∧ (c = '\n' ∨ c = '\r') ∨ r.1 = .comment ∧ c = '#' ∧ r.2 = lineLength t := by
  cases h with
  | indent _ hc => exact .inl ⟨.inl rfl, hc, rfl⟩
  | space _ hc => exact .inl ⟨.inr rfl, hc, rfl⟩
  | lineFeed hc => exact .inr (.inl ⟨rfl, .inl hc⟩)
  | carriageReturn hc => exact .inr (.inl ⟨rfl, .inr hc⟩)
  | comment hc => exact .inr (.inr ⟨rfl, hc, rfl⟩)
  | mark hc =>
    unfold markKind? at hc
    split at hc <;> cases hc <;> cases hr
  | property hc => rcases hc with ⟨-, rfl⟩ | ⟨-, rfl⟩ <;> cases hr
  | @other k n hk =>
    revert hk hr
    cases k <;> simp [isOther, isTrivia, isPlain, isMarker, isQuoted]
  | _ => cases hr

end LexState

end YamlPatch
