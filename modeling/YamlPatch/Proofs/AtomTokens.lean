import YamlPatch.Proofs.PlainText
import YamlPatch.Tree.Lookahead

/-!
# The tokens of an atom

An atom that is made in one of the usual ways (`Atom.Made`) is written as the words of a plain
text or as one quoted token (`Atom.tokens`). Where a node may stand it is read as these tokens
(`Atom.Made.cuts_tokens`), and the scalar node that holds them stands for the text of the atom
(`Atom.Made.value_node`).

Plain atoms are settled by what `needsQuotes` refuses and by the few characters that numbers are
written with. For quoted atoms the scanner of the quotes is followed along the encoding, one
character of the decoded text at a time : what a character is encoded as never ends the quotes,
so the first quote that ends them is the one behind the encoding.

No atom is written with a control character. So it stays on one line, and folding leaves it
alone.
-/

namespace YamlPatch

open TokenKind LexState

/-! ## Texts that are plain

Two kinds of text are written without quotes : strings in which `needsQuotes` finds nothing, and
the texts of numbers. Both are plain in the sense of the lexer. -/

/-- A character that may stand anywhere in plain text. -/
def isFreeChar (c : Char) : Bool := isPlainChar c && !isBlank c && c != '?' && c != '-'

/-- It is a plain character, not white space, and neither of the two signs that are restricted
at the start of a text. -/
theorem isFreeChar_iff {c : Char} :
    isFreeChar c = true ↔ isPlainChar c = true ∧ isBlank c = false ∧ c ≠ '?' ∧ c ≠ '-' := by
  simp [isFreeChar, and_assoc]

/-- A text of such characters is plain, wherever each of them stands. -/
theorem PlainText.of_chars {w : Text} (hne : w ≠ []) (h : w.all isFreeChar = true) :
    PlainText w := by
  have h : ∀ c ∈ w, isPlainChar c = true ∧ isBlank c = false ∧ c ≠ '?' ∧ c ≠ '-' := fun c hc =>
    isFreeChar_iff.mp (List.all_eq_true.mp h c hc)
  refine ⟨hne, fun c hc => (h c hc).1, ?_, fun c hc => (h c (List.mem_of_getLast? hc)).2.1, ?_⟩
  · rintro c u rfl
    obtain ⟨-, hb, hq, hd⟩ := h c (by simp)
    exact ⟨hb, hq, fun hc => absurd hc hd⟩
  · rintro u rfl
    exact (h '-' (by simp)).2.2.2 rfl

/-- A minus sign may stand before characters that are free, though it is not free itself. -/
theorem PlainText.neg {w : Text} (hne : w ≠ []) (h : w.all isFreeChar = true) :
    PlainText ('-' :: w) := by
  have hw := PlainText.of_chars hne h
  refine ⟨by simp, ?_, ?_, ?_, ?_⟩
  · intro c hc
    rcases List.mem_cons.mp hc with rfl | hc
    · decide
    · exact hw.chars c hc
  · rintro c u he
    obtain ⟨rfl, rfl⟩ := List.cons.inj he
    obtain ⟨d, v, rfl⟩ := List.exists_cons_of_ne_nil hne
    exact ⟨by decide, by decide, fun _ => (hw.head d v rfl).1⟩
  · intro c hc
    rw [List.getLast?_cons_of_ne_nil hne] at hc
    exact hw.last c hc
  · intro u he
    obtain ⟨-, rfl⟩ := List.cons.inj he
    exact (isFreeChar_iff.mp (List.all_eq_true.mp h '-' (by simp))).2.2.2 rfl

/-- Digits are such characters. -/
theorem isFreeChar_of_isDigit {c : Char} (h : c.isDigit = true) : isFreeChar c = true := by
  have hc : 48 ≤ c.toNat ∧ c.toNat ≤ 57 := by
    simp only [Char.isDigit, Bool.and_eq_true, decide_eq_true_eq] at h
    exact h
  have he (d : Char) (hd : c = d) : 48 ≤ d.toNat ∧ d.toNat ≤ 57 := hd ▸ hc
  refine isFreeChar_iff.mpr
    ⟨?_, ?_, fun hq => absurd (he _ hq) (by decide), fun hq => absurd (he _ hq) (by decide)⟩
  · simp only [isPlainChar, Bool.and_eq_true, Bool.not_eq_true']
    constructor
    · cases hi : isIndicator c with
      | false => rfl
      | true =>
        have hnone : ":#&*!|>'\"%@`,[]\x7b\x7d".toList.all (fun d => d.toNat < 48 || 57 < d.toNat) =
            true := by
          decide
        have := List.all_eq_true.mp hnone c (List.contains_iff_mem.mp hi)
        simp only [Bool.or_eq_true, decide_eq_true_eq] at this
        omega
    · simp only [isControl, Bool.or_eq_false_iff, Bool.and_eq_false_iff, decide_eq_false_iff_not]
      omega
  · cases hb : isBlank c with
    | false => rfl
    | true =>
      obtain ⟨r, hr, h1, h2⟩ := isBlank_iff.mp hb
      have hr : ∀ r ∈ blankRanges, r.2 < 48 ∨ 57 < r.1 := by decide
      have := hr r ‹_›
      omega

/-- So are the characters of a natural number, its digits. -/
theorem isFreeChar_of_mem_naturalText {n : Nat} {c : Char} (h : c ∈ naturalText n) :
    isFreeChar c = true :=
  isFreeChar_of_isDigit (Nat.isDigit_of_mem_toDigits (by decide) (by decide) h)

/-- A number is written with a digit at least. -/
theorem naturalText_ne_nil (n : Nat) : naturalText n ≠ [] := Nat.toDigits_ne_nil

/-- Integers are plain : digits, with a minus sign before them where they are negative. -/
theorem plainText_integerText (n : Int) : PlainText (integerText n) := by
  unfold integerText
  split
  · exact .neg (naturalText_ne_nil _) (List.all_eq_true.mpr fun _ => isFreeChar_of_mem_naturalText)
  · exact .of_chars (naturalText_ne_nil _) (List.all_eq_true.mpr fun _ =>
      isFreeChar_of_mem_naturalText)

/-- The positional form of a double has digits and a point. -/
theorem isFreeChar_of_mem_positional {d : Nat} {g : Int} {c : Char}
    (h : c ∈ Double.positional d g) : isFreeChar c = true := by
  have hzero : ∀ c, c = '0' ∨ c = '.' → isFreeChar c = true := by
    rintro c (rfl | rfl) <;> decide
  dsimp only [Double.positional] at h
  split at h
  · rcases List.mem_append.mp h with h | h
    · exact isFreeChar_of_mem_naturalText h
    · exact hzero c (.inl (List.eq_of_mem_replicate h))
  · split at h
    · rcases List.mem_append.mp h with h | h
      · exact isFreeChar_of_mem_naturalText (List.mem_of_mem_take h)
      · rcases List.mem_cons.mp h with h | h
        · exact hzero c (.inr h)
        · exact isFreeChar_of_mem_naturalText (List.mem_of_mem_drop h)
    · rcases List.mem_append.mp h with h | h
      · rcases List.mem_cons.mp h with h | h
        · exact hzero c (.inl h)
        · rcases List.mem_cons.mp h with h | h
          · exact hzero c (.inr h)
          · exact hzero c (.inl (List.eq_of_mem_replicate h))
      · exact isFreeChar_of_mem_naturalText h

/-- It is never empty. -/
theorem positional_ne_nil (d : Nat) (g : Int) : Double.positional d g ≠ [] := by
  dsimp only [Double.positional]
  split
  · simp [naturalText_ne_nil]
  · split <;> simp

/-- Doubles are plain : a positional form, perhaps behind a minus sign, or one of the words for
infinity and for what is no number. -/
theorem plainText_double (d : Double) : PlainText d.text := by
  have hsign (negative : Bool) {w : Text} (hne : w ≠ []) (h : w.all isFreeChar = true) :
      PlainText ((if negative then ['-'] else []) ++ w) := by
    cases negative
    · exact .of_chars hne h
    · exact .neg hne h
  cases d with
  | nan => exact .of_chars (by decide) (by decide)
  | infinite negative => exact hsign negative (by decide) (by decide)
  | finite negative m q =>
    refine hsign negative ?_ ?_
    · split
      · simp
      · exact positional_ne_nil _ _
    · split
      · decide
      · exact List.all_eq_true.mpr fun _ => isFreeChar_of_mem_positional

/-- A text from which nothing is dropped does not begin with what would be dropped. -/
theorem StopsAt.of_dropWhile {p : Char → Bool} {t : Text} (h : t.dropWhile p = t) :
    StopsAt p t := by
  rintro c u rfl
  cases hc : p c with
  | false => rfl
  | true =>
    have hl := congrArg List.length h
    have := (List.dropWhile_suffix p (l := u)).length_le
    simp only [List.dropWhile_cons, hc, if_true, List.length_cons] at hl
    omega

/-- Trimmed text has white space at neither end. -/
theorem stopsAt_of_trim {t : Text} (h : Text.trim t = t) :
    StopsAt isBlank t ∧ StopsAt isBlank t.reverse := by
  have hs : (Text.trimStart t).length ≤ t.length := (List.dropWhile_suffix isBlank).length_le
  have he : (Text.trim t).length ≤ (Text.trimStart t).length := by
    have := (List.dropWhile_suffix isBlank (l := (Text.trimStart t).reverse)).length_le
    simpa [Text.trim, Text.trimEnd] using this
  have hstart : Text.trimStart t = t :=
    (List.dropWhile_suffix isBlank).eq_of_length
      (by rw [h] at he; unfold Text.trimStart at *; omega)
  refine ⟨.of_dropWhile hstart, .of_dropWhile ?_⟩
  rw [Text.trim, hstart, Text.trimEnd] at h
  rw [← List.reverse_eq_iff, h]

/-- A string that needs no quotes is plain. -/
theorem plainText_of_needsQuotes {t : Text} (h : needsQuotes t = false) : PlainText t := by
  simp only [needsQuotes, Bool.or_eq_false_iff, bne_eq_false_iff_eq, beq_eq_false_iff_ne,
    List.any_eq_false, List.isEmpty_eq_false_iff] at h
  obtain ⟨⟨⟨⟨⟨⟨hne, htrim⟩, -⟩, -⟩, hchars⟩, hdash⟩, hquestion⟩ := h
  obtain ⟨hs, he⟩ := stopsAt_of_trim htrim
  refine ⟨hne, fun c hc => ?_, ?_, fun c hc => ?_, fun u hu => hdash (by simp [hu])⟩
  · have := hchars c hc
    simp only [Bool.or_eq_true, not_or, Bool.not_eq_true] at this
    simp [isPlainChar, this]
  · rintro c u rfl
    exact ⟨hs c u rfl, fun hc => hquestion (by simp [hc]), fun hc => absurd (by simp [hc]) hdash⟩
  · obtain ⟨u, rfl⟩ := List.getLast?_eq_some_iff.mp hc
    exact he c u.reverse (by simp)

/-! ## Atoms

What is proved of atoms is proved of those that can be made, whichever style they have taken
over from another scalar. Their style says which of the three ways to write them is used. -/

namespace Atom

/-- An atom made from a text in any style, from a number, or from one of the words for booleans
and null. -/
inductive Made : Atom → Prop where
  | withStyle (t : Text) (s : Style) : Made (withStyle t s)
  | ofInt (n : Int) : Made (ofInt n)
  | ofDouble (d : Double) : Made (ofDouble d)
  | ofBool (b : Bool) : Made (ofBool b)
  | null : Made null

/-- An atom made from a text has the style that suits the text. -/
theorem Made.ofText (t : Text) : Made (Atom.ofText t) := .withStyle t _

/-- An atom is made in one of the usual ways also when it takes over the quotes of another. -/
theorem Made.styledLike {a : Atom} (h : a.Made) (s : Style) : (a.styledLike s).Made := by
  unfold Atom.styledLike
  split
  · rename_i hs
    cases h with
    | withStyle t s' => exact .withStyle t s
    | _ => nomatch hs.1
  · exact h

/-- What is written without quotes is plain text. -/
theorem Made.plainText {a : Atom} (h : a.Made) (hw : a.written = .plain) : PlainText a.text := by
  cases h with
  | withStyle t s =>
    cases hn : needsQuotes t with
    | false => exact plainText_of_needsQuotes hn
    | true =>
      cases s <;> simp only [written, Atom.withStyle] at hw <;> first | cases hw | skip
      · simp only [Style.fitting, hn, if_true] at hw
        repeat' split at hw
        all_goals cases hw
      · by_cases hc : t.any isControl = true <;> simp [hc] at hw
  | ofInt n => exact plainText_integerText n
  | ofDouble d => exact plainText_double d
  | ofBool b => cases b <;> exact .of_chars (by decide) (by decide)
  | null => exact .of_chars (by decide) (by decide)

/-- Single quotes never hold a control character. -/
theorem not_isControl_of_written {a : Atom} (h : a.written = .singleQuoted) :
    a.text.any isControl = false := by
  cases hc : a.text.any isControl with
  | false => rfl
  | true =>
    unfold written at h
    split at h
    · split at h
      · simp [Style.fitting, hc] at h
      · cases h
    · simp [hc] at h
    · cases h

/-- The tokens of the atom in a document. -/
def tokens (a : Atom) : List Token :=
  match a.written with
  | .plain => plainTokens a.text
  | .singleQuoted => [⟨singleQuoted, a.render⟩]
  | _ => [⟨doubleQuoted, a.render⟩]

/-- The tokens make up the text that is written. -/
theorem join_tokens (a : Atom) : Token.join a.tokens = a.render := by
  unfold tokens
  split
  · rename_i h
    rw [join_plainTokens, render, h]
  · simp
  · simp

end Atom

/-! ## Quoted text

The scanners count characters up to the quote that ends them. An encoding is taken apart from
the front, and what a single character is encoded as is passed over as a whole. -/

/-- Behind a single quote the encoding is passed over up to its closing quote, unless another
quote follows that one. Quotes inside are doubled, which never ends the text. -/
theorem singleQuotedLength_encode (w : Text) {t : Text} (ht : StopsAt (· == '\'') t) :
    singleQuotedLength (SingleQuoted.encode w ++ '\'' :: t) =
      some ((SingleQuoted.encode w).length + 1) := by
  unfold SingleQuoted.encode
  induction w with
  | nil =>
    cases t with
    | nil => rfl
    | cons c t =>
      have hc : c ≠ '\'' := by simpa using ht c t rfl
      simp [Text.replaceChar, singleQuotedLength, hc]
  | cons c w ih =>
    by_cases hc : c = '\''
    · subst hc
      simp [Text.replaceChar, singleQuotedLength, ih]
    · simp [Text.replaceChar, hc, singleQuotedLength, ih]

/-- A character that is neither an escape nor a quote is passed over. -/
theorem doubleQuotedLength_cons {c : Char} (h : c ≠ '\\' ∧ c ≠ '"') (t : Text) :
    doubleQuotedLength (c :: t) = (doubleQuotedLength t).map (· + 1) := by
  rw [doubleQuotedLength]
  · exact fun hc _ => h.1 hc
  · exact fun _ _ hc _ => h.1 hc
  · exact h.2

/-- What one character is encoded as is passed over, also where it is an escape. -/
theorem doubleQuotedLength_encodeChar (c : Char) (t : Text) :
    doubleQuotedLength (DoubleQuoted.encodeChar c ++ t) =
      (doubleQuotedLength t).map (· + (DoubleQuoted.encodeChar c).length) := by
  have hex : ∀ m : Fin 16, hexDigit m ≠ '\\' ∧ hexDigit m ≠ '"' := by decide
  unfold DoubleQuoted.encodeChar
  repeat' split
  all_goals try rfl
  · rename_i hc
    have hlt : c.toNat < 0xA0 := by
      simp only [isControl, Bool.or_eq_true, Bool.and_eq_true, decide_eq_true_eq] at hc
      omega
    have h1 := doubleQuotedLength_cons (hex ⟨c.toNat / 16, by omega⟩)
    have h2 := doubleQuotedLength_cons (hex ⟨c.toNat % 16, by omega⟩)
    simp [doubleQuotedLength, h1, h2, Function.comp_def, Nat.add_assoc]
  · rename_i h1 h2 _ _ _ _ _ _
    simpa using doubleQuotedLength_cons ⟨h2, h1⟩ t

/-- Behind a double quote the encoding is passed over up to its closing quote. -/
theorem doubleQuotedLength_encode (w t : Text) :
    doubleQuotedLength (DoubleQuoted.encode w ++ '"' :: t) =
      some ((DoubleQuoted.encode w).length + 1) := by
  induction w with
  | nil => rfl
  | cons c w ih =>
    have he : DoubleQuoted.encode (c :: w) = DoubleQuoted.encodeChar c ++ DoubleQuoted.encode w :=
      rfl
    rw [he, List.append_assoc, doubleQuotedLength_encodeChar, ih, List.length_append]
    simp only [Option.map_some, Option.some.injEq]
    omega

/-- A scalar that begins with a plain token stands for its text with the lines folded. -/
theorem Scalar.value_of_isPlain {t : Tree} {k : TokenKind} (h : firstKind? t = some k)
    (hk : k.isPlain = true) : value t = foldLines t.text := by
  cases k <;> first | exact absurd hk Bool.false_ne_true | simp [value, h]

/-! ## Atoms where a node may start

Whatever the atom, the lexer needs to be where a node may start, and the text behind has to end
a word or a quote. -/

/-- Where a word ends no quote follows, for a quote belongs to a word. -/
theorem stopsAt_of_wordLength {f : Bool} {t : Text} (h : wordLength f t = 0) :
    StopsAt (· == '\'') t := by
  rintro c u rfl
  cases hc : c == '\'' with
  | false => exact hc
  | true =>
    obtain rfl := beq_iff_eq.mp hc
    have hb : isBlank '\'' = false := by decide
    have hf : isFlowMark '\'' = false := by decide
    simp [wordLength, hb, hf] at h

/-! ## No control characters

Line breaks and tabs are control characters. What has none stays on its line, whatever it is
joined to. -/

/-- The text has no control characters, and so it is on one line. -/
def NoControls (t : Text) : Prop := ∀ c ∈ t, isControl c = false

namespace NoControls

variable {c : Char} {t u : Text}

/-- The empty text has none. -/
theorem nil : NoControls [] := by simp [NoControls]

/-- A character may be added that is none. -/
theorem cons (hc : isControl c = false) (h : NoControls t) : NoControls (c :: t) :=
  List.forall_mem_cons.mpr ⟨hc, h⟩

/-- Two texts without are one without. -/
theorem append (ht : NoControls t) (hu : NoControls u) : NoControls (t ++ u) :=
  List.forall_mem_append.mpr ⟨ht, hu⟩

/-- The check on all characters says so. -/
theorem of_all (h : t.all (fun c => !isControl c) = true) : NoControls t := by
  simpa [NoControls] using h

/-- No control character is in the text. -/
theorem not_mem (h : NoControls t) (hc : isControl c = true) : c ∉ t :=
  fun hmem => absurd (h c hmem) (by simp [hc])

end NoControls

namespace Atom

variable {a : Atom} {s : LexState} {t : Text}

/-- Whether the atom is plain, and if not, which kind of token it is. -/
theorem tokens_cases (a : Atom) :
    a.written = .plain ∧ a.tokens = plainTokens a.text ∧ a.render = a.text ∨
      a.written = .singleQuoted ∧ a.tokens = [⟨singleQuoted, a.render⟩] ∧
        a.render = '\'' :: (SingleQuoted.encode a.text ++ ['\'']) ∨
      a.written = .doubleQuoted ∧ a.tokens = [⟨doubleQuoted, a.render⟩] ∧
        a.render = '"' :: (DoubleQuoted.encode a.text ++ ['"']) := by
  rcases a.written_cases with h | h | h <;> simp [tokens, render, h]

/-- Single quotes add quotes only. -/
theorem noControls_encode {w : Text} (h : w.any isControl = false) :
    NoControls (SingleQuoted.encode w) := by
  unfold SingleQuoted.encode
  induction w with
  | nil => exact .nil
  | cons c w ih =>
    simp only [List.any_cons, Bool.or_eq_false_iff] at h
    refine .append ?_ (ih h.2)
    split
    · exact .of_all rfl
    · exact .cons h.1 .nil

/-- What is written for an atom has no control characters. -/
theorem Made.noControls (ha : a.Made) : NoControls a.render := by
  have hmark {q : Char} (hq : isControl q = false) {w : Text} (hw : NoControls w) :
      NoControls (q :: (w ++ [q])) := .cons hq (hw.append (.cons hq .nil))
  rcases a.tokens_cases with ⟨hw, -, hr⟩ | ⟨hw, -, hr⟩ | ⟨hw, -, hr⟩ <;> rw [hr]
  · intro c hc
    have := (ha.plainText hw).chars c hc
    simp only [isPlainChar, Bool.and_eq_true, Bool.not_eq_true'] at this
    exact this.2
  · exact hmark (by decide) (noControls_encode (not_isControl_of_written hw))
  · exact hmark (by decide) fun _ => DoubleQuoted.not_isControl_of_mem_encode

/-- What is written for an atom stays on one line. -/
theorem Made.newline_not_mem (ha : a.Made) : '\n' ∉ a.render := ha.noControls.not_mem (by decide)

/-- Where a node may start, an atom is read as its tokens if the text behind it ends a word; behind
quotes it is enough that no other quote follows. -/
theorem Made.cuts_tokens (ha : a.Made) (hs : s.atNodeStart = true)
    (hplain : a.written = .plain → wordLength s.inFlow t = 0)
    (hquoted : a.written = .singleQuoted → StopsAt (· == '\'') t)
    (hline : a.written = .plain → s.atLineStart = true → ∀ c u, a.text = c :: u →
      isMarkerLine '-' c (u ++ t) = false ∧ isMarkerLine '.' c (u ++ t) = false) :
    Cuts s a.tokens t := by
  rcases a.tokens_cases with ⟨hw, ht, hr⟩ | ⟨hw, ht, hr⟩ | ⟨hw, ht, hr⟩ <;> rw [ht]
  · exact cuts_plainTokens (ha.plainText hw) (hplain hw) (hline hw)
  · refine .cons ?_ (.nil _ t)
    rw [hr]
    refine .of_scan ?_
    rw [scan_eq_scanInLine (.inr (by decide))]
    have := singleQuotedLength_encode a.text (hquoted hw)
    simp [scanInLine, hs, quotedToken, this]
  · refine .cons ?_ (.nil _ t)
    rw [hr]
    refine .of_scan ?_
    rw [scan_eq_scanInLine (.inr (by decide))]
    have := doubleQuotedLength_encode a.text t
    simp [scanInLine, hs, quotedToken, this]

/-- Behind an atom indicators have no meaning. -/
theorem Made.within_afterAll (ha : a.Made) (s : LexState) : (s.afterAll a.tokens).Within := by
  have hn := ha.newline_not_mem
  rcases a.tokens_cases with ⟨hw, ht, hr⟩ | ⟨hw, ht, hr⟩ | ⟨hw, ht, hr⟩ <;> rw [ht]
  · exact (ha.plainText hw).within_afterAll s
  · exact ⟨rfl, rfl, s.atLineStart_after (by simp [hr]) hn⟩
  · exact ⟨rfl, rfl, s.atLineStart_after (by simp [hr]) hn⟩

/-- Each of the tokens is a word, a space or a quoted text. -/
theorem kind_of_mem_tokens {x : Token} (hx : x ∈ a.tokens) :
    x.kind.isPlain = true ∨ x.kind = space ∨ x.kind.isQuoted = true := by
  rcases a.tokens_cases with ⟨-, ht, -⟩ | ⟨-, ht, -⟩ | ⟨-, ht, -⟩ <;> rw [ht] at hx
  · rcases kind_of_mem_plainTokens hx with h | h
    · exact .inl h
    · exact .inr (.inl h)
  · exact .inr (.inr (by rw [List.mem_singleton.mp hx]; rfl))
  · exact .inr (.inr (by rw [List.mem_singleton.mp hx]; rfl))

/-- None of them opens or closes a flow collection. -/
theorem depth_afterAll_tokens (a : Atom) (s : LexState) :
    (s.afterAll a.tokens).depth = s.depth := by
  refine depth_afterAll_eq fun x hx n => ?_
  have h := kind_of_mem_tokens hx
  obtain ⟨k, u⟩ := x
  cases k <;> first | rfl | simp [isPlain, isQuoted] at h

/-! ## What the tokens stand for

Reading undoes writing : the quotes are taken off, escapes are decoded, and folding finds one
line. -/

/-- The scalar node of the tokens. -/
def node (a : Atom) : Tree := .node .scalar (a.tokens.map .token)

/-- The node has the text that is written. -/
theorem text_node (a : Atom) : a.node.text = a.render := by
  rw [node, Tree.text_node, Tree.textOf, Tree.leavesOf_map_token, join_tokens]

/-- A text without the separator is one part. -/
theorem splitOn_of_not_mem {c : Char} {w : Text} (h : c ∉ w) : Text.splitOn c w = [w] := by
  induction w with
  | nil => rfl
  | cons d w ih =>
    simp only [List.mem_cons, not_or] at h
    simp [Text.splitOn, Ne.symm h.1, ih h.2]

/-- Text on one line is not folded. -/
theorem foldLines_of_not_mem {w : Text} (h : '\n' ∉ w) : foldLines w = w := by
  simp [foldLines, Text.lines, splitOn_of_not_mem h]

/-- Between its quotes a scalar has what was put there. -/
theorem inner_append (c d : Char) (w : Text) : Scalar.inner (c :: (w ++ [d])) = w := by
  simp [Scalar.inner]

/-- The scalar node of an atom stands for its text. -/
theorem Made.value_node (ha : a.Made) : Scalar.value a.node = a.text := by
  have htext := a.text_node
  have hn := ha.newline_not_mem
  have hl : a.node.leaves = a.tokens := by simp [node, Tree.leaves]
  rcases a.tokens_cases with ⟨hw, ht, hr⟩ | ⟨hw, ht, hr⟩ | ⟨hw, ht, hr⟩
  · obtain ⟨x, xs, hx, hk⟩ := (ha.plainText hw).exists_cons
    have htrivia : x.kind.isTrivia = false := by
      obtain ⟨k, u⟩ := x
      cases k <;> first | rfl | cases hk
    have hf : Scalar.firstKind? a.node = some x.kind := by
      simp [Scalar.firstKind?, hl, ht, hx, htrivia]
    rw [hr] at hn
    rw [Scalar.value_of_isPlain hf hk, htext, hr, foldLines_of_not_mem hn]
  · have hf : Scalar.firstKind? a.node = some singleQuoted := by
      simp [Scalar.firstKind?, hl, ht, isTrivia]
    have hfold :=
      foldLines_of_not_mem ((noControls_encode (not_isControl_of_written hw)).not_mem (by decide))
    simp [Scalar.value, hf, htext, hr, inner_append, hfold, SingleQuoted.decode_encode]
  · have hf : Scalar.firstKind? a.node = some doubleQuoted := by
      simp [Scalar.firstKind?, hl, ht, isTrivia]
    have hnl : '\n' ∉ DoubleQuoted.encode a.text := fun hn =>
      absurd (DoubleQuoted.not_isControl_of_mem_encode hn) (by decide)
    have hfold := foldLines_of_not_mem hnl
    simp [Scalar.value, hf, htext, hr, inner_append, hfold, DoubleQuoted.decode_encode]

end Atom

end YamlPatch
