import Mathlib.Data.List.Chain
import YamlPatch.Proofs.Endings
import YamlPatch.Proofs.PlainText

/-!
# The same tokens in other surroundings

White space, comments, anchors and tags are read by their own characters : all that the text
behind them has to do is not to go on with them (`EndsAt`). So they are read in front of another
node just as they were (`Cuts.of_heads`), and what ends a line is read behind another node
(`Cuts.of_endsLine`).

Inside a flow collection the context behind a value is forgotten at the comma or bracket that
follows. From there on two contexts differ in the line so far (`Near`), which is looked at only
by a block scalar, and there is none before the next line feed (`Calm`).

What is known of any two tokens that are read one behind the other is known along the tokens of
a text (`isChain_start`).

A tag or an anchor without a name is the one token that may become another one when the text
behind it changes : before a mark of flow collections it is a property, and before white space a
word. Therefore `EndsAt` asks for more than that a run stops there.
-/

namespace YamlPatch

open TokenKind LexState

/-! ## Tokens before a node

What belongs to such a token is decided character by character, and it ends where a character
comes that does not go on with it. -/

/-- The tokens that may stand between an indicator and its node. -/
def TokenKind.isHead (k : TokenKind) : Bool := k.isTrivia || k.isProperty

/-- No mark of flow collections stands before its node. -/
theorem isHead_of_markKind? {c : Char} {k : TokenKind} (h : markKind? c = some k) :
    k.isHead = false := by
  unfold markKind? at h
  split at h <;> cases h <;> rfl

/-- Nor does an item indicator, a scalar or a line of another kind. -/
theorem isHead_of_isOther {k : TokenKind} (h : isOther k = true) : k.isHead = false := by
  cases k <;> first | rfl | cases h

/-- The text does not go on with the token. An anchor or a tag without a name needs a mark behind
it. -/
def EndsAt (x : Token) (t : Text) : Prop :=
  match x.kind with
  | space | indent => StopsAt isSpaceOrTab t
  | comment => StopsAt (fun c => c != '\n' && c != '\r') t
  | lineBreak => x.text = ['\r'] → StopsAt (· == '\n') t
  | _ =>
    StopsAt (fun c => !isBlank c && !isFlowMark c) t ∧ (x.text.length = 1 → blankAhead t = false)

/-- Where a run stops is decided by the next character. -/
theorem StopsAt.of_head? {p : Char → Bool} {t t' : Text} (h : StopsAt p t)
    (ht : t'.head? = t.head?) : StopsAt p t' := by
  rintro c u rfl
  cases t with
  | nil => cases ht
  | cons d t =>
    obtain rfl := Option.some.inj ht
    exact h _ _ rfl

/-- So is whether a text goes on with a token. -/
theorem EndsAt.of_head? {x : Token} {t t' : Text} (h : EndsAt x t) (ht : t'.head? = t.head?) :
    EndsAt x t' := by
  have hb : blankAhead t' = blankAhead t := by
    cases t <;> cases t' <;> simp_all [blankAhead]
  unfold EndsAt at h ⊢
  split at h
  · exact h.of_head? ht
  · exact h.of_head? ht
  · exact h.of_head? ht
  · exact fun hx => (h hx).of_head? ht
  · exact ⟨h.1.of_head? ht, fun hx => hb.trans (h.2 hx)⟩

/-- A run that takes just a first part of a text stops behind it. -/
theorem of_runLength_append {p : Char → Bool} {u t : Text}
    (h : (u ++ t).drop (runLength p (u ++ t)) = t) : (∀ c ∈ u, p c = true) ∧ StopsAt p t := by
  have hlen : runLength p (u ++ t) = u.length := by
    have hle : runLength p (u ++ t) ≤ (u ++ t).length := (List.takeWhile_prefix p).length_le
    have := congrArg List.length h
    simp only [List.length_drop, List.length_append] at this hle
    omega
  clear h
  induction u with
  | nil =>
    refine ⟨by simp, ?_⟩
    rintro c w rfl
    by_cases hc : p c = true
    · simp [runLength, hc] at hlen
    · simpa using hc
  | cons c u ih =>
    by_cases hc : p c = true
    · obtain ⟨hu, ht⟩ := ih (by simpa [runLength, hc] using hlen)
      exact ⟨by simpa [hc] using hu, ht⟩
    · simp [runLength, hc] at hlen

namespace LexState

variable {s s' : LexState} {x : Token} {t t' : Text}

/-- A run is read as a token wherever the text behind it does not go on with it. -/
theorem reads_run {k : TokenKind} {p : Char → Bool} {c : Char} {u : Text}
    (hscan : s.scan c (u ++ t) = (k, runLength p (u ++ t))) (hu : ∀ d ∈ u, p d = true)
    (ht : StopsAt p t) : s.Reads ⟨k, c :: u⟩ t := by
  refine .of_scan ?_
  rw [hscan, runLength_append hu ht]

/-- White space is read as space inside a line. -/
theorem scan_space (hs : s.atLineStart = false) {c : Char} (hc : isSpaceOrTab c = true) (t : Text) :
    s.scan c t = (space, runLength isSpaceOrTab t) := by
  have hc : c = ' ' ∨ c = '\t' := by simpa [isSpaceOrTab] using hc
  rw [scan_eq_scanInLine (.inl hs)]
  rcases hc with rfl | rfl <;> rfl

/-- White space is read as indentation at the start of a line. -/
theorem scan_indent (hs : s.atLineStart = true) {c : Char} (hc : isSpaceOrTab c = true) (t : Text) :
    s.scan c t = (indent, runLength isSpaceOrTab t) := by
  have hm (m : Char) (hm : isSpaceOrTab m = false) : isMarkerLine m c t = false := by
    have : (c == m) = false := by
      cases h : c == m
      · rfl
      · rw [beq_iff_eq] at h
        rw [h, hm] at hc
        cases hc
    unfold isMarkerLine
    split <;> simp [this]
  have hp : c ≠ '%' := by
    rintro rfl
    cases hc
  simp [scan, scanLineStart, hs, hm '-' (by decide), hm '.' (by decide), hp, hc]

/-- A token that may stand before a node is read by its own characters. -/
theorem Reads.of_head (hx : x.kind.isHead = true) (h : s.Reads x t)
    (hline : x.kind = space ∨ x.kind = indent → s'.atLineStart = s.atLineStart)
    (hnode : x.kind.isProperty = true → s'.atNodeStart = s.atNodeStart) (ht : EndsAt x t') :
    s'.Reads x t' := by
  obtain ⟨c, u, hu, hk, hd⟩ := h
  have hscan := s.scanned c (u ++ t)
  generalize s.scan c (u ++ t) = r at hscan hk hd
  obtain ⟨k, w⟩ := x
  simp only at hu hk
  subst hu hk
  -- In each case the first character says what is scanned in the other state, and the text behind
  -- the token how long it is.
  cases hscan with
  | indent hs hc =>
    exact reads_run (scan_indent ((hline (.inr rfl)).trans hs) hc _) (of_runLength_append hd).1 ht
  | space hs hc =>
    exact reads_run (scan_space ((hline (.inl rfl)).trans hs) hc _) (of_runLength_append hd).1 ht
  | lineFeed hc =>
    obtain rfl : u = [] := by simpa using hd
    subst hc
    exact (s'.reads_lineBreak t').1
  | carriageReturn hc =>
    subst hc
    dsimp only at hd
    split at hd
    · rename_i hh
      cases u with
      | nil =>
        have := congrArg List.length hd
        cases t <;> simp at hh this
      | cons d u =>
        obtain rfl := Option.some.inj hh
        obtain rfl : u = [] := by simpa using hd
        exact (s'.reads_lineBreak t').2
    · obtain rfl : u = [] := by simpa using hd
      exact s'.reads_return (ht rfl)
  | comment hc =>
    subst hc
    refine reads_run ?_ (of_runLength_append hd).1 ht
    rw [scan_eq_scanInLine (.inr (by decide))]
    rfl
  | property hc hs hb =>
    -- A property of one character is a word if white space follows it.
    have hb' : blankAhead (u ++ t') = false := by
      cases u with
      | nil => rcases hc with ⟨rfl, rfl⟩ | ⟨rfl, rfl⟩ <;> exact ht.2 rfl
      | cons d u => exact hb
    have hrun := (of_runLength_append hd).1
    rcases hc with ⟨rfl, rfl⟩ | ⟨rfl, rfl⟩
    all_goals
      have hs' := (hnode rfl).trans hs
      refine reads_run ?_ hrun ht.1
      rw [scan_eq_scanInLine (.inr (by decide))]
      simp [scanInLine, hs', hb', propertyLength]
  | mark hk => exact absurd hx (by simp [isHead_of_markKind? hk])
  | other hk => exact absurd hx (by simp [isHead_of_isOther hk])
  | _ => cases hx

/-- Where such a token was read, the text behind does not go on with it. -/
theorem Reads.endsAt (hx : x.kind.isHead = true) (h : s.Reads x t) : EndsAt x t := by
  obtain ⟨c, u, hu, hk, hd⟩ := h
  have hscan := s.scanned c (u ++ t)
  generalize s.scan c (u ++ t) = r at hscan hk hd
  obtain ⟨k, w⟩ := x
  simp only at hu hk
  subst hu hk
  cases hscan with
  | indent hs hc => exact (of_runLength_append hd).2
  | space hs hc => exact (of_runLength_append hd).2
  | lineFeed hc =>
    intro he
    obtain ⟨rfl, -⟩ := List.cons.inj he
    cases hc
  | carriageReturn hc =>
    intro he
    obtain ⟨-, rfl⟩ := List.cons.inj he
    dsimp only at hd
    split at hd
    · have := congrArg List.length hd
      rename_i hh
      cases t <;> simp at hh this
    · rename_i hh
      rintro d t rfl
      simpa using hh
  | comment hc => exact (of_runLength_append hd).2
  | property hc hs hb =>
    have hrun := (of_runLength_append hd).2
    have hone (k : TokenKind) : (⟨k, c :: u⟩ : Token).text.length = 1 → blankAhead t = false := by
      intro hl
      obtain rfl : u = [] := List.length_eq_zero_iff.mp (by simpa using hl)
      exact hb
    rcases hc with ⟨rfl, rfl⟩ | ⟨rfl, rfl⟩ <;> exact ⟨hrun, hone _⟩
  | mark hk => exact absurd hx (by simp [isHead_of_markKind? hk])
  | other hk => exact absurd hx (by simp [isHead_of_isOther hk])
  | _ => cases hx

/-- White space inside a line and comments hold no line feed. -/
theorem Reads.newline_not_mem (hx : x.kind = space ∨ x.kind = indent ∨ x.kind = comment)
    (h : s.Reads x t) : '\n' ∉ x.text := by
  obtain ⟨c, u, hu, hk, hd⟩ := h
  have hscan := s.scanned c (u ++ t)
  generalize s.scan c (u ++ t) = r at hscan hk hd
  obtain ⟨k, w⟩ := x
  simp only at hu hk
  subst hu hk
  have hmem {p : Char → Bool} (hp : p '\n' = false) (hc : p c = true)
      (hu : ∀ d ∈ u, p d = true) : '\n' ∉ c :: u := by
    intro hm
    rcases List.mem_cons.mp hm with rfl | hm
    · rw [hp] at hc
      cases hc
    · rw [hu _ hm] at hp
      cases hp
  cases hscan with
  | indent hs hc => exact hmem (by decide) hc (of_runLength_append hd).1
  | space hs hc => exact hmem (by decide) hc (of_runLength_append hd).1
  | comment hc =>
    subst hc
    exact hmem (by decide) (by decide) (of_runLength_append hd).1
  | property hc => rcases hc with ⟨-, rfl⟩ | ⟨-, rfl⟩ <;> simp at hx
  | mark hc =>
    have := isHead_of_markKind? hc
    rcases hx with rfl | rfl | rfl <;> cases this
  | other hk => rcases hx with rfl | rfl | rfl <;> cases hk
  | _ => simp at hx

/-- White space is indentation at the start of a line and nowhere else. -/
theorem Reads.atLineStart_eq (h : s.Reads x t) :
    (x.kind = space → s.atLineStart = false) ∧ (x.kind = indent → s.atLineStart = true) := by
  obtain ⟨c, u, -, hk, -⟩ := h
  have hscan := s.scanned c (u ++ t)
  generalize s.scan c (u ++ t) = r at hscan hk
  constructor
  · intro hx
    rw [hx] at hk
    obtain ⟨k, n⟩ := r
    obtain rfl : k = space := hk
    cases hscan with
    | space hs => exact hs
    | mark hm => exact absurd (isHead_of_markKind? hm) (by decide)
    | property hp => rcases hp with ⟨-, h⟩ | ⟨-, h⟩ <;> cases h
    | other ho => cases ho
  · intro hx
    rw [hx] at hk
    obtain ⟨k, n⟩ := r
    obtain rfl : k = indent := hk
    cases hscan with
    | indent hs => exact hs
    | mark hm => exact absurd (isHead_of_markKind? hm) (by decide)
    | property hp => rcases hp with ⟨-, h⟩ | ⟨-, h⟩ <;> cases h
    | other ho => cases ho

/-- White space is as long as it can be, so no space stands directly behind it. -/
theorem Reads.kind_behind_ne_space {y : Token} (h : s.Reads x (y.text ++ t))
    (hx : x.kind = space ∨ x.kind = indent) (hy : (s.after x).Reads y t) : y.kind ≠ space := by
  intro hk
  have hstop : StopsAt isSpaceOrTab (y.text ++ t) := by
    have hend := h.endsAt (by rcases hx with hx | hx <;> rw [hx] <;> rfl)
    rcases hx with hx | hx <;> rwa [EndsAt, hx] at hend
  obtain ⟨c, u, hu, hscan, -⟩ := hy
  rw [hu] at hstop
  rcases ((s.after x).scanned c (u ++ t)).of_isTrivia (by rw [hscan, hk]; rfl) with ⟨-, hc, -⟩ | ⟨h,
    -⟩ | ⟨h, -⟩
  · cases (hstop c _ rfl).symm.trans hc
  · cases (hscan.symm.trans h).symm.trans hk
  · cases (hscan.symm.trans h).symm.trans hk

/-- A token has at least one character. -/
theorem Reads.text_ne_nil (h : s.Reads x t) : x.text ≠ [] := by
  obtain ⟨c, u, hu, -⟩ := h
  simp [hu]

end LexState

/-- Tokens before a node are read before another text that does not go on with the last of them. -/
theorem Cuts.of_heads {s : LexState} {xs : List Token} {t t' : Text}
    (hxs : ∀ x ∈ xs, x.kind.isHead = true) (h : Cuts s xs t)
    (hlast : ∀ x, xs.getLast? = some x → EndsAt x t') : Cuts s xs t' := by
  induction xs generalizing s with
  | nil => exact .nil s t'
  | cons x xs ih =>
    obtain ⟨hx, h⟩ := Cuts.cases_cons h
    have hk := hxs x (by simp)
    refine .cons (hx.of_head hk (fun _ => rfl) (fun _ => rfl) ?_)
      (ih (fun y hy => hxs y (by simp [hy])) h ?_)
    · cases xs with
      | nil => exact hlast x rfl
      | cons y ys =>
        refine (hx.endsAt hk).of_head? ?_
        obtain ⟨c, u, hu⟩ := List.exists_cons_of_ne_nil (Cuts.cases_cons h).1.text_ne_nil
        simp [hu]
    · cases xs with
      | nil => simp
      | cons y ys => exact fun z hz => hlast z (by simpa using hz)

/-! ## Tokens side by side

What holds of any two neighbours is stated once for the tokens of a text. -/

section

variable {R : TokenKind → TokenKind → Prop} (hR : ∀ {s : LexState} {x y : Token} {t : Text},
  s.Reads x (y.text ++ t) → (s.after x).Reads y t → R x.kind y.kind)
include hR

/-- A relation between neighbours holds along all tokens that are read one behind the other. -/
theorem Cuts.isChain {s : LexState} {xs : List Token} (h : Cuts s xs []) :
    xs.IsChain fun x y => R x.kind y.kind := by
  induction xs generalizing s with
  | nil => exact .nil
  | cons x xs ih =>
    obtain ⟨hx, h⟩ := Cuts.cases_cons h
    cases xs with
    | nil => exact .singleton x
    | cons y ys =>
      have hy := (Cuts.cases_cons h).1
      rw [Token.join_cons, List.append_assoc] at hx
      exact List.isChain_cons_cons.mpr ⟨hR hx hy, ih h⟩

/-- What holds of any two tokens that are read one behind the other holds along the tokens of a
text. -/
theorem isChain_start (t : Text) : (Config.start t).rest.IsChain fun l m => R l.kind m.kind := by
  refine (List.isChain_map (R := fun x y => R x.kind y.kind) Lexeme.token).mp ?_
  rw [Config.start, Lexeme.map_token_locate]
  exact (Cuts.of_lexFrom rfl).isChain hR

end

/-! ## The end of a line

Behind a line break the lexer knows only the depth and what the new line begins with, so it does
not matter what the line before held. -/

/-- Behind a line feed the line does not depend on what was before. -/
theorem LexState.lineAfter_of_mem (l l' : Text) {t : Text} (h : '\n' ∈ t) :
    lineAfter l t = lineAfter l' t := by
  induction t generalizing l l' with
  | nil => simp at h
  | cons c t ih =>
    by_cases hc : c = '\n'
    · simp [lineAfter, hc]
    · simp only [lineAfter, hc, if_false]
      exact ih _ _ ((List.mem_cons.mp h).resolve_left (Ne.symm hc))

/-- Behind a line break outside of flow collections nothing is left of the context. -/
theorem LexState.after_lineBreak {s s' : LexState} {x : Token} (hs : s.depth = 0)
    (hs' : s'.depth = 0) (hx : x.kind = lineBreak) (hn : '\n' ∈ x.text) :
    s'.after x = s.after x := by
  simp only [after, hx, hs, hs', lineAfter_of_mem s'.line s.line hn, depthAfter, if_true]

/-- What ends a line is read behind another node, and so is the rest of the text. The line has begun
if it goes on with spaces. -/
theorem Cuts.of_endsLine {s s' : LexState} {xs : List Token} (h : Cuts s xs [])
    (hends : EndsLine xs) (hn : HasLineFeeds xs) (hs : s.depth = 0) (hs' : s'.depth = 0)
    (hl' : s'.atLineStart = false ∨ ∀ y ys, xs = y :: ys → y.kind ≠ space) : Cuts s' xs [] := by
  induction xs generalizing s s' with
  | nil => exact .nil s' []
  | cons x xs ih =>
    obtain ⟨hx, h⟩ := Cuts.cases_cons h
    have hhead : x.kind.isHead = true ∧ x.kind.isProperty = false ∧ x.kind ≠ indent := by
      rcases hends with hk | ⟨hk | hk, -⟩ <;> rw [hk] <;> exact ⟨rfl, rfl, by decide⟩
    have hline : x.kind = space ∨ x.kind = indent → s'.atLineStart = s.atLineStart := by
      intro hk
      have hk := hk.resolve_right hhead.2.2
      rw [hx.atLineStart_eq.1 hk, hl'.resolve_right fun h => h x xs rfl hk]
    have hx' : s'.Reads x (Token.join xs ++ []) :=
      hx.of_head hhead.1 hline (by simp [hhead.2.1]) (hx.endsAt hhead.1)
    refine .cons hx' ?_
    rcases hends with hk | ⟨hk, hends⟩
    · rw [after_lineBreak hs hs' hk (hn x (by simp) hk)]
      exact h
    · have hnl : '\n' ∉ x.text := hx.newline_not_mem (hk.imp_right .inr)
      refine ih h hends (hn.of_suffix (List.suffix_cons x xs)) ?_ ?_
        (.inl (s'.atLineStart_after hx.text_ne_nil hnl))
      · rcases hk with hk | hk <;> simp [after, hk, depthAfter, hs]
      · rcases hk with hk | hk <;> simp [after, hk, depthAfter, hs']

/-! ## Behind a value in a flow collection

The comma or the bracket behind a value leaves nothing of what the lexer knew about the value,
but the line so far is not the same. Only block scalars look at that, and there are none. -/

namespace LexState

/-- The contexts differ at most in the line so far, which has begun in both or in neither. -/
def Near (s s' : LexState) : Prop :=
  s' = { s with line := s'.line } ∧
    (s'.line = s.line ∨ s'.atLineStart = false ∧ s.atLineStart = false)

variable {s s' : LexState}

/-- Contexts that are near agree on whether the line has begun. -/
theorem atLineStart_eq (h : s'.line = s.line ∨ s'.atLineStart = false ∧ s.atLineStart = false) :
    s'.atLineStart = s.atLineStart := by
  rcases h with h | ⟨h, h'⟩
  · simp [atLineStart, h]
  · rw [h, h']

/-- The line so far is looked at by block scalars alone. -/
theorem Near.scan_eq (h : Near s s') {c : Char} {t : Text} (hk : (s.scan c t).1 ≠ blockScalar) :
    s'.scan c t = s.scan c t := by
  obtain ⟨hs, hl⟩ := h
  have hstart := atLineStart_eq hl
  generalize s'.line = l at hs
  subst hs
  -- Only the two indicators of block scalars use the line so far, and both give a block scalar or
  -- a plain word.
  have hinline (hk : (s.scanInLine c t).1 ≠ blockScalar) :
      ({ s with line := l } : LexState).scanInLine c t = s.scanInLine c t := by
    dsimp only [scanInLine] at hk ⊢
    split at hk
    case h_16 =>
      split at hk
      · exact absurd rfl hk
      · rename_i hn
        exact (if_neg hn).trans (if_neg hn).symm
    case h_17 =>
      split at hk
      · exact absurd rfl hk
      · rename_i hn
        exact (if_neg hn).trans (if_neg hn).symm
    all_goals rfl
  unfold scan at hk ⊢
  rw [hstart]
  split
  · rename_i hs
    rw [if_pos hs] at hk
    have hscan : ({ s with line := l } : LexState).scanLineStart c t = s.scanLineStart c t := rfl
    rw [hscan]
    cases ho : s.scanLineStart c t with
    | some r => rfl
    | none =>
      rw [ho] at hk
      exact hinline hk
  · rename_i hs
    rw [if_neg hs] at hk
    exact hinline hk

/-- A token behind which the lines have begun, or are the same. -/
theorem line_after (s s' : LexState) {x : Token} (hx : x.text ≠ []) :
    (s'.after x).line = (s.after x).line ∨
      (s'.after x).atLineStart = false ∧ (s.after x).atLineStart = false := by
  by_cases hn : '\n' ∈ x.text
  · exact .inl (lineAfter_of_mem _ _ hn)
  · exact .inr ⟨s'.atLineStart_after hx hn, s.atLineStart_after hx hn⟩

/-- Contexts that are near stay so behind a token. -/
theorem Near.after (h : Near s s') {x : Token} (hx : x.text ≠ []) :
    Near (s.after x) (s'.after x) := by
  obtain ⟨hs, -⟩ := h
  refine ⟨?_, line_after s s' hx⟩
  rw [hs]
  rfl

end LexState

/-- No block scalar before the next line feed. -/
def Calm : List Token → Prop
  | [] => True
  | x :: xs => x.kind ≠ blockScalar ∧ ('\n' ∈ x.text ∨ Calm xs)

/-- At the end of a line there is no block scalar before the line feed. -/
theorem EndsLine.calm {xs : List Token} (h : EndsLine xs) (hn : HasLineFeeds xs) : Calm xs := by
  induction xs with
  | nil => trivial
  | cons x xs ih =>
    rcases h with hk | ⟨hk, h⟩
    · exact ⟨by simp [hk], .inl (hn x (by simp) hk)⟩
    · refine ⟨?_, .inr (ih h (hn.of_suffix (List.suffix_cons x xs)))⟩
      rcases hk with hk | hk <;> simp [hk]

/-- Other tokens may come before. -/
theorem Calm.append {xs ys : List Token} (hxs : ∀ x ∈ xs, x.kind ≠ blockScalar) (hys : Calm ys) :
    Calm (xs ++ ys) := by
  induction xs with
  | nil => exact hys
  | cons x xs ih => exact ⟨hxs x (by simp), .inr (ih fun y hy => hxs y (by simp [hy]))⟩

/-- Contexts that are near read the same tokens. -/
theorem Cuts.of_near {s s' : LexState} {xs : List Token} (h : Cuts s xs []) (hs : Near s s')
    (hxs : s'.line = s.line ∨ Calm xs) : Cuts s' xs [] := by
  induction xs generalizing s s' with
  | nil => exact .nil s' []
  | cons x xs ih =>
    by_cases hl : s'.line = s.line
    · have : s' = s := by rw [hs.1, hl]
      rwa [this]
    · obtain ⟨hk, hc⟩ := hxs.resolve_left hl
      obtain ⟨hx, h⟩ := Cuts.cases_cons h
      refine .cons ?_ (ih h (hs.after hx.text_ne_nil) (hc.imp_left (lineAfter_of_mem _ _)))
      obtain ⟨c, u, hu, hk', hd⟩ := hx
      have hscan := hs.scan_eq (c := c) (t := u ++ (Token.join xs ++ [])) (by rwa [hk'])
      exact ⟨c, u, hu, by rw [hscan, hk'], by rw [hscan, hd]⟩

/-- A mark is read in every flow collection. -/
theorem LexState.Reads.of_markKind {s s' : LexState} {x : Token} {t : Text} (h : s.Reads x t)
    (hx : x.kind = comma ∨ x.kind = rightBrace ∨ x.kind = rightBracket) (hs : s'.inFlow = true) :
    s'.Reads x t := by
  obtain ⟨c, u, hu, hk, hd⟩ := h
  have hscan := s.scanned c (u ++ t)
  generalize s.scan c (u ++ t) = r at hscan hk hd
  obtain ⟨k, w⟩ := x
  simp only at hu hk hx
  subst hu hk
  cases hscan with
  | mark hc =>
    obtain rfl : u = [] := by simpa using hd
    exact reads_markKind (by simp [hs]) hc t
  | property hc => rcases hc with ⟨-, rfl⟩ | ⟨-, rfl⟩ <;> simp at hx
  | other hk => rcases hx with rfl | rfl | rfl <;> cases hk
  | _ => simp at hx

/-- Behind a node in a flow collection the rest is read as it was. -/
theorem Cuts.of_flow {s s' : LexState} {n : Nat} {xs ys : List Token} {y : Token}
    (h : Cuts s (xs ++ y :: ys) []) (hxs : ∀ x ∈ xs, x.kind.isTrivia = true)
    (hy : y.kind = comma ∨ y.kind = rightBrace ∨ y.kind = rightBracket)
    (hs : s.depth = n + 1) (hs' : s'.depth = n + 1)
    (hl : s'.line = s.line ∨ s'.atLineStart = false ∧ s.atLineStart = false)
    (hc : s'.line = s.line ∨ Calm (xs ++ y :: ys)) : Cuts s' (xs ++ y :: ys) [] := by
  -- By induction on the trivia before the mark. They leave the states near each other, and at the
  -- mark only the depth is asked for.
  induction xs generalizing s s' with
  | nil =>
    obtain ⟨hy', h⟩ := Cuts.cases_cons h
    have hflow : s'.inFlow = true := by simp [LexState.inFlow, hs']
    refine .cons (hy'.of_markKind hy hflow) (h.of_near ⟨?_, line_after s s' hy'.text_ne_nil⟩ ?_)
    · rcases hy with hy | hy | hy <;> simp [after, hy, depthAfter, hs, hs']
    · rcases hc with hc | ⟨-, hc⟩
      · exact .inl (by simp [after, hc])
      · exact hc.imp_left (lineAfter_of_mem _ _)
  | cons x xs ih =>
    rw [List.cons_append] at h
    obtain ⟨hx, h⟩ := Cuts.cases_cons h
    have hk := hxs x (by simp)
    have hp : x.kind.isProperty = false := by
      revert hk
      cases x.kind <;> simp [isTrivia, isProperty]
    have hhead : x.kind.isHead = true := by simp [isHead, hk]
    have hd (s : LexState) : (s.after x).depth = s.depth := by
      revert hk
      cases hk : x.kind <;> simp [isTrivia, after, depthAfter, hk]
    refine .cons (hx.of_head hhead (fun _ => atLineStart_eq hl) (by simp [hp]) (hx.endsAt hhead)) ?_
    refine ih h (fun z hz => hxs z (by simp [hz])) ((hd s).trans hs) ((hd s').trans hs')
      (line_after s s' hx.text_ne_nil) ?_
    rcases hc with hc | ⟨-, hc⟩
    · exact .inl (by simp [after, hc])
    · exact hc.imp_left (lineAfter_of_mem _ _)

end YamlPatch
