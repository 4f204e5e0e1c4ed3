import YamlPatch.Proofs.Replacing

/-!
# The tokens of a text with another value

With a value written over a node, the text is cut into the tokens around the node and the leaves
of the value (`ValueAt.lex_eq`). Before the value nothing changes, since it begins like the
node, with a character that does not end a word (`BeginAlike`). The value itself is read as its
leaves where a node may start (`Replaces.cuts`), and what follows it is read as it was behind
the node (`Behind.cuts`).

Three things go wrong otherwise. An old node that begins with white space may have kept its
colon from being part of a word. A text without quotes may begin with the marker that ends a
document, or run into a number sign behind it.

The three parts are put together from left to right. The context of the lexer behind the colon
is known from the old tokens, since these are read as before up to there (`Cuts.behind_heads`).
Behind the value the context may differ from the one behind the old node in what it remembers of
the last token, but it is near to it, and what follows a node is read alike in contexts that are
near.
-/

namespace YamlPatch

open TokenKind LexState YamlPatch.Tree

/-! ## What text begins with

Whether a colon ends a word, and where white space ends, depends on one character of what
follows. So it is enough that two texts begin alike. -/

/-- The text begins with a character that is neither white space nor a mark of flow collections. -/
def BeginsPlain (t : Text) : Prop := ∃ c u, t = c :: u ∧ isBlank c = false ∧ isFlowMark c = false

/-- Both texts begin with such a character, or with the same one. -/
def BeginAlike (t t' : Text) : Prop :=
  BeginsPlain t ∧ BeginsPlain t' ∨ ∃ c u u', t = c :: u ∧ t' = c :: u'

/-- What a text begins with does not change when more is put behind it. -/
theorem BeginsPlain.append {t : Text} (h : BeginsPlain t) (u : Text) : BeginsPlain (t ++ u) := by
  obtain ⟨c, v, rfl, hc⟩ := h
  exact ⟨c, v ++ u, rfl, hc⟩

/-- Two texts begin alike whatever is put behind them, if neither is empty. -/
theorem BeginAlike.append {t t' : Text} (h : BeginAlike t t') (u u' : Text) :
    BeginAlike (t ++ u) (t' ++ u') := by
  rcases h with ⟨h, h'⟩ | ⟨c, v, v', rfl, rfl⟩
  · exact .inl ⟨h.append u, h'.append u'⟩
  · exact .inr ⟨c, v ++ u, v' ++ u', rfl, rfl⟩

/-- Before a text that begins plainly a colon does not end a word. -/
theorem BeginsPlain.not_colonEndsWord {t : Text} (h : BeginsPlain t) (f : Bool) :
    colonEndsWord f t = false := by
  obtain ⟨c, u, rfl, hb, hm⟩ := h
  simp only [isFlowMark, Bool.or_eq_false_iff] at hm
  simp [colonEndsWord, hb, hm]

/-- The colon before a value is one whatever the value is. -/
theorem BeginAlike.colonEndsWord {t t' : Text} (h : BeginAlike t t') (hs : Text) (f : Bool)
    (ht : colonEndsWord f (hs ++ t) = true) : YamlPatch.colonEndsWord f (hs ++ t') = true := by
  cases hs with
  | cons c hs => exact ht
  | nil =>
    rcases h with ⟨h, -⟩ | ⟨c, u, u', rfl, rfl⟩
    · rw [List.nil_append, h.not_colonEndsWord] at ht
      cases ht
    · exact ht

/-- What is no white space is no part of a line break, and no space or tab. -/
theorem isBlank_of_newline {c : Char} (h : isBlank c = false) :
    c ≠ '\n' ∧ c ≠ '\r' ∧ isSpaceOrTab c = false := by
  refine ⟨?_, ?_, not_isSpaceOrTab h⟩
  · rintro rfl
    cases h
  · rintro rfl
    cases h

/-- What may stand before a node ends before the one if it ends before the other. -/
theorem EndsAt.of_beginAlike {x : Token} {t t' : Text} (h : EndsAt x t) (ht : BeginAlike t t') :
    EndsAt x t' := by
  rcases ht with ⟨⟨c, u, rfl, hb, hm⟩, c', u', rfl, hb', -⟩ | ⟨c, u, u', rfl, rfl⟩
  · obtain ⟨hn, hr, -⟩ := isBlank_of_newline hb
    obtain ⟨hn', -, hs'⟩ := isBlank_of_newline hb'
    unfold EndsAt at h ⊢
    split at h
    · rintro d v hd
      obtain ⟨rfl, -⟩ := List.cons.inj hd
      exact hs'
    · rintro d v hd
      obtain ⟨rfl, -⟩ := List.cons.inj hd
      exact hs'
    · have := h c u rfl
      simp [hn, hr] at this
    · rintro - d v hd
      obtain ⟨rfl, -⟩ := List.cons.inj hd
      simpa using hn'
    · have := h.1 c u rfl
      simp [hb, hm] at this
  · exact h.of_head? rfl

/-! ## What a token begins with

Where a node may start the first character of a token tells much about its kind. -/

namespace LexState

variable {s : LexState} {x : Token} {t : Text}

/-- Where a node may start no scalar begins with a mark of flow collections. -/
theorem Reads.not_isFlowMark (h : s.Reads x t) (hs : s.atNodeStart = true)
    (hx : x.kind.startsScalar = true) : ∃ c u, x.text = c :: u ∧ isFlowMark c = false := by
  obtain ⟨c, u, hu, hk, -⟩ := h
  refine ⟨c, u, hu, ?_⟩
  by_contra hc
  simp only [isFlowMark, Bool.not_eq_false, Bool.or_eq_true, beq_iff_eq] at hc
  rcases hc with (((rfl | rfl) | rfl) | rfl) | rfl
  all_goals
    rw [scan_eq_scanInLine (.inr (by decide))] at hk
    simp only [scanInLine, hs, Bool.or_true, if_true] at hk
    rw [← hk] at hx
    cases hx

/-- Trivia begin with white space or a number sign. -/
theorem Reads.begins_of_isTrivia (h : s.Reads x t) (hx : x.kind.isTrivia = true) :
    ∃ c u, x.text = c :: u ∧ (isBlank c = true ∨ c = '#') := by
  obtain ⟨c, u, hu, hk, -⟩ := h
  refine ⟨c, u, hu, ?_⟩
  rcases (s.scanned c (u ++ t)).of_isTrivia (by rw [hk]; exact hx) with ⟨-, hc, -⟩ | ⟨-,
    rfl | rfl⟩ | ⟨-, hc, -⟩
  · exact .inl (isBlank_of_isSpaceOrTab hc)
  · exact .inl rfl
  · exact .inl rfl
  · exact .inr hc

/-- Each kind of mark is written with one character only. -/
theorem markKind?_inj {c d : Char} {k : TokenKind} (hc : markKind? c = some k)
    (hd : markKind? d = some k) : c = d := by
  unfold markKind? at hc hd
  split at hc <;> cases hc <;> split at hd <;> first | rfl | cases hd

/-- A mark is one character. -/
theorem Reads.text_of_mark (h : s.Reads x t) {d : Char} (hx : markKind? d = some x.kind) :
    x.text = [d] := by
  obtain ⟨c, u, hu, hk, hd⟩ := h
  have hscan := s.scanned c (u ++ t)
  generalize s.scan c (u ++ t) = r at hscan hk hd
  obtain ⟨k, n⟩ := r
  obtain rfl : k = x.kind := hk
  have hnot : TokenKind.isHead x.kind = false := isHead_of_markKind? hx
  generalize x.kind = k at hx hscan hnot
  cases hscan with
  | mark hc =>
    obtain rfl : u = [] := by simpa using hd
    rw [hu, markKind?_inj hc hx]
  | property hc => rcases hc with ⟨-, rfl⟩ | ⟨-, rfl⟩ <;> cases hnot
  | other hk =>
    unfold markKind? at hx
    split at hx <;> cases hx <;> cases hk
  | colon | dash | blockScalar =>
    unfold markKind? at hx
    split at hx <;> cases hx
  | _ => cases hnot

/-- A dash is read outside of flow collections, among the dashes that open a line. -/
theorem Reads.dash_eq (h : s.Reads x t) (hx : x.kind = dash) :
    x.text = ['-'] ∧ s.inFlow = false ∧ s.onlyDashes = true := by
  obtain ⟨c, u, hu, hk, hd⟩ := h
  have hscan := s.scanned c (u ++ t)
  rw [hx] at hk
  generalize s.scan c (u ++ t) = r at hscan hk hd
  obtain ⟨k, n⟩ := r
  obtain rfl : k = dash := hk
  cases hscan with
  | dash hc hs ho =>
    obtain rfl : u = [] := by simpa using hd
    exact ⟨hc ▸ hu, hs, ho⟩
  | mark hc =>
    unfold markKind? at hc
    split at hc <;> cases hc
  | property hc => rcases hc with ⟨-, h⟩ | ⟨-, h⟩ <;> cases h
  | other hk => cases hk

/-- Trivia, anchors and tags leave a place where a node may start. -/
theorem atNodeStart_afterAll {xs : List Token} (hs : s.atNodeStart = true)
    (hxs : ∀ x ∈ xs, x.kind.isHead = true) : (s.afterAll xs).atNodeStart = true := by
  induction xs generalizing s with
  | nil => exact hs
  | cons x xs ih =>
    refine ih ?_ fun y hy => hxs y (by simp [hy])
    have hx := hxs x (by simp)
    cases hk : x.kind with
    | lineBreak =>
      by_cases hd : s.depth = 0
      · simp [after, hk, hd, atNodeStart]
      · simpa [after, hk, hd, atNodeStart] using hs
    | space => simpa [after, hk, atNodeStart] using hs
    | indent => simpa [after, hk, atNodeStart] using hs
    | comment => simpa [after, hk, atNodeStart] using hs
    | anchor => simp [after, hk, atNodeStart]
    | tag => simp [after, hk, atNodeStart]
    | _ =>
      rw [hk] at hx
      cases hx

/-- Behind a colon there is no item indicator before the next line break. -/
theorem exists_lineBreak {xs : List Token} (hs : s.onlyDashes = false)
    (hxs : ∀ x ∈ xs, x.kind.isHead = true) (h : (s.afterAll xs).onlyDashes = true) :
    ∃ x ∈ xs, x.kind = lineBreak := by
  induction xs generalizing s with
  | nil =>
    rw [afterAll_nil, hs] at h
    cases h
  | cons x xs ih =>
    by_cases hk : x.kind = lineBreak
    · exact ⟨x, by simp, hk⟩
    · have hx := hxs x (by simp)
      have hafter : (s.after x).onlyDashes = false := by
        cases hk' : x.kind with
        | lineBreak => exact absurd hk' hk
        | dash =>
          rw [hk'] at hx
          cases hx
        | _ => simp [after, hk', hs]
      obtain ⟨y, hy, hyk⟩ := ih hafter (fun y hy => hxs y (by simp [hy])) h
      exact ⟨y, by simp [hy], hyk⟩

end LexState

/-! ## The node and what follows it

The value is read as its own leaves by the round trip, and what follows it by the lemmas about
tokens in other surroundings. -/

/-- The text of an atom is not empty and begins plainly. -/
theorem Atom.Made.beginsPlain {a : Atom} (ha : a.Made) : BeginsPlain a.render := by
  rcases a.tokens_cases with ⟨hw, -, hr⟩ | ⟨-, -, hr⟩ | ⟨-, -, hr⟩
  · rw [hr]
    have hp := ha.plainText hw
    obtain ⟨c, u, hc⟩ := List.exists_cons_of_ne_nil hp.ne_nil
    exact ⟨c, u, hc, (hp.head c u hc).1, (ne_of_isPlainChar (hp.chars c (by simp [hc]))).2.1⟩
  · exact ⟨_, _, hr, rfl, rfl⟩
  · exact ⟨_, _, hr, rfl, rfl⟩

/-- What is written begins like what it is written over, if that does not begin with white space. -/
theorem Replaces.beginAlike {X N : Tree} {n : Nat} {v : Value} (h : Replaces X n v N) (hv : v.Made)
    {y : Token} {zs : List Token} (hX : X.leaves = y :: zs)
    (hscalar : X.isNode .scalar = true → y.kind.startsScalar = true)
    (hsequence : X.isNode .sequence = true → y.kind = if X.isFlow then leftBracket else dash)
    {s : LexState} {t : Text} (hs : s.atNodeStart = true) (hr : s.Reads y t)
    (hold : StopsAt isBlank X.text) : BeginAlike X.text N.text := by
  have htext : X.text = y.text ++ Token.join zs := by rw [text, hX, Token.join_cons]
  cases h with
  | atom hk a =>
    obtain ⟨c, u, hc, hm⟩ := hr.not_isFlowMark hs (hscalar hk)
    rw [hc] at htext
    exact .inl ⟨⟨c, u ++ Token.join zs, htext, hold _ _ htext, hm⟩,
      a.text_node ▸ Atom.Made.beginsPlain hv⟩
  | flow hk hf vs =>
    have hy := hr.text_of_mark (d := '[') (by rw [hsequence hk, hf]; rfl)
    rw [hy] at htext
    exact .inr ⟨'[', _, _, htext, by rw [Value.text_flowTree]; rfl⟩
  | @block hk hf vs hne nl hl =>
    have hy := (hr.dash_eq (by rw [hsequence hk, hf]; rfl)).1
    rw [hy] at htext
    obtain ⟨v, vs, rfl⟩ := List.exists_cons_of_ne_nil hne
    refine .inr ⟨'-', _, ((Value.sequence (v :: vs)).blockTree nl n).text.tail, htext, ?_⟩
    simp [Value.blockTree, Value.blockItemTrees, lined, Value.itemNode, mark]

/-- What follows a node that is written on one line. -/
def Follows (n : Nat) (t : Text) : Prop :=
  t = [] ∨ ∃ c u, t = c :: u ∧ (isBlank c = true ∨ c = '#' ∨ 0 < n ∧ (c = ',' ∨ c = '\x7d'))

/-- What follows a node in the tree follows it in the text. -/
theorem Behind.follows {X : Tree} {n : Nat} {ys : List Token} (h : Behind X n ys) {s : LexState}
    (hcuts : Cuts s ys []) : Follows n (Token.join ys) := by
  have htrivia {y : Token} {zs : List Token} (hy : y.kind.isTrivia = true)
      (hc : Cuts s (y :: zs) []) : Follows n (Token.join (y :: zs)) := by
    obtain ⟨c, u, hu, hb⟩ := (Cuts.cases_cons hc).1.begins_of_isTrivia hy
    exact .inr ⟨c, u ++ Token.join zs, by simp [hu], hb.elim .inl fun h => .inr (.inl h)⟩
  cases h with
  | line hends =>
    cases ys with
    | nil => exact .inl rfl
    | cons y zs => exact htrivia (by rcases hends with h | ⟨h | h, -⟩ <;> rw [h] <;> rfl) hcuts
  | @flow n zs ys y hzs hy =>
    cases zs with
    | cons z zs => exact htrivia (hzs z (by simp)) hcuts
    | nil =>
      have hread := (Cuts.cases_cons hcuts).1
      rcases hy with hy | hy
      · have hu := hread.text_of_mark (d := ',') (by rw [hy]; rfl)
        exact .inr ⟨',', Token.join ys, by simp [hu], .inr (.inr ⟨Nat.succ_pos n, .inl rfl⟩)⟩
      · have hu := hread.text_of_mark (d := '\x7d') (by rw [hy]; rfl)
        exact .inr ⟨'\x7d', Token.join ys, by simp [hu], .inr (.inr ⟨Nat.succ_pos n, .inr rfl⟩)⟩

/-- No word goes on into what follows, unless that begins with a number sign. -/
theorem Follows.wordLength_eq {n : Nat} {t : Text} (h : Follows n t) (hc : t.head? ≠ some '#') :
    wordLength (decide (0 < n)) t = 0 := by
  rcases h with rfl | ⟨c, u, rfl, hb | rfl | ⟨hn, hc | hc⟩⟩
  · rfl
  · simp [wordLength, hb]
  · exact absurd rfl hc
  · simp [wordLength, hn, hc, isFlowMark]
  · simp [wordLength, hn, hc, isFlowMark]

/-- A quote does not follow a node, where it would be taken for a doubled one. -/
theorem Follows.stopsAt {n : Nat} {t : Text} (h : Follows n t) : StopsAt (· == '\'') t := by
  rcases h with rfl | ⟨c, u, rfl, h⟩
  · rintro d v hd
    cases hd
  · rintro d v hd
    obtain ⟨rfl, -⟩ := List.cons.inj hd
    rcases h with hb | rfl | ⟨-, rfl | rfl⟩
    · by_contra hq
      obtain rfl : c = '\'' := by simpa using hq
      cases hb
    · rfl
    · rfl
    · rfl

/-- What follows is not the rest of a marker between documents. -/
theorem Follows.ne {n : Nat} {c : Char} {u : Text} (h : Follows n (c :: u)) {m : Char}
    (hm : m = '-' ∨ m = '.') : c ≠ m := by
  rintro rfl
  rcases h with h | ⟨d, v, hd, h⟩
  · cases h
  · obtain ⟨rfl, -⟩ := List.cons.inj hd
    rcases hm with rfl | rfl <;> rcases h with h | h | ⟨-, h | h⟩ <;> cases h

/-- A text that does not begin with the marker of a document is not taken for one. -/
theorem Follows.isMarkerLine_eq {n : Nat} {t u : Text} (h : Follows n t) {m c : Char}
    (hm : m = '-' ∨ m = '.') (hu : ¬[m, m, m] <+: c :: u) : isMarkerLine m c (u ++ t) = false := by
  rw [Bool.eq_false_iff]
  intro hmark
  obtain ⟨v, hv⟩ : ∃ v, c :: (u ++ t) = m :: m :: m :: v := by
    unfold isMarkerLine at hmark
    split at hmark
    · rename_i d e v hv
      simp only [Bool.and_eq_true, beq_iff_eq] at hmark
      obtain ⟨⟨⟨rfl, rfl⟩, rfl⟩, -⟩ := hmark
      exact ⟨v, by rw [hv]⟩
    · cases hmark
  obtain ⟨rfl, hv⟩ := List.cons.inj hv
  rcases List.append_eq_cons_iff.mp hv with ⟨-, rfl⟩ | ⟨w, rfl, hw⟩
  · exact h.ne hm rfl
  · rcases List.append_eq_cons_iff.mp hw.symm with ⟨-, rfl⟩ | ⟨w, rfl, -⟩
    · exact h.ne hm rfl
    · exact hu ⟨w, rfl⟩

/-- A line break with a line feed is the line feed alone, or behind a carriage return. -/
theorem LexState.Reads.isNewline {s : LexState} {x : Token} {t : Text} (h : s.Reads x t)
    (hx : x.kind = lineBreak) (hn : '\n' ∈ x.text) : IsNewline x.text := by
  obtain ⟨c, u, hu, hk, hd⟩ := h
  have hscan := s.scanned c (u ++ t)
  rw [hx] at hk
  generalize s.scan c (u ++ t) = r at hscan hk hd
  obtain ⟨k, n⟩ := r
  obtain rfl : k = lineBreak := hk
  cases hscan with
  | lineFeed hc =>
    obtain rfl : u = [] := by simpa using hd
    rw [hu, hc]
    exact .lf
  | carriageReturn hc =>
    subst hc
    cases u with
    | nil => simp [hu] at hn
    | cons d u =>
      dsimp only at hd
      split at hd
      · rename_i hh
        obtain rfl := Option.some.inj hh
        obtain rfl : u = [] := by simpa using hd
        exact hu ▸ .crlf
      · have := congrArg List.length hd
        simp at this
        omega
  | mark hm => exact absurd (isHead_of_markKind? hm) (by decide)
  | property hp => rcases hp with ⟨-, h⟩ | ⟨-, h⟩ <;> cases h
  | other ho => cases ho

/-- What stands behind a node that ends its line is a line break, or nothing. -/
theorem LineOver.atLineEnd {s : LexState} {ys : List Token} (h : LineOver ys) (hcuts : Cuts s ys [])
    (hn : HasLineFeeds ys) : Value.AtLineEnd (Token.join ys) := by
  cases ys with
  | nil => exact .inl rfl
  | cons y ys =>
    have hy := h y ys rfl
    exact .inr ⟨y.text, Token.join ys,
      (Cuts.cases_cons hcuts).1.isNewline hy (hn y (by simp) hy), rfl⟩

/-- The text does not begin with the marker that ends a document. -/
def NoMarker (t : Text) : Prop := ¬"...".toList <+: t

/-- Nor is what is written without quotes, unless it begins with the marker that ends a document. -/
theorem Atom.Made.isMarkerLine_eq {a : Atom} (ha : a.Made) (hw : a.written = .plain)
    (hm : NoMarker a.text) {n : Nat} {t : Text} (ht : Follows n t) {c : Char} {u : Text}
    (hc : a.text = c :: u) :
    isMarkerLine '-' c (u ++ t) = false ∧ isMarkerLine '.' c (u ++ t) = false := by
  have hdashes : ¬['-', '-', '-'] <+: c :: u := fun ⟨w, hw'⟩ =>
    (ha.plainText hw).dash ('-' :: w) (hc.trans hw'.symm)
  rw [hc] at hm
  exact ⟨ht.isMarkerLine_eq (.inl rfl) hdashes, ht.isMarkerLine_eq (.inr rfl) hm⟩

/-- Where a node may start, what is written is read as its leaves. -/
theorem Replaces.cuts {X N : Tree} {n : Nat} {v : Value} (h : Replaces X n v N) (hv : v.Made)
    {s s' : LexState} {ys : List Token} (hs : s.atNodeStart = true) (hb : Behind X s.depth ys)
    (hys : Cuts s' ys []) (hn : HasLineFeeds ys)
    (hplain : ∀ a, v = .atom a → a.written = .plain → NoMarker a.text ∧
      (Token.join ys).head? ≠ some '#')
    (hblock : X.isNode .sequence = true → X.isFlow = false → Value.BlockStart s n) :
    Cuts s N.leaves (Token.join ys) ∧ (s.afterAll N.leaves).depth = s.depth ∧
      ((s.afterAll N.leaves).atLineStart = false ∨ s.depth = 0 ∧ LineOver ys) := by
  have hf := hb.follows hys
  -- A scalar or a sequence in brackets is read wherever a node may start. A block sequence needs
  -- a place where a block may start, and the end of a line behind it.
  cases h with
  | atom hk a =>
    have hl : a.node.leaves = a.tokens := by simp [Atom.node, leaves]
    rw [hl]
    refine ⟨Atom.Made.cuts_tokens hv hs (fun hw => hf.wordLength_eq (hplain a rfl hw).2) (fun _ =>
      hf.stopsAt) fun hw _ c u hc => Atom.Made.isMarkerLine_eq hv hw (hplain a rfl hw).1 hf hc,
      a.depth_afterAll_tokens s, .inl (Atom.Made.within_afterAll hv s).line⟩
  | flow hk hXf vs =>
    obtain ⟨hc, hw, hd⟩ := Value.cuts_flow (.sequence vs) hv s (Token.join ys) hs (by simp)
    exact ⟨hc, hd, .inl hw.line⟩
  | @block hk hXf vs hne nl hl =>
    have hstart := hblock hk hXf
    have hline : LineOver ys := by
      generalize s.depth = m at hb
      cases hb with
      | line _ h => exact h hk hXf
      | flow _ _ _ _ h =>
        rw [h hk] at hXf
        cases hXf
    obtain ⟨hc, hd⟩ :=
      (Value.cuts_block (.sequence vs) n hv hl fun _ => trivial).2 s (Token.join ys) hstart
      (hline.atLineEnd hys hn)
    exact ⟨hc, hd.trans hstart.depth.symm, .inr ⟨hstart.depth, hline⟩⟩

/-- What follows a node is read behind the one that is written over it. -/
theorem Behind.cuts {X : Tree} {n : Nat} {ys : List Token} (h : Behind X n ys) {s₀ s' : LexState}
    {t : Text} (hX : Cuts s₀ X.leaves t) (hne : X.leaves ≠ [])
    (hys : Cuts (s₀.afterAll X.leaves) ys []) (hn : HasLineFeeds ys)
    (hs : (s₀.afterAll X.leaves).depth = n) (hs' : s'.depth = n)
    (hl' : s'.atLineStart = false ∨ n = 0 ∧ LineOver ys) : Cuts s' ys [] := by
  cases h with
  | line hends =>
    refine hys.of_endsLine hends hn hs hs' (hl'.imp_right fun h y zs hy => ?_)
    rw [h.2 y zs hy]
    decide
  | @flow n zs ys y hzs hy hlast hcalm =>
    have hl : (s₀.afterAll X.leaves).atLineStart = false := by
      have hw := List.dropLast_concat_getLast hne
      rw [← hw] at hX ⊢
      rw [afterAll_append]
      exact (Cuts.cases_cons hX.right).1.atLineStart_after_node
        (hlast _ (List.getLast?_eq_some_getLast hne))
    have hl' : s'.atLineStart = false := hl'.resolve_right fun h => absurd h.1 (Nat.succ_ne_zero n)
    exact hys.of_flow hzs (hy.imp_right .inl) hs hs' (.inr ⟨hl', hl⟩) (.inr hcalm)

/-- The last token of a text that is read ends where the text behind begins. -/
theorem Cuts.endsAt_last {s : LexState} {xs : List Token} {t : Text} (h : Cuts s xs t) {x : Token}
    (hx : xs.getLast? = some x) (hk : x.kind.isHead = true) : EndsAt x t := by
  obtain ⟨ws, rfl⟩ := List.getLast?_eq_some_iff.mp hx
  exact (Cuts.cases_cons h.right).1.endsAt hk

/-- What may stand before a node leaves the depth as it is. -/
theorem isQuiet_of_isHead {k : TokenKind} (h : k.isHead = true) : k.isQuiet = true := by
  rcases Bool.or_eq_true_iff.mp h with h | h
  · exact isQuiet_of_isTrivia k h
  · exact isQuiet_of_isProperty k h

/-- A node has one kind. -/
theorem isNode_eq_false {X : Tree} {j k : NodeKind} (h : X.isNode j = true) (hne : j ≠ k) :
    X.isNode k = false := by
  simp only [isNode, beq_iff_eq] at h
  simpa [isNode, h] using hne

/-- A mapping is never written over. -/
theorem Replaces.isNode_mapping {X N : Tree} {n : Nat} {v : Value} (h : Replaces X n v N) :
    X.isNode .mapping = false := by
  cases h with
  | atom h => exact isNode_eq_false h (by decide)
  | flow h => exact isNode_eq_false h (by decide)
  | block h => exact isNode_eq_false h (by decide)

/-! ## The whole text

The three parts are put together behind the colon of the entry, where the state of the lexer is
known. -/

/-- Behind a colon and heads a node may start, at the depth of the tokens before the colon. -/
theorem LexState.behind_heads (xs : List Token) {heads : List Token} {x₀ : Token}
    (hx : x₀.kind = colon) (hheads : ∀ z ∈ heads, z.kind.isHead = true) :
    (({} : LexState).afterAll (xs ++ x₀ :: heads)).atNodeStart = true ∧
      (({} : LexState).afterAll (xs ++ x₀ :: heads)).depth = depthAfterAll 0 xs := by
  constructor
  · have hsplit : xs ++ x₀ :: heads = (xs ++ [x₀]) ++ heads := by simp
    rw [hsplit, afterAll_append]
    exact LexState.atNodeStart_afterAll (by simp [after, hx, atNodeStart]) hheads
  · rw [LexState.depth_afterAll, depthAfterAll_append]
    refine depthAfterAll_of_isQuiet (fun z hz => ?_) _
    rcases List.mem_cons.mp hz with rfl | hz
    · rw [hx]
      rfl
    · exact isQuiet_of_isHead (hheads z hz)

/-- A colon and heads are read as before if other tokens stand behind them that begin like the
old ones. -/
theorem Cuts.behind_heads {s : LexState} {xs heads us us' : List Token} {x₀ : Token}
    (hx : x₀.kind = colon) (hheads : ∀ z ∈ heads, z.kind.isHead = true)
    (h : Cuts s (xs ++ x₀ :: (heads ++ us)) []) (hus : Cuts (s.afterAll (xs ++ x₀ :: heads)) us' [])
    (hb : BeginAlike (Token.join us) (Token.join us')) :
    Cuts s (xs ++ x₀ :: (heads ++ us')) [] := by
  have hcuts : Cuts s ((xs ++ [x₀]) ++ (heads ++ us)) [] := by simpa using h
  have hcolon : Cuts s (xs ++ [x₀]) (Token.join (heads ++ us')) := by
    refine hcuts.left.behind_colon hx fun f hf => ?_
    rw [List.append_nil, Token.join_append] at hf
    rw [Token.join_append]
    exact hb.colonEndsWord _ f hf
  have hheads' : Cuts (s.afterAll (xs ++ [x₀])) heads (Token.join us') := by
    refine hcuts.right.left.of_heads hheads fun x hlast => ?_
    have hends := hcuts.right.left.endsAt_last hlast (hheads x (List.mem_of_getLast? hlast))
    rw [List.append_nil] at hends
    exact hends.of_beginAlike hb
  have hus' : Cuts ((s.afterAll (xs ++ [x₀])).afterAll heads) us' [] := by simpa using hus
  have hnew := Cuts.append (by simpa using hcolon) (.append (by simpa using hheads') hus')
  simpa using hnew

namespace ValueAt

variable {t : Text} {before e : List Event} {xs heads g ys : List Token} {x₀ : Token} {X : Tree}

/-- The node is read where a node may start, at the depth of the tokens before the colon. -/
theorem lexState (h : ValueAt t before e xs x₀ heads g X ys) {s : LexState}
    (hs : s = ({} : LexState).afterAll (xs ++ x₀ :: heads)) :
    s.atNodeStart = true ∧ s.depth = depthAfterAll 0 xs ∧ Cuts s (X.leaves ++ ys) [] := by
  have hcuts : Cuts {} ((xs ++ x₀ :: heads) ++ (X.leaves ++ ys)) [] :=
    .of_lexFrom (t := t) (by simpa [lex] using h.tokens)
  obtain ⟨hnode, hdepth⟩ := LexState.behind_heads xs h.colon h.isHead
  subst hs
  exact ⟨hnode, hdepth, hcuts.right⟩

/-- A block sequence is read outside of flow collections, where no more than dashes open the
line. -/
theorem onlyDashes (h : ValueAt t before e xs x₀ heads g X ys) {s : LexState}
    (hs : s = ({} : LexState).afterAll (xs ++ x₀ :: heads))
    (hseq : X.isNode .sequence = true) (hXf : X.isFlow = false) :
    s.inFlow = false ∧ s.onlyDashes = true := by
  obtain ⟨-, -, hX⟩ := h.lexState hs
  obtain ⟨y, zs, hy, -, hsequence⟩ := h.first (isNode_eq_false hseq (by decide))
  rw [hy] at hX
  exact ((Cuts.cases_cons hX).1.dash_eq (by rw [hsequence hseq, hXf]; rfl)).2

/-- So a block collection may start in the column where it stands. -/
theorem blockStart (h : ValueAt t before e xs x₀ heads g X ys) {s : LexState}
    (hs : s = ({} : LexState).afterAll (xs ++ x₀ :: heads))
    (hseq : X.isNode .sequence = true) (hXf : X.isFlow = false) :
    Value.BlockStart s (Position.advance {} (Token.join (xs ++ x₀ :: heads))).column := by
  obtain ⟨hflow, hdashes⟩ := h.onlyDashes hs hseq hXf
  refine ⟨by simpa [inFlow] using hflow, (h.lexState hs).1, hdashes, fun hcolumn => ?_⟩
  have hlen := length_line_afterAll (s := {}) (p := {}) rfl (xs ++ x₀ :: heads)
  rw [← hs] at hlen
  by_contra hline
  have : s.line = [] := by simpa [atLineStart] using hline
  rw [this] at hlen
  exact hcolumn hlen.symm

/-- The value of a key that holds a block sequence has a line break before it. -/
theorem newline_mem (h : ValueAt t before e xs x₀ heads g X ys) (hn : HasLineFeeds (lex t))
    (hseq : X.isNode .sequence = true) (hXf : X.isFlow = false) : '\n' ∈ Token.join g := by
  obtain ⟨s, hs⟩ : ∃ s, s = ({} : LexState).afterAll (xs ++ x₀ :: heads) := ⟨_, rfl⟩
  obtain ⟨hflow, hdashes⟩ := h.onlyDashes hs hseq hXf
  have hdepth := (h.lexState hs).2.1
  have hsplit : xs ++ x₀ :: heads = (xs ++ [x₀]) ++ heads := by simp
  rw [hs, hsplit, afterAll_append] at hdashes
  obtain ⟨x, hx, hk⟩ := exists_lineBreak (by simp [after, h.colon]) h.isHead hdashes
  obtain ⟨sp, rfl, hsp⟩ := h.gap
  have hxg : x ∈ g := by
    refine (List.mem_append.mp hx).resolve_left fun hx => ?_
    have hspace := hsp (by rw [← hdepth]; simpa [inFlow] using hflow) x hx
    rw [hk] at hspace
    cases hspace
  have hnl := hn x (by simp [h.tokens, hxg]) hk
  exact List.mem_flatMap.mpr ⟨x, hxg, hnl⟩

/-- With a value written over the node, the text is read as the tokens around and the leaves. -/
theorem lex_eq {N : Tree} {v : Value} (h : ValueAt t before e xs x₀ heads g X ys)
    (hn : HasLineFeeds (lex t)) (hv : v.Made)
    (hN : Replaces X (Position.advance {} (Token.join (xs ++ x₀ :: heads))).column v N)
    (hold : StopsAt isBlank X.text)
    (hplain : ∀ a, v = .atom a → a.written = .plain → NoMarker a.text ∧
      (Token.join ys).head? ≠ some '#') :
    lex (Token.join (xs ++ x₀ :: (heads ++ (N.leaves ++ ys)))) =
      xs ++ x₀ :: (heads ++ (N.leaves ++ ys)) := by
  obtain ⟨y, zs, hy, hscalar, hsequence⟩ := h.first hN.isNode_mapping
  have hny : HasLineFeeds ys := hn.of_suffix ⟨xs ++ x₀ :: (heads ++ X.leaves), by simp [h.tokens]⟩
  -- the context behind the heads
  obtain ⟨s, hs⟩ : ∃ s, s = ({} : LexState).afterAll (xs ++ x₀ :: heads) := ⟨_, rfl⟩
  have hcuts : Cuts {} (xs ++ x₀ :: (heads ++ (X.leaves ++ ys))) [] :=
    .of_lexFrom (t := t) (by simpa [lex] using h.tokens)
  obtain ⟨hnode, hdepth, hX⟩ := h.lexState hs
  have hys := hX.right
  have hdepth' : (s.afterAll X.leaves).depth = depthAfterAll 0 xs := by
    rw [hs, ← afterAll_append, LexState.depth_afterAll]
    simpa using h.depth
  have hbegin : BeginAlike X.text N.text := by
    have hX := hX
    rw [hy] at hX
    exact hN.beginAlike hv hy hscalar hsequence hnode (Cuts.cases_cons hX).1 hold
  have hb : Behind X s.depth ys := hdepth ▸ h.behind
  obtain ⟨hNcuts, hNdepth, hNline⟩ := hN.cuts hv hnode hb hys hny hplain (h.blockStart hs)
  have hyscuts : Cuts (s.afterAll N.leaves) ys [] :=
    hb.cuts hX.left (by simp [hy]) hys hny (hdepth'.trans hdepth.symm) hNdepth hNline
  have hNys : Cuts s (N.leaves ++ ys) [] := .append (by simpa using hNcuts) hyscuts
  have hstart : BeginAlike (Token.join (X.leaves ++ ys)) (Token.join (N.leaves ++ ys)) := by
    have := hbegin.append (Token.join ys) (Token.join ys)
    simpa [text] using this
  have hnew := hcuts.behind_heads h.colon h.isHead (hs ▸ hNys) hstart
  simpa [lex] using hnew.lexFrom_eq

end ValueAt

end YamlPatch
