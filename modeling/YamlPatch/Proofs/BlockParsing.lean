import YamlPatch.Proofs.BlockValues
import YamlPatch.Proofs.FlowParsing

/-!
# Parsing values on several lines

The parser makes of the leaves of `Value.blockTree` that very tree if they stand at its column.
A block collection is made line by line : `MakesLine` says that the parser makes the node of one
line, `reaches_linesBelow` that it makes those below it and closes the collection where the text
goes on further to the left (`Outside`), and the induction over the value has one case for each
kind of value (`Value.leads_block`).

The parser decides by the columns of tokens that it has not reached yet, so the statements are
about what it faces : the leaves of a tree and, behind them, tokens of which only this is known,
that the line is over there (`LineOver`) and that the next content stands to the left. Both are
passed from a collection to the last node in it, since what is outside a column is outside every
greater one (`Outside.mono`).

A line is made by the task of the collection (`BlockTask`). Sequences and mappings differ in how
the node of a line is opened and agree in everything else, so the two lemmas on lines are proved
once, for both.
-/

namespace YamlPatch

open TokenKind Lexeme YamlPatch.Tree

/-! ## Where a block ends

A block collection has no mark at its end. It ends where the next content stands to the left of
its column, where the document ends, or where the text does. -/

/-- What comes next stands to the left of the column, or does not belong to the document. -/
def Outside (n : Nat) (ls : List Lexeme) : Prop :=
  ∀ l rest, significant ls = l :: rest → l.kind.isMarker = true ∨ l.column < n

/-- A line is over here. -/
def LineOver (ys : List Token) : Prop := ∀ y zs, ys = y :: zs → y.kind = lineBreak

/-- What is outside of a column is outside of those to the right of it. -/
theorem Outside.mono {m n : Nat} {ls : List Lexeme} (h : Outside m ls) (hmn : m ≤ n) :
    Outside n ls :=
  fun l rest hl => (h l rest hl).imp_right fun hc => Nat.lt_of_lt_of_le hc hmn

/-- No line to the left continues a plain scalar. -/
theorem Outside.continuation_eq {n : Nat} {ls : List Lexeme} (h : Outside n ls) :
    continuation n ls = none := by
  unfold continuation
  split
  · rfl
  · rename_i l rest hl
    by_cases hp : l.kind.isPlain = true
    · have hs : significant ls = l :: rest := by
        have ht : l.kind.isTrivia = false := by
          cases hk : l.kind <;> simp [hk, isPlain] at hp <;> rfl
        clear h
        induction ls with
        | nil => simp at hl
        | cons m ls ih =>
          by_cases hg : isGap m.kind = true
          · have hm : m.kind.isTrivia = true := by
              cases hk : m.kind <;> simp [hk, isGap] at hg <;> rfl
            have := ih (by simpa [List.dropWhile_cons, hg] using hl)
            simpa [significant, hm] using this
          · simp only [List.dropWhile_cons, hg, Bool.false_eq_true, if_false, List.cons.injEq] at hl
            obtain ⟨rfl, rfl⟩ := hl
            simp [significant, ht]
      have hm : l.kind.isMarker = false := by
        cases hk : l.kind <;> simp [hk, isPlain] at hp <;> rfl
      have hc := (h l rest hs).resolve_left (by simp [hm])
      have : ¬ n ≤ l.column := by omega
      simp [this]
    · simp [hp]

/-- No plain scalar goes on there. -/
theorem LineOver.plainLength {ys : List Token} (h : LineOver ys) (q : Position) :
    plainLength (locate q ys) = 0 := by
  cases ys with
  | nil => rfl
  | cons y ys =>
    have hk := h y ys rfl
    simp [locate, YamlPatch.plainLength, Lexeme.kind, hk, isPlain]

/-- Behind a line break and an indentation the column is that of the indentation. -/
theorem column_lineStart {nl : Text} (hl : IsNewline nl) (n : Nat) (p : Position) :
    (p.advance (textOf (lineStart nl n))).column = n := by
  have h (p : Position) (n : Nat) : (p.advance (List.replicate n ' ')).column = p.column + n := by
    induction n generalizing p with
    | zero => rfl
    | succ n ih =>
      have hs : (p.advance (List.replicate (n + 1) ' ')) =
          (p.step ' ').advance (List.replicate n ' ') := rfl
      have hc : (p.step ' ').column = p.column + 1 := by simp [Position.step]
      rw [hs, ih, hc]
      omega
  have hnl : (p.advance nl).column = 0 := by
    cases hl <;> simp [Position.advance, Position.step]
  rw [textOf_lineStart, Position.advance_append, h, hnl]
  omega

/-- Line breaks and indentations are trivia. -/
theorem isTrivia_of_mem_lineStart {nl : Text} {n : Nat} :
    ∀ z ∈ leavesOf (lineStart nl n), z.kind.isTrivia = true := by
  intro z hz
  unfold lineStart at hz
  split at hz
  · obtain rfl := by simpa [leavesOf, leaves] using hz
    rfl
  · rcases (by simpa [leavesOf, leaves] using hz : z = _ ∨ z = _) with rfl | rfl <;> rfl

namespace Config

variable {c : Config} {u : Task} {d : List Tree} {fs : List Frame}

/-- Where a line is over nothing is left on it that could be at fault. -/
theorem finishLine_facing {ys : List Token} (h : LineOver ys) (p : Position) :
    (c.facing (⟨u, d⟩ :: fs) p ys).finishLine = c.facing (⟨u, d⟩ :: fs) p ys := by
  have hn : kindRun (fun k => k == space || k == comment) (locate p ys) = 0 := by
    cases ys with
    | nil => rfl
    | cons y ys =>
      have hk := h y ys rfl
      simp [kindRun, locate, Lexeme.kind, hk]
  dsimp only [finishLine]
  rw [rest_facing, hn, take_zero]
  cases ys with
  | nil => rfl
  | cons y ys =>
    have hk := h y ys rfl
    rw [kind?_facing, hk]

/-! ## One line

What a place may be filled with on the line where it begins. A scalar is taken up to where no
plain token continues it, a flow collection up to its bracket, and whether it is a key is
decided by the colon behind it. -/

/-- A plain scalar is taken as far as its words go. -/
theorem takeInline_of_isPlain {k : TokenKind} (hk : k.isPlain = true) (m : Nat) :
    c.takeInline m k = (c.push (.plain m)).take (plainLength c.rest) := by
  cases k <;> first | exact absurd hk Bool.false_ne_true | simp [takeInline, isPlain]

/-- A value that starts on the line of an indicator is made there; no words may follow an atom. -/
theorem reaches_takeInline {v : Value} (hv : v.Made) (c : Config) (u : Task) (d : List Tree)
    (fs : List Frame) (p : Position) (ys : List Token) (m : Nat)
    (hys : ∀ a, v = .atom a → ∀ q, plainLength (locate q ys) = 0 ∧
      continuation m (locate q ys) = none) :
    ∃ k, (c.facing (⟨u, d⟩ :: fs) p (v.flowTree.leaves ++ ys)).kind? = some k ∧ k.isStart = true ∧
      Reaches ((c.facing (⟨u, d⟩ :: fs) p (v.flowTree.leaves ++ ys)).takeInline m k) c
        (⟨u, d ++ [v.flowTree]⟩ :: fs) ys := by
  have hflow := v.leads_flow hv c u d fs p ys false fun a ha q => (hys a ha q).1
  cases v with
  | sequence vs =>
    exact ⟨leftBracket, rfl, rfl, hflow⟩
  | mapping es =>
    exact ⟨leftBrace, rfl, rfl, hflow⟩
  | atom a =>
    have hl : (Value.flowTree (.atom a)).leaves = a.tokens := by
      simp [Value.flowTree, Atom.node, leaves]
    rw [hl] at hflow ⊢
    -- Words are put into a scalar that may go on in later lines, so it takes a step more to close
    -- it. A quoted text is a node at once.
    rcases a.tokens_cases with ⟨hw, ht, -⟩ | ⟨-, ht, -⟩ | ⟨-, ht, -⟩
    · obtain ⟨x, xs, hx, hk⟩ := (Atom.Made.plainText hv hw).exists_cons
      have hkind : (c.facing (⟨u, d⟩ :: fs) p (a.tokens ++ ys)).kind? = some x.kind := by
        rw [ht, hx]
        rfl
      have hwords : Wordy a.tokens := ht ▸ wordy_plainTokens (Atom.Made.plainText hv hw).last
      have htake := c.take_facing (.plain m) [] (⟨u, d⟩ :: fs) p a.tokens ys
        (plainLength_locate p hwords fun q => (hys a rfl q).1)
      refine ⟨x.kind, hkind, by simp [isStart, hk], ?_⟩
      rw [takeInline_of_isPlain hk, rest_facing, push_facing, htake]
      refine ⟨p.advance (Token.join a.tokens), .of_step ?_⟩
      rw [step_facing, stepTask, stepPlain, rest_facing, (hys a rfl _).2, close_facing]
      rfl
    · rw [ht] at hflow ⊢
      exact ⟨singleQuoted, rfl, rfl, hflow⟩
    · rw [ht] at hflow ⊢
      exact ⟨doubleQuoted, rfl, rfl, hflow⟩

/-- In a place a node that starts on its line and is no key is taken inline. -/
theorem fillContent_eq_takeInline (c : Config) (fs : List Frame) (p : Position) {x : Token}
    {xs : List Token} (s : Slot) (hx : x.kind.isStart = true)
    (hkey : startsKey (locate p (x :: xs)) = false) :
    (c.facing fs p (x :: xs)).fillContent s =
      (c.facing fs p (x :: xs)).takeInline s.minColumn x.kind := by
  obtain ⟨-, -, -, -, -, -, -, -, hdash, hbreak, hcomment⟩ := ne_of_isStart hx
  have hl : locate p (x :: xs) = ⟨x, p⟩ :: locate (p.advance x.text) xs := rfl
  rw [hl] at hkey
  have hdash : (⟨x, p⟩ : Lexeme).kind ≠ dash := hdash
  have hbreak : ¬ ((⟨x, p⟩ : Lexeme).kind = lineBreak ∨ (⟨x, p⟩ : Lexeme).kind = comment) :=
    not_or.mpr ⟨hbreak, hcomment⟩
  unfold fillContent
  rw [rest_facing, hl]
  simp only [hbreak, hdash, hkey, and_false, Bool.false_eq_true, if_false]
  rfl

/-- A place is filled with a value that starts on its line and is no key. -/
theorem reaches_fillContent {v : Value} (hv : v.Made) (c : Config) (u : Task) (d : List Tree)
    (fs : List Frame) (p : Position) (ys : List Token) (s : Slot)
    (hys : ∀ a, v = .atom a →
      ∀ q, plainLength (locate q ys) = 0 ∧ continuation s.minColumn (locate q ys) = none)
    (hkey : startsKey (locate p (v.flowTree.leaves ++ ys)) = false) :
    Reaches ((c.facing (⟨u, d⟩ :: fs) p (v.flowTree.leaves ++ ys)).fillContent s) c
      (⟨u, d ++ [v.flowTree]⟩ :: fs) ys := by
  obtain ⟨k, hk, hs, hr⟩ := reaches_takeInline hv c u d fs p ys s.minColumn hys
  obtain ⟨x, xs, hx, -⟩ := v.starts_flowTree hv
  rw [hx, List.cons_append] at hk hr hkey ⊢
  obtain rfl := Option.some.inj hk
  rwa [fillContent_eq_takeInline _ _ _ _ hs hkey]

/-- No colon follows the words of a scalar. -/
def NoColon (ys : List Token) : Prop :=
  ∀ q, colonAfter (fun k => k.isPlain || k == space) (locate q ys) = false

/-- At the end of a line there is no colon. -/
theorem noColon_of_lineOver {ys : List Token} (h : LineOver ys) : NoColon ys := by
  intro q
  cases ys with
  | nil => rfl
  | cons y ys =>
    have hk := h y ys rfl
    simp [colonAfter, locate, Lexeme.kind, hk, isPlain]

/-- Tokens that are skipped may be skipped before a colon is looked for. -/
theorem colonAfter_append (p : Position) {q : TokenKind → Bool} {xs : List Token} (ys : List Token)
    (hxs : ∀ x ∈ xs, q x.kind = true) :
    colonAfter q (locate p (xs ++ ys)) = colonAfter q (locate (p.advance (Token.join xs)) ys) := by
  induction xs generalizing p with
  | nil => rfl
  | cons x xs ih =>
    have hx := hxs x (by simp)
    have := ih (p.advance x.text) fun y hy => hxs y (List.mem_cons_of_mem x hy)
    simpa [colonAfter, locate, Lexeme.kind, hx, Position.advance_append] using this

/-- Behind quotes only spaces may precede the colon. -/
theorem colonAfter_space_of_noColon {ys : List Token} (h : NoColon ys) (q : Position) :
    colonAfter (· == space) (locate q ys) = false := by
  have h := h q
  unfold colonAfter at h ⊢
  generalize locate q ys = ls at h
  induction ls with
  | nil => rfl
  | cons l ls ih =>
    by_cases hs : l.kind = space
    · simp only [List.dropWhile_cons, hs, isPlain, Bool.false_or, beq_self_eq_true, if_true] at h ⊢
      exact ih h
    · by_cases hp : l.kind.isPlain = true
      · cases hk : l.kind <;> simp [hk, isPlain] at hp <;> simp [hk]
      · simpa [List.dropWhile_cons, hs, hp] using h

/-- Whether words are a key depends on what follows them. -/
theorem startsKey_plainTokens {w : Text} (hw : PlainText w) (p : Position) (ys : List Token) :
    startsKey (locate p (plainTokens w ++ ys)) =
      colonAfter (fun k => k.isPlain || k == space) (locate (p.advance w) ys) := by
  obtain ⟨x, xs, hx, hk⟩ := hw.exists_cons
  have hword : ∀ y ∈ xs, (y.kind.isPlain || y.kind == space) = true := fun y hy => by
    rcases kind_of_mem_plainTokens (w := w) (hx ▸ List.mem_cons_of_mem x hy) with h | h <;> simp [h]
  have hq : x.kind.isQuoted = false ∧ x.kind.isProperty = false ∧ x.kind ≠ space := by
    cases hk' : x.kind <;> simp [hk', isPlain] at hk <;> simp [isQuoted, isProperty]
  have hjoin : w = x.text ++ Token.join xs := by rw [← join_plainTokens w, hx, Token.join_cons]
  have := colonAfter_append (q := fun k => k.isPlain || k == space) (p.advance x.text) ys hword
  rw [hx, hjoin]
  simpa [startsKey, locate, Lexeme.kind, hq, hk, Position.advance_append] using this

/-- Whether an atom is a key depends on what follows it. -/
theorem startsKey_tokens {a : Atom} (ha : a.Made) (p : Position) (ys : List Token) :
    startsKey (locate p (a.tokens ++ ys)) =
      colonAfter (fun k => (a.written = .plain && k.isPlain) || k == space)
        (locate (p.advance (Token.join a.tokens)) ys) := by
  rcases a.tokens_cases with ⟨hw, ht, -⟩ | ⟨hw, ht, -⟩ | ⟨hw, ht, -⟩
  · rw [ht, startsKey_plainTokens (ha.plainText hw), join_plainTokens]
    simp [hw]
  · rw [ht]
    simp [startsKey, locate, Lexeme.kind, isProperty, isQuoted, hw]
  · rw [ht]
    simp [startsKey, locate, Lexeme.kind, isProperty, isQuoted, hw]

/-- A value that no colon follows is no key. -/
theorem startsKey_flowTree {v : Value} (hv : v.Made) {ys : List Token} (hys : NoColon ys)
    (p : Position) : startsKey (locate p (v.flowTree.leaves ++ ys)) = false := by
  cases v with
  | sequence vs | mapping es =>
    simp [Value.flowTree, mark, leaves, leavesOf, startsKey, locate, Lexeme.kind, isProperty,
      isQuoted, isPlain]
  | atom a =>
    have hl : (Value.flowTree (.atom a)).leaves = a.tokens := by
      simp [Value.flowTree, Atom.node, leaves]
    rw [hl, startsKey_tokens hv]
    by_cases hw : a.written = .plain
    · simpa [hw] using hys _
    · simpa [hw] using colonAfter_space_of_noColon hys _

/-- A key is one. -/
theorem startsKey_key (k : Text) (p : Position) {y : Token} (hy : y.kind = colon)
    (ys : List Token) : startsKey (locate p ((Atom.ofText k).tokens ++ y :: ys)) = true := by
  rw [startsKey_tokens (Atom.Made.ofText k)]
  simp [colonAfter, locate, Lexeme.kind, hy, isPlain]

/-- The scalar of a key is taken whole. -/
theorem keyLength_key (k : Text) (p : Position) {y : Token} (hy : y.kind = colon)
    (ys : List Token) :
    keyLength (locate p ((Atom.ofText k).tokens ++ y :: ys)) = (Atom.ofText k).tokens.length := by
  rcases (Atom.ofText k).tokens_cases with ⟨hw, ht, -⟩ | ⟨-, ht, -⟩ | ⟨-, ht, -⟩
  · have hp := (Atom.Made.ofText k).plainText hw
    obtain ⟨x, xs, hx, hk⟩ := hp.exists_cons
    have hwords : Wordy (Atom.ofText k).tokens := ht ▸ wordy_plainTokens hp.last
    have hcolon (q : Position) : plainLength (locate q (y :: ys)) = 0 := by
      simp [locate, plainLength, Lexeme.kind, hy, isPlain]
    have hn := plainLength_locate p hwords hcolon
    have hq : x.kind.isQuoted = false := by
      cases hk' : x.kind <;> simp [hk', isPlain] at hk <;> rfl
    rw [ht, hx] at hn ⊢
    simpa [keyLength, locate, Lexeme.kind, hq, hk] using hn
  · rw [ht]
    rfl
  · rw [ht]
    rfl

/-! ## Lines below each other

An item or an entry is opened at its column, filled and closed at the end of its line. The
collection then takes the trivia before the next line and opens the next node, or is closed. -/

/-- The task of a block collection at column `n`, and how it opens the node of a line. -/
inductive BlockTask (n : Nat) : Task → (Config → Config) → Prop where
  | sequence : BlockTask n (.sequence n) fun c => c.openItem n
  | mapping : BlockTask n (.mapping n) fun c => c.openEntry n

/-- At column `n` a collection of the task `t` opens a node at the leaves of `x`, and the parser
makes `x` of them if the text goes on to the left. -/
structure MakesLine (n : Nat) (t : Task) (opens : Config → Config) (x : Tree) : Prop where
  first : ∃ y ys, x.leaves = y :: ys ∧ y.kind.isTrivia = false
  step : ∀ (c : Config) (d : List Tree) (fs : List Frame) (p : Position) (zs ys : List Token),
    (∀ z ∈ zs, z.kind.isTrivia = true) → (p.advance (Token.join zs)).column = n →
      (c.facing (⟨t, d⟩ :: fs) p (zs ++ (x.leaves ++ ys))).step =
        some (opens (c.facing (⟨t, d ++ zs.map .token⟩ :: fs) (p.advance (Token.join zs))
          (x.leaves ++ ys)))
  makes : ∀ (c : Config) (d : List Tree) (fs : List Frame) (p : Position) (ys : List Token),
    p.column = n → LineOver ys → (∀ q, Outside (n + 1) (locate q ys)) →
      Reaches (opens (c.facing (⟨t, d⟩ :: fs) p (x.leaves ++ ys))) c (⟨t, d ++ [x]⟩ :: fs) ys

/-- In front of more lines the line is over. -/
theorem lineOver_linesBelow {ys : List Token} (nl : Text) (n : Nat) (ts : List Tree)
    (h : LineOver ys) : LineOver (leavesOf (linesBelow nl n ts) ++ ys) := by
  cases ts with
  | nil => exact h
  | cons t ts =>
    intro y zs hy
    rw [Value.leavesOf_linesBelow_cons, lineStart] at hy
    obtain ⟨rfl, -⟩ := List.cons.inj hy
    rfl

/-- What follows the last of some lines is outside of the nodes on the lines before it, and so
is each line : it stands at the column of the collection, to the left of what its nodes hold. -/
theorem outside_linesBelow {nl : Text} (hl : IsNewline nl) {n : Nat} {t : Task}
    {opens : Config → Config} {ts : List Tree} (hts : ∀ x ∈ ts, MakesLine n t opens x)
    {ys : List Token} (hout : ∀ q, Outside (n + 1) (locate q ys)) (q : Position) :
    Outside (n + 1) (locate q (leavesOf (linesBelow nl n ts) ++ ys)) := by
  cases ts with
  | nil => exact hout q
  | cons x ts =>
    obtain ⟨y, zs, hy, ht⟩ := (hts x (by simp)).first
    rw [Value.leavesOf_linesBelow_cons, List.append_assoc, List.append_assoc, hy]
    intro l rest hs
    rw [significant_locate q isTrivia_of_mem_lineStart] at hs
    · obtain ⟨rfl, -⟩ := List.cons.inj hs
      have := column_lineStart hl n q
      right
      simp only [Lexeme.column]
      unfold textOf at this
      omega
    · exact forall_first ht

/-- The lines below a first one are made one by one, and then the collection is closed. -/
theorem reaches_linesBelow {nl : Text} (hl : IsNewline nl) {n : Nat} {t : Task}
    {opens : Config → Config} {ts : List Tree} (hts : ∀ x ∈ ts, MakesLine n t opens x)
    {ys : List Token} (hline : LineOver ys) (hout : ∀ q, Outside (n + 1) (locate q ys))
    (c : Config) (u : Task) (d e : List Tree) (fs : List Frame)
    (hclose : ∀ d fs q, (c.facing (⟨t, d⟩ :: fs) q ys).stepTask t =
      (c.facing (⟨t, d⟩ :: fs) q ys).close)
    (p : Position) :
    Reaches (c.facing (⟨t, d⟩ :: ⟨u, e⟩ :: fs) p (leavesOf (linesBelow nl n ts) ++ ys)) c
      (⟨u, e ++ [.node t.nodeKind (d ++ linesBelow nl n ts)]⟩ :: fs) ys := by
  -- By induction on the lines. Behind each, what follows is the next line or what closes the
  -- collection, and either is outside of the line that was made.
  induction ts generalizing d p with
  | nil =>
    refine ⟨p, .of_step ?_⟩
    rw [step_facing]
    have := hclose d (⟨u, e⟩ :: fs) p
    simp only [linesBelow, List.flatMap_nil, leavesOf, List.nil_append, List.append_nil]
    rw [this, close_facing]
  | cons x ts ih =>
    have hx := hts x (by simp)
    have hrest := fun y hy => hts y (List.mem_cons_of_mem x hy)
    rw [Value.leavesOf_linesBelow_cons, List.append_assoc, List.append_assoc]
    have hcol := column_lineStart hl n p
    refine .head (hx.step c d _ p _ _ isTrivia_of_mem_lineStart hcol) ?_
    refine (hx.makes c _ _ _ _ hcol (lineOver_linesBelow nl n ts hline)
      (outside_linesBelow hl hrest hout)).trans fun q => ?_
    have := ih hrest (d ++ (leavesOf (lineStart nl n)).map .token ++ [x]) q
    have hl' : (leavesOf (lineStart nl n)).map Tree.token = lineStart nl n := by
      unfold lineStart
      split <;> simp [leavesOf, leaves]
    rw [hl'] at this ⊢
    simpa [linesBelow] using this

/-- A collection is closed where the text goes on to the left. -/
theorem stepTask_of_outside {n : Nat} {t : Task} {opens : Config → Config}
    (ht : BlockTask n t opens) {ys : List Token} (hout : ∀ q, Outside n (locate q ys)) (c : Config)
    (d : List Tree) (fs : List Frame) (q : Position) :
    (c.facing (⟨t, d⟩ :: fs) q ys).stepTask t = (c.facing (⟨t, d⟩ :: fs) q ys).close := by
  have hout := hout q
  cases ht with
  | sequence =>
    dsimp only [stepTask, stepSequence]
    rw [rest_facing]
    split
    · rfl
    · rename_i l rest hl
      rw [if_pos]
      rcases hout l rest hl with h | h
      · exact .inl h
      · exact .inr (.inl h)
  | mapping =>
    dsimp only [stepTask, stepMapping]
    rw [rest_facing]
    split
    · rfl
    · rename_i l rest hl
      rw [if_pos (hout l rest hl)]

/-- A collection whose lines are made one by one is made and closed. -/
theorem reaches_lined {nl : Text} (hl : IsNewline nl) {n : Nat} {t : Task} {opens : Config → Config}
    {x : Tree} {ts : List Tree} (hts : ∀ y ∈ x :: ts, MakesLine n t opens y) {ys : List Token}
    (hline : LineOver ys) (hout : ∀ q, Outside (n + 1) (locate q ys)) (c : Config) (u : Task)
    (e : List Tree) (fs : List Frame)
    (hclose : ∀ d fs q, (c.facing (⟨t, d⟩ :: fs) q ys).stepTask t =
      (c.facing (⟨t, d⟩ :: fs) q ys).close)
    {p : Position} (hp : p.column = n) :
    Reaches (opens (c.facing (⟨t, []⟩ :: ⟨u, e⟩ :: fs) p (leavesOf (lined nl n (x :: ts)) ++ ys))) c
      (⟨u, e ++ [.node t.nodeKind (lined nl n (x :: ts))]⟩ :: fs) ys := by
  have hrest := fun y hy => hts y (List.mem_cons_of_mem x hy)
  rw [lined, leavesOf, List.append_assoc]
  refine ((hts x (by simp)).makes c [] _ p _ hp (lineOver_linesBelow nl n ts hline)
    (outside_linesBelow hl hrest hout)).trans fun q => ?_
  exact reaches_linesBelow hl hrest hline hout c u _ e fs hclose q

/-- At a dash in its column a sequence opens an item. -/
theorem step_sequence (c : Config) (d : List Tree) (fs : List Frame) (p : Position)
    {zs ys : List Token} {y : Token} {n : Nat} (hzs : ∀ z ∈ zs, z.kind.isTrivia = true)
    (hy : y.kind = dash) (hp : (p.advance (Token.join zs)).column = n) :
    (c.facing (⟨.sequence n, d⟩ :: fs) p (zs ++ y :: ys)).step =
      some ((c.facing (⟨.sequence n, d ++ zs.map .token⟩ :: fs) (p.advance (Token.join zs))
        (y :: ys)).openItem n) := by
  have hys : ∀ x xs, y :: ys = x :: xs → x.kind.isTrivia = false :=
    forall_first (by simp [hy, isTrivia])
  rw [step_facing, stepTask, stepSequence, takeTrivia_facing _ _ _ _ _ _ _ hzs hys, rest_facing,
    significant_locate p hzs hys]
  simp [locate, Lexeme.kind, Lexeme.column, hy, hp, isMarker]

/-- At a key in its column a mapping opens an entry. -/
theorem step_mapping (c : Config) (d : List Tree) (fs : List Frame) (p : Position)
    {zs xs : List Token} {n : Nat} (hzs : ∀ z ∈ zs, z.kind.isTrivia = true) (hxs : Starts xs)
    (hkey : ∀ q, startsKey (locate q xs) = true) (hp : (p.advance (Token.join zs)).column = n) :
    (c.facing (⟨.mapping n, d⟩ :: fs) p (zs ++ xs)).step =
      some ((c.facing (⟨.mapping n, d ++ zs.map .token⟩ :: fs) (p.advance (Token.join zs))
        xs).openEntry n) := by
  have hys := not_isTrivia_of_starts hxs
  obtain ⟨x, xs, rfl, hx⟩ := hxs
  have hm := (ne_of_isStart hx).2.2.1
  have hkey := hkey (p.advance (Token.join zs))
  rw [locate] at hkey
  rw [step_facing, stepTask, stepMapping, takeTrivia_facing _ _ _ _ _ _ _ hzs hys, rest_facing,
    significant_locate p hzs hys]
  simp [locate, Lexeme.kind, Lexeme.column, hm, hp, hkey]

/-- Behind the dash and a space the place of an item is left to be filled. -/
theorem openItem_facing (c : Config) (d : List Tree) (fs : List Frame) (p : Position) (n : Nat)
    {xs : List Token} (hxs : ∀ y zs, xs = y :: zs → y.kind ≠ space) :
    (c.facing (⟨.sequence n, d⟩ :: fs) p (⟨dash, ['-']⟩ :: ([⟨space, [' ']⟩] ++ xs))).openItem n =
      (c.facing (⟨.item, [mark dash '-', mark space ' ']⟩ :: ⟨.sequence n, d⟩ :: fs)
        (p.advance ['-', ' ']) xs).await ⟨n + 1, none, true⟩ := by
  have hs := takeSpaces_facing c .item [mark dash '-'] (⟨.sequence n, d⟩ :: fs) (p.advance ['-'])
    [⟨space, [' ']⟩] xs (by simp) hxs
  rw [openItem, push_facing, take_one_facing, List.nil_append]
  simp only [mark] at hs ⊢
  rw [hs]
  rfl

/-- A place that no properties precede is filled with content. -/
theorem fill_facing (c : Config) (fs : List Frame) (u : Task) (d : List Tree) (p : Position)
    (s : Slot) {xs : List Token} (hxs : ∀ q, propertiesLength (locate q xs) = 0) :
    (c.facing (⟨u, d⟩ :: fs) p xs).fill s = (c.facing (⟨u, d⟩ :: fs) p xs).fillContent s := by
  rw [fill, rest_facing, hxs p, take_zero]

/-- Where a collection may start on the line, a dash opens a sequence at its column. -/
theorem fillContent_dash (c : Config) (fs : List Frame) (p : Position) {s : Slot}
    (hs : s.compact = true) {y : Token} (hy : y.kind = dash) (ys : List Token) :
    (c.facing fs p (y :: ys)).fillContent s =
      (c.facing (⟨.sequence p.column, []⟩ :: fs) p (y :: ys)).openItem p.column := by
  simp [fillContent, locate, Lexeme.kind, Lexeme.column, hy, hs, push_facing]

/-- So a key opens a mapping at its column. -/
theorem fillContent_key (c : Config) (fs : List Frame) (p : Position) {s : Slot}
    (hs : s.compact = true) {xs : List Token} (hxs : Starts xs)
    (hkey : startsKey (locate p xs) = true) :
    (c.facing fs p xs).fillContent s =
      (c.facing (⟨.mapping p.column, []⟩ :: fs) p xs).openEntry p.column := by
  obtain ⟨x, xs, rfl, hx⟩ := hxs
  obtain ⟨-, -, -, -, -, -, -, -, hdash, hbreak, hcomment⟩ := ne_of_isStart hx
  rw [locate] at hkey
  simp [fillContent, locate, Lexeme.kind, Lexeme.column, hdash, hbreak, hcomment, hkey, hs,
    push_facing]

/-- Behind the key, the colon and spaces the place of a value is left to be filled. -/
theorem openEntry_facing (c : Config) (d : List Tree) (fs : List Frame) (p : Position) (n : Nat)
    (k : Text) (zs xs : List Token) (hzs : ∀ z ∈ zs, z.kind = space)
    (hxs : ∀ y ys, xs = y :: ys → y.kind ≠ space) :
    ∃ q, (c.facing (⟨.mapping n, d⟩ :: fs) p
        ((Atom.ofText k).tokens ++ ⟨colon, [':']⟩ :: (zs ++ xs))).openEntry n =
      (c.facing (⟨.value, []⟩ :: ⟨.entry, Value.keyNode k :: mark colon ':' :: zs.map .token⟩ ::
        ⟨.mapping n, d⟩ :: fs) q xs).await ⟨n + 1, some n, false⟩ := by
  have hstart := (Atom.Made.ofText k).starts_tokens
  -- No anchor or tag stands before the key, so its scalar is taken first.
  have hprop :
      propertiesLength (locate p ((Atom.ofText k).tokens ++ ⟨colon, [':']⟩ :: (zs ++ xs))) = 0 :=
    propertiesLength_locate p fun y ys hy => by
      obtain ⟨x, us, hx, hk⟩ := hstart
      rw [hx] at hy
      obtain ⟨rfl, -⟩ := List.cons.inj hy
      exact (ne_of_isStart hk).2.1
  have hlength : (Atom.ofText k).tokens.length ≠ 0 := by
    obtain ⟨x, us, hx, -⟩ := hstart
    simp [hx]
  have hkey : (c.facing (⟨.entry, []⟩ :: ⟨.mapping n, d⟩ :: fs) p
      ((Atom.ofText k).tokens ++ ⟨colon, [':']⟩ :: (zs ++ xs))).takeKey =
      c.facing (⟨.entry, [Value.keyNode k]⟩ :: ⟨.mapping n, d⟩ :: fs)
        (p.advance (Token.join (Atom.ofText k).tokens)) (⟨colon, [':']⟩ :: (zs ++ xs)) := by
    dsimp only [takeKey]
    rw [rest_facing, hprop, push_facing, take_zero, rest_facing, keyLength_key k p rfl,
      if_neg hlength, wrap_facing c _ _ _ _ _ _ _ rfl, close_facing]
    rfl
  have hcolon := takeSpaces_facing_of_not c .entry [Value.keyNode k] (⟨.mapping n, d⟩ :: fs)
    (p.advance (Token.join (Atom.ofText k).tokens)) (⟨colon, [':']⟩ :: (zs ++ xs)) (by simp)
  have hspaces :=
    takeSpaces_facing c .entry [Value.keyNode k, mark colon ':'] (⟨.mapping n, d⟩ :: fs)
    ((p.advance (Token.join (Atom.ofText k).tokens)).advance [':']) zs xs hzs hxs
  refine ⟨((p.advance (Token.join (Atom.ofText k).tokens)).advance [':']).advance (Token.join zs),
    ?_⟩
  simp only [mark] at hspaces ⊢
  rw [openEntry, push_facing, hkey, hcolon, takeColon, kind?_facing, if_pos rfl, take_one_facing,
    List.singleton_append, hspaces]
  rfl

/-- From a later line a place is filled where the line starts far enough to the right. -/
theorem fillContent_lineStart (c : Config) (u : Task) (d : List Tree) (fs : List Frame)
    (p : Position) {nl : Text} (hl : IsNewline nl) {n : Nat} {s : Slot} (hs : s.minColumn ≤ n)
    {y : Token} (hy : y.kind.isTrivia = false ∧ y.kind.isMarker = false) (ys : List Token) :
    ∃ q, q.column = n ∧
      (c.facing (⟨u, d⟩ :: fs) p (leavesOf (lineStart nl n) ++ y :: ys)).fillContent s =
        (c.facing (⟨u, d ++ lineStart nl n⟩ :: fs) q (y :: ys)).await ⟨s.minColumn, none,
          true⟩ := by
  have hcol := column_lineStart hl n p
  have hmap : (leavesOf (lineStart nl n)).map Tree.token = lineStart nl n := by
    unfold lineStart
    split <;> simp [leavesOf, leaves]
  obtain ⟨zs, hzs⟩ : ∃ zs, leavesOf (lineStart nl n) = ⟨lineBreak, nl⟩ :: zs := by
    simp [lineStart, leavesOf, leaves]
  have htrivia : ∀ z ∈ leavesOf (lineStart nl n), z.kind.isTrivia = true :=
    isTrivia_of_mem_lineStart
  unfold textOf at hcol
  refine ⟨_, hcol, ?_⟩
  rw [hzs] at hcol htrivia hmap ⊢
  rw [fillContent_below c u d fs p (.inl rfl) htrivia hy (.inl (by omega)) ys, hmap]

/-- At the end of its line a node is closed. -/
theorem step_closesLine {t : Task} (ht : t = .item ∨ t = .entry) (c : Config) (d : List Tree)
    (v : Task) (e : List Tree) (fs : List Frame) (p : Position) {ys : List Token}
    (hys : LineOver ys) : (c.facing (⟨t, d⟩ :: ⟨v, e⟩ :: fs) p ys).step =
      some (c.facing (⟨v, e ++ [.node t.nodeKind d]⟩ :: fs) p ys) := by
  rw [step_facing]
  rcases ht with rfl | rfl <;> rw [stepTask, finishLine_facing hys, close_facing]

end Config

open Config

namespace Value

/-- The leaves of an entry with the value below its key. -/
theorem leaves_blockEntryNode (nl : Text) (n : Nat) (k : Text) (t : Tree) :
    (blockEntryNode nl n k t).leaves =
      (Atom.ofText k).tokens ++ (⟨colon, [':']⟩ :: (leavesOf (lineStart nl n) ++ t.leaves)) := by
  simp [blockEntryNode, mark, leaves, leavesOf, ← leaves_keyNode]

/-- The leaves of an entry with the value on the line of its key. -/
theorem leaves_entryNode (k : Text) (t : Tree) :
    (entryNode k t).leaves =
      (Atom.ofText k).tokens ++ (⟨colon, [':']⟩ :: (⟨space, [' ']⟩ :: t.leaves)) := by
  simp [entryNode, indicator, mark, leaves, leavesOf, ← leaves_keyNode]

/-- An entry begins with its key and the colon behind it. -/
theorem exists_leaves_entry (nl : Text) (n : Nat) (k : Text) (v : Value) :
    ∃ ys, ∀ x, x = (if v.isBlock then blockEntryNode nl n k (v.blockTree nl n)
        else entryNode k v.flowTree) →
            x.leaves = (Atom.ofText k).tokens ++ ⟨colon, [':']⟩ :: ys := by
  by_cases hb : v.isBlock = true
  · exact ⟨_, fun x hx => by rw [hx, if_pos hb, leaves_blockEntryNode]⟩
  · exact ⟨_, fun x hx => by rw [hx, if_neg hb, leaves_entryNode]⟩

/-- A value begins with a token that starts one or with a dash. -/
theorem exists_first_blockTree {v : Value} (hv : v.Made) (nl : Text) (n : Nat) :
    ∃ y ys, (v.blockTree nl n).leaves = y :: ys ∧ (y.kind.isStart = true ∨ y.kind = dash) := by
  have hflow (v : Value) (hv : v.Made) :
      ∃ y ys, v.flowTree.leaves = y :: ys ∧ (y.kind.isStart = true ∨ y.kind = dash) := by
    obtain ⟨y, ys, hy, hk⟩ := v.starts_flowTree hv
    exact ⟨y, ys, hy, .inl hk⟩
  cases v with
  | atom a => exact hflow (atom a) hv
  | sequence vs =>
    cases vs with
    | nil => exact hflow (sequence []) hv
    | cons v vs => exact ⟨_, _, rfl, .inr rfl⟩
  | mapping es =>
    cases es with
    | nil => exact hflow (mapping []) hv
    | cons e es =>
      obtain ⟨k, v⟩ := e
      obtain ⟨y, zs, hy, hk⟩ := (Atom.Made.ofText k).starts_tokens
      obtain ⟨ys, hys⟩ := exists_leaves_entry nl (n + 2) k v
      refine ⟨y, zs ++ ⟨colon, [':']⟩ :: ys ++ leavesOf (linesBelow nl n (blockEntryTrees nl n es)),
        ?_, .inl hk⟩
      simp [blockTree, blockEntryTrees, lined, leaves, leavesOf, hys _ rfl, hy]

/-- No anchor or tag stands before a value that is written. -/
theorem propertiesLength_blockTree {v : Value} (hv : v.Made) (nl : Text) (n : Nat) (p : Position)
    (ys : List Token) : propertiesLength (locate p ((v.blockTree nl n).leaves ++ ys)) = 0 := by
  obtain ⟨y, zs, hy, hk⟩ := exists_first_blockTree hv nl n
  refine propertiesLength_locate p fun x xs hx => ?_
  rw [hy] at hx
  obtain ⟨rfl, -⟩ := List.cons.inj hx
  rcases hk with hk | hk
  · exact (ne_of_isStart hk).2.1
  · simp [hk, isProperty]

/-- The parser takes the lines of a block sequence where one may start. -/
theorem reaches_items {nl : Text} (hl : IsNewline nl) {n : Nat} {v : Value} {vs : List Value}
    (hitems : ∀ x ∈ blockItemTrees nl n (v :: vs), MakesLine n (.sequence n) (·.openItem n) x)
    {ys : List Token} (hline : LineOver ys) (hout : ∀ q, Outside (n + 1) (locate q ys)) (c : Config)
    (u : Task) (d : List Tree) (fs : List Frame)
    (hclose : ∀ d fs q, (c.facing (⟨.sequence n, d⟩ :: fs) q ys).stepTask (.sequence n) =
      (c.facing (⟨.sequence n, d⟩ :: fs) q ys).close)
    {p : Position} (hp : p.column = n) {s : Slot} (hs : s.compact = true) :
    Reaches ((c.facing (⟨u, d⟩ :: fs) p
        ((blockTree nl n (sequence (v :: vs))).leaves ++ ys)).fillContent s) c
      (⟨u, d ++ [blockTree nl n (sequence (v :: vs))]⟩ :: fs) ys := by
  have h := reaches_lined hl hitems hline hout c u d fs hclose hp
  have hleaves : (blockTree nl n (sequence (v :: vs))).leaves =
      ⟨dash, ['-']⟩ :: (leavesOf (lined nl n (blockItemTrees nl n (v :: vs)))).tail := by
    simp [blockTree, leaves, blockItemTrees, lined, leavesOf, itemNode, mark]
  have hlined : leavesOf (lined nl n (blockItemTrees nl n (v :: vs))) =
      ⟨dash, ['-']⟩ :: (leavesOf (lined nl n (blockItemTrees nl n (v :: vs)))).tail := by
    simp [leaves, blockItemTrees, lined, leavesOf, itemNode, mark]
  rw [hleaves, List.cons_append, fillContent_dash c _ p hs rfl, ← List.cons_append, ← hlined, hp]
  simpa [blockTree, blockItemTrees, Task.nodeKind] using h

/-- The parser takes an entry with its value on the line of the key. -/
theorem reaches_flowEntry {v : Value} (hv : v.Made) {n : Nat} {ys : List Token}
    (hline : LineOver ys) (hout : ∀ q, Outside (n + 1) (locate q ys)) (c : Config) (d : List Tree)
    (fs : List Frame) (p : Position) (k : Text) :
    Reaches
      ((c.facing (⟨.mapping n, d⟩ :: fs) p ((entryNode k v.flowTree).leaves ++ ys)).openEntry n) c
      (⟨.mapping n, d ++ [entryNode k v.flowTree]⟩ :: fs) ys := by
  have hne : ∀ z zs', v.flowTree.leaves ++ ys = z :: zs' → z.kind.isStart = true := by
    obtain ⟨y, zs, hy, hk⟩ := v.starts_flowTree hv
    intro z zs' hz
    rw [hy] at hz
    obtain ⟨rfl, -⟩ := List.cons.inj hz
    exact hk
  obtain ⟨q, hq⟩ := openEntry_facing c d fs p n k [⟨space, [' ']⟩] (v.flowTree.leaves ++ ys)
    (by simp)
    fun z zs' hz => (ne_of_isStart (hne z zs' hz)).2.2.2.1
  rw [leaves_entryNode, List.append_assoc, List.cons_append, List.cons_append]
  rw [List.singleton_append] at hq
  rw [hq]
  refine .head (await_facing _ _ _ _ _) ?_
  rw [fill_facing _ _ _ _ _ _ fun q => propertiesLength_locate q fun z zs' hz =>
    (ne_of_isStart (hne z zs' hz)).2.1]
  refine (reaches_fillContent hv c .value [] _ q ys _
    (fun _ _ q => ⟨hline.plainLength q, (hout q).continuation_eq⟩)
    (startsKey_flowTree hv (noColon_of_lineOver hline) q)).trans fun q => ?_
  refine .head (step_facing _ _ _ _ _ _) ?_
  rw [stepTask, close_facing]
  exact ⟨q, .of_step (step_closesLine (.inr rfl) c _ _ _ _ q hline)⟩

/-- The parser takes an entry with its value below the key, if it takes the value there. -/
theorem reaches_blockEntry {v : Value} (hv : v.Made) {nl : Text} (hl : IsNewline nl) {n : Nat}
    {ys : List Token} (hline : LineOver ys) {c : Config} {d : List Tree} {fs : List Frame}
    {p : Position} {k : Text}
    (hvalue : ∀ (d' : List Tree) (fs' : List Frame) (q : Position), q.column = n + 2 →
      Reaches
        ((c.facing (⟨.value, d'⟩ :: fs') q ((v.blockTree nl (n + 2)).leaves ++ ys)).fillContent
        ⟨n + 1, none, true⟩) c (⟨.value, d' ++ [v.blockTree nl (n + 2)]⟩ :: fs') ys) :
    Reaches ((c.facing (⟨.mapping n, d⟩ :: fs) p
        ((blockEntryNode nl (n + 2) k (v.blockTree nl (n + 2))).leaves ++ ys)).openEntry n) c
      (⟨.mapping n, d ++ [blockEntryNode nl (n + 2) k (v.blockTree nl (n + 2))]⟩ :: fs) ys := by
  obtain ⟨y, zs, hy, hk⟩ := exists_first_blockTree hv nl (n + 2)
  have hfirst : y.kind.isTrivia = false ∧ y.kind.isMarker = false := by
    rcases hk with hk | hk
    · exact ⟨(ne_of_isStart hk).1, (ne_of_isStart hk).2.2.1⟩
    · simp [hk, isTrivia, isMarker]
  have hbreak : ∀ z zs', leavesOf (lineStart nl (n + 2)) ++ (y :: (zs ++ ys)) = z :: zs' →
      z.kind = lineBreak := by
    intro z zs' hz
    obtain ⟨rfl, -⟩ := List.cons.inj hz
    rfl
  -- The key and the colon are taken, the value is found on the next line and made there, and then
  -- both value and entry are closed.
  obtain ⟨q, hq⟩ := openEntry_facing c d fs p n k []
    (leavesOf (lineStart nl (n + 2)) ++ (y :: (zs ++ ys))) (by simp)
    fun z zs' hz => by simp [hbreak z zs' hz]
  rw [List.nil_append] at hq
  rw [leaves_blockEntryNode, hy, List.append_assoc, List.cons_append, List.append_assoc,
    List.cons_append, hq]
  refine .head (await_facing _ _ _ _ _) ?_
  obtain ⟨r, hr, hfill⟩ := fillContent_lineStart c .value []
    (⟨.entry, [keyNode k, mark colon ':']⟩ :: ⟨.mapping n, d⟩ :: fs) q hl
    (s := ⟨n + 1, some n, false⟩) (n := n + 2) (by simp) hfirst (zs ++ ys)
  rw [fill_facing _ _ _ _ _ _ fun q => propertiesLength_locate q fun z zs' hz => by
    simp [hbreak z zs' hz, isProperty]]
  simp only [List.map_nil]
  rw [hfill]
  refine .head (await_facing _ _ _ _ _) ?_
  rw [← List.cons_append, ← hy,
    fill_facing _ _ _ _ _ _ fun q => propertiesLength_blockTree hv nl (n + 2) q ys]
  refine (hvalue _ _ r hr).trans fun q => ?_
  refine .head (step_facing _ _ _ _ _ _) ?_
  rw [stepTask, close_facing]
  exact ⟨q, .of_step (step_closesLine (.inr rfl) c _ _ _ _ q hline)⟩

mutual

/-- At the column of its tree, the parser makes a value of its leaves if the text goes on to the
left of the place. -/
theorem leads_block : ∀ (v : Value) {nl : Text} (n : Nat), v.Made → IsNewline nl →
    ∀ (c : Config) (u : Task) (d : List Tree) (fs : List Frame) (p : Position) (ys : List Token)
      (s : Slot), s.compact = true → s.minColumn ≤ n → p.column = n → LineOver ys →
      (∀ q, Outside s.minColumn (locate q ys)) →
        Reaches ((c.facing (⟨u, d⟩ :: fs) p ((v.blockTree nl n).leaves ++ ys)).fillContent s) c
          (⟨u, d ++ [v.blockTree nl n]⟩ :: fs) ys
  | atom a, nl, n, hv, _, c, u, d, fs, p, ys, s, _, _, _, hline, hout =>
    reaches_fillContent (v := atom a) hv c u d fs p ys s
      (fun _ _ q => ⟨hline.plainLength q, (hout q).continuation_eq⟩)
      (startsKey_flowTree (v := atom a) hv (noColon_of_lineOver hline) p)
  | sequence [], nl, n, hv, _, c, u, d, fs, p, ys, s, _, _, _, hline, hout =>
    reaches_fillContent (v := sequence []) hv c u d fs p ys s (by simp)
      (startsKey_flowTree (v := sequence []) hv (noColon_of_lineOver hline) p)
  | mapping [], nl, n, hv, _, c, u, d, fs, p, ys, s, _, _, _, hline, hout =>
    reaches_fillContent (v := mapping []) hv c u d fs p ys s (by simp)
      (startsKey_flowTree (v := mapping []) hv (noColon_of_lineOver hline) p)
  -- A dash opens a sequence, a key a mapping. Both are made line by line and closed where the
  -- text goes on to the left.
  | sequence (v :: vs), nl, n, hv, hl, c, u, d, fs, p, ys, s, hs, hmin, hp, hline, hout =>
    reaches_items hl (makesLine_blockItemTrees (v :: vs) n hv hl) hline
      (fun q => (hout q).mono (by omega)) c u d fs
      (stepTask_of_outside (n := n) .sequence (fun q => (hout q).mono hmin) c) hp hs
  | mapping ((k, v) :: es), nl, n, hv, hl, c, u, d, fs, p, ys, s, hs, hmin, hp, hline, hout => by
    have hclose := stepTask_of_outside (n := n) .mapping fun q => (hout q).mono hmin
    have h := reaches_lined hl (makesLine_blockEntryTrees ((k, v) :: es) n hv hl) hline
      (fun q => (hout q).mono (by omega)) c u d fs (hclose c) hp
    have hleaves : (blockTree nl n (mapping ((k, v) :: es))).leaves =
        leavesOf (lined nl n (blockEntryTrees nl n ((k, v) :: es))) := by
      simp [blockTree, leaves]
    obtain ⟨zs, hzs⟩ := exists_leaves_entry nl (n + 2) k v
    have hkey : leavesOf (lined nl n (blockEntryTrees nl n ((k, v) :: es))) ++ ys =
        (Atom.ofText k).tokens ++ ⟨colon, [':']⟩ ::
          (zs ++ (leavesOf (linesBelow nl n (blockEntryTrees nl n es)) ++ ys)) := by
      simp [blockEntryTrees, lined, leavesOf, hzs _ rfl]
    rw [hleaves, hkey, fillContent_key c _ p hs ((Atom.Made.ofText k).starts_tokens.append _)
      (startsKey_key k p rfl _), ← hkey, hp]
    simpa [blockTree, blockEntryTrees, Task.nodeKind] using h

/-- So each item of a sequence is made. -/
theorem makesLine_blockItemTrees : ∀ (vs : List Value) {nl : Text} (n : Nat), AllMade vs →
    IsNewline nl → ∀ x ∈ blockItemTrees nl n vs, MakesLine n (.sequence n) (·.openItem n) x
  | v :: vs, nl, n, hv, hl, x, hx => by
    rcases List.mem_cons.mp hx with rfl | hx
    · have hleaves : (itemNode (v.blockTree nl (n + 2))).leaves =
          ⟨dash, ['-']⟩ :: ([⟨space, [' ']⟩] ++ (v.blockTree nl (n + 2)).leaves) := by
        simp [itemNode, mark, leaves, leavesOf]
      refine ⟨⟨_, _, hleaves, rfl⟩, fun c d fs p zs ys hzs hp => ?_,
        fun c d fs p ys hp hline hout => ?_⟩
      · rw [hleaves]
        exact step_sequence c d fs p hzs rfl hp
      · obtain ⟨y, zs, hy, hk⟩ := exists_first_blockTree hv.1 nl (n + 2)
        have hspace : ∀ x xs, (v.blockTree nl (n + 2)).leaves ++ ys = x :: xs → x.kind ≠ space := by
          intro x xs hx
          rw [hy] at hx
          obtain ⟨rfl, -⟩ := List.cons.inj hx
          rcases hk with hk | hk
          · exact (ne_of_isStart hk).2.2.2.1
          · simp [hk]
        -- Behind the dash and the space the column is that of the tree of the value.
        have hcol : (p.advance ['-', ' ']).column = n + 2 := by
          simp [Position.advance, Position.step, hp]
        rw [hleaves, List.cons_append, List.append_assoc, openItem_facing c d fs p n hspace]
        refine .head (await_facing _ _ _ _ _) ?_
        rw [fill_facing _ _ _ _ _ _ fun q => propertiesLength_blockTree hv.1 nl (n + 2) q ys]
        refine (leads_block v (n + 2) hv.1 hl c .item _ _ _ ys _ rfl
          (by simp) hcol hline hout).trans fun q => ⟨q, .of_step ?_⟩
        exact step_closesLine (.inl rfl) c _ _ _ _ q hline
    · exact makesLine_blockItemTrees vs n hv.2 hl x hx

/-- So each entry of a mapping is made. -/
theorem makesLine_blockEntryTrees :
    ∀ (es : List (Text × Value)) {nl : Text} (n : Nat), EntriesMade es → IsNewline nl →
      ∀ x ∈ blockEntryTrees nl n es, MakesLine n (.mapping n) (·.openEntry n) x
  | (k, v) :: es, nl, n, hv, hl, x, hx => by
    rcases List.mem_cons.mp hx with hx | hx
    · have hstart := (Atom.Made.ofText k).starts_tokens
      obtain ⟨us, hus⟩ := exists_leaves_entry nl (n + 2) k v
      have hus := hus x hx
      refine ⟨?_, fun c d fs p zs ys hzs hp => ?_, fun c d fs p ys hp hline hout => ?_⟩
      · obtain ⟨y, zs, hy, hk⟩ := hstart
        exact ⟨y, zs ++ ⟨colon, [':']⟩ :: us,
          by rw [hus, hy, List.cons_append], (ne_of_isStart hk).1⟩
      · rw [hus, List.append_assoc, List.cons_append]
        exact step_mapping c d fs p hzs (hstart.append _) (fun q => startsKey_key k q rfl _) hp
      · by_cases hb : v.isBlock = true
        · rw [if_pos hb] at hx
          subst hx
          refine reaches_blockEntry hv.1 hl hline fun d' fs' q hq => ?_
          exact leads_block v (n + 2) hv.1 hl c .value d' fs' q ys _ rfl (by simp) hq hline hout
        · rw [if_neg hb] at hx
          subst hx
          exact reaches_flowEntry hv.1 hline hout c d fs p k
    · exact makesLine_blockEntryTrees es n hv.2 hl x hx

end

end Value

end YamlPatch
