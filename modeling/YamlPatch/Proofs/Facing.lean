import YamlPatch.Proofs.Endings
import YamlPatch.Proofs.PlainText

/-!
# Configurations that face known tokens

To follow the parser through a text whose tokens are known, its configurations are written out :
`Config.facing c fs p xs` has the nodes `fs` under construction and faces the tokens `xs`, the
first of which stands at `p`. Each move has one lemma that says what it does to such a
configuration.

The lemmas are equations from left to right, so a run over known tokens is a chain of rewrites.
All else in the configuration (the trees that are finished and the faults) is that of `c` and
plays no part. Questions about what lies ahead are asked of the tokens, not of their places : a
run of a kind is as long as the list that has it, provided that another kind comes next.
-/

namespace YamlPatch

open TokenKind Lexeme

/-! ## Counting known tokens

The counts ahead are taken over the tokens of a configuration, each with its place. For tokens
that are known they are lengths of known lists, wherever the list begins. -/

/-- What is asked of the first of some tokens is asked of the token that stands there. -/
theorem forall_first {P : Token → Prop} {y : Token} {ys : List Token} (hy : P y) :
    ∀ w ws, y :: ys = w :: ws → P w := by
  intro w ws hw
  obtain ⟨rfl, -⟩ := List.cons.inj hw
  exact hy

/-- A run of a kind is as long as the tokens that have it, if the next token has it no more. -/
theorem kindRun_locate (p : Position) {q : TokenKind → Bool} {xs ys : List Token}
    (hxs : ∀ x ∈ xs, q x.kind = true) (hys : ∀ y zs, ys = y :: zs → q y.kind = false) :
    kindRun q (locate p (xs ++ ys)) = xs.length := by
  induction xs generalizing p with
  | nil =>
    cases ys with
    | nil => rfl
    | cons y ys => simp [kindRun, locate, Lexeme.kind, hys y ys rfl]
  | cons x xs ih =>
    have hx := hxs x (by simp)
    have := ih (p.advance x.text) fun y hy => hxs y (by simp [hy])
    simpa [kindRun, locate, Lexeme.kind, hx] using this

/-- There are no properties where the first token is none. -/
theorem propertiesLength_locate (p : Position) {ys : List Token}
    (h : ∀ y zs, ys = y :: zs → y.kind.isProperty = false) :
    propertiesLength (locate p ys) = 0 := by
  cases ys with
  | nil => rfl
  | cons y ys => simp [locate, propertiesLength, Lexeme.kind, h y ys rfl]

/-- The words of a plain scalar are all counted, if nothing behind them can belong to it. -/
theorem plainLength_locate (p : Position) {xs ys : List Token} (hxs : Wordy xs)
    (hys : ∀ q, plainLength (locate q ys) = 0) : plainLength (locate p (xs ++ ys)) = xs.length := by
  induction xs generalizing p with
  | nil => exact hys p
  | cons x xs ih =>
    obtain ⟨hx, hxs⟩ := hxs
    have hcond : (x.kind.isPlain || (x.kind == space &&
        plainAhead (locate (p.advance x.text) (xs ++ ys)))) = true := by
      rcases hx with hx | ⟨hx, y, zs, rfl, hy⟩
      · simp [hx]
      · simp [hx, plainAhead, locate, Lexeme.kind, hy]
    have hn := ih (p.advance x.text) hxs
    rw [List.cons_append, locate, plainLength]
    simp only [Lexeme.kind, hcond, if_true, hn, List.length_cons]

/-- Behind trivia stand the tokens that count, at the place where the trivia end. -/
theorem significant_locate (p : Position) {zs xs : List Token}
    (hzs : ∀ z ∈ zs, z.kind.isTrivia = true)
    (hxs : ∀ y ys, xs = y :: ys → y.kind.isTrivia = false) :
    significant (locate p (zs ++ xs)) = locate (p.advance (Token.join zs)) xs := by
  rw [← drop_triviaLength, triviaLength, kindRun_locate p hzs hxs, drop_locate, List.drop_left,
    List.take_left]

@[simp] theorem Position.advance_nil (p : Position) : p.advance [] = p := rfl

namespace Config

/-! ## Moves

Each equation has a configuration that faces known tokens on both sides, so the moves of a step
can be rewritten one after the other. -/

/-- The configuration with the nodes `fs` under construction and the tokens `xs` left. -/
def facing (c : Config) (fs : List Frame) (p : Position) (xs : List Token) : Config :=
  { c with frames := fs, slot := none, rest := locate p xs }

section

variable (c : Config) (u v : Task) (d e : List Tree) (fs : List Frame) (p : Position)
  (xs ys : List Token)

@[simp] theorem rest_facing : (c.facing fs p xs).rest = locate p xs := rfl

@[simp] theorem slot_facing : (c.facing fs p xs).slot = none := rfl

@[simp] theorem faults_facing : (c.facing fs p xs).faults = c.faults := rfl

@[simp] theorem frames_facing : (c.facing fs p xs).frames = fs := rfl

theorem kind?_facing (x : Token) : (c.facing fs p (x :: xs)).kind? = some x.kind := rfl

/-- The next tokens, as many as a known list has, are that list. -/
theorem ahead_facing : (c.facing fs p (xs ++ ys)).ahead xs.length = xs.map .token := by
  have h : ((locate p (xs ++ ys)).take xs.length).map Lexeme.token = xs := by
    rw [List.map_take, map_token_locate, List.take_left]
  have h' : (c.facing fs p (xs ++ ys)).ahead xs.length =
      (((locate p (xs ++ ys)).take xs.length).map Lexeme.token).map Tree.token := by
    rw [List.map_map]
    rfl
  rw [h', h]

/-- What is left behind a known list stands where the list ends. -/
theorem drop_locate_append :
    (locate p (xs ++ ys)).drop xs.length = locate (p.advance (Token.join xs)) ys := by
  rw [drop_locate, List.take_left, List.drop_left]

/-- Taking a known list puts it into the innermost node. -/
theorem take_facing {n : Nat} (hn : n = xs.length) :
    (c.facing (⟨u, d⟩ :: fs) p (xs ++ ys)).take n =
      c.facing (⟨u, d ++ xs.map .token⟩ :: fs) (p.advance (Token.join xs)) ys := by
  subst hn
  unfold take
  rw [ahead_facing, rest_facing, drop_locate_append]
  rfl

/-- A known list becomes a node of its own. -/
theorem wrap_facing (k : NodeKind) {n : Nat} (hn : n = xs.length) :
    (c.facing (⟨u, d⟩ :: fs) p (xs ++ ys)).wrap k n =
      c.facing (⟨u, d ++ [.node k (xs.map .token)]⟩ :: fs) (p.advance (Token.join xs)) ys := by
  subst hn
  unfold wrap
  rw [ahead_facing, rest_facing, drop_locate_append]
  rfl

/-- A single token is taken. -/
theorem take_one_facing (x : Token) :
    (c.facing (⟨u, d⟩ :: fs) p (x :: ys)).take 1 =
      c.facing (⟨u, d ++ [.token x]⟩ :: fs) (p.advance x.text) ys := by
  have := c.take_facing u d fs p [x] ys (n := 1) rfl
  simpa using this

theorem push_facing : (c.facing fs p xs).push u = c.facing (⟨u, []⟩ :: fs) p xs := rfl

/-- The innermost node goes into the one around it. -/
theorem close_facing :
    (c.facing (⟨u, d⟩ :: ⟨v, e⟩ :: fs) p xs).close =
      c.facing (⟨v, e ++ [.node u.nodeKind d]⟩ :: fs) p xs := rfl

/-- Where nothing waits to be filled the innermost task decides. -/
theorem step_facing :
    (c.facing (⟨u, d⟩ :: fs) p xs).step = some ((c.facing (⟨u, d⟩ :: fs) p xs).stepTask u) := rfl

/-- Trivia are taken up to the first token that is not one. -/
theorem takeTrivia_facing (hxs : ∀ x ∈ xs, x.kind.isTrivia = true)
    (hys : ∀ y zs, ys = y :: zs → y.kind.isTrivia = false) :
    (c.facing (⟨u, d⟩ :: fs) p (xs ++ ys)).takeTrivia =
      c.facing (⟨u, d ++ xs.map .token⟩ :: fs) (p.advance (Token.join xs)) ys :=
  take_facing c u d fs p xs ys (kindRun_locate p hxs hys)

/-- Where no trivia come next none are taken. -/
theorem takeTrivia_facing_of_not (hys : ∀ y zs, ys = y :: zs → y.kind.isTrivia = false) :
    (c.facing (⟨u, d⟩ :: fs) p ys).takeTrivia = c.facing (⟨u, d⟩ :: fs) p ys := by
  have := c.takeTrivia_facing u d fs p [] ys (by simp) hys
  simpa using this

/-- Spaces are taken up to the first token that is none, be it a line break or a comment. -/
theorem takeSpaces_facing (hxs : ∀ x ∈ xs, x.kind = space)
    (hys : ∀ y zs, ys = y :: zs → y.kind ≠ space) :
    (c.facing (⟨u, d⟩ :: fs) p (xs ++ ys)).takeSpaces =
      c.facing (⟨u, d ++ xs.map .token⟩ :: fs) (p.advance (Token.join xs)) ys :=
  take_facing c u d fs p xs ys (kindRun_locate p (by simpa using hxs) (by simpa using hys))

theorem takeSpaces_facing_of_not (hys : ∀ y zs, ys = y :: zs → y.kind ≠ space) :
    (c.facing (⟨u, d⟩ :: fs) p ys).takeSpaces = c.facing (⟨u, d⟩ :: fs) p ys := by
  have := c.takeSpaces_facing u d fs p [] ys (by simp) hys
  simpa using this

/-- What waits to be filled is filled in the next step. -/
theorem await_facing (s : Slot) : ((c.facing fs p xs).await s).step =
    some ((c.facing fs p xs).fill s) := rfl

/-- A node on a later line is filled in there, if the line stands far enough to the right. -/
theorem fillContent_below {t y : Token} {ts : List Token} {s : Slot}
    (ht : t.kind = lineBreak ∨ t.kind = comment) (hts : ∀ x ∈ t :: ts, x.kind.isTrivia = true)
    (hy : y.kind.isTrivia = false ∧ y.kind.isMarker = false)
    (hcolumn : s.minColumn ≤ (p.advance (Token.join (t :: ts))).column ∨
      y.kind = dash ∧ s.dashColumn = some (p.advance (Token.join (t :: ts))).column) (ys :
      List Token) :
    (c.facing (⟨u, d⟩ :: fs) p (t :: ts ++ y :: ys)).fillContent s =
      (c.facing (⟨u, d ++ (t :: ts).map .token⟩ :: fs) (p.advance (Token.join (t :: ts)))
        (y :: ys)).await ⟨s.minColumn, none, true⟩ := by
  have hfirst : ∀ x xs, y :: ys = x :: xs → x.kind.isTrivia = false := forall_first hy.1
  have hlength : triviaLength (locate p (t :: ts ++ y :: ys)) = (t :: ts).length :=
    kindRun_locate p hts hfirst
  have hlater : laterStart s (locate p (t :: ts ++ y :: ys)) = some (t :: ts).length := by
    rw [laterStart, significant_locate p hts hfirst, hlength]
    simp only [locate, Lexeme.kind, Lexeme.column, hy.2, Bool.false_eq_true, if_false,
      hcolumn, if_true]
  have htake := c.take_facing u d fs p (t :: ts) (y :: ys) rfl
  have hl : locate p (t :: ts ++ y :: ys) = ⟨t, p⟩ :: locate (p.advance t.text) (ts ++ y :: ys) :=
    rfl
  have hkind : (⟨t, p⟩ : Lexeme).kind = lineBreak ∨ (⟨t, p⟩ : Lexeme).kind = comment := ht
  rw [hl] at hlater
  unfold fillContent
  rw [rest_facing, hl]
  simp only [hkind, if_true, hlater]
  rw [htake]

end

end Config

end YamlPatch
