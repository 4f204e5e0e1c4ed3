import YamlPatch.Proofs.Levels
import YamlPatch.Proofs.Openings
import YamlPatch.Proofs.Surroundings

/-!
# A key is taken as it was seen

Before the parser opens an entry of a block mapping it looks ahead for a key and its colon
(`startsKey`), and then it takes them. The two walk over the tokens in different ways : the
search passes over any run of words and spaces, the key takes a space only if a word follows it
directly. They agree because the lexer never cuts white space inside a line into two tokens
(`Spaced`), so the colon that was seen is there once the key is taken (`Config.kind?_keyed`),
and the key has a scalar (`Config.takeKey_of_startsKey`).

This is why no entry of a block mapping is without its colon, and why that fault is never reported.
For tokens that are no text's, two spaces in a row could stand between two words : then the search
would see the colon behind the second word, and the key would end with the first.
-/

namespace YamlPatch

open TokenKind

/-! ## White space is one token

A search that may pass over two spaces finds no two of them. -/

/-- No space stands directly behind another. -/
def Spaced (ls : List Lexeme) : Prop := ls.IsChain fun l m => l.kind = space → m.kind ≠ space

/-- An end of the tokens has the property too. -/
theorem Spaced.of_suffix {ls ms : List Lexeme} (h : Spaced ls) (hm : ms <:+ ls) : Spaced ms :=
  List.IsChain.suffix h hm

theorem Spaced.drop {ls : List Lexeme} (h : Spaced ls) (n : Nat) : Spaced (ls.drop n) :=
  h.of_suffix (List.drop_suffix n ls)

/-- The tokens of a text have it, because the lexer takes all white space up to the next
character. -/
theorem spaced_start (t : Text) : Spaced (Config.start t).rest :=
  isChain_start (R := fun k k' => k = space → k' ≠ space)
    (fun hx hy hk => hx.kind_behind_ne_space (.inl hk) hy) t

/-! ## The search and the taking

Both begin with the properties. Behind these they walk over the same words, since a space
between two words is a single token. -/

/-- Properties are passed over as they are taken. -/
theorem drop_propertiesLength {ls : List Lexeme} (h : ∀ l ∈ ls.head?, l.kind ≠ space) :
    ls.drop (propertiesLength ls) = ls.dropWhile fun l => l.kind.isProperty || l.kind == space := by
  cases ls with
  | nil => rfl
  | cons l ls =>
    have hl : l.kind ≠ space := h l rfl
    by_cases hp : l.kind.isProperty = true
    · simp [propertiesLength, hp, drop_kindRun (fun k => k.isProperty || k == space)]
    · simp [propertiesLength, hp, hl]

/-- Words and then spaces are all words and spaces. -/
theorem drop_plainLength {ls : List Lexeme} (h : Spaced ls) :
    (ls.drop (plainLength ls)).dropWhile (fun l => l.kind == space) =
      ls.dropWhile fun l => l.kind.isPlain || l.kind == space := by
  induction ls with
  | nil => rfl
  | cons l ls ih =>
    by_cases hl : (l.kind.isPlain || (l.kind == space && plainAhead ls)) = true
    · have hl' : (l.kind.isPlain || l.kind == space) = true := by
        simp only [Bool.or_eq_true, Bool.and_eq_true] at hl ⊢
        exact hl.imp_right And.left
      simpa [plainLength, hl, hl'] using ih (h.of_suffix (List.suffix_cons l ls))
    · simp only [plainLength, hl, Bool.false_eq_true, if_false, List.drop_zero]
      simp only [Bool.or_eq_true, Bool.and_eq_true, not_or, not_and] at hl
      by_cases hs : l.kind = space
      · -- behind a space that no word follows there is neither a word nor another space
        have hplain : plainAhead ls = false := by simpa [hs] using hl.2
        cases ls with
        | nil => simp [hs]
        | cons m ms =>
          have hm : m.kind ≠ space := (List.isChain_cons_cons.mp h).1 hs
          have hm' : m.kind.isPlain = false := hplain
          simp [hs, hm, hm']
      · simp [hs, hl.1]

namespace Config

variable {m : Config} {l : Lexeme} {ls : List Lexeme}

/-- The tokens in front of the scalar of the key that lies ahead. -/
theorem exists_scalar_of_startsKey (hl : l.kind ≠ space) (hk : startsKey (l :: ls) = true) :
    ∃ k ks, (l :: ls).drop (propertiesLength (l :: ls)) = k :: ks ∧
      (k.kind.isQuoted = true ∧ colonAfter (· == space) ks = true ∨
        k.kind.isQuoted = false ∧ k.kind.isPlain = true ∧
          colonAfter (fun k => k.isPlain || k == space) ks = true) := by
  rw [drop_propertiesLength (by simpa using hl)]
  unfold startsKey at hk
  split at hk
  · cases hk
  · rename_i k ks hks
    refine ⟨k, ks, hks, ?_⟩
    split at hk
    · exact .inl ⟨‹_›, hk⟩
    · rename_i hq
      simp only [Bool.and_eq_true] at hk
      exact .inr ⟨by simpa using hq, hk⟩

/-- The colon that the search has found is next when what is before it has been taken. -/
theorem kind?_of_colonAfter {p : TokenKind → Bool} {c : Config} (h : colonAfter p ls = true)
    (hr : c.rest = ls.dropWhile fun l => p l.kind) : c.kind? = some colon := by
  unfold colonAfter at h
  split at h
  · cases h
  · simp_all [kind?]

/-- Once the key that lies ahead is taken, its colon is next. -/
theorem kind?_keyed (hr : m.rest = l :: ls) (hl : l.kind ≠ space) (hs : Spaced m.rest)
    (hk : startsKey (l :: ls) = true) : m.keyed.kind? = some colon := by
  obtain ⟨k, ks, hks, h⟩ := exists_scalar_of_startsKey hl hk
  have hrest : m.keyed.rest = ((k :: ks).drop (keyLength (k :: ks))).dropWhile fun l =>
      l.kind == space := by
    rw [← hks, ← hr]
    simp only [keyed, takeSpaces, rest_take, rest_takeKey, rest_push, spacesLength]
    exact drop_kindRun _ _
  rcases h with ⟨hq, hcolon⟩ | ⟨hq, hp, hcolon⟩
  · refine kind?_of_colonAfter hcolon ?_
    simpa [keyLength, hq] using hrest
  · refine kind?_of_colonAfter hcolon ?_
    have hspaced : Spaced (k :: ks) := hks ▸ hr ▸ hs.drop _
    have hlen : keyLength (k :: ks) = plainLength (k :: ks) := by simp [keyLength, hq, hp]
    rw [hrest, hlen, drop_plainLength hspaced]
    simp [hp]

/-- The key that lies ahead, its properties and its scalar. -/
def keyAhead (c : Config) : Tree :=
  let k := c.take (propertiesLength c.rest)
  .node .key (c.ahead (propertiesLength c.rest) ++ [.node .scalar (k.ahead (keyLength k.rest))])

/-- The key that lies ahead is taken as a node of its own, with its properties and its scalar.
-/
theorem takeKey_of_startsKey (hr : m.rest = l :: ls) (hl : l.kind ≠ space)
    (hk : startsKey (l :: ls) = true) :
    m.takeKey = { m.add [m.keyAhead] with rest := m.takeKey.rest } := by
  obtain ⟨k, ks, hks, h⟩ := exists_scalar_of_startsKey hl hk
  have hpos : keyLength ((m.push .key).take (propertiesLength m.rest)).rest ≠ 0 := by
    rw [rest_take, rest_push, hr, hks]
    rcases h with ⟨hq, -⟩ | ⟨hq, hp, -⟩
    · simp [keyLength, hq]
    · simpa [keyLength, hq, hp] using Nat.ne_of_gt (plainLength_pos hp)
  rw [rest_takeKey]
  dsimp only [takeKey]
  rw [if_neg hpos]
  obtain ⟨_, frames, _⟩ := m
  cases frames <;> rfl

end Config

end YamlPatch
