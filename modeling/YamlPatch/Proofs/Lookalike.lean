import YamlPatch.Tree.Lookahead

/-!
# Token lists that look alike

The parser decides by what lies ahead, and it never looks past a token such as `:` or `[`
(`TokenKind.isStop`). Two lists of tokens are `Alike` if they hold the same tokens up to such a
token, with which `tail` and `tail'` begin, or to the end, both tails being empty. If the
relation is also `aligned` then columns agree wherever they are looked at : everywhere but at
the white space and the comment that end a line.

All questions of the parser have the same answer on lists that are alike, and answering them by
taking tokens keeps them alike as long as no token of the tails is taken (`Alike.drop`).

Whether columns have to agree is a parameter of the relation, since they do not where a value is
replaced by a longer one : what follows on the same line moves. There it is enough that they
agree again on the next line, and inside flow collections that they are not looked at at all.
-/

namespace YamlPatch

open TokenKind

/-- The tokens at which every search ahead comes to an end. -/
def TokenKind.isStop : TokenKind → Bool
  | colon | dash | comma | leftBracket | leftBrace | documentStart => true
  | _ => false

/-- The same tokens up to the stop with which the tails begin, or to the end. -/
inductive Alike (aligned : Prop) (tail tail' : List Lexeme) : List Lexeme → List Lexeme → Prop where
  | nil (h : tail = []) (h' : tail' = []) : Alike aligned tail tail' [] []
  | stop {l l' : Lexeme} {ls ls' : List Lexeme} (hstop : l.kind.isStop = true)
      (htoken : l.token = l'.token) (hcolumn : l.column = l'.column) (ht : tail = l :: ls)
      (ht' : tail' = l' :: ls') : Alike aligned tail tail' (l :: ls) (l' :: ls')
  | cons {l l' : Lexeme} {ls ls' : List Lexeme} (htoken : l.token = l'.token)
      (hcolumn : aligned → l.column = l'.column ∨ l.kind.isTrivia ∧ startsKey (l :: ls) = false)
      (h : Alike aligned tail tail' ls ls') : Alike aligned tail tail' (l :: ls) (l' :: ls')

namespace Alike

variable {aligned : Prop} {tail tail' ls ls' : List Lexeme}

/-- The same token has the same kind, wherever it stands. -/
theorem kind_eq {l l' : Lexeme} (h : l.token = l'.token) : l'.kind = l.kind := by
  simp [Lexeme.kind, h]

/-- The tail is part of the list. -/
theorem length_le (h : Alike aligned tail tail' ls ls') : tail.length ≤ ls.length := by
  induction h with
  | nil h => simp [h]
  | stop _ _ _ ht => simp [ht]
  | cons _ _ _ ih => simp only [List.length_cons]; omega

/-- Where one list is at its tail, so is the other. -/
theorem eq_tail (h : Alike aligned tail tail' ls ls') (hl : ls.length ≤ tail.length) :
    ls = tail ∧ ls' = tail' := by
  cases h with
  | nil h h' => exact ⟨h.symm, h'.symm⟩
  | stop _ _ _ ht ht' => exact ⟨ht.symm, ht'.symm⟩
  | cons _ _ h =>
    have := h.length_le
    simp only [List.length_cons] at hl
    omega

/-- The first tokens are the same, if there are any. -/
theorem head?_eq (h : Alike aligned tail tail' ls ls') :
    ls'.head?.map Lexeme.kind = ls.head?.map Lexeme.kind := by
  cases h with
  | nil => rfl
  | stop _ ht => simp [kind_eq ht]
  | cons ht => simp [kind_eq ht]

/-- What is alike to a list that begins with a token begins with a token of the same kind. -/
theorem exists_cons {l : Lexeme} (h : Alike aligned tail tail' (l :: ls) ls') :
    ∃ l' rest, ls' = l' :: rest ∧ l'.kind = l.kind := by
  cases h with
  | stop _ ht => exact ⟨_, _, rfl, kind_eq ht⟩
  | cons ht => exact ⟨_, _, rfl, kind_eq ht⟩

/-- After `m` tokens the lists are alike, or part of the tail has been taken. -/
theorem drop (h : Alike aligned tail tail' ls ls') (m : Nat) :
    (Alike aligned tail tail' (ls.drop m) (ls'.drop m) ∧
        (ls'.take m).map Lexeme.token = (ls.take m).map Lexeme.token) ∨
          (ls.drop m).length < tail.length := by
  induction h generalizing m with
  | nil h h' => exact .inl ⟨by simpa using .nil h h', by simp⟩
  | stop hs ht hc htl htl' =>
    cases m with
    | zero => exact .inl ⟨.stop hs ht hc htl htl', rfl⟩
    | succ m =>
      right
      simp only [htl, List.drop_succ_cons, List.length_drop, List.length_cons]
      omega
  | cons ht hc h ih =>
    cases m with
    | zero => exact .inl ⟨.cons ht hc h, rfl⟩
    | succ m => simpa [ht] using ih m

/-! ## Runs

Where a kind excludes the tokens at which every search stops, a run of it stays among the tokens
that the two lists share. -/

/-- A run of a kind has the same length in both, if the kind excludes the tokens that stop a
search. -/
theorem kindRun_eq (h : Alike aligned tail tail' ls ls') {p : TokenKind → Bool}
    (hp : ∀ k, k.isStop = true → p k = false) : kindRun p ls' = kindRun p ls := by
  induction h with
  | nil => rfl
  | stop hs ht => simp [kindRun, kind_eq ht, hp _ hs]
  | @cons l _ ls _ ht _ _ ih =>
    by_cases hl : p l.kind = true
    · simpa [kindRun, kind_eq ht, hl] using ih
    · simp [kindRun, kind_eq ht, hl]

/-- What is left behind such a run is alike. -/
theorem dropWhile (h : Alike aligned tail tail' ls ls') {p : TokenKind → Bool}
    (hp : ∀ k, k.isStop = true → p k = false) :
    Alike aligned tail tail' (ls.dropWhile fun l => p l.kind) (ls'.dropWhile fun l =>
      p l.kind) := by
  induction h with
  | nil h h' => exact .nil h h'
  | stop hs ht hc htl htl' =>
    simpa [hp _ hs, kind_eq ht] using .stop hs ht hc htl htl'
  | @cons l _ ls _ ht hc h ih =>
    by_cases hl : p l.kind = true
    · simpa [hl, kind_eq ht] using ih
    · simpa [hl, kind_eq ht] using .cons ht hc h

/-- Whether such a run holds a token of another kind is the same in both. -/
theorem any_takeWhile_eq (h : Alike aligned tail tail' ls ls') {p q : TokenKind → Bool}
    (hp : ∀ k, k.isStop = true → p k = false) :
    ((ls'.takeWhile fun l => p l.kind).any fun l => q l.kind) =
      (ls.takeWhile fun l => p l.kind).any fun l => q l.kind := by
  induction h with
  | nil => rfl
  | stop hs ht => simp [kind_eq ht, hp _ hs]
  | @cons l _ ls _ ht _ _ ih =>
    by_cases hl : p l.kind = true
    · simpa [kind_eq ht, hl] using congrArg (q l.kind || ·) ih
    · simp [kind_eq ht, hl]

/-- No stop is trivia. The next lemmas say the same of the other kinds that the parser counts.
-/
theorem isTrivia_of_isStop (k : TokenKind) (h : k.isStop = true) : k.isTrivia = false := by
  cases k <;> simp_all [isStop, isTrivia]

theorem isGap_of_isStop (k : TokenKind) (h : k.isStop = true) : isGap k = false := by
  cases k <;> simp_all [isStop, isGap]

theorem isSpace_of_isStop (k : TokenKind) (h : k.isStop = true) : (k == space) = false := by
  cases k <;> simp_all [isStop]

theorem isLineEnd_of_isStop (k : TokenKind) (h : k.isStop = true) :
    (k == space || k == comment) = false := by
  cases k <;> simp_all [isStop]

theorem isPropertyOrSpace_of_isStop (k : TokenKind) (h : k.isStop = true) :
    (k.isProperty || k == space) = false := by
  cases k <;> simp_all [isStop, isProperty]

theorem isPlainOrSpace_of_isStop (k : TokenKind) (h : k.isStop = true) :
    (k.isPlain || k == space) = false := by
  cases k <;> simp_all [isStop, isPlain]

/-- Both begin with the same trivia. -/
theorem triviaLength_eq (h : Alike aligned tail tail' ls ls') :
    triviaLength ls' = triviaLength ls :=
  h.kindRun_eq isTrivia_of_isStop

theorem spacesLength_eq (h : Alike aligned tail tail' ls ls') :
    spacesLength ls' = spacesLength ls :=
  h.kindRun_eq isSpace_of_isStop

/-- The ends of their lines are of the same length. -/
theorem lineEndLength_eq (h : Alike aligned tail tail' ls ls') :
    kindRun (fun k => k == space || k == comment) ls' =
      kindRun (fun k => k == space || k == comment) ls :=
  h.kindRun_eq isLineEnd_of_isStop

/-- The tokens that count are alike. -/
theorem significant (h : Alike aligned tail tail' ls ls') :
    Alike aligned tail tail' (significant ls) (YamlPatch.significant ls') :=
  h.dropWhile isTrivia_of_isStop

/-- The same anchors and tags lie ahead. -/
theorem propertiesLength_eq (h : Alike aligned tail tail' ls ls') :
    propertiesLength ls' = propertiesLength ls := by
  cases h with
  | nil => rfl
  | stop hs ht =>
    have := isPropertyOrSpace_of_isStop _ hs
    simp_all [propertiesLength, kind_eq ht]
  | cons ht _ h => simp [propertiesLength, kind_eq ht, h.kindRun_eq isPropertyOrSpace_of_isStop]

/-! ## Keys and words

These searches are made of runs, one behind the other. What remains behind the first is alike
again, or the stop has been found. -/

/-- A word lies ahead in both or in neither. -/
theorem plainAhead_eq (h : Alike aligned tail tail' ls ls') : plainAhead ls' = plainAhead ls := by
  cases h with
  | nil => rfl
  | stop _ ht => simp [plainAhead, kind_eq ht]
  | cons ht => simp [plainAhead, kind_eq ht]

/-- The words of a plain scalar are as many in both. Spaces count only between words. -/
theorem plainLength_eq (h : Alike aligned tail tail' ls ls') :
    plainLength ls' = plainLength ls := by
  induction h with
  | nil => rfl
  | stop hs ht =>
    have := isPlainOrSpace_of_isStop _ hs
    simp_all [plainLength, kind_eq ht]
  | cons ht _ h ih => simp [plainLength, kind_eq ht, h.plainAhead_eq, ih]

/-- A colon follows in both or in neither; the colon itself may be the stop. -/
theorem colonAfter_eq (h : Alike aligned tail tail' ls ls') {p : TokenKind → Bool}
    (hp : ∀ k, k.isStop = true → p k = false) : colonAfter p ls' = colonAfter p ls := by
  have hd := h.dropWhile hp
  unfold colonAfter
  generalize ls.dropWhile (fun l => p l.kind) = xs at hd
  generalize ls'.dropWhile (fun l => p l.kind) = xs' at hd
  cases hd with
  | nil => rfl
  | stop _ ht => simp [kind_eq ht]
  | cons ht => simp [kind_eq ht]

/-- A key lies ahead in both or in neither. -/
theorem startsKey_eq (h : Alike aligned tail tail' ls ls') : startsKey ls' = startsKey ls := by
  have hd := h.dropWhile isPropertyOrSpace_of_isStop
  unfold startsKey
  generalize ls.dropWhile (fun l => l.kind.isProperty || l.kind == space) = xs at hd
  generalize ls'.dropWhile (fun l => l.kind.isProperty || l.kind == space) = xs' at hd
  cases hd with
  | nil => rfl
  | @stop l _ _ _ hs ht =>
    have h1 : l.kind.isQuoted = false := by
      revert hs; cases l.kind <;> simp [isStop, isQuoted]
    have h2 : l.kind.isPlain = false := by
      revert hs; cases l.kind <;> simp [isStop, isPlain]
    simp [kind_eq ht, h1, h2]
  | cons ht _ h =>
    simp [kind_eq ht, h.colonAfter_eq isSpace_of_isStop, h.colonAfter_eq isPlainOrSpace_of_isStop]

/-- The key has the same tokens. -/
theorem keyLength_eq (h : Alike aligned tail tail' ls ls') : keyLength ls' = keyLength ls := by
  have hp := h.plainLength_eq
  cases h with
  | nil => rfl
  | stop _ ht => simp [keyLength, kind_eq ht, hp]
  | cons ht => simp [keyLength, kind_eq ht, hp]

/-! ## Columns

A column is that of one token, so only here the lists have to agree on where their tokens stand. -/

/-- Columns agree at a token that is not trivia. -/
theorem column_eq (ha : aligned) {l l' : Lexeme}
    (h : Alike aligned tail tail' (l :: ls) (l' :: ls')) (hl : l.kind.isTrivia = false) :
    l'.column = l.column := by
  cases h with
  | stop _ _ hc => exact hc.symm
  | cons _ hc => rcases hc ha with h | h <;> simp_all

/-- Columns agree where a key starts. -/
theorem column_eq_of_startsKey (ha : aligned) {l l' : Lexeme}
    (h : Alike aligned tail tail' (l :: ls) (l' :: ls')) (hl : startsKey (l :: ls) = true) :
    l'.column = l.column := by
  cases h with
  | stop _ _ hc => exact hc.symm
  | cons _ hc => rcases hc ha with h | h <;> simp_all

/-- A place is filled from a later line in both or in neither. This looks at the column of the
first token that counts. -/
theorem laterStart_eq (ha : aligned) (h : Alike aligned tail tail' ls ls') (s : Slot) :
    laterStart s ls' = laterStart s ls := by
  have hd := h.significant
  have ht := h.triviaLength_eq
  unfold laterStart
  rw [ht]
  generalize hxs : YamlPatch.significant ls = xs at hd
  generalize YamlPatch.significant ls' = xs' at hd
  cases xs with
  | nil =>
    cases hd
    rfl
  | cons l rest =>
    obtain ⟨l', rest', rfl, hk⟩ := hd.exists_cons
    have hc := hd.column_eq ha (isTrivia_of_significant hxs)
    simp only [hk, hc]

/-- A plain scalar goes on in a later line in both or in neither. This looks at a column as
well. -/
theorem continuation_eq (ha : aligned) (h : Alike aligned tail tail' ls ls') (min : Nat) :
    continuation min ls' = continuation min ls := by
  have hd := h.dropWhile isGap_of_isStop
  have hany := h.any_takeWhile_eq (q := (· == lineBreak)) isGap_of_isStop
  have hrun := h.kindRun_eq isGap_of_isStop
  unfold continuation
  generalize ls.dropWhile (fun l => isGap l.kind) = xs at hd
  generalize ls'.dropWhile (fun l => isGap l.kind) = xs' at hd
  cases xs with
  | nil =>
    cases hd
    rfl
  | cons l rest =>
    obtain ⟨l', rest', rfl, hk⟩ := hd.exists_cons
    have hkey := hd.startsKey_eq
    by_cases hl : l.kind.isPlain = true
    · have htr : l.kind.isTrivia = false := by
        revert hl; cases l.kind <;> simp [isPlain, isTrivia]
      simp only [hany, hk, hd.column_eq ha htr, hkey, hrun]
    · simp [hk, hl]

end Alike

end YamlPatch
