import YamlPatch.Proofs.Commuting

/-!
# What counts as null

A token is a null if its text is a word for null (`kind_eq_null_iff`), and a scalar is null if
its first token is one, whatever comes behind it (`Cursor.isNull_iff_of_find?`). So a scalar of
one token is null if its text is a word for null, and a longer one if its first word is. At all
other scalars a text is read (`Cursor.string?_eq_some_iff`).

That kind and text agree is a fact about the lexer. The words for null begin with characters
that mean nothing else, so they are scanned as plain words wherever they stand, and only plain
words are looked up in the table of such words.
-/

namespace YamlPatch

open TokenKind

/-! ## Words for null

The lexer makes a null of nothing but a plain word, whatever the context. -/

namespace LexState

/-- A token is a plain word, or it is of another kind. -/
theorem scan_eq_scanPlain_or (s : LexState) (c : Char) (t : Text) :
    s.scan c t = s.scanPlain c t ∨ (s.scan c t).1.isPlain = false := by
  have hline : s.scanInLine c t = s.scanPlain c t ∨ (s.scanInLine c t).1.isPlain = false := by
    dsimp only [scanInLine, quotedToken]
    split
    all_goals try split
    all_goals first | exact .inr rfl | exact .inl rfl | skip
    all_goals split <;> exact .inr rfl
  unfold scan
  split
  · unfold scanLineStart
    repeat' split
    all_goals first | exact .inr rfl | exact hline
  · exact hline

/-- A word for null begins with none of the characters that mean something else. -/
theorem scan_eq_scanPlain_of_mem {c : Char} {t u : Text} (s : LexState) (h : c :: t ∈ nullWords) :
    s.scan c u = s.scanPlain c u := by
  have hc : c = 'n' ∨ c = 'N' ∨ c = '~' := by
    simp only [nullWords, List.mem_cons, List.not_mem_nil, or_false] at h
    rcases h with h | h | h | h <;> obtain ⟨rfl, -⟩ := List.cons.inj h <;> decide
  rcases hc with rfl | rfl | rfl <;>
  · rw [scan_eq_scanInLine (.inr (by decide))]
    rfl

/-- The token that is scanned is a null if its text is such a word. -/
theorem kind_token_eq_null_iff (s : LexState) (c : Char) (t : Text) :
    (s.token c t).kind = null ↔ (s.token c t).text ∈ nullWords := by
  rcases s.scan_eq_scanPlain_or c t with h | h
  · rw [token, h]
    exact classify_eq_null_iff
  · refine iff_of_false (fun hk => ?_) fun hw => ?_
    · rw [show (s.scan c t).1 = null from hk] at h
      cases h
    · rw [s.scan_eq_scanPlain_of_mem hw, s.isPlain_scanPlain] at h
      cases h

end LexState

/-- So it is with all tokens, in whatever state the lexer begins. -/
theorem kind_eq_null_iff_of_mem_lexFrom {s : LexState} {t : Text} {x : Token}
    (h : x ∈ lexFrom s t) : x.kind = null ↔ x.text ∈ nullWords := by
  fun_induction lexFrom s t with
  | case1 => simp at h
  | case2 s c t ih =>
    rcases List.mem_cons.mp h with rfl | h
    · exact s.kind_token_eq_null_iff c t
    · exact ih h

/-- A token is a null if its text is a word for null. -/
theorem kind_eq_null_iff {t : Text} {x : Token} (h : x ∈ lex t) :
    x.kind = null ↔ x.text ∈ nullWords :=
  kind_eq_null_iff_of_mem_lexFrom h

/-! ## Scalars

The first token of a scalar that is not trivia decides, and nothing behind it is looked at. -/

namespace Scalar

/-- The first token that is not trivia. -/
def head? (t : Tree) : Option Token := t.leaves.find? fun x => !x.kind.isTrivia

/-- Where kinds and texts agree, the text of the first token decides. -/
theorem isNull_iff {t : Tree} (ht : ∀ x ∈ t.leaves, x.kind = null ↔ x.text ∈ nullWords) :
    isNull t = true ↔ ∀ x ∈ head? t, x.text ∈ nullWords := by
  have hfirst : firstKind? t = (head? t).map Token.kind := rfl
  unfold isNull
  rw [hfirst]
  cases hx : head? t with
  | none => simp
  | some x =>
    have hmem : x ∈ t.leaves := List.mem_of_find?_eq_some hx
    rw [Option.map_some]
    simp only [Option.mem_def, Option.some.injEq, forall_eq', ← ht x hmem]
    cases x.kind <;> simp

end Scalar

namespace Cursor

variable {t : Text} {p : KeyPath} {d : Cursor}

/-- The tokens at a path are tokens of the text. -/
theorem mem_lex_of_find? (hd : (ofTree (parse t).tree).find? p = some d) {x : Token}
    (hx : x ∈ d.focus.leaves) : x ∈ lex t := by
  have hrebuild : d.rebuild = (parse t).tree := rebuild_find? hd
  rw [← leaves_parse, ← hrebuild]
  exact mem_leaves_rebuild hx

/-- The first token decides whether what is found is null. -/
theorem isNull_iff_of_find? (hd : (ofTree (parse t).tree).find? p = some d) :
    Scalar.isNull d.focus = true ↔ ∀ x ∈ Scalar.head? d.focus, x.text ∈ nullWords :=
  Scalar.isNull_iff fun _ hx => kind_eq_null_iff (mem_lex_of_find? hd hx)

/-- What is a single token is null if its text is a word for null. -/
theorem isNull_iff_text_mem (hd : (ofTree (parse t).tree).find? p = some d) {x : Token}
    (hx : d.focus.leaves = [x]) (htrivia : x.kind.isTrivia = false) :
    Scalar.isNull d.focus = true ↔ d.focus.text ∈ nullWords := by
  have hhead : Scalar.head? d.focus = some x := by simp [Scalar.head?, hx, htrivia]
  have htext : d.focus.text = x.text := by simp [Tree.text, hx]
  simp [isNull_iff_of_find? hd, hhead, htext]

/-- A text is read at a scalar whose first token is no word for null. -/
theorem string?_eq_some_iff {s : Text} :
    (ofTree (parse t).tree).string? p = some s ↔
      ∃ d, (ofTree (parse t).tree).find? p = some d ∧ d.focus.isNode .scalar = true ∧
        (∃ x, Scalar.head? d.focus = some x ∧ x.text ∉ nullWords) ∧ Scalar.value d.focus = s := by
  rw [string?, Option.bind_eq_some_iff]
  refine exists_congr fun d => and_congr_right fun hd => ?_
  have hnull : (!Scalar.isNull d.focus) = true ↔
      ∃ x, Scalar.head? d.focus = some x ∧ x.text ∉ nullWords := by
    rw [Bool.not_eq_true', ← Bool.not_eq_true, isNull_iff_of_find? hd]
    simp
  rw [← hnull]
  simp [and_assoc]

end Cursor

end YamlPatch
