import YamlPatch.Proofs.LineEndings

/-!
# Scalars stand between their quotes

The reader of a scalar cuts bytes off its text : the first and the last of a quoted one, the
first of one that is never closed. `Scalar.value?` is that reader with slices that have no
answer past the end of a text or inside a character.

A quoted token begins and ends with its quote, in whatever state the lexer is
(`LexState.Spans.delimited`). In a scalar it has no other tokens beside it, be the scalar parsed
or made of an atom, whose tokens are cut without a look at the place that they come to : if that
gives several, the first is a word or a marker (`IsStretch`). Writes put such scalars into a
document and take the scalars of no other scalar apart, so `Tree.Delimited` is kept by all of
them (`Tree.Rewrites.delimited`), and whatever is written, the slices have an answer
(`delimited_of_rewrites`).

`Tree.Delimited` is a statement on one node, and `Tree.Every` carries it through the tree. What
is said of the quotes is said of tokens, so a document whose text would be cut into other tokens
has scalars as well delimited as any.
-/

namespace YamlPatch

open TokenKind YamlPatch.Tree

/-! ## Slices

Slices are given in bytes. They have an answer at the borders of characters only, so each is
compared with a way to cut the text into parts. -/

namespace Text

/-- The first `n` bytes of the text; `none` past the end and inside a character. -/
def takeBytes : Text → Nat → Option Text
  | _, 0 => some []
  | [], _ + 1 => none
  | c :: t, n + 1 =>
    if c.utf8Size ≤ n + 1 then (takeBytes t (n + 1 - c.utf8Size)).map (c :: ·) else none

/-- The bytes from the `i`th to the `j`th; `none` past the end, inside a character and from
right to left. -/
def slice? (t : Text) (i j : Nat) : Option Text :=
  if i ≤ j then (t.dropBytes i).bind fun u => u.takeBytes (j - i) else none

/-- The bytes of a leading part are that part. -/
theorem takeBytes_append (s t : Text) : takeBytes (s ++ t) (byteLength s) = some s := by
  induction s with
  | nil => simp [byteLength, takeBytes]
  | cons c s ih =>
    have hc := Char.utf8Size_pos c
    obtain ⟨n, hn⟩ : ∃ n, c.utf8Size + byteLength s = n + 1 :=
      ⟨c.utf8Size + byteLength s - 1, by omega⟩
    simp only [List.cons_append, byteLength, hn, takeBytes]
    rw [if_pos (by omega), ← hn, Nat.add_sub_cancel_left, ih, Option.map_some]

/-- A slice from where a part begins to where it ends is that part. -/
theorem slice?_append (s t u : Text) :
    slice? (s ++ (t ++ u)) (byteLength s) (byteLength s + byteLength t) = some t := by
  rw [slice?, if_pos (Nat.le_add_right ..), dropBytes_append, Option.bind_some,
    Nat.add_sub_cancel_left, takeBytes_append]

/-- Between two characters of one byte there is the text without its first and its last byte. -/
theorem slice?_delimited {q r : Char} (hq : q.utf8Size = 1) (hr : r.utf8Size = 1) (w : Text) :
    slice? (q :: (w ++ [r])) 1 (byteLength (q :: (w ++ [r])) - 1) = some w := by
  have hlength : byteLength (q :: (w ++ [r])) - 1 = byteLength [q] + byteLength w := by
    simp only [byteLength, byteLength_append, hq, hr]
    omega
  have hstart : byteLength [q] = 1 := by simp [byteLength, hq]
  have hslice := slice?_append [q] w [r]
  rw [hstart] at hslice
  rw [hlength, hstart]
  exact hslice

end Text

open Text

namespace Scalar

/-- The text that the scalar stands for; `none` if that takes a slice that its text does not
have. -/
def value? (s : Tree) : Option Text :=
  match firstKind? s with
  | some .singleQuoted => (s.text.slice? 1 (byteLength s.text - 1)).map fun w =>
    SingleQuoted.decode (foldLines w)
  | some .doubleQuoted => (s.text.slice? 1 (byteLength s.text - 1)).map fun w =>
    DoubleQuoted.decode (foldLines w)
  | some .unterminated => s.text.dropBytes 1
  | _ => some (value s)

end Scalar

/-! ## Tokens

The kinds of quoted tokens and the token that is never closed are the only ones of which
something is asked. -/

/-- The quote around a token of the kind. -/
def TokenKind.quote? : TokenKind → Option Char
  | singleQuoted => some '\''
  | doubleQuoted => some '"'
  | _ => none

/-- The quotes that the token should have, it has. -/
structure Token.Delimited (x : Token) : Prop where
  quoted : ∀ q, x.kind.quote? = some q → ∃ w, x.text = q :: (w ++ [q])
  unterminated : x.kind = unterminated → ∃ q w, (q = '\'' ∨ q = '"') ∧ x.text = q :: w

/-- Quotes are one byte long. -/
theorem utf8Size_quote {k : TokenKind} {q : Char} (h : k.quote? = some q) : q.utf8Size = 1 := by
  cases k <;> cases h <;> rfl

/-- A token that the lexer scans has the quotes that its kind asks for. -/
theorem LexState.Spans.delimited {c : Char} {t : Text} {r : TokenKind × Nat} (h : Spans c t r) :
    Token.Delimited ⟨r.1, c :: t.take r.2⟩ := by
  cases h with
  | singleQuoted hc hn =>
    obtain ⟨w, hw⟩ := List.getLast?_eq_some_iff.mp (getLast?_singleQuoted hn)
    refine ⟨fun q hq => ⟨w, ?_⟩, nofun⟩
    cases hq
    rw [hw, hc]
  | doubleQuoted hc hn =>
    obtain ⟨w, hw⟩ := List.getLast?_eq_some_iff.mp (getLast?_doubleQuoted hn)
    refine ⟨fun q hq => ⟨w, ?_⟩, nofun⟩
    cases hq
    rw [hw, hc]
  | unterminated h => exact ⟨nofun, fun _ => ⟨c, _, h.imp And.left And.left, rfl⟩⟩
  | @inLine k n hk _ _ =>
    have hk : k.quote? = none ∧ k ≠ .unterminated := by
      cases k <;> first | exact ⟨rfl, by decide⟩ | cases hk
    exact ⟨fun q hq => absurd (hk.1.symm.trans hq) (by simp), fun h => absurd h hk.2⟩
  | _ => exact ⟨nofun, nofun⟩

/-- So has every token of a text, in whatever state the lexer begins. -/
theorem delimited_of_mem_lexFrom {s : LexState} {t : Text} {x : Token} (h : x ∈ lexFrom s t) :
    x.Delimited := by
  fun_induction lexFrom s t with
  | case1 => simp at h
  | case2 s c t ih =>
    rcases List.mem_cons.mp h with rfl | h
    · exact (s.spans c t).delimited
    · exact ih h

/-! ## Trees

In a scalar that was parsed a quoted token stands alone, and so it does in one that was made of
an atom, unless the text of the atom is taken for a marker. -/

/-- A token on its own, or several of which the first is a word or a marker. -/
def IsStretch (xs : List Token) : Prop :=
  (∃ x, xs = [x]) ∨ ∃ x ys, xs = x :: ys ∧ (x.kind.isPlain = true ∨ x.kind.isMarker = true)

/-- Tokens have their quotes, and in a scalar a token with quotes is on its own. -/
def Tree.Delimited : Tree → Prop
  | .token x => x.Delimited
  | .node .scalar ts => ∃ xs : List Token, ts = xs.map token ∧ IsStretch xs
  | .node _ _ => True

namespace Tree

variable {ts : List Tree} {t u : Tree} {k : NodeKind}

/-- Only of scalars something is asked. -/
theorem delimited_of_ne (hk : k ≠ .scalar) : (node k ts).Delimited := by
  cases k <;> trivial

mutual

/-- What follows for a tree from all trees in it, follows for these too. -/
theorem Every.imp {P Q : Tree → Prop} (hP : ∀ t : Tree, t.Every P → Q t) :
    ∀ t : Tree, t.Every P → t.Every Q
  | .token _, h => every_token.mpr (hP _ h)
  | .node _ ts, h => every_node.mpr ⟨hP _ h, EveryOf.imp hP ts (every_node.mp h).2⟩

/-- So it is with several trees. -/
theorem EveryOf.imp {P Q : Tree → Prop} (hP : ∀ t : Tree, t.Every P → Q t) :
    ∀ ts : List Tree, EveryOf P ts → EveryOf Q ts
  | [], _ => everyOf_nil
  | t :: ts, h =>
    everyOf_cons.mpr ⟨Every.imp hP t (everyOf_cons.mp h).1, EveryOf.imp hP ts (everyOf_cons.mp h).2⟩

end

/-- What the parser puts into a scalar is words, or one token. -/
theorem IsScalar.delimited (h : IsScalar ts) : (node .scalar ts).Delimited := by
  obtain ⟨xs, rfl, ⟨x, rfl, -⟩ | hwords⟩ := h
  · exact ⟨_, rfl, .inl ⟨x, rfl⟩⟩
  · obtain ⟨x, hx, hplain⟩ := hwords.first
    obtain ⟨ys, rfl⟩ := List.head?_eq_some_iff.mp hx
    exact ⟨_, rfl, .inr ⟨x, ys, rfl, .inl hplain⟩⟩

/-- Words and markers apart, the first token of a scalar is the only one. -/
theorem Delimited.eq_token {j : TokenKind} (h : (node .scalar ts).Delimited)
    (hj : Scalar.firstKind? (node .scalar ts) = some j) (hplain : j.isPlain = false)
    (hmarker : j.isMarker = false) : ∃ x, ts = [token x] ∧ x.kind = j := by
  obtain ⟨xs, rfl, ⟨x, rfl⟩ | ⟨x, ys, rfl, hx⟩⟩ := h
  · refine ⟨x, rfl, ?_⟩
    obtain ⟨y, hy, rfl⟩ := Option.map_eq_some_iff.mp hj
    obtain rfl : y = x := by simpa [leaves, leavesOf] using List.mem_of_find?_eq_some hy
    rfl
  · have htrivia : x.kind.isTrivia = false := by
      rcases hx with hx | hx <;> revert hx <;> cases x.kind <;> simp [isPlain, isMarker, isTrivia]
    obtain rfl : x.kind = j := by simpa [Scalar.firstKind?, leaves, leavesOf, htrivia] using hj
    rcases hx with hx | hx
    · cases hplain.symm.trans hx
    · cases hmarker.symm.trans hx

end Tree

/-- So the tree of a text is delimited. -/
theorem delimited_parse (t : Text) : (parse t).tree.Every Tree.Delimited := by
  refine .of_leaves (fun k ts h => ?_) _ (parse_shaped t).2 ?_
  · by_cases hk : k = .scalar
    · subst hk
      exact IsScalar.delimited h
    · exact delimited_of_ne hk
  · rw [leaves_parse]
    exact fun x hx => delimited_of_mem_lexFrom hx

/-- A sequence that is read from its text is, too. -/
theorem delimited_of_readSequence {t : Text} {s : Tree} (hs : readSequence t = .ok s) :
    s.Every Tree.Delimited :=
  (every_of_readSequence (delimited_parse t) hs).2

/-- The tokens of an atom are cut from its text alone. -/
theorem Atom.Made.delimited_tree {a : Atom} (ha : a.Made) : a.tree.Every Tree.Delimited := by
  refine every_node.mpr ⟨⟨lex a.render, rfl, ?_⟩,
    everyOf_iff.mpr (List.forall_mem_map.mpr fun x hx => ?_)⟩
  · rcases a.tokens_cases with ⟨hw, -, hr⟩ | ⟨hw, htokens, -⟩ | ⟨hw, htokens, -⟩
    · have hplain := ha.plainText hw
      obtain ⟨c, u, hc⟩ := List.exists_cons_of_ne_nil hplain.ne_nil
      rw [hr, hc, lex, lexFrom]
      exact .inr ⟨_, _, rfl, (hc ▸ hplain).kind_scan {}⟩
    all_goals
      rw [ha.lex_render (by simp [hw]), htokens]
      exact .inl ⟨_, rfl⟩
  · exact every_token.mpr (delimited_of_mem_lexFrom hx)

/-! ## Writes

A write puts new scalars into the document and keeps the others whole. A place is no scalar, so
nothing is put into one. -/

namespace Cursor

variable {c slot : Cursor} {x : Tree}

/-- No node of a scalar is replaced, since it has only tokens. -/
theorem delimited_replace (h : c.rebuild.Every Tree.Delimited) (hx : x.Every Tree.Delimited)
    {k : NodeKind} (hc : c.focus.kind? = some k) : (c.replace x).rebuild.Every Tree.Delimited := by
  refine every_replace (R := fun t _ => ∃ k, t.kind? = some k) ?_ h hx ⟨k, hc⟩
  rintro ⟨n, ls, rs⟩ t x ⟨k, hk⟩ hself
  refine ⟨delimited_of_ne ?_, n, rfl⟩
  rintro rfl
  obtain ⟨xs, hxs, -⟩ := hself
  have ht : t ∈ xs.map token := by simp [← hxs]
  obtain ⟨y, -, rfl⟩ := List.mem_map.mp ht
  cases hk

/-- A place is delimited with a tree in it if the tree is, and those around it are. -/
theorem delimited_insertBetween {left right : List Tree} {new : Tree}
    (hleft : ∀ t ∈ left, t.Every Tree.Delimited) (hright : ∀ t ∈ right, t.Every Tree.Delimited)
    (hnew : new.Every Tree.Delimited) : (slot.insertBetween left right new).Every Tree.Delimited :=
  every_insertBetween (delimited_of_ne (by decide)) ⟨nofun, nofun⟩ hleft hright hnew

/-- A write puts trees of atoms and trees that were parsed into the document. -/
theorem Written.delimited {v : Value} {t : Tree} (hw : slot.Written v t) (hv : v.Made)
    (hvalue : slot.focus.isNode .value = true) (h : slot.rebuild.Every Tree.Delimited) :
    t.Every Tree.Delimited := by
  have hslot : slot.focus.kind? = some .value := by simpa [isNode] using hvalue
  have hchildren : ∀ u ∈ slot.focus.children, u.Every Tree.Delimited :=
    fun u hu => (every_focus h).child hu
  have hlast {new : Tree} (hnew : new.Every Tree.Delimited) :
      (slot.replace (slot.insertLast new)).rebuild.Every Tree.Delimited :=
    delimited_replace h (delimited_insertBetween hchildren (by simp) hnew) hslot
  cases hw with
  | fillAtom _ a => exact hlast (Atom.Made.delimited_tree hv)
  | fillSequence _ hs => exact hlast (delimited_of_readSequence hs)
  | @scalar content hc hk a =>
    have hnew : (a.styledLike (Scalar.style content.focus)).Made :=
      (show a.Made from hv).styledLike _
    exact delimited_replace (rebuild_content? hc ▸ h) hnew.delimited_tree hk
  | sequence hc hk _ hs =>
    exact delimited_replace (rebuild_content? hc ▸ h) (delimited_of_readSequence hs) hk
  | @emptied content hc hk hf s hs =>
    obtain ⟨left, right, heq, hleft, hright⟩ := exists_insertEmptied hc s
    rw [heq]
    refine delimited_replace h (delimited_insertBetween (fun u hu => ?_) (fun u hu => ?_) ?_) hslot
    · exact hchildren u (hleft u hu).1
    · exact hchildren u (hright u hu)
    · exact delimited_of_readSequence hs

/-- A write keeps a document delimited. -/
theorem delimited_of_set {p : KeyPath} {v : Value} {m : MissingPolicy} {t : Tree} (hv : v.Made)
    (h : c.rebuild.Every Tree.Delimited) (hset : c.set p v m = .ok t) : t.Every Tree.Delimited := by
  rcases written_of_set hset with ⟨slot, hrebuild, hvalue, hw⟩ | rfl
  · exact hw.delimited hv hvalue (hrebuild ▸ h)
  · exact h

end Cursor

/-- So does any run of writes. -/
theorem Tree.Rewrites.delimited {t u : Tree} (h : t.Rewrites u) (ht : t.Every Tree.Delimited) :
    u.Every Tree.Delimited := by
  induction h with
  | refl => exact ht
  | set _ hc hv hset ih => exact Cursor.delimited_of_set hv (hc ▸ ih) hset
  | setScalar _ hc hk ha ih =>
    exact Cursor.delimited_replace (hc ▸ ih) ha.delimited_tree (by simpa [isNode] using hk)

/-! ## Reading

All that the reader of a scalar does with slices is said of delimited scalars : they have an
answer, and it is the value. -/

/-- What the slices of the reader of a scalar rest on, and that they have an answer. -/
structure Scalar.Delimited (s : Tree) : Prop where
  /-- A quoted scalar is one token, from quote to quote. -/
  quoted : ∀ k q, firstKind? s = some k → k.quote? = some q → ∃ x, s.children = [.token x] ∧
    x.kind = k ∧ 2 ≤ byteLength x.text ∧ x.text.head? = some q ∧ x.text.getLast? = some q
  /-- One that is never closed begins with a quote. -/
  unterminated : firstKind? s = some .unterminated →
    ∃ q, s.text.head? = some q ∧ q.utf8Size = 1 ∧ (q = '\'' ∨ q = '"')
  slices : value? s = some (value s)

/-- A scalar with a quote is a token with its quotes. -/
theorem Tree.Every.scalar_eq_token {ts : List Tree} (h : (node .scalar ts).Every Tree.Delimited)
    {k : TokenKind} (hk : Scalar.firstKind? (node .scalar ts) = some k) (hplain : k.isPlain = false)
    (hmarker : k.isMarker = false) : ∃ x, ts = [token x] ∧ x.kind = k ∧ x.Delimited := by
  obtain ⟨hself, hts⟩ := every_node.mp h
  obtain ⟨x, rfl, hx⟩ := hself.eq_token hk hplain hmarker
  exact ⟨x, rfl, hx, by simpa [Tree.Delimited] using hts⟩

/-- A quoted token is no word and no marker. -/
theorem TokenKind.not_isPlain_of_quote? {k : TokenKind} {q : Char} (h : k.quote? = some q) :
    k.isPlain = false ∧ k.isMarker = false := by
  cases k <;> first | exact ⟨rfl, rfl⟩ | cases h

namespace Scalar

variable {ts : List Tree}

/-- The slices of a delimited scalar have an answer, which is its value. -/
theorem value?_of_delimited (h : (node .scalar ts).Every Tree.Delimited) :
    value? (node .scalar ts) = some (value (node .scalar ts)) := by
  -- A quoted scalar is one token between two quotes of one byte each.
  have hquoted {k : TokenKind} {q : Char} (hk : firstKind? (node .scalar ts) = some k)
      (hq : k.quote? = some q) :
      (node .scalar ts).text.slice? 1 (byteLength (node .scalar ts).text - 1) =
        some (inner (node .scalar ts).text) := by
    obtain ⟨hplain, hmarker⟩ := not_isPlain_of_quote? hq
    obtain ⟨x, rfl, rfl, hx⟩ := h.scalar_eq_token hk hplain hmarker
    obtain ⟨w, hw⟩ := hx.quoted q hq
    have htext : (node .scalar [token x]).text = q :: (w ++ [q]) := by simp [hw]
    rw [htext, slice?_delimited (utf8Size_quote hq) (utf8Size_quote hq), Atom.inner_append]
  unfold value?
  split
  · rename_i hk
    rw [hquoted hk rfl, Option.map_some, value, hk]
  · rename_i hk
    rw [hquoted hk rfl, Option.map_some, value, hk]
  · rename_i hk
    obtain ⟨x, rfl, hx, hdelimited⟩ := h.scalar_eq_token hk rfl rfl
    obtain ⟨q, w, hq, hw⟩ := hdelimited.unterminated hx
    have htext : (node .scalar [token x]).text = [q] ++ w := by simp [hw]
    have hstart : byteLength [q] = 1 := by rcases hq with rfl | rfl <;> rfl
    have hdrop := dropBytes_append [q] w
    rw [hstart] at hdrop
    simp only [value, hk, htext, hdrop]
    rfl
  · rfl

/-- Such a scalar has all that the reader rests on. -/
theorem delimited_of_every (h : (node .scalar ts).Every Tree.Delimited) :
    Delimited (node .scalar ts) where
  quoted k q hk hq := by
    obtain ⟨hplain, hmarker⟩ := not_isPlain_of_quote? hq
    obtain ⟨x, rfl, rfl, hx⟩ := h.scalar_eq_token hk hplain hmarker
    obtain ⟨w, hw⟩ := hx.quoted q hq
    refine ⟨x, rfl, rfl, ?_, by simp [hw], by simp [hw, List.getLast?_cons]⟩
    simp only [hw, byteLength, byteLength_append, utf8Size_quote hq]
    omega
  unterminated hk := by
    obtain ⟨x, rfl, hx, hdelimited⟩ := h.scalar_eq_token hk rfl rfl
    obtain ⟨q, w, hq, hw⟩ := hdelimited.unterminated hx
    exact ⟨q, by simp [hw], by rcases hq with rfl | rfl <;> rfl, hq⟩
  slices := value?_of_delimited h

end Scalar

/-- However often a document is written to, its scalars stand between their quotes, and the
slices that are cut from them have an answer. -/
theorem delimited_of_rewrites {t : Text} {r u : Tree}
    (hr : r = (parse t).tree ∨ parseStrict t = .ok r) (h : r.Rewrites u) :
    u.Every fun s => s.isNode .scalar = true → Scalar.Delimited s := by
  have htree : r = (parse t).tree := hr.elim id fun hstrict => (parseStrict_eq_ok.mp hstrict).2.symm
  refine (h.delimited (htree ▸ delimited_parse t)).imp fun s hs hk => ?_
  cases s with
  | token x => cases hk
  | node k ts =>
    obtain rfl : k = .scalar := by simpa [isNode, kind?] using hk
    exact Scalar.delimited_of_every hs

/-- A quoted text and a marker are written into a text in which a quote is never closed. -/
theorem delimited_of_rewrites_unclosed :
    let t : Text := "a: 'x'\nb: 1\nc: \"y".toList
    ∃ u, (parse t).tree.Rewrites u ∧ u.text = "a: 'it''s'\nb: ... z\nc: \"y".toList ∧
      u.Every fun s => s.isNode .scalar = true → Scalar.Delimited s := by
  intro t
  let us : List Release.Update :=
    [⟨⟨[['a']], by simp⟩, .ofText "it's".toList⟩, ⟨⟨[['b']], by simp⟩, .ofText "... z".toList⟩]
  have hus : ∀ a ∈ us, a.value.Made := by
    simp only [us, List.forall_mem_cons]
    exact ⟨.ofText _, .ofText _, by simp⟩
  have hrun : (parse t).tree.Rewrites (Release.Plan.applyUpdates .error us (parse t).tree).1 :=
    (Rewrites.refl _).applyUpdates hus .error
  exact ⟨_, hrun, by decide +kernel, delimited_of_rewrites (.inl rfl) hrun⟩

end YamlPatch
