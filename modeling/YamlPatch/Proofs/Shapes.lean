import YamlPatch.Proofs.Keys

/-!
# What a node may hold

`Shaped` says for each kind of node what may stand directly under it. `Task.Complete` says the
same of a node under construction that is about to be closed, and a little more, which the node
around it needs. A node that is `Task.Settled` may be closed, and so may a place that is
`Task.Vacant`, which has not got its content yet.

A node that has another one under construction in it `Task.Awaits` that one : it is settled as
soon as the other is put at its end. What fits nowhere, and the tokens without structure, are
*loose* (`Tree.IsLoose`) : they may be put into any node that is no scalar, at any time.

The shapes are those of faulty texts as well, so they allow errors nearly everywhere and ask for
little : an entry without a value has no colon either, a mapping in block style has keys that
are scalars. What a text without faults has in addition is the matter of flaws. Nothing here is
about the parser yet. All statements are about lists of trees, and about what may be put at
their ends.
-/

namespace YamlPatch

open TokenKind

namespace Tree

/-! ## All trees in a tree

What is asked of every node is stated by recursion on the tree. -/

mutual

/-- `P` holds of the tree and of all trees in it. -/
def Every (P : Tree → Prop) : Tree → Prop
  | .token x => P (.token x)
  | .node k ts => P (.node k ts) ∧ EveryOf P ts

/-- `P` holds of all trees in several trees. -/
def EveryOf (P : Tree → Prop) : List Tree → Prop
  | [] => True
  | t :: ts => t.Every P ∧ EveryOf P ts

end

variable {P : Tree → Prop} {ts us : List Tree}

/-- A token has no trees in it but itself. -/
@[simp] theorem every_token {x : Token} : (token x).Every P ↔ P (token x) := by
  rw [Every]

/-- What holds of a node and of all trees in it holds of the node, and of those under it. -/
theorem every_node {k : NodeKind} : (node k ts).Every P ↔ P (node k ts) ∧ EveryOf P ts := by
  rw [Every]

/-- A tree is one of the trees in it. -/
theorem Every.self {t : Tree} (h : t.Every P) : P t := by
  cases t with
  | token x => exact every_token.mp h
  | node k ts => exact (every_node.mp h).1

@[simp] theorem everyOf_nil : EveryOf P [] := by
  rw [EveryOf]
  trivial

@[simp] theorem everyOf_cons {t : Tree} : EveryOf P (t :: ts) ↔ t.Every P ∧ EveryOf P ts := by
  rw [EveryOf]

/-- What holds in two lists of trees holds in both together. -/
@[simp] theorem everyOf_append : EveryOf P (ts ++ us) ↔ EveryOf P ts ∧ EveryOf P us := by
  induction ts with
  | nil => simp
  | cons t ts ih => simp [ih, and_assoc]

/-- What holds in a list of trees holds in each of them. -/
theorem everyOf_iff : EveryOf P ts ↔ ∀ t ∈ ts, t.Every P := by
  induction ts with
  | nil => simp
  | cons t ts ih => simp [ih]

/-! ## Shapes

Tokens may stand between the nodes almost everywhere, so shapes are stated by counting nodes.
Only scalars are told by their tokens. -/

/-- Besides tokens there are only nodes of these kinds. -/
def HoldsOnly (ks : List NodeKind) (ts : List Tree) : Prop := ∀ t ∈ ts, ∀ k ∈ t.kind?, k ∈ ks

/-- What a document, a key, a value or an item holds : one value at most. -/
structure IsPlace (ts : List Tree) : Prop where
  holds : HoldsOnly [.scalar, .mapping, .sequence, .error] ts
  content : ts.countP isContent ≤ 1

/-- A key, and so many colons and values. -/
structure EntryParts (colons values : Nat) (ts : List Tree) : Prop where
  holds : HoldsOnly [.key, .value, .error] ts
  key : ts.countP (isNode .key) = 1
  colon : ts.countP (isToken .colon) = colons
  value : ts.countP (isNode .value) = values

/-- What an entry holds : a colon and a value either both or neither. -/
def IsEntry (ts : List Tree) : Prop := ∃ n ≤ 1, EntryParts n n ts

/-- The keys among the trees have one scalar each. -/
def HasKeyScalars (ts : List Tree) : Prop :=
  ∀ t ∈ ts, t.isNode .key = true → t.children.countP (isNode .scalar) = 1

/-- What an entry of a block mapping holds. -/
def IsBlockEntry (ts : List Tree) : Prop := EntryParts 1 1 ts ∧ HasKeyScalars ts

end Tree

/-- The tokens that are a scalar on their own. -/
def TokenKind.standsAlone : TokenKind → Bool
  | singleQuoted | doubleQuoted | unterminated | blockScalar | reference => true
  | _ => false

/-- Quoted scalars and aliases are scalars on their own. -/
theorem standsAlone_of_isQuoted {k : TokenKind} (h : k.isQuoted = true ∨ k = .reference) :
    k.standsAlone = true := by
  cases k <;> simp_all [TokenKind.isQuoted, TokenKind.standsAlone]

/-- The words of a plain scalar with the white space between them. -/
structure IsWords (xs : List Token) : Prop where
  first : ∃ x, xs.head? = some x ∧ x.kind.isPlain = true
  last : ∃ x, xs.getLast? = some x ∧ x.kind.isPlain = true
  between : ∀ x ∈ xs, x.kind.isPlain = true ∨ isGap x.kind = true

namespace Tree

/-- What a scalar holds. -/
def IsScalar (ts : List Tree) : Prop :=
  ∃ xs : List Token, ts = xs.map token ∧ ((∃ x, xs = [x] ∧ x.kind.standsAlone = true) ∨ IsWords xs)

/-- What a mapping holds. In block style every entry has a colon and a value, and a scalar as its
key. -/
def IsMapping (ts : List Tree) : Prop :=
  HoldsOnly [.entry, .error] ts ∧ ((node .mapping ts).isFlow = false →
    ∀ t ∈ ts, t.isNode .entry = true → IsBlockEntry t.children)

/-- A node holds directly what one of its kind may hold. -/
def Shaped : Tree → Prop
  | .token _ => True
  | .node .stream ts => HoldsOnly [.document] ts
  | .node .mapping ts => IsMapping ts
  | .node .sequence ts => HoldsOnly [.item, .error] ts
  | .node .entry ts => IsEntry ts
  | .node .scalar ts => IsScalar ts
  | .node .error ts => HoldsOnly [] ts
  | .node .document ts | .node .key ts | .node .value ts | .node .item ts => IsPlace ts

end Tree

/-! ## Loose trees

Trivia and errors may be put into any node that is not a scalar, and its shape stays the same. -/

/-- Neither a colon nor a closing bracket. -/
def TokenKind.isLoose : TokenKind → Bool
  | colon | rightBracket | rightBrace => false
  | _ => true

namespace Tree

/-- Errors and loose tokens. -/
def IsLoose : Tree → Prop
  | .token x => x.kind.isLoose = true
  | .node k _ => k = .error

variable {ts us : List Tree} {k : NodeKind}

/-- The only loose nodes are errors. -/
theorem IsLoose.kind?_eq {t : Tree} (h : t.IsLoose) : ∀ k ∈ t.kind?, k = .error := by
  cases t with
  | token x => simp [kind?]
  | node k ts =>
    obtain rfl : k = .error := h
    simp [kind?]

/-- What is loose is no content. -/
theorem IsLoose.isContent_eq {t : Tree} (h : t.IsLoose) : t.isContent = false := by
  cases t with
  | token x => rfl
  | node k ts =>
    obtain rfl : k = .error := h
    rfl

/-- A loose tree is a node of no other kind. -/
theorem IsLoose.isNode_eq {t : Tree} (h : t.IsLoose) (hk : k ≠ .error) : t.isNode k = false := by
  cases t with
  | token x => rfl
  | node l ts =>
    obtain rfl : l = .error := h
    simpa [isNode, kind?] using hk.symm

/-- A loose token has no part in the structure : it is neither a colon nor a closing bracket. -/
theorem IsLoose.isToken_eq {t : Tree} (h : t.IsLoose) {k : TokenKind}
    (hk : k = colon ∨ k = rightBracket ∨ k = rightBrace) : t.isToken k = false := by
  cases t with
  | token x =>
    have hx : x.kind ≠ k := by
      rintro rfl
      have hx : x.kind.isLoose = true := h
      rcases hk with hk | hk | hk <;> simp [hk, isLoose] at hx
    simpa [isToken, tokenKind?] using hx
  | node k ts => rfl

/-- Trees that are not counted may be put at the end. -/
theorem countP_append_of_false {p : Tree → Bool} (h : ∀ t ∈ us, p t = false) :
    (ts ++ us).countP p = ts.countP p := by
  have hus : us.countP p = 0 := List.countP_eq_zero.mpr (by simpa using h)
  rw [List.countP_append, hus, Nat.add_zero]

/-! ## Putting trees in

The parser puts trees in at the end only, one after the other, so there is one lemma for each
thing that may come. -/

/-- What may stand in a node may stand there together. -/
theorem HoldsOnly.append {ks : List NodeKind} (h : HoldsOnly ks ts) (hu : HoldsOnly ks us) :
    HoldsOnly ks (ts ++ us) := fun t ht => (List.mem_append.mp ht).elim (h t) (hu t)

/-- Loose trees may stand wherever errors may. -/
theorem HoldsOnly.loose {ks : List NodeKind} (hk : .error ∈ ks) (hu : ∀ t ∈ us, t.IsLoose) :
    HoldsOnly ks us := fun t ht k hkind => (hu t ht).kind?_eq k hkind ▸ hk

/-- Tokens may stand anywhere, as far as only the kinds of nodes are asked about. -/
theorem HoldsOnly.of_tokens {ks : List NodeKind} (xs : List Token) :
    HoldsOnly ks (xs.map token) := by
  simp [HoldsOnly, kind?]

/-- A single node may stand where its kind may. -/
theorem HoldsOnly.node {ks : List NodeKind} (hk : k ∈ ks) : HoldsOnly ks [node k us] := by
  simpa [HoldsOnly, kind?] using hk

/-- A place stays one when loose trees are put in. -/
theorem IsPlace.append_loose (h : IsPlace ts) (hu : ∀ t ∈ us, t.IsLoose) : IsPlace (ts ++ us) :=
  ⟨h.holds.append (.loose (by simp) hu),
    by rw [countP_append_of_false fun t ht => (hu t ht).isContent_eq]; exact h.content⟩

/-- A place without content takes one. -/
theorem IsPlace.concat (h : IsPlace ts) (hv : ∀ t ∈ ts, t.isContent = false)
    (hk : k.isContent = true) : IsPlace (ts ++ [node k us]) := by
  refine ⟨h.holds.append (.node ?_), ?_⟩
  · cases k <;> simp_all [NodeKind.isContent]
  · rw [List.countP_append, List.countP_eq_zero.mpr (by simpa using hv)]
    simpa using List.countP_le_length (p := isContent) (l := [node k us])

variable {m n : Nat}

/-- An entry begins with its key. -/
theorem EntryParts.of_key (us : List Tree) : EntryParts 0 0 [node .key us] where
  holds := .node (by simp)
  key := by simp [isNode, kind?]
  colon := by simp [isToken, tokenKind?]
  value := by simp [isNode, kind?]

/-- Loose trees are no parts of an entry. -/
theorem EntryParts.append_loose (h : EntryParts m n ts) (hu : ∀ t ∈ us, t.IsLoose) :
    EntryParts m n (ts ++ us) where
  holds := h.holds.append (.loose (by simp) hu)
  key := by
    rw [countP_append_of_false fun t ht => (hu t ht).isNode_eq (by simp)]
    exact h.key
  colon := by
    rw [countP_append_of_false fun t ht => (hu t ht).isToken_eq (.inl rfl)]
    exact h.colon
  value := by
    rw [countP_append_of_false fun t ht => (hu t ht).isNode_eq (by simp)]
    exact h.value

/-- A colon is one more of the colons. -/
theorem EntryParts.concat_colon (h : EntryParts m n ts) {x : Token} (hx : x.kind = .colon) :
    EntryParts (m + 1) n (ts ++ [token x]) where
  holds := h.holds.append (.of_tokens [x])
  key := by simpa [isNode, kind?] using h.key
  colon := by simp [isToken, tokenKind?, hx, h.colon]
  value := by simpa [isNode, kind?] using h.value

/-- A value is one more of the values. -/
theorem EntryParts.concat_value (h : EntryParts m n ts) :
    EntryParts m (n + 1) (ts ++ [node .value us]) where
  holds := h.holds.append (.node (by simp))
  key := by simpa [isNode, kind?] using h.key
  colon := by simpa [isToken, tokenKind?] using h.colon
  value := by simp [isNode, kind?, h.value]

/-- Whatever is no key may be put in without changing what is known of the keys. -/
theorem HasKeyScalars.append (h : HasKeyScalars ts) (hu : ∀ t ∈ us, t.isNode .key = false) :
    HasKeyScalars (ts ++ us) := fun t ht hk =>
  (List.mem_append.mp ht).elim (fun ht => h t ht hk) fun ht => by simp [hu t ht] at hk

theorem HasKeyScalars.append_loose (h : HasKeyScalars ts) (hu : ∀ t ∈ us, t.IsLoose) :
    HasKeyScalars (ts ++ us) := h.append fun t ht => (hu t ht).isNode_eq (by simp)

/-- The style of a collection is that of the first tree in it. -/
theorem isFlow_cons (k : NodeKind) (t : Tree) (ts : List Tree) :
    (node k (t :: ts)).isFlow = t.isFlow := by
  simp [isFlow, firstToken, firstTokenOf]

/-- So it does not change when more trees are put in. -/
theorem isFlow_append (h : ts ≠ []) : (node k (ts ++ us)).isFlow = (node k ts).isFlow := by
  cases ts with
  | nil => exact absurd rfl h
  | cons t ts => rw [List.cons_append, isFlow_cons, isFlow_cons]

/-- Entries and errors may be put into a mapping, in block style only entries that are complete.
-/
theorem IsMapping.append (h : IsMapping ts) (hne : ts ≠ []) (hu : HoldsOnly [.entry, .error] us)
    (he : (node .mapping ts).isFlow = false →
      ∀ t ∈ us, t.isNode .entry = true → IsBlockEntry t.children) :
    IsMapping (ts ++ us) := by
  refine ⟨h.1.append hu, fun hf t ht hk => ?_⟩
  rw [isFlow_append hne] at hf
  exact (List.mem_append.mp ht).elim (fun ht => h.2 hf t ht hk) fun ht => he hf t ht hk

end Tree

/-! ## Words

White space belongs to a plain scalar between two words only, and it is taken together with the
word behind it. -/

namespace IsWords

open YamlPatch.Tree

/-- Words on the next line, behind the gap between the lines, are part of the same scalar. -/
theorem append {xs gap ys : List Token} (hx : IsWords xs) (hg : ∀ x ∈ gap, isGap x.kind = true)
    (hy : IsWords ys) : IsWords (xs ++ gap ++ ys) where
  first := by
    obtain ⟨x, hx, hp⟩ := hx.first
    exact ⟨x, by simp [hx], hp⟩
  last := by
    obtain ⟨y, hy, hp⟩ := hy.last
    exact ⟨y, by simp [hy], hp⟩
  between x hm := by
    rcases List.mem_append.mp hm with hm | hm
    · exact (List.mem_append.mp hm).elim (hx.between x) fun hm => .inr (hg x hm)
    · exact hy.between x hm

/-- What is taken of a plain scalar ends with a word. -/
theorem exists_getLast?_plainLength {ls : List Lexeme} (h : 0 < plainLength ls) :
    ∃ l, (ls.take (plainLength ls)).getLast? = some l ∧ l.kind.isPlain = true := by
  induction ls with
  | nil => simp [plainLength] at h
  | cons l ls ih =>
    have hl : (l.kind.isPlain || (l.kind == space && plainAhead ls)) = true := by
      by_contra hn
      simp [plainLength, hn] at h
    simp only [plainLength, hl, if_true, List.take_succ_cons]
    by_cases hpos : 0 < plainLength ls
    · obtain ⟨m, hm, hp⟩ := ih hpos
      exact ⟨m, by simp [List.getLast?_cons, hm], hp⟩
    · refine ⟨l, by simp [Nat.eq_zero_of_not_pos hpos], ?_⟩
      -- a space is taken only in front of a word
      have hahead : plainAhead ls = false := by
        cases ls with
        | nil => rfl
        | cons m ms => exact Bool.eq_false_iff.mpr fun hm => hpos (plainLength_pos hm)
      simpa [hahead] using hl

/-- The words that are taken for a plain scalar. -/
theorem of_plainLength {l : Lexeme} {ls : List Lexeme} (hl : l.kind.isPlain = true) :
    IsWords (((l :: ls).take (plainLength (l :: ls))).map Lexeme.token) where
  first := ⟨l.token, by simp [plainLength, hl], hl⟩
  last := by
    have hpos : 0 < plainLength (l :: ls) := plainLength_pos hl
    obtain ⟨m, hm, hp⟩ := exists_getLast?_plainLength hpos
    exact ⟨m.token, by rw [List.getLast?_map, hm]; rfl, hp⟩
  between x hx := by
    obtain ⟨m, hm, rfl⟩ := List.mem_map.mp hx
    rcases mem_take_plainLength m hm with h | h
    · exact .inl h
    · exact .inr (by simp [show m.token.kind = space from h, isGap])

end IsWords

namespace Tree

variable {ts us : List Tree} {k : NodeKind}

/-! ## How a node begins

The style of a collection is known from its first token, which is there from the moment when the
collection is opened. -/

/-- There is something, and it begins with no bracket. -/
def BeginsBlock (ts : List Tree) : Prop := ∃ t us, ts = t :: us ∧ t.isFlow = false

/-- The first of the trees is this token. -/
def BeginsWith (k : TokenKind) (ts : List Tree) : Prop := ∃ x us, ts = token x :: us ∧ x.kind = k

/-- What begins with no bracket still begins so when more is put in. -/
theorem BeginsBlock.append (h : BeginsBlock ts) : BeginsBlock (ts ++ us) := by
  obtain ⟨t, vs, rfl, ht⟩ := h
  exact ⟨t, vs ++ us, rfl, ht⟩

/-- A collection that begins with no bracket is in block style. -/
theorem BeginsBlock.isFlow_eq (h : BeginsBlock ts) : (node k ts).isFlow = false := by
  obtain ⟨t, vs, rfl, ht⟩ := h
  rw [isFlow_cons, ht]

theorem BeginsBlock.ne_nil (h : BeginsBlock ts) : ts ≠ [] := by
  obtain ⟨t, vs, rfl, -⟩ := h
  simp

/-- What begins with a token still begins with it when more is put in. -/
theorem BeginsWith.append {x : TokenKind} (h : BeginsWith x ts) : BeginsWith x (ts ++ us) := by
  obtain ⟨y, vs, rfl, hy⟩ := h
  exact ⟨y, vs ++ us, rfl, hy⟩

/-- A collection that begins with its bracket is in flow style. -/
theorem BeginsWith.isFlow_eq {x : TokenKind} (h : BeginsWith x ts)
    (hx : x = leftBracket ∨ x = leftBrace) : (node k ts).isFlow = true := by
  obtain ⟨y, vs, rfl, rfl⟩ := h
  rw [isFlow_cons]
  rcases hx with hx | hx <;> simp [isFlow, firstToken, hx]

theorem BeginsWith.ne_nil {x : TokenKind} (h : BeginsWith x ts) : ts ≠ [] := by
  obtain ⟨y, vs, rfl, -⟩ := h
  simp

end Tree

/-! ## Nodes under construction

These predicates are about a task and the trees that have been finished for it. -/

namespace Task

open YamlPatch.Tree

/-- What the trees of a node have besides the shape of its kind, by the style it is written in. -/
def InStyle : Task → List Tree → Prop
  | mapping _, ts | sequence _, ts | item, ts => BeginsBlock ts
  | entry, ts => BeginsBlock ts ∧ IsBlockEntry ts
  | flowSequence, ts => BeginsWith leftBracket ts
  | flowMapping, ts => BeginsWith leftBrace ts
  | plain _, ts => ∃ xs : List Token, ts = xs.map token ∧ IsWords xs
  | document, _ | key, _ | value, _ | flowItem, _ | flowEntry, _ | flowValue, _ => True

/-- The node may be closed. -/
def Complete (t : Task) (ts : List Tree) : Prop := Shaped (.node t.nodeKind ts) ∧ t.InStyle ts

/-- The node may be closed, and its bracket, if it has one, has not been taken yet. -/
structure Settled (t : Task) (ts : List Tree) : Prop where
  complete : t.Complete ts
  unclosed : ∀ k ∈ t.closer?, ∀ u ∈ ts, u.isToken k = false

/-- A place that has no content yet. -/
structure Vacant (t : Task) (ts : List Tree) : Prop where
  place : t.isPlace = true ∨ t.isFlowPlace = true
  settled : t.Settled ts
  content : ∀ u ∈ ts, u.isContent = false

/-- `t` is settled as soon as the node of `u` is put at its end. -/
structure Awaits (t u : Task) (ts : List Tree) : Prop where
  holds : t.holds u = true
  settles : ∀ us, u.Complete us → t.Settled (ts ++ [.node u.nodeKind us])
  /-- A flow entry begins with its key. -/
  first : u = .key → ts = []

variable {t u : Task} {ts us : List Tree} {column : Nat}

/-- Loose trees may be put into a node that is complete, unless it is a scalar. -/
theorem Complete.append_loose (h : t.Complete ts) (ht : t.nodeKind ≠ .scalar)
    (hu : ∀ u ∈ us, u.IsLoose) : t.Complete (ts ++ us) := by
  -- Loose trees are no entries and no items, so a collection holds the nodes that it held.
  have hcollection : HoldsOnly [.entry, .error] us := .loose (by simp) hu
  have hentry : ∀ t ∈ us, t.isNode .entry = true → IsBlockEntry t.children := fun t ht h => by
    simp [(hu t ht).isNode_eq (show NodeKind.entry ≠ .error by simp)] at h
  obtain ⟨hshape, hstyle⟩ := h
  cases t with
  | document | key | value | flowItem | flowValue => exact ⟨IsPlace.append_loose hshape hu, trivial⟩
  | item => exact ⟨IsPlace.append_loose hshape hu, BeginsBlock.append hstyle⟩
  | mapping column =>
    exact ⟨IsMapping.append hshape hstyle.ne_nil hcollection fun _ => hentry,
      BeginsBlock.append hstyle⟩
  | flowMapping =>
    exact ⟨IsMapping.append hshape hstyle.ne_nil hcollection fun _ => hentry,
      BeginsWith.append hstyle⟩
  | sequence column =>
    exact ⟨HoldsOnly.append hshape (.loose (by simp) hu), BeginsBlock.append hstyle⟩
  | flowSequence => exact ⟨HoldsOnly.append hshape (.loose (by simp) hu), BeginsWith.append hstyle⟩
  | entry =>
    obtain ⟨hbegin, hparts, hkeys⟩ := hstyle
    exact ⟨⟨1, le_rfl, hparts.append_loose hu⟩, hbegin.append, hparts.append_loose hu,
      hkeys.append_loose hu⟩
  | flowEntry =>
    obtain ⟨n, hn, hparts⟩ := hshape
    exact ⟨⟨n, hn, hparts.append_loose hu⟩, trivial⟩
  | plain column => exact absurd rfl ht

/-- The bracket at its end makes a flow collection complete. -/
theorem Complete.append_closer (h : t.Complete ts) {x : Token} (hx : x.kind ∈ t.closer?) :
    t.Complete (ts ++ [.token x]) := by
  obtain ⟨hshape, hstyle⟩ := h
  cases t with
  | flowSequence => exact ⟨HoldsOnly.append hshape (.of_tokens [x]), BeginsWith.append hstyle⟩
  | flowMapping =>
    refine ⟨IsMapping.append hshape hstyle.ne_nil (.of_tokens [x]) fun _ t ht hk => ?_,
      BeginsWith.append hstyle⟩
    obtain rfl : t = .token x := by simpa using ht
    cases hk
  | _ => cases hx

/-- So it is with a node that is settled. -/
theorem Settled.append_loose (h : t.Settled ts) (ht : t.nodeKind ≠ .scalar)
    (hu : ∀ u ∈ us, u.IsLoose) : t.Settled (ts ++ us) :=
  ⟨h.complete.append_loose ht hu, fun k hk u hmem =>
    (List.mem_append.mp hmem).elim (h.unclosed k hk u)
    fun hmem => (hu u hmem).isToken_eq (.inr (closer?_eq hk))⟩

/-- Of a node without a bracket there is nothing more to say. -/
theorem Complete.settled (h : t.Complete ts) (ht : t.closer? = none) : t.Settled ts :=
  ⟨h, by simp [ht]⟩

/-- A node at the end is no bracket, so a node that is complete with it is settled with it. -/
theorem Settled.concat_node {k : NodeKind} (h : t.Settled ts)
    (hc : t.Complete (ts ++ [.node k us])) : t.Settled (ts ++ [.node k us]) := by
  refine ⟨hc, fun c hk u hu => (List.mem_append.mp hu).elim (h.unclosed c hk u) fun hu => ?_⟩
  obtain rfl : u = .node k us := by simpa using hu
  rfl

/-! ## Places

A place is vacant until it gets its content, and it gets content only once. -/

/-- No place is a scalar. -/
theorem nodeKind_of_place (h : t.isPlace = true ∨ t.isFlowPlace = true) : t.nodeKind ≠ .scalar := by
  cases t with
  | plain => simp [isPlace, isFlowPlace] at h
  | _ => simp [nodeKind]

/-- No flow collection is a scalar. -/
theorem nodeKind_of_closer {k : TokenKind} (h : k ∈ t.closer?) : t.nodeKind ≠ .scalar := by
  cases t with
  | plain => cases h
  | _ => simp [nodeKind]

/-- A vacant place stays vacant when loose trees are put in. -/
theorem Vacant.append_loose (h : t.Vacant ts) (hu : ∀ u ∈ us, u.IsLoose) : t.Vacant (ts ++ us) :=
  ⟨h.place, h.settled.append_loose (nodeKind_of_place h.place) hu, fun u hmem =>
    (List.mem_append.mp hmem).elim (h.content u) fun hmem => (hu u hmem).isContent_eq⟩

/-- A vacant place takes content. -/
theorem Vacant.concat (h : t.Vacant ts) {k : NodeKind} (hk : k.isContent = true) :
    t.Settled (ts ++ [.node k us]) := by
  refine h.settled.concat_node ?_
  have hplace := h.place
  obtain ⟨hshape, hstyle⟩ := h.settled.complete
  cases t with
  | document | key | value | flowItem | flowValue =>
    exact ⟨IsPlace.concat hshape h.content hk, trivial⟩
  | item => exact ⟨IsPlace.concat hshape h.content hk, BeginsBlock.append hstyle⟩
  | _ => simp [isPlace, isFlowPlace] at hplace

/-- A vacant place waits for the content that is being built in it. -/
theorem Vacant.awaits (h : t.Vacant ts) (ht : t.holds u = true) (hu : u.nodeKind.isContent = true) :
    t.Awaits u ts :=
  ⟨ht, fun _ _ => h.concat hu, by rintro rfl; cases hu⟩

/-- A place may be empty. -/
theorem isPlace_nil : IsPlace [] := ⟨by simp [HoldsOnly], by simp⟩

/-- A place that has just been opened; that of an item begins with its dash. -/
theorem vacant_nil (h : t = document ∨ t = value ∨ t.isFlowPlace = true) : t.Vacant [] := by
  cases t with
  | document | value | key | flowItem | flowValue =>
    exact ⟨by simp [isPlace, isFlowPlace], ⟨⟨isPlace_nil, trivial⟩, by simp [closer?]⟩, by simp⟩
  | _ => rcases h with h | h | h <;> cases h

/-- The indicator of an item leaves its place vacant. -/
theorem vacant_dash {x : Token} (hx : x.kind = dash) : item.Vacant [.token x] := by
  have hplace : IsPlace [.token x] := isPlace_nil.append_loose (by simp [IsLoose, hx, isLoose])
  refine ⟨.inl rfl, ⟨⟨hplace, .token x, [], rfl, ?_⟩, by simp [closer?]⟩,
    by simp [isContent, kind?]⟩
  simp [Tree.isFlow, firstToken, hx]

/-! ## Collections and entries

What a collection waits for may come again and again; an entry waits for its key and then for
its value. -/

/-- A block mapping waits for its next entry, also for its first. -/
theorem mapping_awaits (h : ts = [] ∨ (mapping column).Settled ts) :
    (mapping column).Awaits entry ts := by
  refine ⟨rfl, fun us hus => ?_, by simp⟩
  obtain ⟨-, hbegin, hentry⟩ := hus
  have hnew : ∀ t ∈ [node .entry us], t.isNode .entry = true → IsBlockEntry t.children := by
    simpa [isNode, kind?, children] using hentry
  rcases h with rfl | h
  · refine Complete.settled ⟨⟨HoldsOnly.node (by simp [nodeKind]), fun _ => hnew⟩, ?_⟩ rfl
    exact ⟨_, _, rfl, hbegin.isFlow_eq⟩
  · obtain ⟨hshape, hstyle⟩ := h.complete
    exact h.concat_node ⟨hshape.append hstyle.ne_nil (.node (by simp [nodeKind])) fun _ => hnew,
      BeginsBlock.append hstyle⟩

/-- A block sequence waits for its next item, also for its first. -/
theorem sequence_awaits (h : ts = [] ∨ (sequence column).Settled ts) :
    (sequence column).Awaits item ts := by
  refine ⟨rfl, fun us hus => ?_, by simp⟩
  rcases h with rfl | h
  · exact Complete.settled ⟨HoldsOnly.node (by simp [nodeKind]), _, _, rfl, hus.2.isFlow_eq⟩ rfl
  · obtain ⟨hshape, hstyle⟩ := h.complete
    exact h.concat_node ⟨HoldsOnly.append hshape (.node (by simp [nodeKind])),
      BeginsBlock.append hstyle⟩

/-- An entry with its key and its colon waits for its value. -/
theorem entry_awaits (h : EntryParts 1 0 ts) (hk : HasKeyScalars ts) (hb : BeginsBlock ts) :
    entry.Awaits value ts := by
  refine ⟨rfl, fun us _ => Complete.settled ?_ rfl, by simp⟩
  exact ⟨⟨1, le_rfl, h.concat_value⟩, hb.append, h.concat_value,
    hk.append (by simp [isNode, kind?, nodeKind])⟩

theorem flowEntry_awaits_key : flowEntry.Awaits key [] :=
  ⟨rfl, fun us _ => Complete.settled ⟨⟨0, by simp, .of_key us⟩, trivial⟩ rfl, fun _ => rfl⟩

/-- So does one in a flow mapping. Its key may be empty. -/
theorem flowEntry_awaits_value (h : EntryParts 1 0 ts) : flowEntry.Awaits flowValue ts :=
  ⟨rfl, fun _ _ => Complete.settled ⟨⟨1, le_rfl, h.concat_value⟩, trivial⟩ rfl, by simp⟩

/-- Behind its bracket a flow sequence may wait for an item at any time. -/
theorem flowSequence_awaits (h : flowSequence.Settled ts) : flowSequence.Awaits flowItem ts := by
  obtain ⟨hshape, hstyle⟩ := h.complete
  exact ⟨rfl, fun us _ =>
    h.concat_node ⟨HoldsOnly.append hshape (.node (by simp [nodeKind])), BeginsWith.append hstyle⟩,
    by simp⟩

/-- Behind its bracket a flow mapping may wait for an entry at any time. -/
theorem flowMapping_awaits (h : flowMapping.Settled ts) : flowMapping.Awaits flowEntry ts := by
  obtain ⟨hshape, hstyle⟩ := h.complete
  refine ⟨rfl, fun us _ =>
    h.concat_node ⟨hshape.append hstyle.ne_nil (.node (by simp [nodeKind])) fun hf => ?_,
    BeginsWith.append hstyle⟩, by simp⟩
  rw [hstyle.isFlow_eq (.inr rfl)] at hf
  cases hf

end Task

end YamlPatch
