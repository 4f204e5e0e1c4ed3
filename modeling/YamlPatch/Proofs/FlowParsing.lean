import YamlPatch.Proofs.FlowValues

/-!
# Parsing values on one line

The parser makes of the leaves of `Value.flowTree` that very tree. A flow collection is a list
of items with separators between them : `Makes` says that the parser makes an item where the
collection expects one, `leads_separated` that it then makes the collection, and the induction
over the value has one case for each kind of value (`Value.leads_flow`).

Sequences and mappings differ in the task of their items, in the step that begins one, and in
the bracket that closes them (`FlowTasks`); the lemmas about separators and brackets are for
both. What follows the value is not known, except that no word may follow an atom, which would
go on with it. Where the run ends in the text is not said either : `Reaches` asks only for the
nodes and for the tokens that are left.
-/

namespace YamlPatch

open TokenKind Lexeme YamlPatch.Tree

/-! ## The first token of a value

A value is recognised by its first token, which is a bracket, a brace, a quote or a word. -/

/-- The kinds of the tokens that a value begins with. -/
def TokenKind.isStart (k : TokenKind) : Bool :=
  k.isPlain || k.isQuoted || k == leftBracket || k == leftBrace

/-- A token that a value begins with is none that the parser would take for something else. -/
theorem TokenKind.ne_of_isStart {k : TokenKind} (h : k.isStart = true) :
    k.isTrivia = false ∧ k.isProperty = false ∧ k.isMarker = false ∧ k ≠ space ∧ k ≠ rightBracket ∧
      k ≠ rightBrace ∧ k ≠ comma ∧ k ≠ colon ∧ k ≠ dash ∧ k ≠ lineBreak ∧ k ≠ comment := by
  cases k <;> first | exact absurd h Bool.false_ne_true | simp [isTrivia, isProperty, isMarker]

/-- The tokens begin with one that starts a value. -/
def Starts (xs : List Token) : Prop := ∃ x ys, xs = x :: ys ∧ x.kind.isStart = true

/-- What tokens begin with does not change when more follow. -/
theorem Starts.append {xs : List Token} (h : Starts xs) (ys : List Token) : Starts (xs ++ ys) := by
  obtain ⟨x, zs, rfl, hx⟩ := h
  exact ⟨x, zs ++ ys, rfl, hx⟩

/-- An atom begins with a scalar. -/
theorem Atom.Made.starts_tokens {a : Atom} (ha : a.Made) : Starts a.tokens := by
  rcases a.tokens_cases with ⟨hw, ht, -⟩ | ⟨-, ht, -⟩ | ⟨-, ht, -⟩ <;> rw [ht]
  · obtain ⟨x, xs, hx, hk⟩ := (ha.plainText hw).exists_cons
    exact ⟨x, xs, hx, by simp [isStart, hk]⟩
  · exact ⟨_, _, rfl, rfl⟩
  · exact ⟨_, _, rfl, rfl⟩

/-- A value begins with a scalar or a bracket. -/
theorem Value.starts_flowTree {v : Value} (hv : v.Made) : Starts v.flowTree.leaves := by
  cases v with
  | atom a =>
    have hl : (flowTree (atom a)).leaves = a.tokens := by simp [flowTree, Atom.node, leaves]
    rw [hl]
    exact Atom.Made.starts_tokens hv
  | sequence vs | mapping es => exact ⟨_, _, rfl, rfl⟩

namespace Config

/-! ## Runs that come to known tokens

To reach a configuration is to come to it at some place in the text. Where that is does not
matter in a flow collection, so it is left open. -/

/-- The run comes to the nodes `fs` with the tokens `xs` left, wherever these stand. -/
def Reaches (c d : Config) (fs : List Frame) (xs : List Token) : Prop :=
  ∃ p, Leads c (d.facing fs p xs)

/-- What is reached behind a step is reached. -/
theorem Reaches.head {c c' d : Config} {fs : List Frame} {xs : List Token} (h : c.step = some c')
    (h' : Reaches c' d fs xs) : Reaches c d fs xs := by
  obtain ⟨p, h'⟩ := h'
  exact ⟨p, .head h h'⟩

/-- A run may be continued from wherever it has come to. -/
theorem Reaches.trans {c d : Config} {fs gs : List Frame} {xs ys : List Token}
    (h : Reaches c d fs xs) (h' : ∀ p, Reaches (d.facing fs p xs) d gs ys) : Reaches c d gs ys := by
  obtain ⟨p, h⟩ := h
  obtain ⟨q, h'⟩ := h' p
  exact ⟨q, h.trans h'⟩

/-! ## Scalars

In a flow collection a scalar is one node in one step, be it quoted or plain. -/

variable {c : Config} {u : Task} {d : List Tree} {fs : List Frame}

/-- In a flow collection a plain scalar ends with its words on this line. -/
theorem takeFlowContent_of_isPlain {k : TokenKind} (h : c.kind? = some k) (hk : k.isPlain = true)
    (b : Bool) : c.takeFlowContent b = c.wrap .scalar (plainLength c.rest) := by
  cases k <;> first | exact absurd hk Bool.false_ne_true | simp [takeFlowContent, h, isPlain]

/-- An atom becomes a scalar node, if no word follows its words. -/
theorem takeFlowContent_tokens {a : Atom} (ha : a.Made) {ys : List Token}
    (hys : ∀ q, plainLength (locate q ys) = 0) (p : Position) (b : Bool) :
    (c.facing (⟨u, d⟩ :: fs) p (a.tokens ++ ys)).takeFlowContent b =
      c.facing (⟨u, d ++ [a.node]⟩ :: fs) (p.advance (Token.join a.tokens)) ys := by
  rcases a.tokens_cases with ⟨hw, ht, -⟩ | ⟨-, ht, -⟩ | ⟨-, ht, -⟩
  · obtain ⟨x, xs, hx, hk⟩ := (ha.plainText hw).exists_cons
    have hkind : (c.facing (⟨u, d⟩ :: fs) p (a.tokens ++ ys)).kind? = some x.kind := by
      rw [ht, hx]
      rfl
    have hwords : Wordy a.tokens := ht ▸ wordy_plainTokens (ha.plainText hw).last
    rw [takeFlowContent_of_isPlain hkind hk, rest_facing]
    exact c.wrap_facing u d fs p a.tokens ys .scalar (plainLength_locate p hwords hys)
  · have h := c.wrap_facing u d fs p a.tokens ys .scalar (n := 1) (by rw [ht]; rfl)
    unfold Atom.node
    rw [ht] at h ⊢
    exact h
  · have h := c.wrap_facing u d fs p a.tokens ys .scalar (n := 1) (by rw [ht]; rfl)
    unfold Atom.node
    rw [ht] at h ⊢
    exact h

/-- Without properties the content is taken at once. -/
theorem takeFlowNode_of_starts {xs : List Token} (h : Starts xs) (p : Position) :
    (c.facing (⟨u, d⟩ :: fs) p xs).takeFlowNode =
      (c.facing (⟨u, d⟩ :: fs) p xs).takeFlowContent false := by
  obtain ⟨x, ys, rfl, hx⟩ := h
  have hp : propertiesLength (locate p (x :: ys)) = 0 :=
    propertiesLength_locate p (forall_first (ne_of_isStart hx).2.1)
  rw [takeFlowNode, rest_facing, hp, take_zero]
  rfl

/-! ## Items

Items and entries are made between separators. The lemmas are about both kinds of collection,
whose tasks are named by `FlowTasks`. -/

/-- The tasks of a flow collection and of its items, and the token that closes it. -/
inductive FlowTasks : Task → Task → TokenKind → Prop where
  | sequence : FlowTasks .flowSequence .flowItem rightBracket
  | mapping : FlowTasks .flowMapping .flowEntry rightBrace

/-- A token that may follow an item. -/
def TokenKind.endsItem (k : TokenKind) : Bool := k == comma || k == rightBracket || k == rightBrace

/-- Where a collection of the task `t` expects an item, the parser makes the node `x` of its leaves,
up to the step that closes it. -/
def Makes (t i : Task) (x : Tree) : Prop :=
  ∃ done, x = .node i.nodeKind done ∧ Starts x.leaves ∧
    ∀ (c : Config) (d : List Tree) (fs : List Frame) (p : Position) (zs : List Token) (y : Token)
      (ys : List Token), (∀ z ∈ zs, z.kind.isTrivia = true) → TokenKind.endsItem y.kind = true →
        Reaches (c.facing (⟨t, d⟩ :: fs) p (zs ++ (x.leaves ++ y :: ys))) c
          (⟨i, done⟩ :: ⟨t, d ++ zs.map .token⟩ :: fs) (y :: ys)

/-- A value does not begin with trivia. -/
theorem not_isTrivia_of_starts {xs : List Token} (h : Starts xs) :
    ∀ y zs, xs = y :: zs → y.kind.isTrivia = false := by
  obtain ⟨x, ys, rfl, hx⟩ := h
  exact forall_first (ne_of_isStart hx).1

/-- A configuration that faces a value faces its first token. -/
theorem kind?_of_starts (c : Config) (fs : List Frame) {xs : List Token} (h : Starts xs)
    (p : Position) : ∃ k, (c.facing fs p xs).kind? = some k ∧ k.isStart = true := by
  obtain ⟨x, ys, rfl, hx⟩ := h
  exact ⟨x.kind, rfl, hx⟩

/-- Before an item the trivia are taken and the item is begun. -/
theorem step_flowSequence (c : Config) (d : List Tree) (fs : List Frame) (p : Position)
    {zs xs : List Token} (hzs : ∀ z ∈ zs, z.kind.isTrivia = true) (hxs : Starts xs) :
    (c.facing (⟨.flowSequence, d⟩ :: fs) p (zs ++ xs)).step =
      some ((c.facing (⟨.flowItem, []⟩ :: ⟨.flowSequence, d ++ zs.map .token⟩ :: fs)
        (p.advance (Token.join zs)) xs).takeFlowContent false) := by
  have ht := takeTrivia_facing c .flowSequence d fs p zs xs hzs (not_isTrivia_of_starts hxs)
  obtain ⟨k, hk, hs⟩ := kind?_of_starts c (⟨.flowSequence, d ++ zs.map .token⟩ :: fs) hxs
    (p.advance (Token.join zs))
  rw [step_facing, stepTask, stepFlowSequence, ht]
  simp only [hk, (ne_of_isStart hs).2.2.2.2.1, if_false, push_facing]
  rw [takeFlowNode_of_starts hxs]

/-- Before an entry the trivia are taken, and the entry and its key are begun. -/
theorem step_flowMapping (c : Config) (d : List Tree) (fs : List Frame) (p : Position)
    {zs xs : List Token} (hzs : ∀ z ∈ zs, z.kind.isTrivia = true) (hxs : Starts xs) :
    (c.facing (⟨.flowMapping, d⟩ :: fs) p (zs ++ xs)).step =
      some ((c.facing (⟨.key, []⟩ :: ⟨.flowEntry, []⟩ :: ⟨.flowMapping, d ++ zs.map .token⟩ :: fs)
        (p.advance (Token.join zs)) xs).takeFlowContent false) := by
  have ht := takeTrivia_facing c .flowMapping d fs p zs xs hzs (not_isTrivia_of_starts hxs)
  obtain ⟨k, hk, hs⟩ := kind?_of_starts c (⟨.flowMapping, d ++ zs.map .token⟩ :: fs) hxs
    (p.advance (Token.join zs))
  rw [step_facing, stepTask, stepFlowMapping, ht]
  simp only [hk, (ne_of_isStart hs).2.2.2.2.2.1, if_false, push_facing]
  rw [takeFlowNode_of_starts hxs]

/-- Behind a key the colon and the space are taken and the value is begun. -/
theorem step_flowKey (c : Config) (key e : List Tree) (fs : List Frame) (p : Position)
    {xs : List Token} (hxs : Starts xs) :
    (c.facing (⟨.key, key⟩ :: ⟨.flowEntry, e⟩ :: fs) p (leavesOf indicator ++ xs)).step =
      some ((c.facing (⟨.flowValue, []⟩ :: ⟨.flowEntry, e ++ (.node .key key :: indicator)⟩ :: fs)
        (p.advance (textOf indicator)) xs).takeFlowContent false) := by
  -- The key is closed, the colon and the space behind it are taken, and the value is opened
  -- before its first token.
  have hcolon : ∀ y zs, leavesOf indicator ++ xs = y :: zs → y.kind.isTrivia = false := by
    rintro y zs h
    obtain ⟨rfl, -⟩ := List.cons.inj h
    rfl
  have ht := takeTrivia_facing_of_not c .flowEntry (e ++ [.node .key key]) fs p _ hcolon
  have hs := takeTrivia_facing c .flowEntry (e ++ [.node .key key] ++ [mark colon ':']) fs
    (p.advance [':']) [⟨space, [' ']⟩] xs (by simp [isTrivia]) (not_isTrivia_of_starts hxs)
  have hl : leavesOf indicator ++ xs = ⟨colon, [':']⟩ :: ([⟨space, [' ']⟩] ++ xs) := rfl
  have he : e ++ [.node .key key] ++ [mark colon ':'] ++
      ([⟨space, [' ']⟩] : List Token).map .token = e ++ (.node .key key :: indicator) := by
    simp [indicator, mark]
  have hp : (p.advance [':']).advance (Token.join [⟨space, [' ']⟩]) =
      p.advance (textOf indicator) := rfl
  rw [he, hp] at hs
  obtain ⟨k, hk, hstart⟩ := kind?_of_starts c
    (⟨.flowValue, []⟩ :: ⟨.flowEntry, e ++ (.node .key key :: indicator)⟩ :: fs) hxs
    (p.advance (textOf indicator))
  obtain ⟨-, -, -, -, -, hbrace, hcomma, -⟩ := ne_of_isStart hstart
  rw [hl] at ht
  rw [step_facing, stepTask, stepFlowKey, hl, close_facing, Task.nodeKind, ht, kind?_facing,
    if_pos rfl]
  have hone := c.take_one_facing .flowEntry (e ++ [.node .key key]) fs p
    ([⟨space, [' ']⟩] ++ xs) ⟨colon, [':']⟩
  rw [hone]
  simp only [mark] at hs
  rw [hs, push_facing]
  simp only [hk, hcomma, hbrace, or_self, if_false]
  rw [takeFlowNode_of_starts hxs]

/-- At its closing token a collection is closed. -/
theorem reaches_closed {t i : Task} {k : TokenKind} (ht : FlowTasks t i k) (c : Config)
    (d : List Tree) (fs : List Frame) (p : Position) (zs : List Token)
    (hzs : ∀ z ∈ zs, z.kind.isTrivia = true) {y : Token} (hy : y.kind = k)
    (ys : List Token) (v : Task) (e : List Tree) :
    Reaches (c.facing (⟨t, d⟩ :: ⟨v, e⟩ :: fs) p (zs ++ y :: ys)) c
      (⟨v, e ++ [.node t.nodeKind (d ++ zs.map .token ++ [.token y])]⟩ :: fs) ys := by
  refine ⟨(p.advance (Token.join zs)).advance y.text, .of_step ?_⟩
  have hys : ∀ x xs, y :: ys = x :: xs → x.kind.isTrivia = false :=
    forall_first (by cases ht <;> simp [hy, isTrivia])
  rw [step_facing]
  cases ht <;>
    simp [stepTask, stepFlowSequence, stepFlowMapping, takeTrivia_facing _ _ _ _ _ _ _ hzs hys,
      kind?_facing, hy, take_one_facing, close_facing]

/-- A finished item is closed, and the comma behind it taken. -/
theorem step_item {t i : Task} {k : TokenKind} (ht : FlowTasks t i k) (p : Position) {y : Token}
    (hy : y.kind = comma ∨ y.kind = k) (ys : List Token) (done : List Tree) :
    ∃ q, (c.facing (⟨i, done⟩ :: ⟨t, d⟩ :: fs) p (y :: ys)).step =
      some (if y.kind = comma
        then c.facing (⟨t, d ++ [.node i.nodeKind done] ++ [.token y]⟩ :: fs) q ys
        else c.facing (⟨t, d ++ [.node i.nodeKind done]⟩ :: fs) q (y :: ys)) := by
  have hys : ∀ x xs, y :: ys = x :: xs → x.kind.isTrivia = false :=
    forall_first (by rcases hy with hy | hy <;> cases ht <;> simp [hy, isTrivia])
  by_cases hc : y.kind = comma
  · refine ⟨p.advance y.text, ?_⟩
    rw [step_facing, if_pos hc]
    cases ht <;>
      simp [stepTask, close_facing, takeTrivia_facing_of_not _ _ _ _ _ _ hys, takeComma,
        kind?_facing, hc, take_one_facing]
  · refine ⟨p, ?_⟩
    rw [step_facing, if_neg hc]
    have hy := hy.resolve_left hc
    cases ht <;>
      simp [stepTask, close_facing, takeTrivia_facing_of_not _ _ _ _ _ _ hys, takeComma,
        kind?_facing, hy]

/-- Items that are made one by one are made with separators between them, and the collection is
closed behind them. -/
theorem leads_separated {t i : Task} {k : TokenKind} (ht : FlowTasks t i k) {ts : List Tree}
    (hts : ∀ x ∈ ts, Makes t i x) (c : Config) (d : List Tree) (fs : List Frame) (p : Position)
    (zs : List Token) (hzs : ∀ z ∈ zs, z.kind.isTrivia = true) {y : Token} (hy : y.kind = k)
    (ys : List Token) (v : Task) (e : List Tree) :
    Reaches (c.facing (⟨t, d⟩ :: ⟨v, e⟩ :: fs) p (zs ++ (leavesOf (separated ts) ++ y :: ys))) c
      (⟨v, e ++ [.node t.nodeKind (d ++ zs.map .token ++ (separated ts ++ [.token y]))]⟩ ::
        fs) ys := by
  have hends : TokenKind.endsItem y.kind = true := by cases ht <;> simp [hy, TokenKind.endsItem]
  have hne : y.kind ≠ comma := by cases ht <;> simp [hy]
  -- By induction on the items. The trivia before an item are those behind the bracket, or the
  -- space behind a comma, so they are generalized.
  fun_induction separated ts generalizing d p zs with
  | case1 => exact reaches_closed ht c d fs p zs hzs hy ys v e
  | case2 x =>
    obtain ⟨done, hx, hs, hmake⟩ := hts x (by simp)
    have hl : leavesOf [x] = x.leaves := by simp [leavesOf]
    rw [hl]
    refine (hmake c d (⟨v, e⟩ :: fs) p zs y ys hzs hends).trans fun q => ?_
    obtain ⟨r, hstep⟩ := c.step_item ht q (.inr hy) ys done
    rw [if_neg hne] at hstep
    refine .head hstep ?_
    have := reaches_closed ht c (d ++ zs.map .token ++ [x]) fs r [] (by simp) hy ys v e
    simpa [hx] using this
  | case3 x z ts ih =>
    obtain ⟨done, hx, hs, hmake⟩ := hts x (by simp)
    have hl : leavesOf (x :: (separator ++ separated (z :: ts))) ++ y :: ys =
        x.leaves ++ (⟨comma, [',']⟩ ::
          ([⟨space, [' ']⟩] ++ (leavesOf (separated (z :: ts)) ++ y :: ys))) := by
      simp [leavesOf, separator, mark, leaves]
    rw [hl]
    refine (hmake c d (⟨v, e⟩ :: fs) p zs _ _ hzs rfl).trans fun q => ?_
    obtain ⟨r, hstep⟩ := c.step_item ht q (y := ⟨comma, [',']⟩) (.inl rfl) _ done
    refine .head hstep ?_
    rw [if_pos rfl]
    have := ih (fun w hw => hts w (List.mem_cons_of_mem x hw))
      (d ++ zs.map .token ++ [x] ++ [mark comma ',']) r [⟨space, [' ']⟩] (by simp [isTrivia])
    simpa [hx, separator, mark] using this

/-- Behind an item no word goes on. -/
theorem plainLength_of_endsItem {y : Token} (hy : TokenKind.endsItem y.kind = true)
    (ys : List Token) (q : Position) : plainLength (locate q (y :: ys)) = 0 := by
  obtain ⟨k, w⟩ := y
  cases k <;>
    first | exact absurd hy Bool.false_ne_true | simp [locate, plainLength, Lexeme.kind, isPlain]

end Config

open Config

namespace Value

/-- A key has the tokens of the string that it is. -/
theorem leaves_keyNode (k : Text) : (keyNode k).leaves = (Atom.ofText k).tokens := by
  simp [keyNode, Atom.node, leaves, leavesOf]

mutual

/-- The parser makes the tree of a value of its leaves; no word may follow an atom. -/
theorem leads_flow : ∀ v : Value, v.Made → ∀ (c : Config) (u : Task) (d : List Tree)
    (fs : List Frame) (p : Position) (ys : List Token) (b : Bool),
    (∀ a, v = atom a → ∀ q, plainLength (locate q ys) = 0) →
      Reaches ((c.facing (⟨u, d⟩ :: fs) p (v.flowTree.leaves ++ ys)).takeFlowContent b) c
        (⟨u, d ++ [v.flowTree]⟩ :: fs) ys
  | atom a, hv, c, u, d, fs, p, ys, b, hys => by
    have hl : (flowTree (atom a)).leaves = a.tokens := by simp [flowTree, Atom.node, leaves]
    rw [hl, takeFlowContent_tokens hv (hys a rfl)]
    exact ⟨_, .refl _⟩
  | sequence vs, hv, c, u, d, fs, p, ys, b, _ => by
    have hl : (flowTree (sequence vs)).leaves ++ ys = ⟨leftBracket, ['[']⟩ ::
        (leavesOf (separated (flowItemTrees vs)) ++ ⟨rightBracket, [']']⟩ :: ys) := by
      simp [flowTree, leaves, leavesOf, mark]
    have h := leads_separated .sequence (makes_flowItemTrees vs hv) c [mark leftBracket '['] fs
      (p.advance ['[']) [] (by simp) (y := ⟨rightBracket, [']']⟩) rfl ys u d
    rw [hl, takeFlowContent, kind?_facing]
    simpa [push_facing, take_one_facing, flowTree, mark, Task.nodeKind] using h
  | mapping es, hv, c, u, d, fs, p, ys, b, _ => by
    have hl : (flowTree (mapping es)).leaves ++ ys = ⟨leftBrace, ['\x7b']⟩ ::
        (leavesOf (separated (flowEntryTrees es)) ++ ⟨rightBrace, ['\x7d']⟩ :: ys) := by
      simp [flowTree, leaves, leavesOf, mark]
    have h := leads_separated .mapping (makes_flowEntryTrees es hv) c [mark leftBrace '\x7b'] fs
      (p.advance ['\x7b']) [] (by simp) (y := ⟨rightBrace, ['\x7d']⟩) rfl ys u d
    rw [hl, takeFlowContent, kind?_facing]
    simpa [push_facing, take_one_facing, flowTree, mark, Task.nodeKind] using h

/-- The parser makes the items of a sequence one by one. -/
theorem makes_flowItemTrees : ∀ vs : List Value, AllMade vs →
    ∀ x ∈ flowItemTrees vs, Makes .flowSequence .flowItem x
  | v :: vs, hv, x, hx => by
    rcases List.mem_cons.mp hx with rfl | hx
    · have hl : (Tree.node .item [v.flowTree]).leaves = v.flowTree.leaves := by
        simp [leaves, leavesOf]
      refine ⟨[v.flowTree], rfl, hl ▸ starts_flowTree hv.1, fun c d fs p zs y ys hzs hy => ?_⟩
      have hs := (starts_flowTree hv.1).append (y :: ys)
      rw [hl]
      refine .head (step_flowSequence c d fs p hzs hs) ?_
      exact leads_flow v hv.1 c .flowItem [] _ _ (y :: ys) false fun _ _ =>
        plainLength_of_endsItem hy ys
    · exact makes_flowItemTrees vs hv.2 x hx

/-- The parser makes the entries of a mapping one by one. -/
theorem makes_flowEntryTrees : ∀ es : List (Text × Value), EntriesMade es →
    ∀ x ∈ flowEntryTrees es, Makes .flowMapping .flowEntry x
  | (k, v) :: es, hv, x, hx => by
    rcases List.mem_cons.mp hx with rfl | hx
    · have hk := (Atom.Made.ofText k).starts_tokens
      have hl : (entryNode k v.flowTree).leaves =
          (Atom.ofText k).tokens ++ (leavesOf indicator ++ v.flowTree.leaves) := by
        simp [entryNode, leaves, leavesOf, ← leaves_keyNode]
      refine ⟨_, rfl, hl ▸ hk.append _, fun c d fs p zs y ys hzs hy => ?_⟩
      have hv' := (starts_flowTree hv.1).append (y :: ys)
      rw [hl, List.append_assoc, List.append_assoc]
      refine .head (step_flowMapping c d fs p hzs (hk.append _)) ?_
      rw [takeFlowContent_tokens (Atom.Made.ofText k) fun q => rfl]
      refine .head (step_flowKey c _ [] _ _ hv') ?_
      refine (leads_flow v hv.1 c .flowValue [] _ _ (y :: ys) false fun _ _ =>
        plainLength_of_endsItem hy ys).trans fun q => ?_
      refine ⟨q, .of_step ?_⟩
      rw [step_facing, stepTask, close_facing]
      rfl
    · exact makes_flowEntryTrees es hv.2 x hx

end

end Value

end YamlPatch
