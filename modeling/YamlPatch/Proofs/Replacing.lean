import YamlPatch.Proofs.Places
import YamlPatch.Proofs.Rejoining

/-!
# A node in the place of another

Where the parser found a node it also finds another of the same kind and style (`Replaces`).
`ValueAt` says where in a text without faults a value stands, and that every text with the same
tokens around the leaves of another node is parsed in the same way (`ValueAt.replaced`). Each
value that holds a node stands in this way in its text (`exists_valueAt`).

The run on the text is cut at three points : at the colon of the entry, where the value is
complete, and at the end. Up to the colon both texts are the same. From there to the complete
value the second run is made anew, with what is known of the tree that is written. Behind the
value both texts are the same again, though their tokens stand elsewhere ; there the runs go on
alike (`Completed.run_eq`), since neither finished trees nor lines decide what happens next.

This is about tokens. Which text is cut into the tokens around and the leaves is another
question.
-/

namespace YamlPatch

open TokenKind Lexeme YamlPatch.Tree

/-- What the value, as the tree `N`, is written over : an atom over a scalar, a sequence over one in
the same style, in block style from the same column on. -/
inductive Replaces (X : Tree) (n : Nat) : Value → Tree → Prop where
  | atom (h : X.isNode .scalar = true) (a : Atom) : Replaces X n (.atom a) a.node
  | flow (h : X.isNode .sequence = true) (hf : X.isFlow = true) (vs : List Value) :
      Replaces X n (.sequence vs) (Value.sequence vs).flowTree
  | block (h : X.isNode .sequence = true) (hf : X.isFlow = false) {vs : List Value} (hne : vs ≠ [])
      {nl : Text} (hl : IsNewline nl) :
      Replaces X n (.sequence vs) ((Value.sequence vs).blockTree nl n)

/-- Where a block sequence ends, what comes next is outside of its items. -/
theorem Outside.of_sequenceEnds {n : Nat} {ls : List Lexeme} (h : SequenceEnds n ls) :
    Outside (n + 1) ls := by
  intro l rest hl
  rcases h l rest hl with h | h | h
  · exact .inl h
  · exact .inr (by omega)
  · exact .inr (by omega)

/-- What stands behind the node `X` of a value where `n` flow collections are open. -/
inductive Behind (X : Tree) : Nat → List Token → Prop where
  | line {ys : List Token} (hends : EndsLine ys)
      (hblock : X.isNode .sequence = true → X.isFlow = false → LineOver ys) : Behind X 0 ys
  | flow {n : Nat} {zs ys : List Token} {y : Token} (hzs : ∀ z ∈ zs, z.kind.isTrivia = true)
      (hy : y.kind = comma ∨ y.kind = rightBrace) (hlast : X.EndsNode)
      (hcalm : Calm (zs ++ y :: ys)) (hstyle : X.isNode .sequence = true → X.isFlow = true) :
      Behind X (n + 1) (zs ++ y :: ys)

/-- In the text `t` there is a value behind the tokens `xs`, a colon and the tokens `heads` :
the node `X`, before which the value holds the tokens `g`. `before` and `e` are what is built
around it. -/
structure ValueAt (t : Text) (before e : List Event) (xs : List Token) (x₀ : Token)
    (heads g : List Token) (X : Tree) (ys : List Token) : Prop where
  tokens : lex t = xs ++ x₀ :: (heads ++ (X.leaves ++ ys))
  log : (Config.start t).run.log = before ++ .opening .value ::
    (g.map .leaf ++ (X.events ++ .closing :: e))
  built : Event.tokens before ++ g = xs ++ x₀ :: heads
  colon : x₀.kind = colon
  isHead : ∀ z ∈ heads, z.kind.isHead = true
  gap : ∃ sp, heads = sp ++ g ∧ (depthAfterAll 0 xs = 0 → ∀ z ∈ sp, z.kind = space)
  content : X.isContent = true
  first : X.isNode .mapping = false → ∃ y zs, X.leaves = y :: zs ∧
    (X.isNode .scalar = true → y.kind.startsScalar = true) ∧
    (X.isNode .sequence = true → y.kind = if X.isFlow then leftBracket else dash)
  depth : depthAfterAll 0 (xs ++ x₀ :: (heads ++ X.leaves)) = depthAfterAll 0 xs
  behind : Behind X (depthAfterAll 0 xs) ys
  replaced : ∀ (t' : Text) (N : Tree) (v : Value), v.Made →
    Replaces X ((Position.advance {} (Token.join (xs ++ x₀ :: heads))).column) v N →
      lex t' = xs ++ x₀ :: (heads ++ (N.leaves ++ ys)) →
        (Config.start t').run.faults = [] ∧
          (Config.start t').run.rest.map Lexeme.token = (Config.start t).run.rest.map Lexeme.token ∧
          (Config.start t').run.log =
            before ++ .opening .value :: (g.map .leaf ++ (N.events ++ .closing :: e))

/-- The first token of what is written tells whether it is a block sequence. -/
theorem Replaces.exists_first {X N : Tree} {n : Nat} {v : Value} (h : Replaces X n v N)
    (hv : v.Made) : ∃ y ys, N.leaves = y :: ys ∧
      (y.kind.isStart = true ∨ y.kind = dash ∧ X.isNode .sequence = true ∧ X.isFlow = false) ∧
      (X.isNode .sequence = true → X.isFlow = false → y.kind = dash) := by
  cases h with
  | atom hX a =>
    obtain ⟨y, ys, hy, hk⟩ := Value.starts_flowTree (v := .atom a) hv
    refine ⟨y, ys, hy, .inl hk, fun hs => ?_⟩
    revert hX hs
    cases X <;> simp [isNode, Tree.kind?]
    rintro rfl h
    cases h
  | flow hX hf vs =>
    obtain ⟨y, ys, hy, hk⟩ := Value.starts_flowTree hv
    exact ⟨y, ys, hy, .inl hk, fun _ hf' => by rw [hf] at hf'; cases hf'⟩
  | @block hX hf vs hne nl hl =>
    obtain ⟨v, vs, rfl⟩ := List.exists_cons_of_ne_nil hne
    have hleaves : ((Value.sequence (v :: vs)).blockTree nl n).leaves =
        ⟨dash, ['-']⟩ :: ((Value.sequence (v :: vs)).blockTree nl n).leaves.tail := by
      simp [Value.blockTree, leaves, Value.blockItemTrees, lined, leavesOf, Value.itemNode, mark]
    exact ⟨_, _, hleaves, .inr ⟨rfl, hX, hf⟩, fun _ _ => rfl⟩

/-- With its anchors and tags a value begins with a token that neither is trivia nor ends an
entry. -/
theorem Properties.exists_first {g xs : List Token} (hg : Properties g) (hxs : Starts xs) :
    ∃ y ys, g ++ xs = y :: ys ∧ y.kind.isTrivia = false ∧
    ¬ (y.kind = comma ∨ y.kind = rightBrace) := by
  rcases hg with rfl | ⟨w, ws, rfl, hw, -⟩
  · obtain ⟨x, ys, hx, hk⟩ := hxs
    have hk := TokenKind.ne_of_isStart hk
    exact ⟨x, ys, hx, hk.1, by simp [hk.2.2.2.2.2.1, hk.2.2.2.2.2.2.1]⟩
  · refine ⟨w, _, rfl, ?_⟩
    revert hw
    cases w.kind <;> simp [isProperty, isTrivia]

/-- Anchors and tags before a node begin with no trivia, and neither does the node. -/
theorem Properties.not_isTrivia {g xs : List Token} (hg : Properties g) (hxs : Starts xs) :
    ∀ z zs, g ++ xs = z :: zs → z.kind.isTrivia = false := by
  intro z zs hz
  obtain ⟨y, ys, hy, hk, -⟩ := hg.exists_first hxs
  rw [hy] at hz
  exact (List.cons.inj hz).1 ▸ hk

namespace Config

/-- The parser closes a block sequence where it ends. -/
theorem stepSequence_of_ends {c : Config} {n : Nat} (h : SequenceEnds n c.rest) :
    c.stepSequence n = c.close := by
  unfold stepSequence
  split
  · rfl
  · rename_i l ls hl
    rw [if_pos (h l ls hl)]

/-- A sequence is in flow style if its first token is a bracket or a brace. -/
theorem Contains.isFlow_eq {b e : Config} {s : Slot} {l : Lexeme} {x : Tree}
    (h : Contains b s l x e) (hx : x.isNode .sequence = true) :
    x.isFlow = (l.kind == leftBracket || l.kind == leftBrace) := by
  have hm : x.isNode .mapping = false := by
    revert hx
    cases x <;> simp [isNode, Tree.kind?]
    rintro rfl
    decide
  simp [isFlow, h.first hm]
  rfl

/-- The first token of a sequence tells its style. -/
theorem Contains.first_kind {b e : Config} {s : Slot} {l : Lexeme} {x : Tree}
    (h : Contains b s l x e) (hx : x.isNode .sequence = true) :
    l.kind = if x.isFlow then leftBracket else TokenKind.dash := by
  have hf := h.isFlow_eq hx
  rcases h.sequence hx with hk | ⟨-, hk, -⟩ <;> simp [hf, hk]

/-- The first token of a scalar or a sequence tells which it is. -/
theorem Contains.exists_first {b e : Config} {s : Slot} {l : Lexeme} {x : Tree}
    (h : Contains b s l x e) (hx : x.isNode .mapping = false) : ∃ y zs, x.leaves = y :: zs ∧
      (x.isNode .scalar = true → y.kind.startsScalar = true) ∧
      (x.isNode .sequence = true → y.kind = if x.isFlow then leftBracket else TokenKind.dash) := by
  obtain ⟨zs, hzs⟩ := x.exists_leaves (h.first hx)
  exact ⟨l.token, zs, hzs, h.scalar, h.first_kind⟩

/-- In block style a value fits where a node of its kind and style was. -/
theorem Contains.reaches_replaced {b e : Config} {s : Slot} {y : Token} {p : Position} {X N : Tree}
    {v : Value} (h : Contains b s ⟨y, p⟩ X e) (hN : Replaces X p.column v N) (hv : v.Made)
    {column : Nat} (hs : s.minColumn = column + 1) {q : Position} {ys : List Token}
    (hr : e.rest = locate q ys) (hends : EndsLine ys) (hn : HasLineFeeds ys)
    (hout : Outside (column + 1) (locate q ys)) (hb : Nested b) (hub : b.Unsequenced)
    (hf : e.faults = []) (c : Config) (d : List Tree) (fs : List Frame) :
    Reaches ((c.facing (⟨.value, d⟩ :: fs) p (N.leaves ++ ys)).fillContent s) c
      (⟨.value, d ++ [N]⟩ :: fs) ys := by
  -- An atom or a flow sequence is made at once. A block sequence stands in the column of the old
  -- one, and is closed where that one was.
  cases hN with
  | atom hX a =>
    refine reaches_fillContent
      (v := .atom a) hv c _ d fs p ys s (fun _ _ q' => ⟨hends.plainLength_eq q', ?_⟩)
      (startsKey_flowTree (v := .atom a) hv hends.noColon p)
    exact hs ▸ (hout.of_endsLine hends hn q').continuation_eq
  | flow hX hXf vs =>
    exact reaches_fillContent hv c _ d fs p ys s (by simp) (startsKey_flowTree hv hends.noColon p)
  | @block hX hXf vs hne nl hl =>
    obtain ⟨v, vs, rfl⟩ := List.exists_cons_of_ne_nil hne
    obtain hk | ⟨hc, -, hseq⟩ := h.sequence hX
    · rw [h.isFlow_eq hX, hk] at hXf
      cases hXf
    · have hline : LineOver ys := by
        have := hseq.lineOver hb hub hf
        rwa [hr, map_token_locate] at this
      have hstop (q' : Position) : SequenceEnds p.column (locate q' ys) :=
        SequenceEnds.of_endsLine (hr ▸ hseq.1) hends hn q'
      exact Value.reaches_items hl (Value.makesLine_blockItemTrees (v :: vs) p.column hv hl) hline
        (fun q' => .of_sequenceEnds (hstop q')) c _ d fs
        (fun d fs q' => stepSequence_of_ends
          (c := c.facing (⟨.sequence p.column, d⟩ :: fs) q' ys) (hstop q'))
        rfl hc

/-- The parser comes to the place of a node in a flow entry and fills it. -/
theorem reaches_flowValued {v : Value} (hv : v.Made) (c : Config) (d : List Tree) (fs : List Frame)
    (p : Position) (x₀ : Token) {tr g : List Token} (ys : List Token)
    (htr : ∀ z ∈ tr, z.kind.isTrivia = true) (hg : Properties g)
    (hys : ∀ a, v = .atom a → ∀ q, plainLength (locate q ys) = 0) :
    Reaches (c.facing (⟨.flowEntry, d⟩ :: fs) p
      (x₀ :: (tr ++ (g ++ (v.flowTree.leaves ++ ys))))).flowValued c
      (⟨.flowValue, g.map .token ++ [v.flowTree]⟩ :: ⟨.flowEntry, d ++ (x₀ :: tr).map .token⟩ ::
        fs) ys := by
  have hstart := Value.starts_flowTree hv
  obtain ⟨x, xs, hx, hk⟩ := hstart.append ys
  have hk' := TokenKind.ne_of_isStart hk
  have hbare : Bare (v.flowTree.leaves ++ ys) := by
    rw [hx]
    exact forall_first ⟨hk'.2.1, hk'.2.2.2.1⟩
  obtain ⟨y, zs, hy, hyk, hnot⟩ := hg.exists_first (hstart.append ys)
  have hfirst := hg.not_isTrivia (hstart.append ys)
  have hpush := pushValue_facing c d fs p x₀ htr hfirst
  dsimp only [flowValued]
  rw [hpush, hy, kind?_facing]
  simp only [hnot, if_false]
  rw [← hy, takeFlowNode, rest_facing, take_facing _ _ _ _ _ _ _ (hg.length_eq hbare _),
    List.nil_append]
  exact Value.leads_flow v hv c _ _ _ _ ys _ hys

/-- The run has come to where the value is complete. -/
theorem Completed.of_reaches {t : Text} {o : Option Nat} {k : Config} {u : Task} {d : List Tree}
    {fs : List Frame} {hs g ys : List Token} {N : Tree} {p : Position} {xs : List Token}
    (hl : Leads (start t) (opened o k)) (hu : k.tasks = u :: fs.map Frame.task)
    (hb : behindColon o k = k.facing (⟨u, d ++ hs.map .token⟩ :: fs) p xs)
    (h : Reaches (opened o k) k
      (⟨valueTask o, g.map .token ++ [N]⟩ :: ⟨u, d ++ hs.map .token⟩ :: fs) ys) :
    ∃ c, Completed t o k g [N] ys c ∧ c.faults = k.faults := by
  obtain ⟨q, hq⟩ := h
  refine ⟨_, ⟨hl.trans hq, rfl, by simp [Config.tasks, ← hu], ?_, q, rfl⟩, rfl⟩
  have ho : (valueTask o).nodeKind = .value := by cases o <;> rfl
  rw [hb, ← eventsOf_tokens]
  simp [Config.log, facing, ho]

/-- What is taken between the key and the value does not depend on what follows. -/
theorem log_behindColon {o : Option Nat} {k k' : Config} {u : Task} {d d' : List Tree}
    {fs fs' : List Frame} {hs xs xs' : List Token} {p p' : Position} (hk : k.frames = ⟨u, d⟩ :: fs)
    (hk' : k'.frames = ⟨u, d'⟩ :: fs') (hlog : k'.log = k.log)
    (hb : behindColon o k = k.facing (⟨u, d ++ hs.map .token⟩ :: fs) p xs)
    (hb' : behindColon o k' = k'.facing (⟨u, d' ++ hs.map .token⟩ :: fs') p' xs') :
    (behindColon o k').log = (behindColon o k).log := by
  have h {c : Config} {d : List Tree} {fs : List Frame} {q : Position} {zs : List Token}
      (hc : c.frames = ⟨u, d⟩ :: fs) :
      (c.facing (⟨u, d ++ hs.map .token⟩ :: fs) q zs).log = c.log ++ hs.map .leaf := by
    rw [← eventsOf_tokens]
    simp [log, facing, hc]
  rw [hb, hb', h hk, h hk', hlog]

/-! ## Behind the value

Both runs have completed the value with the same tasks open and the same place waiting. What is
left is the same up to the positions, of which columns matter only behind a line break. -/

/-- What is built behind a value begins with its end. -/
theorem Completed.exists_log {t : Text} {o : Option Nat} {k c : Config} {g ys : List Token}
    {xs : List Tree} (h : Completed t o k g xs ys c) :
    c.step = some c.close ∧ c.close.log = c.log ++ [.closing] ∧ c.close.tasks = k.tasks := by
  have htask : c.stepTask (valueTask o) = c.close := by cases o <;> rfl
  exact ⟨htask ▸ step_of_tasks h.slot h.tasks, log_close h.tasks, by simp [h.tasks]⟩

/-- What is built behind a value is what is left of the log. -/
theorem Completed.exists_after {t : Text} {o : Option Nat} {k c : Config} {g ys : List Token}
    {Xs : List Tree} (h : Completed t o k g Xs ys c) {after : List Event}
    (hlog : (start t).run.log = (behindColon o k).log ++ .opening .value :: after) :
    ∃ e, after = g.map .leaf ++ (eventsOf Xs ++ .closing :: e) := by
  obtain ⟨hstep, hclose, -⟩ := h.exists_log
  obtain ⟨e, he⟩ := (Leads.to_run c.close).grows.log
  rw [(h.leads.trans (.of_step hstep)).run_eq, hlog, hclose, h.log] at he
  refine ⟨e, ?_⟩
  simpa using he.symm

/-- Two texts in which a value is complete go on alike if the same tokens follow. -/
theorem Completed.endAlike {t t' : Text} {o : Option Nat} {k k' c c' : Config}
    {g g' ys : List Token} {xs xs' : List Tree} (h : Completed t o k g xs ys c)
    (h' : Completed t' o k' g' xs' ys c') (hk : k'.tasks = k.tasks) (hat : AtColon o k.tasks)
    (hz : (start t).run.faults = []) (hf' : c'.faults = []) (hn : HasLineFeeds ys) :
    EndAlike c.close c'.close ∧ (o = none → Calm ys) := by
  obtain ⟨hstep, -, htasks⟩ := h.exists_log
  obtain ⟨-, -, htasks'⟩ := h'.exists_log
  obtain ⟨p, hr⟩ := h.rest
  obtain ⟨p', hr'⟩ := h'.rest
  have hl : Leads (start t) c.close := h.leads.trans (.of_step hstep)
  have hrun : c.close.run.faults = [] := hl.run_eq ▸ hz
  have htt : c'.close.tasks = c.close.tasks := by rw [htasks, htasks', hk]
  cases o with
  | some column =>
    obtain ⟨us, hus⟩ := hat
    have hends := (endsLine_of_value (by rw [h.tasks, hus]; rfl) h.slot hr (h.leads.run_eq ▸ hz)).1
    exact ⟨.of_endsLine htt (by simp [h.slot, h'.slot]) (by simpa using hf') (by simpa using hr)
      (by simpa using hr') hends hn hrun, nofun⟩
  | none =>
    obtain ⟨us, hus⟩ := hat
    have htf : c.close.tasks = .flowEntry :: .flowMapping :: us := by rw [htasks, hus]
    have hflow := endAlike_of_flow hl htf rfl htt
      (by simp [h.slot]) (by simp [h'.slot]) (by simpa using hf') (by simpa using hr)
        (by simpa using hr') hn hrun
    exact ⟨hflow.1, fun _ => hflow.2⟩

/-- The tokens behind those that are built are left. -/
theorem Completed.tokens_eq {t : Text} {o : Option Nat} {k c : Config} {g ys : List Token}
    {Xs : List Tree} (h : Completed t o k g Xs ys c) :
    lex t = Event.tokens (behindColon o k).log ++ g ++ (leavesOf Xs ++ ys) := by
  obtain ⟨p, hr⟩ := h.rest
  rw [← h.leads.tokens_eq, Config.tokens, ← tokens_log, h.log, hr, map_token_locate]
  simp

/-- Behind a value as many flow collections are open as before it. -/
theorem Completed.depth_eq {t : Text} {o : Option Nat} {k c : Config} {g zs ys : List Token}
    {Xs : List Tree} (h : Completed t o k g Xs ys c) (hz : (start t).run.faults = [])
    (hlex : lex t = zs ++ ys) : depthAfterAll 0 zs = level k.tasks := by
  obtain ⟨p, hr⟩ := h.rest
  rw [h.leads.depth_eq ((Leads.to_end h.leads).faultless hz) hlex hr, h.tasks]
  cases o <;> simp [level, valueTask, Task.isBracketed]

/-- With another value complete in the same place, the second text is parsed like the first. -/
theorem Completed.run_eq {t t' : Text} {o : Option Nat} {k k' c c' : Config} {g ys : List Token}
    {X N : Tree} (h : Completed t o k g [X] ys c) (h' : Completed t' o k' g [N] ys c')
    (hend : EndAlike c.close c'.close) (hlog : (behindColon o k').log = (behindColon o k).log)
    {e : List Event} (he : (start t).run.log =
      (behindColon o k).log ++ .opening .value :: (g.map .leaf ++ (X.events ++ .closing :: e))) :
    (start t').run.faults = [] ∧
      (start t').run.rest.map Lexeme.token = (start t).run.rest.map Lexeme.token ∧
      (start t').run.log =
        (behindColon o k).log ++ .opening .value ::
          (g.map .leaf ++ (N.events ++ .closing :: e)) := by
  obtain ⟨hstep, hclose, -⟩ := h.exists_log
  obtain ⟨hstep', hclose', -⟩ := h'.exists_log
  have hrun := (h.leads.trans (.of_step hstep)).run_eq
  have hrun' := (h'.leads.trans (.of_step hstep')).run_eq
  obtain ⟨e₀, he₀, he₀'⟩ := hend.log
  rw [hrun, hclose, h.log, he] at he₀
  obtain rfl : e = e₀ := by simpa using he₀
  refine ⟨hrun' ▸ hend.faults, by rw [← hrun', ← hrun]; exact hend.rest, ?_⟩
  rw [← hrun', he₀', hclose', h'.log, hlog]
  simp

end Config

/-- No plain scalar goes on at trivia before a token that is not plain. -/
theorem plainLength_of_trivia {zs ys : List Token} {y : Token}
    (hzs : ∀ z ∈ zs, z.kind.isTrivia = true) (hy : y.kind.isPlain = false ∧ y.kind ≠ space)
    (p : Position) : plainLength (locate p (zs ++ y :: ys)) = 0 := by
  have hfirst {z : Token} (hz : z.kind.isTrivia = true) : z.kind.isPlain = false := by
    revert hz
    cases z.kind <;> simp [isTrivia, isPlain]
  have hahead (zs : List Token) (hzs : ∀ z ∈ zs, z.kind.isTrivia = true) (p : Position) :
      plainAhead (locate p (zs ++ y :: ys)) = false := by
    cases zs with
    | nil => simp [locate, plainAhead, Lexeme.kind, hy.1]
    | cons z zs => simp [locate, plainAhead, Lexeme.kind, hfirst (hzs z (by simp))]
  cases zs with
  | nil => simp [locate, plainLength, Lexeme.kind, hy]
  | cons z zs =>
    have := hahead zs (fun w hw => hzs w (by simp [hw])) (p.advance z.text)
    simp [locate, plainLength, Lexeme.kind, hfirst (hzs z (by simp)), this]

namespace Config

/-- In block context the run comes to where another node is complete in the same place, if the
parser fills the place with it. -/
theorem ColonAt.completed_filled {t : Text} {column : Nat} {k : Config} {xs : List Token}
    {x₀ : Token} {sp g ys ws : List Token} {y : Token} {s : Slot}
    (h : ColonAt t (some column) k xs x₀ (sp ++ (g ++ y :: ws))) (hsp : ∀ z ∈ sp, z.kind = space)
    (hstart : ∀ z zs, g ++ y :: ws = z :: zs → z.kind ≠ space)
    (ha : Approach y.kind ⟨column + 1, some column, false⟩
      ((Position.advance {} (Token.join xs)).advance (Token.join (x₀ :: sp))) g s)
    {N : Tree} {y' : Token} {zs' : List Token} (hN : N.leaves = y' :: zs')
    (hy' : y'.kind.isTrivia = false ∧ y'.kind.isProperty = false ∧ y'.kind.isMarker = false)
    (hdash : y.kind = dash → y'.kind = dash)
    (hfill : ∀ c d fs, Reaches ((c.facing (⟨.value, d⟩ :: fs)
      ((Position.advance {} (Token.join xs)).advance (Token.join (x₀ :: (sp ++ g))))
        (N.leaves ++ ys)).fillContent s) c
        (⟨.value, d ++ [N]⟩ :: fs) ys)
    {t' : Text} (hlex : lex t' = xs ++ x₀ :: (sp ++ (g ++ (N.leaves ++ ys)))) :
    ∃ k' c', SameColon k k' ∧ Completed t' (some column) k' g [N] ys c' ∧ c'.faults = [] ∧
      (behindColon (some column) k').log = (behindColon (some column) k).log := by
  obtain ⟨k', hk', hlead, hr'⟩ := h.other t' _ hlex
  obtain ⟨us, hus⟩ := h.tasks
  obtain ⟨d, fs, hframes, -⟩ := frames_eq_cons hus
  obtain ⟨d', fs', hframes', hfs'⟩ := frames_eq_cons (hk'.tasks.trans hus)
  have hk := eq_facing hframes h.slot h.rest
  have hk'f := eq_facing hframes' hk'.slot hr'
  -- What comes behind the spaces is not a space, be it what stood there before the node or the
  -- node itself.
  have hstart' : ∀ z us, g ++ (N.leaves ++ ys) = z :: us → z.kind ≠ space := by
    intro z us hz
    cases g with
    | nil =>
      rw [hN] at hz
      obtain ⟨rfl, -⟩ := List.cons.inj hz
      intro h
      rw [h] at hy'
      cases hy'.1
    | cons w ws =>
      obtain ⟨rfl, -⟩ := List.cons.inj hz
      exact hstart w _ rfl
  -- The way to the old node is one to the new node : only a dash may stand where others may not.
  have ha' : Approach y'.kind ⟨column + 1, some column, false⟩
      ((Position.advance {} (Token.join xs)).advance (Token.join (x₀ :: sp))) g s := by
    by_cases hyd : y.kind = dash
    · rw [hdash hyd, ← hyd]
      exact ha
    · exact ha.of_ne_dash hyd
  have hbc := behindColon_facing k d fs (Position.advance {} (Token.join xs)) column x₀ hsp hstart
  have hbc' :=
    behindColon_facing k' d' fs' (Position.advance {} (Token.join xs)) column x₀ hsp hstart'
  have hreach :=
    reaches_valued k' d' fs' (Position.advance {} (Token.join xs)) x₀ hsp hstart' ha' hN hy'
    (hfill k' _ _)
  rw [← hk] at hbc
  rw [← hk'f] at hbc' hreach
  obtain ⟨c', hc', hf'⟩ := Completed.of_reaches (o := some column) hlead
    (hk'.tasks.trans (hus.trans (by rw [hfs']))) hbc' hreach
  exact ⟨k', c', hk', hc', hf'.trans hk'.faults, log_behindColon hframes hframes' hk'.log hbc hbc'⟩

/-- So it does with another value. -/
theorem ColonAt.completed_block {t : Text} {column : Nat} {k b e : Config} {xs : List Token}
    {x₀ : Token} {sp g ys zs : List Token} {X : Tree} {y : Token} {s : Slot} {q : Position}
    (h : ColonAt t (some column) k xs x₀ (sp ++ (g ++ (X.leaves ++ ys))))
    (hsp : ∀ z ∈ sp, z.kind = space)
    (hstart : ∀ z zs, g ++ (X.leaves ++ ys) = z :: zs → z.kind ≠ space)
    (hy : X.leaves ++ ys = y :: zs) (ha : Approach y.kind ⟨column + 1, some column, false⟩
      ((Position.advance {} (Token.join xs)).advance (Token.join (x₀ :: sp))) g s)
    (hX : Contains b s ⟨y,
      (Position.advance {} (Token.join xs)).advance (Token.join (x₀ :: (sp ++ g)))⟩ X e)
    (hb : Nested b) (hub : b.Unsequenced) (hr : e.rest = locate q ys) (hf : e.faults = [])
    (hends : EndsLine ys) (hn : HasLineFeeds ys) (hout : Outside (column + 1) (locate q ys))
    {t' : Text} {N : Tree} {v : Value} (hv : v.Made)
    (hN : Replaces X (Position.advance {} (Token.join (xs ++ x₀ :: (sp ++ g)))).column v N)
    (hlex : lex t' = xs ++ x₀ :: (sp ++ (g ++ (N.leaves ++ ys)))) :
    ∃ k' c', SameColon k k' ∧ Completed t' (some column) k' g [N] ys c' ∧ c'.faults = [] ∧
      (behindColon (some column) k').log = (behindColon (some column) k).log := by
  obtain ⟨y', zs', hy', hstarts, hdash⟩ := hN.exists_first hv
  rw [hy] at h hstart
  refine h.completed_filled hsp hstart ha hy' ?_ (fun hyd => ?_) (fun c d fs => ?_) hlex
  · rcases hstarts with h | ⟨h, -⟩
    · exact ⟨(TokenKind.ne_of_isStart h).1, (TokenKind.ne_of_isStart h).2.1,
        (TokenKind.ne_of_isStart h).2.2.1⟩
    · rw [h]
      exact ⟨rfl, rfl, rfl⟩
  · have hseq := hX.dash hyd
    refine hdash hseq ?_
    rw [hX.isFlow_eq hseq]
    simp [Lexeme.kind, hyd]
  · exact hX.reaches_replaced (by simpa [Position.advance_append] using hN) hv ha.minColumn_eq hr
      hends hn hout hb hub hf c d fs

/-- So it does in flow context. -/
theorem ColonAt.completed_flow {t : Text} {k : Config} {xs : List Token} {x₀ : Token}
    {tr g zs ys : List Token} {y : Token} {X : Tree}
    (h : ColonAt t none k xs x₀ (tr ++ (g ++ (X.leaves ++ (zs ++ y :: ys)))))
    (htr : ∀ z ∈ tr, z.kind.isTrivia = true)
    (hstart : ∀ z us, g ++ (X.leaves ++ (zs ++ y :: ys)) = z :: us → z.kind.isTrivia = false)
    (hg : Properties g) (hzs : ∀ z ∈ zs, z.kind.isTrivia = true)
    (hy : y.kind = comma ∨ y.kind = rightBrace) (hX : X.isNode .sequence = true → X.isFlow = true)
    {t' : Text} {N : Tree} {v : Value} (hv : v.Made) {n : Nat} (hN : Replaces X n v N)
    (hlex : lex t' = xs ++ x₀ :: (tr ++ (g ++ (N.leaves ++ (zs ++ y :: ys))))) :
    ∃ k' c', SameColon k k' ∧ Completed t' none k' g [N] (zs ++ y :: ys) c' ∧ c'.faults = [] ∧
      (behindColon none k').log = (behindColon none k).log := by
  obtain ⟨k', hk', hlead, hr'⟩ := h.other t' _ hlex
  obtain ⟨us, hus⟩ := h.tasks
  obtain ⟨d, fs, hframes, -⟩ := frames_eq_cons hus
  obtain ⟨d', fs', hframes', hfs'⟩ := frames_eq_cons (hk'.tasks.trans hus)
  have hk := eq_facing hframes h.slot h.rest
  have hk'f := eq_facing hframes' hk'.slot hr'
  -- In a flow collection nothing is written on several lines.
  obtain rfl : N = v.flowTree := by
    cases hN with
    | atom => rfl
    | flow => rfl
    | block hseq hXf =>
      rw [hX hseq] at hXf
      cases hXf
  have hbc := behindColon_flow_facing k d fs (Position.advance {} (Token.join xs)) x₀ htr hstart
  have hbc' := behindColon_flow_facing k' d' fs' (Position.advance {} (Token.join xs)) x₀ htr
    (hg.not_isTrivia ((Value.starts_flowTree hv).append (zs ++ y :: ys)))
  have hreach :=
    reaches_flowValued hv k' d' fs' (Position.advance {} (Token.join xs)) x₀ (zs ++ y :: ys) htr hg
    (fun _ _ q => plainLength_of_trivia hzs (by rcases hy with h | h <;> simp [h, isPlain]) q)
  rw [← hk] at hbc
  rw [← hk'f] at hbc' hreach
  obtain ⟨c', hc', hf'⟩ := Completed.of_reaches (o := none) hlead
    (hk'.tasks.trans (hus.trans (by rw [hfs']))) hbc' hreach
  exact ⟨k', c', hk', hc', hf'.trans hk'.faults, log_behindColon hframes hframes' hk'.log hbc hbc'⟩

/-- Outside of flow collections the level is 0. -/
theorem ColonAt.level_block {t : Text} {column : Nat} {k : Config} {xs ys : List Token} {x₀ : Token}
    (h : ColonAt t (some column) k xs x₀ ys) : level k.tasks = 0 := by
  have hnest := ((Nested.start t).leads h.leads).tasks
  have htasks : (opened (some column) k).tasks = .value :: k.tasks := by simp [opened, valued]
  rw [htasks] at hnest
  simpa [level, Task.isBracketed] using level_of_nested hnest rfl

end Config

open Config

/-- A value in block context holds nothing but anchors, tags and trivia, or a node. -/
theorem exists_valueAt_block {t : Text} {column : Nat} {k : Config} {xs ys₀ : List Token}
    {x₀ : Token} {after : List Event} (h : ColonAt t (some column) k xs x₀ ys₀)
    (hz : (start t).run.faults = []) (hn : HasLineFeeds (lex t))
    (hlog : (start t).run.log = (behindColon (some column) k).log ++ .opening .value :: after) :
    (∃ (g : List Token) (e : List Event), after = g.map .leaf ++ .closing :: e) ∨
      ∃ heads g X ys e, ValueAt t (behindColon (some column) k).log e xs x₀ heads g X ys := by
  obtain ⟨us, hus⟩ := h.tasks
  obtain ⟨sp, g, ys, s, c, rfl, hsp, hstart, hcase⟩ :=
    exists_blockPlace hz h.leads hus h.slot h.rest
  rcases hcase with ⟨-, hc⟩ | ⟨X, y, b, zs, ys, rfl, hy₀, -, ha, hX, hb, hub, hc⟩
  · obtain ⟨e, he⟩ := hc.exists_after hlog
    exact .inl ⟨g, e, he⟩
  · obtain ⟨e, rfl⟩ := hc.exists_after hlog
    obtain ⟨q, hr⟩ := hc.rest
    have hf : c.faults = [] := (Leads.to_end hc.leads).faultless hz
    -- What follows the value is at the end of its line, and outside of the entry.
    obtain ⟨hends, hout⟩ := endsLine_of_value (hus ▸ hc.tasks) hc.slot hr (hc.leads.run_eq ▸ hz)
    have hnb := (Nested.start t).leads hb
    have hny : HasLineFeeds ys :=
      hn.of_suffix ⟨xs ++ x₀ :: (sp ++ (g ++ X.leaves)), by simp [h.tokens]⟩
    refine .inr ⟨sp ++ g, g, X, ys, e, by simp [h.tokens], by simpa using hlog,
      List.append_cancel_right (hc.tokens_eq.symm.trans (by simp [h.tokens, leavesOf])),
      h.colon, ?_,
      ⟨sp, rfl, fun _ => hsp⟩, hX.content, hX.exists_first,
      h.depth ▸ hc.depth_eq hz (by simp [h.tokens]), ?_, ?_⟩
    · intro z hz
      rcases List.mem_append.mp hz with hz | hz
      · simp [TokenKind.isHead, hsp z hz, isTrivia]
      · simpa [TokenKind.isHead] using ha.isHead z hz
    -- The node of a block sequence ends at the end of a line, too, since its last line is over.
    · rw [h.depth, h.level_block]
      refine .line hends fun hseq hXf => ?_
      rcases hX.sequence hseq with hk | ⟨-, -, hseq'⟩
      · rw [hX.isFlow_eq hseq, hk] at hXf
        cases hXf
      · have := hseq'.lineOver hnb hub hf
        rwa [hr, map_token_locate] at this
    -- In the other text the run comes to where the new node is complete, and both go on alike
    -- from there.
    · intro t' N v hv hN hlex
      obtain ⟨k', c', hk', hc', hf', hlogs⟩ :=
        h.completed_block hsp hstart hy₀ ha hX hnb hub hr hf hends hny hout hv hN
          (by rw [hlex, List.append_assoc])
      exact hc.run_eq hc' (hc.endAlike hc' hk'.tasks h.tasks hz hf' hny).1 hlogs
        (by simpa using hlog)

/-- So does a value in flow context. -/
theorem exists_valueAt_flow {t : Text} {k : Config} {xs ys₀ : List Token} {x₀ : Token}
    {after : List Event} (h : ColonAt t none k xs x₀ ys₀) (hz : (start t).run.faults = [])
    (hn : HasLineFeeds (lex t))
    (hlog : (start t).run.log = (behindColon none k).log ++ .opening .value :: after) :
    (∃ (g : List Token) (e : List Event), after = g.map .leaf ++ .closing :: e) ∨
      ∃ heads g X ys e, ValueAt t (behindColon none k).log e xs x₀ heads g X ys := by
  obtain ⟨us, hus⟩ := h.tasks
  obtain ⟨tr, g, ys, c, rfl, htr, hstart, hg, hcase⟩ :=
    exists_flowPlace hz h.leads hus h.slot h.rest
  rcases hcase with hc | ⟨X, y, b, l, zs, ys, rfl, -, -, hX, rfl, hlast, hc⟩
  · obtain ⟨e, he⟩ := hc.exists_after hlog
    exact .inl ⟨g, e, he⟩
  · obtain ⟨e, rfl⟩ := hc.exists_after hlog
    obtain ⟨q, hr⟩ := hc.rest
    have hf : c.faults = [] := (Leads.to_end hc.leads).faultless hz
    have hny : HasLineFeeds ys :=
      hn.of_suffix ⟨xs ++ x₀ :: (tr ++ (g ++ X.leaves)), by simp [h.tokens]⟩
    -- Behind the value, up to the end of the outermost collection, no block scalar is read.
    have hcalm := (hc.endAlike hc rfl h.tasks hz hf hny).2 rfl
    obtain ⟨zs, w, ws, rfl, hzs, hw⟩ :=
      exists_comma_of_flowValue (hus ▸ hc.tasks) hc.slot hr (hc.leads.run_eq ▸ hz)
    have hstyle : X.isNode .sequence = true → X.isFlow = true := by
      intro hseq
      rcases hX.sequence hseq with hk | ⟨hc, -⟩
      · rw [hX.isFlow_eq hseq, hk]
        rfl
      · cases hc
    obtain ⟨n, hlevel⟩ : ∃ n, level k.tasks = n + 1 := by
      rw [hus]
      exact ⟨level us, by simp [level, Task.isBracketed, List.countP_cons]⟩
    refine .inr ⟨tr ++ g, g, X, zs ++ w :: ws, e, by simp [h.tokens], by simpa using hlog,
      List.append_cancel_right (hc.tokens_eq.symm.trans (by simp [h.tokens, leavesOf])),
      h.colon, ?_,
      ⟨tr, rfl, fun h0 => absurd (h0.symm.trans (h.depth.trans hlevel)) (by simp)⟩, hX.content,
      hX.exists_first, h.depth ▸ hc.depth_eq hz (by simp [h.tokens]), ?_, ?_⟩
    · intro z hz
      rcases List.mem_append.mp hz with hz | hz
      · simp [TokenKind.isHead, htr z hz]
      · simpa [TokenKind.isHead] using hg.isHead z hz
    · rw [h.depth, hlevel]
      exact .flow hzs hw hlast hcalm hstyle
    · intro t' N v hv hN hlex
      obtain ⟨k', c', hk', hc', hf', hlogs⟩ :=
        h.completed_flow htr hstart hg hzs hw hstyle hv hN (by rw [hlex, List.append_assoc])
      exact hc.run_eq hc' (hc.endAlike hc' hk'.tasks h.tasks hz hf' hny).1 hlogs
        (by simpa using hlog)

/-- A value in a text without faults holds nothing but anchors, tags and trivia, or a node. -/
theorem exists_valueAt {t : Text} {before after : List Event} (hz : (start t).run.faults = [])
    (hn : HasLineFeeds (lex t)) (hlog : (start t).run.log = before ++ .opening .value :: after) :
    (∃ (g : List Token) (e : List Event), after = g.map .leaf ++ .closing :: e) ∨
      ∃ xs x₀ heads g X ys e, ValueAt t before e xs x₀ heads g X ys := by
  obtain ⟨o, k, xs, x₀, ys₀, h, rfl⟩ := exists_colon hz hlog
  cases o with
  | some column => exact (exists_valueAt_block h hz hn hlog).imp_right fun h => ⟨xs, x₀, h⟩
  | none => exact (exists_valueAt_flow h hz hn hlog).imp_right fun h => ⟨xs, x₀, h⟩

end YamlPatch
