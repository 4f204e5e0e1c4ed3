import YamlPatch.Proofs.BlockParsing
import YamlPatch.Proofs.Levels

/-!
# The node that fills a place

Filling a place adds one tree to the node around it. A scalar is added at once; a collection or
a plain scalar gets a frame of its own, and the run comes to where that frame has been closed
(`Config.Within.exists_node`). `Config.exists_content` and `Config.exists_flowContent` put the
cases together : the run adds one tree, whose kind and first token are known from the token
ahead.

Two facts about the end of the node are needed as well. Behind a block sequence the line is
over, since its last item was finished with its line (`Config.EndsSequence.lineOver`), and
inside a flow collection a node ends with a token that something else may follow
(`Tree.EndsNode`). Both are known only if the run has no faults up to there.
-/

namespace YamlPatch

open TokenKind YamlPatch.Tree

/-! ## The first token of a tree

The kind of a node is told by its first token, which is known from the log : it is the first
leaf behind the openings. -/

/-- A tree that is begun by opening nodes and putting in a token has this token at its left edge. -/
theorem Tree.firstToken_of_events {x : Token} {b : List Event} :
    ∀ (t : Tree) (ks : List NodeKind) {a : List Event},
      t.events ++ a = ks.map .opening ++ .leaf x :: b → t.firstToken = some x
  | .token y, [], a, h => by
    simp only [events_token, List.cons_append, List.nil_append, List.map_nil, List.cons.injEq,
      Event.leaf.injEq] at h
    rw [h.1]
    rfl
  | .token y, k :: ks, a, h => by simp at h
  | .node k [], [], a, h => by simp [events_node] at h
  | .node k (t :: ts), [], a, h => by simp [events_node] at h
  | .node k [], l :: ks, a, h => by
    cases ks <;> simp [events_node] at h
  | .node k (t :: ts), l :: ks, a, h => by
    simp only [events_node, eventsOf_cons, List.cons_append, List.append_assoc, List.map_cons,
      List.cons.injEq] at h
    exact firstToken_of_events t ks h.2

mutual

/-- The first token of a tree is the first of its leaves. -/
theorem Tree.exists_leaves :
    ∀ (t : Tree) {x : Token}, t.firstToken = some x → ∃ xs, t.leaves = x :: xs
  | .token y, x, h => ⟨[], by simpa [firstToken, leaves] using h⟩
  | .node k ts, x, h => exists_leavesOf ts h

theorem Tree.exists_leavesOf : ∀ (ts : List Tree) {x : Token}, firstTokenOf ts = some x →
    ∃ xs, leavesOf ts = x :: xs
  | [], x, h => by cases h
  | t :: ts, x, h => by
    obtain ⟨xs, hx⟩ := t.exists_leaves h
    exact ⟨xs ++ leavesOf ts, by simp [leavesOf, hx]⟩

end

/-- Between `c` and `e` the parser closes a block sequence at column `n`, where `e` goes on. -/
def Config.EndsSequence (n : Nat) (c e : Config) : Prop :=
  SequenceEnds n e.rest ∧ ∃ b ts, Leads c b ∧ b.tasks = .sequence n :: ts ∧ b.rest = e.rest ∧
    b.faults = e.faults

/-- The kinds of the tokens that a scalar begins with. -/
def TokenKind.startsScalar (k : TokenKind) : Bool :=
  k.isPlain || k.isQuoted || k == blockScalar || k == reference

/-- The kinds of the tokens that may end a node inside a flow collection. -/
def TokenKind.endsNode (k : TokenKind) : Bool :=
  k.isPlain || k.isQuoted || k == space || k == reference || k == rightBracket || k == rightBrace

/-- The last token of the tree may end a node inside a flow collection. -/
def Tree.EndsNode (t : Tree) : Prop :=
  ∀ w, t.leaves.getLast? = some w → TokenKind.endsNode w.kind = true

/-- The tasks of nodes that have a frame of their own. -/
def Task.isNode : Task → Bool
  | .mapping _ | .sequence _ | .plain _ | .flowSequence | .flowMapping => true
  | _ => false

open YamlPatch.Task

namespace Config

/-! ## The end of an item

Between the items of a block sequence lines are ended. So when the sequence is closed the line
of its last item is over. -/

/-- The innermost node is no block sequence. -/
def Unsequenced (c : Config) : Prop := ∀ n ts, c.tasks ≠ .sequence n :: ts

/-- Places and the nodes of flow collections are no block sequences. -/
theorem Unsequenced.of_head {c : Config} {t : Task} {ts : List Task} (h : c.tasks = t :: ts)
    (ht : t.isPlace = true ∨ t.isFlow = true) : c.Unsequenced := by
  intro n us hu
  rw [h] at hu
  obtain ⟨rfl, -⟩ := List.cons.inj hu
  rcases ht with h | h <;> cases h

/-- Nor is it one when a place has been filled. A block sequence is opened together with its
first item, which then is the innermost node. -/
theorem Unsequenced.fillsIn {c d : Config} {p : Option Slot} (h : c.Unsequenced)
    (hf : FillsIn p c d) : d.Unsequenced := by
  intro n ts
  cases hf with
  | nothing => exact h n ts
  | @collection _ _ t _ _ ht =>
    cases t with
    | flowSequence | flowMapping => simp
    | _ => cases ht
  | _ => simp [h n ts]

/-- A line that is finished without a fault is over : its break comes next, or the end of the
text. -/
theorem lineOver_of_finishLine {c : Config} (h : c.finishLine.faults = []) :
    LineOver (c.finishLine.rest.map Lexeme.token) := by
  revert h
  dsimp only [finishLine]
  intro h
  split at h
  · rename_i hk
    rw [kind?_eq_none hk]
    rintro y zs hy
    cases hy
  · rename_i hk
    obtain ⟨l, ls, hl, hlk⟩ := exists_rest hk
    rw [hl]
    rintro y zs hy
    obtain ⟨rfl, -⟩ := List.cons.inj hy
    exact hlk
  · simp [errorLine, report] at h

/-- Only at the end of an item a step comes to a block sequence, unless it reports a problem. -/
theorem unsequenced_of_acts {c d : Config} (hn : Nested c) (h : Acts c d) (hf : d.faults = []) :
    d.Unsequenced ∨ d = c.finishLine.close := by
  cases h with
  | @fill p _ _ e ho hfill =>
    obtain ⟨-, t, ts, ht, hp⟩ := hn.opens ho
    have he : e.Unsequenced := by
      cases p with
      | some s => exact .of_head ht (.inl hp)
      | none => exact .of_head ht (.inr (by cases t <;> first | rfl | cases hp))
    exact .inl (Unsequenced.fillsIn (fun n us => by simpa using he n us) hfill)
  | marker hs ht => exact .inl fun n us => by simp [ht]
  | stray => simp [errorLine, report] at hf
  | plain hs ht => exact .inl fun n us => by simp [ht]
  | @close _ _ t ts hs ht hc =>
    by_cases hitem : t = .item
    · subst hitem
      cases hc with
      | line => exact .inr rfl
      | node hk => rcases hk with hk | hk | hk | ⟨n, hk⟩ <;> cases hk
      | bracket _ hcl => cases hcl
      | unclosed hcl => cases hcl
      | part hk => rcases hk with hk | hk <;> cases hk
    · refine .inl fun n us hd => ?_
      rw [hc.tasks_eq, ht] at hd
      obtain rfl : ts = .sequence n :: us := hd
      have htasks := ht ▸ hn.tasks
      revert htasks
      cases t <;> simp_all [nested, holds, isPlace, isFlowPlace]
  | _ => exact .inl fun n us => by simp

/-- Between two items the line is over. -/
theorem lineOver_of_step {c d : Config} (hn : Nested c) (h : c.step = some d) {n : Nat}
    {ts : List Task} (hd : d.tasks = .sequence n :: ts) (hf : d.faults = []) :
    LineOver (d.rest.map Lexeme.token) := by
  obtain rfl := (unsequenced_of_acts hn (acts_of_step h) hf).resolve_left fun h => h n ts hd
  rw [faults_close] at hf
  rw [rest_close]
  exact lineOver_of_finishLine hf

/-! ## Nodes with a frame of their own

Collections and plain scalars stay open over several steps. By induction on the measure each of
them comes to the step in which it is closed. -/

namespace Within

variable {t u : Task} {fs : List Frame} {finished d : List Tree} {m : Nat} {c : Config}

/-- A step of a node that is the innermost one goes on with it, or closes it. -/
theorem stepTask_top (ht : t.isNode = true) (h : Within t fs finished 0 c) (hs : c.slot = none) :
    (∃ n, Within t fs finished n (c.stepTask t)) ∨
      ∃ e, Within t fs finished 0 e ∧ e.slot = none ∧ c.stepTask t = e.close ∧
        (∀ n, t = .sequence n → e = c ∧ SequenceEnds n c.rest) ∧
        (t.isBracketed = true → e.faults = [] →
          ∃ b l ls, Within t fs finished 0 b ∧ e = b.take 1 ∧ b.rest = l :: ls ∧
            (l.kind = rightBracket ∨ l.kind = rightBrace)) := by
  obtain ⟨us, hus⟩ := h.exists_tasks
  have hkey : c.tasks.head? ≠ some .key := by
    rw [hus]
    rintro hk
    obtain rfl := Option.some.inj hk
    cases ht
  generalize hd : c.stepTask t = d
  refine (h.acts (.inr (.inr hkey)) (hd ▸ acts_stepTask hs hus)).imp_right ?_
  rintro ⟨-, -, hc⟩
  -- A node with a frame of its own is closed by the ways below. The others belong to places,
  -- entries and keys.
  cases hc with
  | node hk =>
    obtain ⟨m, rfl⟩ : ∃ m, t = .plain m := by
      rcases hk with rfl | rfl | rfl | hk
      · cases ht
      · cases ht
      · cases ht
      · exact hk
    exact ⟨c, h, hs, rfl, nofun, nofun⟩
  | mapping => exact ⟨c, h, hs, rfl, by simp, nofun⟩
  | sequence hn => exact ⟨c, h, hs, rfl, fun n hn' => ⟨rfl, by cases hn'; exact hn⟩, nofun⟩
  | bracket hk hc =>
    obtain ⟨l, ls, hl, rfl⟩ := exists_rest hk
    exact ⟨_, h.takeTrivia.take 1, by simpa using hs, rfl, fun n hn => by simp [hn, closer?] at hc,
      fun _ _ => ⟨_, l, ls, h.takeTrivia, rfl, hl, Task.closer?_eq hc⟩⟩
  | unclosed hc =>
    refine ⟨_, h.takeTrivia.report _,
      by simpa using hs, rfl, fun n hn => by simp [hn, closer?] at hc, fun _ hf => ?_⟩
    simp [Config.report] at hf
  | line hk => rcases hk with rfl | rfl <;> cases ht
  | part hk => rcases hk with rfl | rfl <;> cases ht
  | _ => cases ht

/-- The run comes to where the node has been closed. -/
theorem exists_node (ht : t.isNode = true) (h : Within t (⟨u, d⟩ :: fs) finished m c) :
    ∃ e done, Leads c e ∧ e.frames = ⟨u, d ++ [.node t.nodeKind done]⟩ :: fs ∧
      e.finished = finished ∧ e.slot = none ∧ (∀ n, t = .sequence n → EndsSequence n c e) ∧
      (t.isBracketed = true → e.faults = [] → (Tree.node t.nodeKind done).EndsNode) := by
  generalize hn : c.measure = n
  induction n using Nat.strongRecOn generalizing c m with
  | _ n ih =>
    obtain ⟨c1, done, hl, hf, hfin, hs⟩ := h.exists_closed
    have hw : Within t (⟨u, d⟩ :: fs) finished 0 c1 := hfin ▸ .of_frames hf
    have hstep : c1.step = some (c1.stepTask t) := by simp [Config.step, hs, hf]
    rcases hw.stepTask_top ht hs with ⟨k, hk⟩ | ⟨e, he, hes, hclose, hends, hbracket⟩
    · have hm := measure_step hstep
      have hle := hl.measure_le
      obtain ⟨e, done, hl', hfr, hfi, hsl, hends, hlast⟩ := ih _ (by omega) hk rfl
      refine ⟨e, done, (hl.trans (.of_step hstep)).trans hl', hfr, hfi, hsl, fun n hn => ?_, hlast⟩
      obtain ⟨hrest, b, ts, hb, htasks⟩ := hends n hn
      exact ⟨hrest, b, ts, (hl.trans (.of_step hstep)).trans hb, htasks⟩
    · obtain ⟨⟨gs, done', hg, hlen⟩, hfin'⟩ := he
      obtain rfl := List.length_eq_zero_iff.mp hlen
      rw [List.nil_append] at hg
      refine ⟨e.close, done', hclose ▸ hl.trans (.of_step hstep), ?_, ?_, ?_, ?_, ?_⟩
      · simp [Config.close, hg, Config.add, Frame.tree]
      · simp [Config.close, hg, Config.add, hfin']
      · simpa using hes
      · intro n hn
        obtain ⟨rfl, hends⟩ := hends n hn
        exact ⟨by simpa using hends, e, (⟨u, d⟩ :: fs).map Frame.task, hl, by simp [tasks, hf, hn],
          by simp, by simp⟩
      · intro hb hfaults
        obtain ⟨b, l, ls, ⟨⟨gs', before, hg', hlen'⟩, -⟩, rfl, hl, hk⟩ :=
          hbracket hb (by simpa using hfaults)
        obtain rfl := List.length_eq_zero_iff.mp hlen'
        -- the bracket is the last token that the node has taken
        obtain rfl : done' = before ++ [.token l.token] := by
          simpa [Config.take, Config.add, Config.ahead, hg', hl] using hg.symm
        intro w hw
        obtain rfl : l.token = w := by simpa [leaves, leavesOf] using hw
        have hk' : l.token.kind = l.kind := rfl
        rcases hk with hk | hk <;> simp [hk', hk, TokenKind.endsNode]

end Within

/-- Behind a block sequence the line is over. -/
theorem EndsSequence.lineOver {c e : Config} {n : Nat} (h : EndsSequence n c e) (hn : Nested c)
    (hc : c.Unsequenced) (hf : e.faults = []) : LineOver (e.rest.map Lexeme.token) := by
  obtain ⟨-, b, ts, hb, ht, hr, hbf⟩ := h
  rcases hb.cases_last with rfl | ⟨a, ha, hstep⟩
  · exact absurd ht (hc n ts)
  · rw [← hr]
    exact lineOver_of_step (hn.leads ha) hstep ht (hbf.trans hf)

/-! ## Filling a place

What a place is filled with is a node or nothing. The configuration in which the node is
complete is named, with the tree and with its first token. -/

/-- What the run has come to when a place has been filled with a node : the node is added to the
frame around it. -/
structure Filled (c b : Config) (u : Task) (d : List Tree) (fs : List Frame) (x : Tree)
    (e : Config) : Prop where
  leads : Leads b e
  frames : e.frames = ⟨u, d ++ [x]⟩ :: fs
  finished : e.finished = c.finished
  slot : e.slot = none

variable {c : Config} {u : Task} {d : List Tree} {fs : List Frame}

/-- A scalar fills a place at once. -/
theorem filled_wrap (hc : c.frames = ⟨u, d⟩ :: fs) (hs : c.slot = none) (n : Nat) :
    Filled c (c.wrap .scalar n) u d fs (.node .scalar (c.ahead n)) (c.wrap .scalar n) :=
  ⟨.refl _,
    by simp [Config.wrap, Config.add, hc], by simp [Config.wrap, Config.add, hc], by simpa using hs⟩

/-- A node with a frame of its own fills it when the frame is closed. -/
theorem exists_filled {t : Task} (ht : t.isNode = true) {b : Config}
    (h : ∃ m, Within t (⟨u, d⟩ :: fs) c.finished m b) :
    ∃ e x, Filled c b u d fs x e ∧ x.kind? = some t.nodeKind ∧
      (∀ n, t = .sequence n → EndsSequence n b e) ∧
      (t.isBracketed = true → e.faults = [] → x.EndsNode) := by
  obtain ⟨m, h⟩ := h
  obtain ⟨f, done, hl, hf, hfin, hs, hends, hlast⟩ := h.exists_node ht
  exact ⟨f, _, ⟨hl, hf, hfin, hs⟩, rfl, hends, hlast⟩

namespace Filled

variable {b e : Config} {x : Tree}

/-- The tokens of the node are those between. -/
theorem tokens_eq (h : Filled c b u d fs x e) (hc : c.frames = ⟨u, d⟩ :: fs)
    (hb : b.tokens = c.tokens) : c.rest.map Lexeme.token = x.leaves ++ e.rest.map Lexeme.token := by
  have ht : e.tokens = c.tokens := by
    obtain ⟨n, hn⟩ := h.leads
    rw [← hb]
    clear hb h
    induction hn with
    | refl => rfl
    | cons hstep _ ih => rw [ih, tokens_step hstep]
  simp only [tokens, built, h.frames, h.finished, hc, List.reverse_cons, List.flatMap_append,
    List.flatMap_cons, List.flatMap_nil, List.append_nil, leavesOf_append, leavesOf,
    List.append_assoc, List.append_cancel_left_eq] at ht
  exact ht.symm

/-- The node is added to the log as a whole. -/
theorem log_eq (h : Filled c b u d fs x e) (hc : c.frames = ⟨u, d⟩ :: fs) :
    e.log = c.log ++ x.events := by
  simp [log, h.frames, h.finished, hc]

/-- The first token of a node that has been begun. -/
theorem firstToken_eq (h : Filled c b u d fs x e) (hc : c.frames = ⟨u, d⟩ :: fs) {k : List NodeKind}
    {y : Token} {a : List Event} (hb : b.log = c.log ++ (k.map .opening ++ .leaf y :: a)) :
    x.firstToken = some y := by
  obtain ⟨a', ha'⟩ := h.leads.grows.log
  rw [h.log_eq hc, hb, List.append_assoc, List.append_cancel_left_eq, List.append_assoc,
    List.cons_append] at ha'
  exact x.firstToken_of_events k (a := []) (b := a ++ a') (by simpa using ha'.symm)

end Filled

/-- What is known of a node from the token that starts it. A block sequence is one that the parser
closes by its column. -/
structure Contains (b : Config) (s : Slot) (l : Lexeme) (x : Tree) (e : Config) : Prop where
  content : x.isContent = true
  first : x.isNode .mapping = false → x.firstToken = some l.token
  scalar : x.isNode .scalar = true → TokenKind.startsScalar l.kind = true
  sequence : x.isNode .sequence = true →
    l.kind = leftBracket ∨ s.compact = true ∧ l.kind = dash ∧ EndsSequence l.column b e
  dash : l.kind = dash → x.isNode .sequence = true

/-- Text that is set aside is a fault. -/
theorem faults_errorLine_ne (c : Config) (p : Problem) : (c.errorLine p).faults ≠ [] := by
  simp [errorLine, report]

/-- The next token as an event. -/
theorem leavesAhead_one {l : Lexeme} {ls : List Lexeme} (h : c.rest = l :: ls) :
    c.leavesAhead 1 = [.leaf l.token] := by
  simp [leavesAhead, h]

/-- Of a scalar nothing is asked but how it begins. -/
theorem Contains.of_scalar {b e : Config} {x : Tree} (hx : x.kind? = some .scalar) (s : Slot)
    {l : Lexeme} (hfirst : x.firstToken = some l.token)
    (hl : TokenKind.startsScalar l.kind = true) : Contains b s l x e where
  content := by simp [Tree.isContent, hx, NodeKind.isContent]
  first _ := hfirst
  scalar _ := hl
  sequence h := by simp [Tree.isNode, hx] at h
  dash h := by
    rw [h] at hl
    cases hl

/-- A node around the next tokens begins with the first of them. -/
theorem firstToken_wrap {l : Lexeme} {ls : List Lexeme} (hl : c.rest = l :: ls) {n : Nat}
    (hn : 0 < n) (k : NodeKind) : (Tree.node k (c.ahead n)).firstToken = some l.token := by
  cases n with
  | zero => cases hn
  | succ n => simp [ahead, hl, firstToken, firstTokenOf]

/-- A bracket opens a collection in flow style. -/
theorem exists_brackets (hc : c.frames = ⟨u, d⟩ :: fs) {l : Lexeme} {ls : List Lexeme}
    (hl : c.rest = l :: ls) (s : Slot) :
    (l.kind = leftBracket → ∃ e x, Filled c ((c.push .flowSequence).take 1) u d fs x e ∧
        Contains ((c.push .flowSequence).take 1) s l x e ∧ (e.faults = [] → x.EndsNode)) ∧
      (l.kind = leftBrace → ∃ e x, Filled c ((c.push .flowMapping).take 1) u d fs x e ∧
        Contains ((c.push .flowMapping).take 1) s l x e ∧ (e.faults = [] → x.EndsNode)) := by
  have hin (t : Task) : Within t (⟨u, d⟩ :: fs) c.finished 0 ((c.push t).take 1) :=
    Within.take ⟨⟨[], [], by simp [Config.push, hc], rfl⟩, rfl⟩ 1
  constructor
  · intro hk
    obtain ⟨e, x, h, hx, -, hlast⟩ := exists_filled (c := c) (t := .flowSequence) rfl ⟨_, hin _⟩
    have hfirst : x.firstToken = some l.token := by
      refine h.firstToken_eq hc (k := [.sequence]) (y := l.token) (a := []) ?_
      simp [leavesAhead_one (c := c.push .flowSequence) hl, Task.nodeKind]
    exact ⟨e, x, h,
      ⟨by simp [Tree.isContent, hx, Task.nodeKind, NodeKind.isContent], fun _ => hfirst,
      by simp [Tree.isNode, hx,
        Task.nodeKind], fun _ => .inl hk, fun hd => by rw [hk] at hd; cases hd⟩,
      hlast rfl⟩
  · intro hk
    obtain ⟨e, x, h, hx, -, hlast⟩ := exists_filled (c := c) (t := .flowMapping) rfl ⟨_, hin _⟩
    exact ⟨e, x, h, ⟨by simp [Tree.isContent, hx, Task.nodeKind, NodeKind.isContent],
      by simp [Tree.isNode, hx, Task.nodeKind], by simp [Tree.isNode, hx, Task.nodeKind],
      by simp [Tree.isNode, hx, Task.nodeKind], fun hd => by rw [hk] at hd; cases hd⟩, hlast rfl⟩

/-- A node on the line of an indicator is filled in. -/
theorem exists_inline (hc : c.frames = ⟨u, d⟩ :: fs) (hs : c.slot = none) {l : Lexeme}
    {ls : List Lexeme} (hl : c.rest = l :: ls) (s : Slot) {column : Nat}
    (hf : (c.takeInline column l.kind).faults = []) :
    ∃ e x, Filled c (c.takeInline column l.kind) u d fs x e ∧
      Contains (c.takeInline column l.kind) s l x e := by
  -- Scalars of one token are put into a node at once; brackets and words open a node that later
  -- steps fill.
  have hwrap (hk : TokenKind.startsScalar l.kind = true) :
      ∃ e x, Filled c (c.wrap .scalar 1) u d fs x e ∧ Contains (c.wrap .scalar 1) s l x e :=
    ⟨_, _, filled_wrap hc hs 1, .of_scalar rfl s (firstToken_wrap hl Nat.one_pos _) hk⟩
  have hb := exists_brackets hc hl s
  unfold takeInline at hf ⊢
  generalize hk : l.kind = k at hf hwrap hb ⊢
  split at hf
  · obtain ⟨e, x, h, hx, -⟩ := hb.1 rfl
    exact ⟨e, x, h, hx⟩
  · obtain ⟨e, x, h, hx, -⟩ := hb.2 rfl
    exact ⟨e, x, h, hx⟩
  · exact hwrap rfl
  · exact hwrap rfl
  · exact hwrap rfl
  · exact hwrap rfl
  · simp [report] at hf
  · exact absurd hf (faults_errorLine_ne _ _)
  · split at hf
    · rename_i hp
      rw [if_pos hp]
      have hin : Within (.plain column) (⟨u, d⟩ :: fs) c.finished 0
          ((c.push (.plain column)).take (plainLength c.rest)) :=
        Within.take ⟨⟨[], [], by simp [Config.push, hc], rfl⟩, rfl⟩ _
      obtain ⟨e, x, h, hx, -⟩ := exists_filled (c := c) (t := .plain column) rfl ⟨_, hin⟩
      obtain ⟨n, hn⟩ : ∃ n, plainLength (l :: ls) = n + 1 :=
        Nat.exists_eq_add_one.mpr (plainLength_pos (by rwa [hk]))
      have hfirst : x.firstToken = some l.token := by
        refine h.firstToken_eq hc (k := [.scalar]) (y := l.token)
          (a := (ls.take n).map fun l => .leaf l.token) ?_
        simp [leavesAhead, hn, hl, Task.nodeKind, Function.comp_def]
      exact ⟨e, x, h, .of_scalar hx s hfirst (by simp [TokenKind.startsScalar, hk, hp])⟩
    · exact absurd hf (faults_errorLine_ne _ _)

/-- A node inside a flow collection is filled in, unless properties stand for it. -/
theorem exists_flowContent (hc : c.frames = ⟨u, d⟩ :: fs) (hs : c.slot = none) {l : Lexeme}
    {ls : List Lexeme} (hl : c.rest = l :: ls) (s : Slot) {b : Bool}
    (hf : (c.takeFlowContent b).faults = []) :
    (b = true ∧ TokenKind.endsItem l.kind = true ∧ c.takeFlowContent b = c) ∨
      ∃ e x, Filled c (c.takeFlowContent b) u d fs x e ∧ Contains (c.takeFlowContent b) s l x e ∧
        (e.faults = [] → x.EndsNode) := by
  -- Here plain scalars are put into a node at once, too, since they stay on their line.
  have hwrap {n : Nat} (hn : 0 < n) (hk : TokenKind.startsScalar l.kind = true)
      (hall : ∀ w ∈ c.rest.take n, TokenKind.endsNode w.kind = true) :
      ∃ e x, Filled c (c.wrap .scalar n) u d fs x e ∧ Contains (c.wrap .scalar n) s l x e ∧
        (e.faults = [] → x.EndsNode) := by
    refine ⟨_, _, filled_wrap hc hs n, .of_scalar rfl s (firstToken_wrap hl hn _) hk,
      fun _ w hw => ?_⟩
    have hw := List.mem_of_getLast? hw
    rw [leaves, leavesOf_ahead] at hw
    obtain ⟨l', hl', rfl⟩ := List.mem_map.mp hw
    exact hall l' hl'
  have hone (hk : TokenKind.startsScalar l.kind = true) (hn : TokenKind.endsNode l.kind = true) :
      ∃ e x, Filled c (c.wrap .scalar 1) u d fs x e ∧ Contains (c.wrap .scalar 1) s l x e ∧
        (e.faults = [] → x.EndsNode) :=
    hwrap Nat.one_pos hk (by simp [hl, hn])
  have hb := exists_brackets hc hl s
  have hkind : c.kind? = some l.kind := by simp [Config.kind?, hl]
  unfold takeFlowContent at hf ⊢
  simp only [hkind] at hf ⊢
  generalize hk : l.kind = k at hf hwrap hone hb ⊢
  split at hf
  · exact .inr (hb.1 rfl)
  · exact .inr (hb.2 rfl)
  · exact .inr (hone rfl rfl)
  · exact .inr (hone rfl rfl)
  · exact .inr (hone rfl rfl)
  · simp [report] at hf
  · split at hf
    · rename_i hp
      rw [if_pos hp]
      refine .inr
        (hwrap (hl ▸ plainLength_pos (by rwa [hk])) (by simp [TokenKind.startsScalar, hp]) ?_)
      intro w hw
      rcases mem_take_plainLength w hw with h | h <;> simp [TokenKind.endsNode, h]
    · rename_i hp
      rw [if_neg hp]
      split at hf
      · rename_i h
        rw [if_pos h]
        exact .inl ⟨h.1, by simpa [TokenKind.endsItem, or_assoc] using h.2, rfl⟩
      · simp [errorToken, report] at hf

/-- A place is filled in from a token that is neither a line break nor a comment. -/
theorem exists_content (hc : c.frames = ⟨u, d⟩ :: fs) (hs : c.slot = none) {l : Lexeme}
    {ls : List Lexeme} (hl : c.rest = l :: ls) (hk : ¬ (l.kind = lineBreak ∨ l.kind = comment))
    {s : Slot} (hf : (c.fillContent s).faults = []) :
    ∃ e x, Filled c (c.fillContent s) u d fs x e ∧ Contains (c.fillContent s) s l x e := by
  unfold fillContent at hf ⊢
  simp only [hl, hk, if_false] at hf ⊢
  -- A dash opens a sequence, a key a mapping, and anything else is taken on the line. A
  -- collection is a frame of its own, which the run completes later.
  have hin (t : Task) : Within t (⟨u, d⟩ :: fs) c.finished 0 (c.push t) :=
    ⟨⟨[], [], by simp [Config.push, hc], rfl⟩, rfl⟩
  split
  · rename_i hd
    obtain ⟨e, x, h, hx, hends, -⟩ := exists_filled (c := c) (t := .sequence l.column) rfl
      ⟨_, (hin (.sequence l.column)).openItem l.column⟩
    have hx' : x.isNode .sequence = true := by simp [Tree.isNode, hx, Task.nodeKind]
    refine ⟨e, x, h, by simp [Tree.isContent, hx, Task.nodeKind, NodeKind.isContent], fun _ => ?_,
      by simp [Tree.isNode, hx, Task.nodeKind], fun _ => .inr ⟨hd.1, hd.2,
        hends _ rfl⟩, fun _ => hx'⟩
    let b := ((c.push (.sequence l.column)).push .item).take 1
    refine h.firstToken_eq hc (k := [.sequence, .item]) (y := l.token)
      (a := b.leavesAhead (spacesLength b.rest)) ?_
    simp only [openItem, log_await, takeSpaces, log_take, log_push, List.append_assoc,
      leavesAhead_one (c := (c.push (.sequence l.column)).push .item) hl]
    rfl
  · rename_i hd
    split
    · rename_i hkey
      obtain ⟨e, x, h, hx, -⟩ := exists_filled (c := c) (t := .mapping l.column) rfl
        ⟨_, (hin (.mapping l.column)).openEntry l.column⟩
      exact ⟨e, x, h, by simp [Tree.isContent, hx, Task.nodeKind, NodeKind.isContent],
        by simp [Tree.isNode, hx, Task.nodeKind], by simp [Tree.isNode, hx, Task.nodeKind],
        by simp [Tree.isNode, hx, Task.nodeKind], fun h' => absurd ⟨hkey.1, h'⟩ hd⟩
    · rename_i hkey
      simp only [hd, hkey, if_false] at hf
      exact exists_inline hc hs hl s hf

end Config

end YamlPatch
