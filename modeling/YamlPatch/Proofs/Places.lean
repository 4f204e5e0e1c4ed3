import YamlPatch.Proofs.Approach
import YamlPatch.Proofs.Entries
import YamlPatch.Proofs.Surroundings

/-!
# Values in their entries

Behind the colon of an entry the parser takes what belongs to the line, opens the value and
comes past anchors, tags and trivia to the place for a node. In block context the value then is
complete at the end of a line (`exists_blockPlace`), in a flow collection before a comma or the
closing brace (`exists_flowPlace`). Either way it holds no node at all, or one that
`Config.Contains` describes.

The way there can be gone again with another node (`reaches_valued`) : what is taken on it does
not depend on the node.

That a value is complete is `Completed`, a statement on the configuration in which it is closed
: the log has grown by the opening of the value, its tokens and trees, and its end, and the
tasks are those of the entry. Whatever is said of the rest of the text begins there.
-/

namespace YamlPatch

open TokenKind Event Lexeme

/-! ## The end of a line

What follows a value may be moved to another column, because the parser asks only whether it
stands outside of the entry, and behind a line break that is known from its own line. -/

/-- What the first token that is not trivia is, and where it stands. -/
theorem Alike.exists_significant {ls ls' ms : List Lexeme} {l : Lexeme}
    (h : Alike True [] [] ls ls') (hl : YamlPatch.significant ls = l :: ms) :
    ∃ l' ms', YamlPatch.significant ls' = l' :: ms' ∧ l'.kind = l.kind ∧ l'.column = l.column := by
  have ha := h.significant
  rw [hl] at ha
  obtain ⟨l', ms', hl', hk⟩ := ha.exists_cons
  rw [hl'] at ha
  exact ⟨l', ms', hl', hk, ha.column_eq trivial (isTrivia_of_significant hl)⟩

/-- What is outside of a column does not depend on the lines above. -/
theorem Outside.of_alike {n : Nat} {ls ls' : List Lexeme} (h : Outside n ls)
    (ha : Alike True [] [] ls' ls) : Outside n ls' := by
  intro l ms hl
  obtain ⟨l', ms', hl', hk, hc⟩ := ha.exists_significant hl
  rw [← hk, ← hc]
  exact h l' ms' hl'

/-- Nor does where a block sequence ends. -/
theorem SequenceEnds.of_alike {n : Nat} {ls ls' : List Lexeme} (h : SequenceEnds n ls)
    (ha : Alike True [] [] ls' ls) : SequenceEnds n ls' := by
  intro l ms hl
  obtain ⟨l', ms', hl', hk, hc⟩ := ha.exists_significant hl
  rw [← hk, ← hc]
  exact h l' ms' hl'

/-- At the end of a line it does not matter where the line stands. -/
theorem Outside.of_endsLine {n : Nat} {xs : List Token} {p : Position} (h : Outside n (locate p xs))
    (hxs : EndsLine xs) (hn : HasLineFeeds xs) (p' : Position) : Outside n (locate p' xs) :=
  h.of_alike (.of_endsLine hxs hn p' p)

/-- Where a line ends and others follow, the place at which it ends does not matter. -/
theorem SequenceEnds.of_endsLine {n : Nat} {xs : List Token} {p : Position}
    (h : SequenceEnds n (locate p xs)) (hxs : EndsLine xs) (hn : HasLineFeeds xs) (p' : Position) :
    SequenceEnds n (locate p' xs) :=
  h.of_alike (.of_endsLine hxs hn p' p)

/-- No plain scalar goes on at the end of a line. -/
theorem EndsLine.plainLength_eq {xs : List Token} (h : EndsLine xs) (p : Position) :
    plainLength (locate p xs) = 0 := by
  cases xs with
  | nil => rfl
  | cons x xs =>
    rcases h with hx | ⟨hx | hx, h⟩
    · simp [locate, plainLength, Lexeme.kind, hx, isPlain]
    · have hnot : plainAhead (locate (p.advance x.text) xs) = false := by
        cases xs with
        | nil => rfl
        | cons y ys =>
          rcases h with hy | ⟨hy | hy, -⟩ <;> simp [locate, plainAhead, Lexeme.kind, hy, isPlain]
      simp [locate, plainLength, Lexeme.kind, hx, isPlain, hnot]
    · simp [locate, plainLength, Lexeme.kind, hx, isPlain]

/-- No colon comes there. -/
theorem EndsLine.noColon {xs : List Token} (h : EndsLine xs) : Config.NoColon xs := by
  intro p
  induction xs generalizing p with
  | nil => rfl
  | cons x xs ih =>
    rcases h with hx | ⟨hx | hx, h⟩
    · simp [colonAfter, locate, Lexeme.kind, hx, isPlain]
    · have := ih h (p.advance x.text)
      simpa [colonAfter, locate, Lexeme.kind, hx, isPlain] using this
    · simp [colonAfter, locate, Lexeme.kind, hx, isPlain]

/-- Dropping trivia leaves the tokens that are significant. -/
theorem significant_dropWhile (ls : List Lexeme) {p : TokenKind → Bool}
    (hp : ∀ k, p k = true → k.isTrivia = true) :
    significant (ls.dropWhile fun l => p l.kind) = significant ls := by
  induction ls with
  | nil => rfl
  | cons l ls ih =>
    by_cases hl : p l.kind = true
    · have ht := hp _ hl
      simpa [hl, significant, ht] using ih
    · simp [hl]

namespace Config

/-- A configuration is known from its open nodes and what it faces. -/
theorem eq_facing {c : Config} {fs : List Frame} {p : Position} {xs : List Token}
    (hf : c.frames = fs) (hs : c.slot = none) (hr : c.rest = locate p xs) :
    c = c.facing fs p xs := by
  subst hf
  obtain ⟨_, _, _, _, _, _⟩ := c
  simp_all [facing]

/-- The task of the value. -/
def valueTask : Option Nat → Task
  | some _ => .value
  | none => .flowValue

/-- The value of the entry whose colon is ahead in `k` is complete : it holds the tokens `g` and the
trees `xs`, and `ys` follow. -/
structure Completed (t : Text) (o : Option Nat) (k : Config) (g : List Token) (xs : List Tree)
    (ys : List Token) (c : Config) : Prop where
  leads : Leads (start t) c
  slot : c.slot = none
  tasks : c.tasks = valueTask o :: k.tasks
  log : c.log = (behindColon o k).log ++ .opening .value :: (g.map .leaf ++ Tree.eventsOf xs)
  rest : ∃ p, c.rest = locate p ys

/-! ## Values in block mappings

Behind the colon come spaces, anchors and tags and the node. Each is taken in a move of its own,
so the run up to the node is a chain of equations. -/

/-- Behind a value nothing is left on the line, and what comes next stands no further to the right
than the entry. -/
theorem endsLine_of_value {c : Config} {column : Nat} {us : List Task} {p : Position}
    {ys : List Token} (ht : c.tasks = .value :: .entry :: .mapping column :: us)
    (hs : c.slot = none) (hr : c.rest = locate p ys) (hrun : c.run.faults = []) :
    EndsLine ys ∧ Outside (column + 1) (locate p ys) := by
  have ht1 : c.close.tasks = .entry :: .mapping column :: us := by simp [ht]
  have ht2 : c.close.finishLine.close.tasks = .mapping column :: us := by simp [ht]
  -- Three steps follow : the value is closed, the entry is closed at the end of its line, and the
  -- mapping looks for its next entry. Each has a successor without faults.
  have h1 : c.step = some c.close := step_of_tasks hs ht
  have h2 : c.close.step = some c.close.finishLine.close :=
    step_of_tasks (by simpa using hs) ht1
  have h3 : c.close.finishLine.close.step = some (c.close.finishLine.close.stepMapping column) :=
    step_of_tasks (by simpa using hs) ht2
  have hf3 : (c.close.finishLine.close.stepMapping column).faults = [] := by
    refine (Leads.to_run _).faultless ?_
    rwa [← run_of_step h3, ← run_of_step h2, ← run_of_step h1]
  have hf2 : c.close.finishLine.faults = [] := by
    have := (Leads.of_step h3).faultless hf3
    simpa using this
  refine ⟨by simpa [hr, map_token_locate] using endsLine_of_finishLine hf2, ?_⟩
  -- Ending the line takes spaces and a comment, so the next token that counts is the same before
  -- and behind it.
  have hsig : significant c.close.finishLine.close.rest = significant (locate p ys) := by
    have hline : ∀ k, (k == space || k == comment) = true → k.isTrivia = true := by
      intro k hk
      cases k <;> first | rfl | cases hk
    have hdrop : c.close.finishLine.rest = c.rest.dropWhile fun l =>
        l.kind == space || l.kind == comment := by
      revert hf2
      dsimp only [finishLine]
      split
      · simp [drop_kindRun]
      · simp [drop_kindRun]
      · simp [errorLine, report]
    rw [rest_close, hdrop, hr]
    exact significant_dropWhile _ hline
  intro l ls hl
  have hl' := hsig.trans hl
  simp only [stepMapping, hl'] at hf3
  split at hf3
  · rename_i h
    rcases h with h | h
    · exact .inl h
    · exact .inr (by omega)
  · split at hf3
    · simp [errorLine, report] at hf3
    · exact .inr (by omega)

/-- Behind the colon and spaces the place of a value is left to be filled. -/
theorem valued_facing (c : Config) (d : List Tree) (fs : List Frame) (p : Position) (column : Nat)
    (x : Token) {sp ys : List Token} (hsp : ∀ z ∈ sp, z.kind = space)
    (hys : ∀ y zs, ys = y :: zs → y.kind ≠ space) :
    (c.facing (⟨.entry, d⟩ :: fs) p (x :: (sp ++ ys))).valued column =
      (c.facing (⟨.value, []⟩ :: ⟨.entry, d ++ (x :: sp).map .token⟩ :: fs)
        (p.advance (Token.join (x :: sp))) ys).await ⟨column + 1, some column, false⟩ := by
  rw [valued, take_one_facing, takeSpaces_facing _ _ _ _ _ _ _ hsp hys, push_facing]
  simp [Position.advance_append]

/-- Behind the colon of a block entry the spaces are taken, and the anchors are left. -/
theorem behindColon_facing (c : Config) (d : List Tree) (fs : List Frame) (p : Position)
    (column : Nat) (x : Token) {sp ys : List Token} (hsp : ∀ z ∈ sp, z.kind = space)
    (hys : ∀ y zs, ys = y :: zs → y.kind ≠ space) :
    behindColon (some column) (c.facing (⟨.entry, d⟩ :: fs) p (x :: (sp ++ ys))) =
      c.facing (⟨.entry, d ++ (x :: sp).map .token⟩ :: fs)
        (p.advance (Token.join (x :: sp))) ys := by
  rw [behindColon, take_one_facing, takeSpaces_facing _ _ _ _ _ _ _ hsp hys]
  simp [Position.advance_append]

/-- Tokens begin with all the spaces that they begin with. -/
theorem exists_spaces (xs : List Token) : ∃ sp ys, xs = sp ++ ys ∧ (∀ z ∈ sp, z.kind = space) ∧
    ∀ y zs, ys = y :: zs → y.kind ≠ space := by
  simpa using exists_run (fun x : Token => x.kind == space) xs

/-- The value of a block entry, from the colon to where it is complete : behind the colon come the
spaces `sp` and the tokens `g`, and then either a node or nothing. -/
theorem exists_blockPlace {t : Text} {k : Config} {column : Nat} {us : List Task} {p : Position}
    {x₀ : Token} {ys₀ : List Token} (hz : (start t).run.faults = [])
    (hl : Leads (start t) (k.valued column)) (ht : k.tasks = .entry :: .mapping column :: us)
    (hs : k.slot = none) (hr : k.rest = locate p (x₀ :: ys₀)) :
    ∃ sp g ys s c, ys₀ = sp ++ (g ++ ys) ∧ (∀ z ∈ sp, z.kind = space) ∧
      (∀ z zs, g ++ ys = z :: zs → z.kind ≠ space) ∧
      ((FindsNothing ⟨column + 1, some column, false⟩ (p.advance (Token.join (x₀ :: sp))) g s ∧
          Completed t (some column) k g [] ys c) ∨
        ∃ x y b zs ys', ys = x.leaves ++ ys' ∧ ys = y :: zs ∧
          (y.kind.isProperty = false ∧ y.kind ≠ space ∧ y.kind ≠ lineBreak ∧ y.kind ≠ comment) ∧
          Approach y.kind ⟨column + 1, some column, false⟩ (p.advance (Token.join (x₀ :: sp))) g s ∧
          Contains b s ⟨y, p.advance (Token.join (x₀ :: (sp ++ g)))⟩ x c ∧ Leads (start t) b ∧
          b.Unsequenced ∧ Completed t (some column) k g [x] ys' c) := by
  obtain ⟨d, fs, hframes, hfs⟩ := frames_eq_cons ht
  obtain ⟨sp, R, rfl, hsp, hR⟩ := exists_spaces ys₀
  have hk : k = k.facing (⟨.entry, d⟩ :: fs) p (x₀ :: (sp ++ R)) := eq_facing hframes hs hr
  have hv := valued_facing k d fs p column x₀ hsp hR
  have hb := behindColon_facing k d fs p column x₀ hsp hR
  rw [← hk] at hv hb
  obtain ⟨g, ys, s, rfl, hlead, hend⟩ := exists_approach k .value []
    (⟨.entry, d ++ (x₀ :: sp).map .token⟩ :: fs) (p.advance (Token.join (x₀ :: sp)))
    ⟨column + 1, some column, false⟩ hR
  rw [← hv, List.nil_append] at hlead
  -- the value node under construction, with the way to the node taken
  obtain ⟨c, hc⟩ :
      ∃ c, c = k.facing (⟨.value, g.map .token⟩ :: ⟨.entry, d ++ (x₀ :: sp).map .token⟩ :: fs)
      ((p.advance (Token.join (x₀ :: sp))).advance (Token.join g)) ys := ⟨_, rfl⟩
  rw [← hc] at hlead
  have hframes' :
      c.frames = ⟨.value, g.map .token⟩ :: ⟨.entry, d ++ (x₀ :: sp).map .token⟩ :: fs := by
    rw [hc, frames_facing]
  have hslot : c.slot = none := by rw [hc, slot_facing]
  have hrest : c.rest = locate ((p.advance (Token.join (x₀ :: sp))).advance (Token.join g)) ys := by
    rw [hc, rest_facing]
  have hlog : c.log = (behindColon (some column) k).log ++ .opening .value :: g.map .leaf := by
    rw [hb, hc, ← Tree.eventsOf_tokens]
    simp [log, facing, Task.nodeKind]
  have htasks : c.tasks = .value :: k.tasks := by simp [tasks, hframes', hframes]
  have hstart := hl.trans hlead
  have hf := (Leads.to_end hstart).faultless hz
  rcases hend with ⟨y, zs, rfl, hy, ha⟩ | ⟨hnothing, hys⟩
  · obtain ⟨e, x, hfilled, hcontains⟩ := exists_content hframes' hslot hrest (not_or.mpr hy.2.2) hf
    have he := hstart.trans hfilled.leads
    obtain ⟨xs, ys', -, hrest'⟩ := he.grows.exists_locate
    have htokens := hfilled.tokens_eq hframes' ((Grows.refl c).fillContent s).tokens
    rw [hrest, hrest', map_token_locate, map_token_locate] at htokens
    refine ⟨sp, g, y :: zs, s, e, rfl, hsp, hR,
      .inr ⟨x, y, _, zs, ys', htokens, rfl, hy, ha, ?_, hstart, ?_, he,
      hfilled.slot, ?_, ?_, _, hrest'⟩⟩
    · simpa [Position.advance_append] using hcontains
    · exact Unsequenced.fillsIn (.of_head htasks (.inl rfl)) (fillsIn_fillContent c s)
    · rw [valueTask, ← htasks]
      simp [tasks, hfilled.frames, hframes']
    · rw [hfilled.log_eq hframes', hlog]
      simp
  · have hstill : c.fillContent s = c := by
      unfold fillContent
      rcases hys with rfl | ⟨y, zs, rfl, hy, hlater⟩
      · rw [hrest]
        rfl
      · have hk : (⟨y, (p.advance (Token.join (x₀ :: sp))).advance (Token.join g)⟩ : Lexeme).kind =
            lineBreak ∨
            (⟨y, (p.advance (Token.join (x₀ :: sp))).advance (Token.join g)⟩ : Lexeme).kind =
              comment := hy
        simp only [locate] at hlater
        simp only [hrest, locate, if_pos hk, hlater]
    rw [hstill] at hstart
    exact ⟨sp, g, ys, s, c, rfl, hsp, hR,
      .inl ⟨hnothing, hstart, hslot, htasks, by simpa using hlog, _, hrest⟩⟩

/-- The parser comes to the place of a node in a block entry and fills it. -/
theorem reaches_valued (c : Config) (d : List Tree) (fs : List Frame) (p : Position) {column : Nat}
    (x₀ : Token) {y : Token} {sp g ys zs : List Token} {x : Tree} {s : Slot}
    (hsp : ∀ z ∈ sp, z.kind = space)
    (hstart : ∀ z zs, g ++ (x.leaves ++ ys) = z :: zs → z.kind ≠ space)
    (ha : Approach y.kind ⟨column + 1, some column, false⟩ (p.advance (Token.join (x₀ :: sp))) g s)
    (hx : x.leaves = y :: zs)
    (hy : y.kind.isTrivia = false ∧ y.kind.isProperty = false ∧ y.kind.isMarker = false)
    (hfill :
      Reaches ((c.facing (⟨.value, g.map .token⟩ :: ⟨.entry, d ++ (x₀ :: sp).map .token⟩ :: fs)
      (p.advance (Token.join (x₀ :: (sp ++ g)))) (x.leaves ++ ys)).fillContent s) c
        (⟨.value, g.map .token ++ [x]⟩ :: ⟨.entry, d ++ (x₀ :: sp).map .token⟩ :: fs) ys) :
    Reaches ((c.facing (⟨.entry, d⟩ :: fs) p (x₀ :: (sp ++ (g ++ (x.leaves ++ ys))))).valued column)
      c
      (⟨.value, g.map .token ++ [x]⟩ :: ⟨.entry, d ++ (x₀ :: sp).map .token⟩ :: fs) ys := by
  rw [valued_facing c d fs p column x₀ hsp hstart]
  rw [hx, List.cons_append] at hfill ⊢
  refine ha.reaches c .value [] _ rfl hy fun d' hd' => ?_
  rw [hd', List.nil_append]
  simpa [Position.advance_append] using hfill

/-! ## Values in flow mappings

Here line breaks and comments may come in between as well, and columns are not asked about. -/

/-- Behind a value in a flow mapping comes a comma or the brace that closes the mapping. -/
theorem exists_comma_of_flowValue {c : Config} {us : List Task} {p : Position} {ys : List Token}
    (ht : c.tasks = .flowValue :: .flowEntry :: .flowMapping :: us) (hs : c.slot = none)
    (hr : c.rest = locate p ys) (hrun : c.run.faults = []) :
    ∃ zs y ws, ys = zs ++ y :: ws ∧ (∀ z ∈ zs, z.kind.isTrivia = true) ∧
      (y.kind = comma ∨ y.kind = rightBrace) := by
  have ht1 : c.close.tasks = .flowEntry :: .flowMapping :: us := by simp [ht]
  have h1 : c.step = some c.close := step_of_tasks hs ht
  have h2 : c.close.step = some (c.close.close.takeTrivia.takeComma rightBrace .unseparatedEntry) :=
    step_of_tasks (by simpa using hs) ht1
  obtain ⟨zs, ws, rfl, hzs, hws⟩ := exists_trivia ys
  have hrest : c.close.close.takeTrivia.rest = locate (p.advance (Token.join zs)) ws := by
    simp only [takeTrivia, rest_take, rest_close, drop_triviaLength, hr]
    exact significant_locate p hzs hws
  have hrun' :
      (c.close.close.takeTrivia.takeComma rightBrace .unseparatedEntry).run.faults = [] := by
    rwa [← run_of_step h2, ← run_of_step h1]
  have hf := (Leads.to_run _).faultless hrun'
  cases ws with
  | nil =>
    -- the mapping would not be closed
    have hk : c.close.close.takeTrivia.kind? = none := by rw [kind?, hrest]; rfl
    have ht2 : c.close.close.takeTrivia.tasks = .flowMapping :: us := by simp [ht]
    have h3 := step_of_tasks (c := c.close.close.takeTrivia) (by simpa using hs) ht2
    simp only [takeComma, hk] at hrun'
    rw [run_of_step h3] at hrun'
    have hf3 := (Leads.to_run _).faultless hrun'
    have hk' : c.close.close.takeTrivia.takeTrivia.kind? = none := by
      rw [kind?, takeTrivia, rest_take, hrest]; rfl
    simp [stepTask, stepFlowMapping, hk', report] at hf3
  | cons y ws =>
    refine ⟨zs, y, ws, rfl, hzs, ?_⟩
    have hk : c.close.close.takeTrivia.kind? = some y.kind := by rw [kind?, hrest]; rfl
    simp only [takeComma, hk] at hf
    split at hf
    · exact .inl ‹_›
    · split at hf
      · exact .inr ‹_›
      · simp [errorToken, report] at hf

/-- Behind the colon and trivia the value of an entry is opened. -/
theorem pushValue_facing (c : Config) (d : List Tree) (fs : List Frame) (p : Position) (x : Token)
    {tr ys : List Token} (htr : ∀ z ∈ tr, z.kind.isTrivia = true)
    (hys : ∀ y zs, ys = y :: zs → y.kind.isTrivia = false) :
    ((c.facing (⟨.flowEntry, d⟩ :: fs) p (x :: (tr ++ ys))).take 1).takeTrivia.push .flowValue =
      c.facing (⟨.flowValue, []⟩ :: ⟨.flowEntry, d ++ (x :: tr).map .token⟩ :: fs)
        (p.advance (Token.join (x :: tr))) ys := by
  rw [take_one_facing, takeTrivia_facing _ _ _ _ _ _ _ htr hys, push_facing]
  simp [Position.advance_append]

/-- Behind the colon of a flow entry the trivia are taken. -/
theorem behindColon_flow_facing (c : Config) (d : List Tree) (fs : List Frame) (p : Position)
    (x : Token) {tr ys : List Token} (htr : ∀ z ∈ tr, z.kind.isTrivia = true)
    (hys : ∀ y zs, ys = y :: zs → y.kind.isTrivia = false) :
    behindColon none (c.facing (⟨.flowEntry, d⟩ :: fs) p (x :: (tr ++ ys))) =
      c.facing (⟨.flowEntry, d ++ (x :: tr).map .token⟩ :: fs)
        (p.advance (Token.join (x :: tr))) ys := by
  rw [behindColon, take_one_facing, takeTrivia_facing _ _ _ _ _ _ _ htr hys]
  simp [Position.advance_append]

/-- The value of a flow entry, from the colon to where it is complete : behind the colon come the
trivia `tr` and the anchors and tags `g`, and then either a node or nothing. -/
theorem exists_flowPlace {t : Text} {k : Config} {us : List Task} {p : Position} {x₀ : Token}
    {ys₀ : List Token} (hz : (start t).run.faults = []) (hl : Leads (start t) k.flowValued)
    (ht : k.tasks = .flowEntry :: .flowMapping :: us) (hs : k.slot = none)
    (hr : k.rest = locate p (x₀ :: ys₀)) :
    ∃ tr g ys c, ys₀ = tr ++ (g ++ ys) ∧ (∀ z ∈ tr, z.kind.isTrivia = true) ∧
      (∀ z zs, g ++ ys = z :: zs → z.kind.isTrivia = false) ∧ Properties g ∧
      (Completed t none k g [] ys c ∨
        ∃ x y b l zs ys', ys = x.leaves ++ ys' ∧ ys = y :: zs ∧ Bare ys ∧
        Contains b ⟨0, none, false⟩ l x c ∧
          l.token = y ∧ x.EndsNode ∧ Completed t none k g [x] ys' c) := by
  obtain ⟨d, fs, hframes, hfs⟩ := frames_eq_cons ht
  obtain ⟨tr, R, rfl, htr, hR⟩ := exists_trivia ys₀
  have hk : k = k.facing (⟨.flowEntry, d⟩ :: fs) p (x₀ :: (tr ++ R)) := eq_facing hframes hs hr
  have hv := pushValue_facing k d fs p x₀ htr hR
  have hb := behindColon_flow_facing k d fs p x₀ htr hR
  rw [← hk] at hv hb
  have hcompleted {g ys : List Token} {q : Position}
      (hl : Leads (start t) (k.facing (⟨.flowValue, g.map .token⟩ ::
      ⟨.flowEntry, d ++ (x₀ :: tr).map .token⟩ :: fs) q ys)) : Completed t none k g [] ys
        (k.facing (⟨.flowValue, g.map .token⟩ :: ⟨.flowEntry, d ++ (x₀ :: tr).map .token⟩ :: fs) q
          ys) := by
    refine ⟨hl, rfl, by simp [tasks, hframes, valueTask], ?_, q, rfl⟩
    rw [hb, ← Tree.eventsOf_tokens]
    simp [log, facing, Task.nodeKind]
  have hf := (Leads.to_end hl).faultless hz
  -- Behind the colon the parser finds the end of the text, the end of the entry, or a node. In
  -- the first two cases the value is complete at once and holds nothing.
  dsimp only [flowValued] at hl hf
  rw [hv] at hl hf
  split at hl
  · exact ⟨tr, [], R, _, rfl, htr, hR, .inl rfl, .inl (hcompleted (g := []) hl)⟩
  · split at hl
    · exact ⟨tr, [], R, _, rfl, htr, hR, .inl rfl, .inl (hcompleted (g := []) hl)⟩
    · rename_i k' hk' hnot
      simp only [hk', if_neg hnot] at hf
      have hspace : ∀ y zs, R = y :: zs → y.kind ≠ space := by
        rintro y zs hy h
        have := hR y zs hy
        rw [h] at this
        cases this
      obtain ⟨g, ys, rfl, hg, hys⟩ := exists_properties hspace
      rw [takeFlowNode, rest_facing, take_facing _ _ _ _ _ _ _ (hg.length_eq hys _),
        List.nil_append] at hl hf
      cases ys with
      | nil => exact ⟨tr, g, [], _, rfl, htr, hR, hg, .inl (hcompleted hl)⟩
      | cons y zs =>
        -- Anchors and tags may also stand for the node. Then the step has taken them and nothing
        -- else.
        rcases exists_flowContent rfl rfl rfl ⟨0, none, false⟩ hf with
          ⟨-, -, hstill⟩ | ⟨e, x, hfilled, hcontains, hlast⟩
        · rw [hstill] at hl
          exact ⟨tr, g, y :: zs, _, rfl, htr, hR, hg, .inl (hcompleted hl)⟩
        · have he := hl.trans hfilled.leads
          obtain ⟨xs, ys', -, hrest'⟩ := he.grows.exists_locate
          -- The tokens that went into the node are its leaves, and the others are still ahead.
          have htokens := hfilled.tokens_eq rfl ((Grows.refl _).takeFlowContent _).tokens
          rw [rest_facing, hrest', map_token_locate, map_token_locate] at htokens
          refine ⟨tr, g, y :: zs, e, rfl, htr, hR, hg,
            .inr ⟨x, y, _, _, zs, ys', htokens, rfl, hys, hcontains, rfl,
            hlast ((Leads.to_end he).faultless hz), he, hfilled.slot, ?_, ?_, _, hrest'⟩⟩
          · simp [tasks, hfilled.frames, hframes, valueTask]
          · rw [hfilled.log_eq rfl, hb, ← Tree.eventsOf_tokens]
            simp [log, facing, Task.nodeKind]

end Config

end YamlPatch
