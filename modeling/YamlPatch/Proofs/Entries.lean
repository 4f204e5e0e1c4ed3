import YamlPatch.Proofs.Contents
import YamlPatch.Proofs.Lookbehind
import YamlPatch.Proofs.Openings

/-!
# The colon of an entry

Whatever stands behind the colon of an entry, the parser comes to that colon in the same way. So
the step in which it opened a value can be taken over to every text that has the same tokens up
to the colon (`exists_colon`) : there too the parser comes to the colon, with the same tasks,
and what it has built by then is the same.

The colon is where two texts that differ in a value begin to differ. Up to it the runs are
compared step by step (`Twins.start`), and a colon stops every search ahead that begins before
it, so no step sees the difference. The colon itself is found from the end : the value was
opened in some step of the whole run, and that step is looked up by the length of the log.

`ColonAt` has all that later modules use : the tokens around the colon, the configuration in
which it comes next, the depth there, and the same for every other text. There are two cases,
for the entries of block mappings and of flow mappings, told apart by the column of the mapping
(`AtColon`).
-/

namespace YamlPatch

open TokenKind Event Lexeme

/-- Lists with the same tokens up to a stop are alike. -/
theorem Alike.of_stop {aligned : Prop} {x : Token} (hx : x.kind.isStop = true) (p : Position)
    (xs ys ys' : List Token) :
    Alike aligned (locate (p.advance (Token.join xs)) (x :: ys))
      (locate (p.advance (Token.join xs)) (x :: ys'))
      (locate p (xs ++ x :: ys)) (locate p (xs ++ x :: ys')) := by
  induction xs generalizing p with
  | nil => exact .stop hx rfl rfl rfl rfl
  | cons z zs ih =>
    have h := ih (p.advance z.text)
    simp only [Token.join_cons, Position.advance_append]
    exact .cons rfl (fun _ => .inl rfl) h

namespace Config

/-- What is left of the tokens of a text stands where it stood. -/
theorem Grows.exists_locate {t : Text} {c : Config} (h : Grows (start t) c) :
    ∃ xs ys, lex t = xs ++ ys ∧ c.rest = locate (Position.advance {} (Token.join xs)) ys := by
  obtain ⟨ls, hls⟩ := h.rest
  have hr : (start t).rest = locate {} (lex t) := rfl
  rw [hr] at hls
  refine ⟨(lex t).take ls.length, (lex t).drop ls.length, (List.take_append_drop _ _).symm, ?_⟩
  rw [← drop_locate, ← hls, List.drop_left]

/-- The rest of a run of the parser leads to where the whole run ends. -/
theorem Leads.to_end {c d : Config} (h : Leads c d) : Leads d c.run := h.run_eq ▸ Leads.to_run d

/-- The configuration in which the value has been opened, from the one at the colon. -/
def opened : Option Nat → Config → Config
  | some column, k => k.valued column
  | none, k => k.flowValued

/-- The tasks at the colon. -/
def AtColon : Option Nat → List Task → Prop
  | some column, ts => ∃ us, ts = .entry :: .mapping column :: us
  | none, ts => ∃ us, ts = .flowEntry :: .flowMapping :: us

/-- What is taken between the key and the value. -/
def behindColon : Option Nat → Config → Config
  | some _, k => (k.take 1).takeSpaces
  | none, k => (k.take 1).takeTrivia

/-- The two configurations stand at a colon and have built the same, with the same tasks. -/
structure SameColon (k k' : Config) : Prop where
  tasks : k'.tasks = k.tasks
  log : k'.log = k.log
  slot : k'.slot = none
  faults : k'.faults = []

/-- Twins without tasks of their own that come to a colon have built the same. -/
theorem SameColon.of_twins {b : Base} {ts : List Task} {k k' : Config} (h : Twins b ts k k')
    (hb : b.tasks = []) (hb' : b.tasks' = []) (hl : b.log' = b.log) (hs : k.slot = none) :
    SameColon k k' where
  tasks := by rw [h.tasks, h.tasks', hb, hb']
  log := by
    obtain ⟨e, he, he'⟩ := h.log
    rw [he, he', hl]
  slot := h.slot.trans hs
  faults := h.faults'

/-- Around the key of a flow mapping. -/
theorem exists_of_nested_key {ts : List Task} (h : Task.nested (.key :: ts) = true) :
    ∃ us, ts = .flowEntry :: .flowMapping :: us := by
  match ts, h with
  | .flowEntry :: .flowMapping :: us, _ => exact ⟨us, rfl⟩

/-- The depth behind the tokens before those left is the level of the tasks. -/
theorem Leads.depth_eq {t : Text} {c : Config} (h : Leads (start t) c) (hf : c.faults = [])
    {xs ys : List Token} {p : Position} (hlex : lex t = xs ++ ys) (hr : c.rest = locate p ys) :
    depthAfterAll 0 xs = level c.tasks := by
  obtain ⟨zs, hzs, hlevel⟩ := h.level_eq (.start t) hf
  have hstart : (start t).rest.map Lexeme.token = xs ++ ys := by
    rw [← hlex, start, map_token_locate]
  rw [hstart, hr, map_token_locate] at hzs
  rw [List.append_cancel_right hzs]
  exact hlevel

/-- Tokens of kinds that open and close nothing leave the depth as it is. -/
theorem depthAfterAll_take_kindRun {q : TokenKind → Bool} (hq : ∀ k, q k = true → k.isQuiet = true)
    (n : Nat) (p : Position) (ys : List Token) :
    depthAfterAll n (ys.take (kindRun q (locate p ys))) = n := by
  refine depthAfterAll_of_isQuiet (fun y hy => ?_) n
  have hys : ys.take (kindRun q (locate p ys)) =
      ((locate p ys).take (kindRun q (locate p ys))).map Lexeme.token := by
    rw [List.map_take, map_token_locate]
  rw [hys] at hy
  obtain ⟨l, hl, rfl⟩ := List.mem_map.mp hy
  exact hq _ (mem_take_kindRun l hl)

/-- In the text `t` the parser comes to the colon of an entry, `x`, behind the tokens `xs` and
before `ys`. In every text with the same tokens up to this colon it comes there, too. -/
structure ColonAt (t : Text) (o : Option Nat) (k : Config) (xs : List Token) (x : Token)
    (ys : List Token) : Prop where
  tokens : lex t = xs ++ x :: ys
  colon : x.kind = colon
  rest : k.rest = locate (Position.advance {} (Token.join xs)) (x :: ys)
  slot : k.slot = none
  tasks : AtColon o k.tasks
  depth : depthAfterAll 0 xs = level k.tasks
  leads : Leads (start t) (opened o k)
  other : ∀ t' ys', lex t' = xs ++ x :: ys' → ∃ k', SameColon k k' ∧
    Leads (start t') (opened o k') ∧
      k'.rest = locate (Position.advance {} (Token.join xs)) (x :: ys')

/-- What is left from a colon on is the end of the tokens of the text. -/
theorem Grows.exists_colon {t : Text} {k : Config} (hg : Grows (start t) k)
    (hk : k.kind? = some colon) : ∃ xs x ys, lex t = xs ++ x :: ys ∧ x.kind = colon ∧
      k.rest = locate (Position.advance {} (Token.join xs)) (x :: ys) := by
  obtain ⟨xs, ys, hl, hr⟩ := hg.exists_locate
  cases ys with
  | nil => simp [kind?, hr, locate] at hk
  | cons x ys => exact ⟨xs, x, ys, hl, by simpa [kind?, hr, locate, Lexeme.kind] using hk, hr⟩

/-- Up to a colon that both have, two texts are read alike. -/
theorem Twins.start {t t' : Text} {xs ys ys' : List Token} {x : Token} (hx : x.kind = colon)
    (hl : lex t = xs ++ x :: ys) (hl' : lex t' = xs ++ x :: ys') :
    Twins ⟨True, locate (Position.advance {} (Token.join xs)) (x :: ys),
      locate (Position.advance {} (Token.join xs)) (x :: ys'), [], [], [], []⟩ [] (start t)
        (start t') := by
  refine ⟨rfl, rfl, rfl, ⟨[], rfl, rfl⟩, rfl, rfl, ?_⟩
  have hrest : (Config.start t).rest = locate {} (lex t) := rfl
  have hrest' : (Config.start t').rest = locate {} (lex t') := rfl
  rw [hrest, hrest', hl, hl']
  exact .of_stop (by rw [hx]; rfl) _ _ _ _

/-- Before the colon no run without faults has got lost. -/
theorem Grows.not_lost {b : Base} {c k : Config} (hg : Grows c k) (hf : c.faults = [])
    (hb : k.rest = b.tail) : ¬ Lost b c := by
  rintro (h | h)
  · exact h hf
  · have := hg.length_le
    rw [← hb] at h
    omega

/-- The parser comes to the colon of an entry in block context. -/
theorem exists_colonAt_block {t : Text} {e m : Config} {column : Nat}
    (hz : (start t).run.faults = []) (he : Leads (start t) e) (hm : Opening e m column)
    (hk : m.keyed.kind? = some colon) (hv : Leads (m.keyed.valued column) (start t).run) :
    ∃ xs x ys, ColonAt t (some column) m.keyed xs x ys := by
  -- No fault is reported before the colon, since none is at the end.
  have hgm : Grows m m.keyed := ((Grows.refl m).push .entry).takeKey.takeSpaces
  have hgk : Grows m.keyed (m.keyed.valued column) :=
    ((((Grows.refl m.keyed).take 1).takeSpaces).push .value).await _
  have hmk : m.keyed.faults = [] := (hgk.trans hv.grows).faultless hz
  have hmf : m.faults = [] := hgm.faultless hmk
  obtain ⟨xs, x, ys, hl, hx, hr⟩ := ((he.grows.trans hm.grows).trans hgm).exists_colon hk
  obtain ⟨us, hus⟩ := hm.tasks_eq
  have hlead : Leads (start t) (m.keyed.valued column) :=
    openEntry_of_colon hk column ▸ he.trans (.of_step hm.step)
  refine ⟨xs, x, ys, hl, hx, hr, ?_, ⟨us, ?_⟩, ?_, hlead, fun t' ys' hl' => ?_⟩
  · simp [keyed, hm.slot_eq]
  · simp [keyed, hus]
  · -- only the colon and spaces are taken when the value is opened
    let n := spacesLength (locate ((Position.advance {} (Token.join xs)).advance x.text) ys)
    have hlex : lex t = (xs ++ x :: ys.take n) ++ ys.drop n := by simp [hl]
    have hrest : (m.keyed.valued column).rest =
        locate (((Position.advance {} (Token.join xs)).advance x.text).advance
          (Token.join (ys.take n))) (ys.drop n) := by
      simp [valued, takeSpaces, hr, locate, drop_locate, n]
    have hdepth := hlead.depth_eq (hv.faultless hz) hlex hrest
    have hquiet :=
      depthAfterAll_take_kindRun (q := (· == space)) (fun k hk => by simp_all [TokenKind.isQuiet])
      (depthAfterAll 0 xs) ((Position.advance {} (Token.join xs)).advance x.text) ys
    rw [depthAfterAll_append, depthAfterAll_cons, hx] at hdepth
    rw [← hquiet]
    exact hdepth.trans (by simp [valued, level, Task.isBracketed])
  · -- the same steps are made in the other text
    have htwins := Twins.start hx hl hl'
    have hef : e.faults = [] := hm.grows.faultless hmf
    obtain ⟨e', us, hle', hte⟩ :=
      htwins.leads trivial rfl rfl he ((hm.grows.trans hgm).not_lost hef hr)
    obtain ⟨m', vs, hm', htm⟩ := Opening.twins trivial rfl rfl hte hm (hgm.not_lost hmf hr)
    have htk : Twins _ _ m.keyed m'.keyed :=
      ((htm.par.push .entry).takeKey.takeSpaces).resolve_left ((Grows.refl _).not_lost hmk hr)
    have hk' : m'.keyed.kind? = some colon := htk.kind?_eq.trans hk
    refine ⟨m'.keyed, .of_twins htk rfl rfl rfl (by simp [keyed, hm.slot_eq]), ?_,
      (htk.rest.eq_tail (by rw [hr])).2⟩
    have hstep := hm'.step
    rw [openEntry_of_colon hk' column] at hstep
    exact hle'.trans (.of_step hstep)

/-- So it does in flow context. -/
theorem exists_colonAt_flow {t : Text} {e : Config} (hz : (start t).run.faults = [])
    (he : Leads (start t) e) (hf : FlowOpening e)
    (hv : Leads e.close.takeTrivia.flowValued (start t).run) :
    ∃ xs x ys, ColonAt t none e.close.takeTrivia xs x ys := by
  have hgk : Grows e e.close.takeTrivia := (Grows.refl e).close.takeTrivia
  have hkf : e.close.takeTrivia.faults = [] := by
    refine Grows.faultless (d := (start t).run) ?_ hz
    exact ((((Grows.refl _).take 1).takeTrivia.push .flowValue).trans (flowValued_grows _)).trans
      hv.grows
  have hef : e.faults = [] := hgk.faultless hkf
  obtain ⟨xs, x, ys, hl, hx, hr⟩ := (he.grows.trans hgk).exists_colon hf.colon
  obtain ⟨us, hus⟩ := hf.tasks
  have hlead : Leads (start t) e.close.takeTrivia.flowValued := he.trans (.of_step hf.step)
  refine ⟨xs, x, ys, hl, hx, hr, ?_, ?_, ?_, hlead, fun t' ys' hl' => ?_⟩
  · simp [hf.slot]
  · have hn := ((Nested.start t).leads he).tasks
    rw [hus] at hn
    obtain ⟨vs, rfl⟩ := exists_of_nested_key hn
    exact ⟨vs, by simp [hus]⟩
  · -- behind the key only trivia are taken
    obtain ⟨zs, ws, hl', hr'⟩ := he.grows.exists_locate
    have hdepth := he.depth_eq hef hl' hr'
    have hrest : e.close.takeTrivia.rest.map Lexeme.token = ws.drop (triviaLength e.rest) := by
      simp [takeTrivia, hr', map_token_locate]
    rw [hr, map_token_locate] at hrest
    have hxs : xs = zs ++ ws.take (triviaLength e.rest) := by
      have : xs ++ x :: ys = zs ++ ws.take (triviaLength e.rest) ++ x :: ys := by
        rw [← hl, hl', hrest]
        simp
      exact List.append_cancel_right this
    rw [hxs, depthAfterAll_append, hr', triviaLength,
      depthAfterAll_take_kindRun isQuiet_of_isTrivia, hdepth]
    simp [hus, level, Task.isBracketed]
  · -- the same steps are made in the other text
    have htwins := Twins.start hx hl hl'
    obtain ⟨e', us, hle', hte⟩ := htwins.leads trivial rfl rfl he (hgk.not_lost hef hr)
    obtain ⟨hf', vs, htk⟩ := FlowOpening.twins rfl rfl hte hf ((Grows.refl _).not_lost hkf hr)
    exact ⟨e'.close.takeTrivia, .of_twins htk rfl rfl rfl (by simp [hf.slot]),
      hle'.trans (.of_step hf'.step), (htk.rest.eq_tail (by rw [hr])).2⟩

/-- In a text without faults the parser comes to the colon before each value, with the log as long
as what stands before the value in the tree. -/
theorem exists_colon {t : Text} {before after : List Event} (hz : (start t).run.faults = [])
    (hlog : (start t).run.log = before ++ opening .value :: after) :
    ∃ o k xs x ys, ColonAt t o k xs x ys ∧ (behindColon o k).log = before := by
  rcases exists_opening (.to_run _) rfl hz hlog with
    ⟨e, m, column, he, hm, hk, hv, hbefore⟩ | ⟨e, he, hf, hv, hbefore⟩
  · obtain ⟨xs, x, ys, h⟩ := exists_colonAt_block hz he hm hk hv
    exact ⟨some column, m.keyed, xs, x, ys, h, hbefore⟩
  · obtain ⟨xs, x, ys, h⟩ := exists_colonAt_flow hz he hf hv
    exact ⟨none, e.close.takeTrivia, xs, x, ys, h, hbefore⟩

end Config

end YamlPatch
