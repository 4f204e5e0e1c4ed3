import YamlPatch.Proofs.Indentation
import YamlPatch.Proofs.Reparsing

/-!
# Scalars in block mappings

A scalar that ends its line may be replaced by other tokens, as far as the parser is concerned :
if it fills the place with them, up to the line break, then it goes on as before
(`ScalarAt.replaced`). For the lexer they have to begin like a scalar and to be cut on their own
(`ScalarAt.lex_eq`). Where such a scalar stands in a tree without faults,
`Config.ColonAt.exists_scalarAt` finds it in the run of the parser.

Which column the parser compares with is read off the log : the nodes under construction are
those that are open there (`Config.log_eq_append`), and the mapping stands where its first entry
does (`Config.Laid.column_mapping`).

To find the open nodes in a log, events are counted as brackets are : one up where a node is
opened, one down where it is closed (`Event.height`). The events of a tree are balanced, so two
ways to write a log as an opening and balanced events behind it are the same
(`Event.opening_inj`).
-/

namespace YamlPatch

open TokenKind Lexeme YamlPatch.Tree LexState

/-! ## Line breaks

A scalar that ends its line has a line break behind it, or white space or a comment and then the
break. So nothing that follows depends on where the scalar ends. -/

/-- A line break comes next, if anything does. -/
def BreaksLine (ys : List Token) : Prop := ∀ y zs, ys = y :: zs → y.kind = lineBreak ∧ '\n' ∈ y.text

namespace BreaksLine

variable {ys : List Token}

/-- A line break ends the line. -/
theorem endsLine (h : BreaksLine ys) : EndsLine ys := by
  cases ys with
  | nil => trivial
  | cons y zs => exact .inl (h y zs rfl).1

/-- What follows is the same wherever it stands. -/
theorem alike (h : BreaksLine ys) (p p' : Position) :
    Alike True [] [] (locate p ys) (locate p' ys) := by
  cases ys with
  | nil => exact .nil rfl rfl
  | cons y zs =>
    obtain ⟨hk, hn⟩ := h y zs rfl
    exact .of_lineBreak hk hn zs p p'

/-- Outside of flow collections it is read in the same way, too. -/
theorem cuts (h : BreaksLine ys) {s s' : LexState} (hs : s.depth = 0) (hs' : s'.depth = 0)
    (hys : Cuts s ys []) : Cuts s' ys [] := by
  cases ys with
  | nil => exact .nil s' []
  | cons y zs =>
    obtain ⟨hk, hn⟩ := h y zs rfl
    obtain ⟨hread, hzs⟩ := Cuts.cases_cons hys
    obtain ⟨k, nl⟩ := y
    obtain rfl : k = lineBreak := hk
    refine .cons ((hread.isNewline rfl hn).reads s' _) ?_
    rw [LexState.after_lineBreak hs hs' rfl hn]
    exact hzs

/-- Tokens that are read from a text at the end of a line begin with its line break. -/
theorem of_atLineEnd {s : LexState} (hys : Cuts s ys []) (h : Value.AtLineEnd (Token.join ys)) :
    BreaksLine ys := by
  have hlex := hys.lexFrom_eq
  rcases h with h | ⟨nl, u, hl, h⟩
  · rw [h, lexFrom] at hlex
    rintro y zs rfl
    cases hlex
  · rw [h, (hl.reads s u).lexFrom_eq] at hlex
    rintro y zs rfl
    obtain ⟨rfl, -⟩ := List.cons.inj hlex
    exact ⟨rfl, hl.newline_mem⟩

end BreaksLine

/-! ## Columns

No scalar that is a value begins its line in column 0, as the key or the margin stands before
it. -/

/-- Tokens that lead to the right. -/
theorem column_pos_of_straight {p : Position} {xs : List Token} (hp : 0 < p.column)
    (hk : ∀ x ∈ xs, x.kind.isStraight = true) (hx : ∀ x ∈ xs, Straight x) :
    0 < (p.advance (Token.join xs)).column := by
  have hle := le_textColumn_join (n := p.column) hx hk
  rw [Position.column_advance]
  omega

/-- Anchors and tags lead to the right. -/
theorem isStraight_of_isProperty {k : TokenKind} (h : k.isProperty = true) :
    k.isStraight = true := by
  cases k <;> first | rfl | cases h

/-- So do several of them and the spaces between. -/
theorem Properties.isStraight {ps : List Token} (h : Properties ps) :
    ∀ x ∈ ps, x.kind.isStraight = true := by
  rcases h with rfl | ⟨w, ws, rfl, hw, hws⟩
  · simp
  · intro x hx
    rcases List.mem_cons.mp hx with rfl | hx
    · exact isStraight_of_isProperty hw
    · rcases hws x hx with hx | hx
      · exact isStraight_of_isProperty hx
      · rw [hx]
        rfl

/-- A node that is none of a block sequence does not stand at the start of a line. -/
theorem Approach.column_pos {k : TokenKind} {s s' : Slot} {p : Position} {g : List Token}
    (h : Approach k s p g s') (hk : k ≠ dash) (hs : 0 < s.minColumn) (hp : 0 < p.column)
    (hg : ∀ x ∈ g, Straight x) : 0 < (p.advance (Token.join g)).column := by
  induction h with
  | here hps => exact column_pos_of_straight hp hps.isStraight hg
  | @later s s' p ps ts gs t hps ht hts hgs hcolumn _ ih =>
    have hbelow := Nat.lt_of_lt_of_le hs (hcolumn.resolve_right fun h => hk h.2.1)
    have hpos := ih hs hbelow fun x hx => hg x (by simp [hx])
    simpa [Position.advance_append] using hpos

/-! ## Nodes that are open

The log of a configuration has open nodes and the tree at the end has none, so the place of a
value in one is found again in the other by counting nodes that are opened and closed. -/

namespace Event

/-- What an event adds to the number of open nodes. -/
def change : Event → Int
  | opening _ => 1
  | leaf _ => 0
  | closing => -1

/-- What events add to it. -/
def height : List Event → Int
  | [] => 0
  | e :: es => change e + height es

/-- No events leave the number as it is. -/
@[simp] theorem height_nil : height [] = 0 := rfl

/-- The first event counts with the others. -/
@[simp] theorem height_cons (e : Event) (es : List Event) :
    height (e :: es) = change e + height es := rfl

/-- Events in a row are counted together. -/
@[simp] theorem height_append (as bs : List Event) : height (as ++ bs) = height as + height bs := by
  induction as with
  | nil => simp
  | cons e as ih => rw [List.cons_append, height_cons, ih, height_cons, Int.add_assoc]

/-- No more nodes are closed than have been opened, and in the end all are closed. -/
structure Balanced (es : List Event) : Prop where
  sane : ∀ as, as <+: es → 0 ≤ height as
  settled : height es = 0

/-- No events are balanced. -/
theorem balanced_nil : Balanced [] := ⟨fun as h => by simp [List.prefix_nil.mp h], rfl⟩

/-- Balanced events may follow one another. -/
theorem Balanced.append {as bs : List Event} (ha : Balanced as) (hb : Balanced bs) :
    Balanced (as ++ bs) where
  sane := by
    intro cs hcs
    rcases List.prefix_or_prefix_of_prefix hcs (List.prefix_append as bs) with h | ⟨ds, rfl⟩
    · exact ha.sane cs h
    · rw [height_append, ha.settled, Int.zero_add]
      exact hb.sane ds ((List.prefix_append_right_inj as).mp hcs)
  settled := by rw [height_append, ha.settled, hb.settled, Int.add_zero]

/-- A leaf opens nothing. -/
theorem balanced_leaf (x : Token) : Balanced [leaf x] where
  sane := by
    intro as h
    rcases List.prefix_cons_iff.mp h with rfl | ⟨bs, rfl, hbs⟩
    · simp
    · simp [List.prefix_nil.mp hbs, change]
  settled := rfl

/-- A node around balanced events is balanced. -/
theorem Balanced.node {es : List Event} (h : Balanced es) (k : NodeKind) :
    Balanced (opening k :: (es ++ [closing])) where
  sane := by
    intro as has
    rcases List.prefix_cons_iff.mp has with rfl | ⟨bs, rfl, hbs⟩
    · simp
    · rcases List.prefix_concat_iff.mp hbs with rfl | hbs
      · simp [h.settled, change]
      · have := h.sane bs hbs
        simp only [height_cons, change]
        omega
  settled := by simp [h.settled, change]

mutual

/-- The events of a tree are balanced. -/
theorem balanced_events : ∀ t : Tree, Balanced t.events
  | .token x => balanced_leaf x
  | .node k ts => by
    rw [events_node]
    exact (balanced_eventsOf ts).node k

/-- So are those of several trees. -/
theorem balanced_eventsOf : ∀ ts : List Tree, Balanced (eventsOf ts)
  | [] => balanced_nil
  | t :: ts => (balanced_events t).append (balanced_eventsOf ts)

end

/-- All nodes that are opened in the events of trees are closed there. -/
theorem eventsOf_ne_opening {ts us : List Tree} {as : List Event} {k : NodeKind} :
    eventsOf ts ≠ as ++ opening k :: eventsOf us := by
  intro h
  have hts := balanced_eventsOf ts
  have hsane := hts.sane as ⟨_, h.symm⟩
  have hsettled := hts.settled
  rw [h, height_append, height_cons, (balanced_eventsOf us).settled] at hsettled
  simp only [change] at hsettled
  omega

/-- The node that is open is the last one that is opened and not closed. -/
theorem opening_inj {as bs : List Event} {k l : NodeKind} {ts us : List Tree}
    (h : as ++ opening k :: eventsOf ts = bs ++ opening l :: eventsOf us) :
    as = bs ∧ k = l ∧ ts = us := by
  have hcons {cs : List Event} {i j : NodeKind} {vs ws : List Tree}
      (h : opening i :: eventsOf vs = cs ++ opening j :: eventsOf ws) : cs = [] := by
    cases cs with
    | nil => rfl
    | cons c cs => exact absurd (List.cons.inj h).2 eventsOf_ne_opening
  rcases List.append_eq_append_iff.mp h with ⟨cs, rfl, hcs⟩ | ⟨cs, rfl, hcs⟩
  · obtain rfl := hcons hcs
    obtain ⟨hk, hts⟩ := List.cons.inj hcs
    exact ⟨by simp, opening.inj hk, eq_of_eventsOf_eq hts⟩
  · obtain rfl := hcons hcs
    obtain ⟨hk, hts⟩ := List.cons.inj hcs
    exact ⟨by simp, (opening.inj hk).symm, (eq_of_eventsOf_eq hts).symm⟩

end Event

/-- A flow mapping that awaits an entry begins with its bracket. -/
theorem Task.Awaits.beginsWith {ts : List Tree} (h : Task.flowMapping.Awaits .flowEntry ts) :
    BeginsWith leftBrace ts := by
  have hentry : Task.flowEntry.Complete [.node .key []] := ⟨⟨0, Nat.zero_le 1, .of_key []⟩, trivial⟩
  obtain ⟨x, us, hx, hk⟩ := (h.settles _ hentry).complete.2
  cases ts with
  | nil => cases hx
  | cons t ts =>
    obtain ⟨rfl, -⟩ := List.cons.inj hx
    exact ⟨x, ts, rfl, hk⟩

namespace Config

/-- The innermost node is the one that is open at the end of the log. -/
theorem log_eq_append {c : Config} {f : Frame} {fs : List Frame} (hf : c.frames = f :: fs)
    {es : List Event} {k : NodeKind} {ts : List Tree}
    (h : c.log = es ++ .opening k :: eventsOf ts) :
    ({ c with frames := fs } : Config).log = es ∧ f.task.nodeKind = k ∧ f.done = ts :=
  Event.opening_inj (by rw [← h]; simp [log, hf])

/-- The text built so far is that of what is finished and of what the open nodes hold. -/
theorem built_eq (c : Config) :
    textOf c.finished ++ c.frames.reverse.flatMap (fun f => textOf f.done) =
    Token.join c.built := by
  simp [built, textOf, Token.join, List.flatMap_append, List.flatMap_assoc]

/-- The column of what is built next is that of the text built so far. -/
theorem standing_eq (finished : List Tree) (fs : List Frame) : (standing finished fs).2 =
    textColumn 0 (textOf finished ++ fs.reverse.flatMap fun f => textOf f.done) := by
  induction fs with
  | nil => simp [standing]
  | cons f fs ih => simp [standing, ih, textColumn_append, List.flatMap_append]

/-- So the column of a configuration is known from its log. -/
theorem column_eq_textColumn (c : Config) :
    c.column = textColumn 0 (Token.join (Event.tokens c.log)) := by
  rw [tokens_log, ← built_eq, column, standing_eq]

/-- An entry stands in the column of its mapping. -/
theorem Laid.column_mapping {c : Config} (h : c.Laid) {n : Nat} {f : Frame} {d e : List Tree}
    {fs : List Frame} (hf : c.frames = f :: ⟨.entry, e⟩ :: ⟨.mapping n, d⟩ :: fs) :
    ({ c with frames := ⟨.mapping n, d⟩ :: fs } : Config).column = n := by
  have hframes := h.frames
  rw [hf] at hframes
  obtain ⟨⟨⟨-, hmapping⟩, hentry⟩, -⟩ := hframes
  obtain rfl : n = (standing c.finished fs).2 := hmapping.starts
  exact hentry.admits _ rfl

/-- So the column that the parser compares with is where the key stands. -/
theorem ColonAt.column_eq {t : Text} {column : Nat} {k : Config} {xs ys : List Token} {x₀ : Token}
    (h : ColonAt t (some column) k xs x₀ ys) {key before after : List Tree} {outer : List Crumb}
    (hlog : (behindColon (some column) k).log =
      Crumb.eventsBefore (⟨.entry, key, []⟩ :: ⟨.mapping, before, after⟩ :: outer)) :
    column = textColumn 0 (Crumb.textBefore (⟨.mapping, before, after⟩ :: outer)) := by
  obtain ⟨us, hus⟩ := h.tasks
  obtain ⟨b, hb⟩ : ∃ b, b = behindColon (some column) k := ⟨_, rfl⟩
  have htasks : b.tasks = .entry :: .mapping column :: us := by simp [hb, behindColon, hus]
  obtain ⟨d, gs, hgs, hmap⟩ := frames_eq_cons htasks
  obtain ⟨⟨u, e⟩, fs, rfl, rfl, -⟩ := List.map_eq_cons_iff.mp hmap
  have hlaid := ((Placed.start t).leads (.start t) h.leads).laid
  have hframes : (opened (some column) k).frames = ⟨.value, []⟩ :: ⟨.entry, d⟩ ::
      ⟨.mapping column, e⟩ :: fs := by
    rw [← hgs, hb]
    rfl
  rw [← hb, Crumb.eventsBefore_cons _ (List.cons_ne_nil _ _)] at hlog
  obtain ⟨hlog, -, -⟩ := log_eq_append hgs hlog
  have hcolumn := hlaid.column_mapping hframes
  subst hb
  rw [← Crumb.join_tokens_eventsBefore, ← hlog, ← column_eq_textColumn, ← hcolumn]
  rfl

/-- A mapping in whose style an entry is read in flow context begins with a brace. -/
theorem Completed.isFlow_eq {t : Text} {k c : Config} {g ys : List Token} {Xs : List Tree}
    (h : Completed t none k g Xs ys c) {us : List Task}
    (hus : k.tasks = .flowEntry :: .flowMapping :: us) {key before after : List Tree}
    {outer : List Crumb} (hne : outer ≠ [])
    (hlog : (behindColon none k).log =
      Crumb.eventsBefore (⟨.entry, key, []⟩ :: ⟨.mapping, before, after⟩ :: outer)) (rest :
      List Tree) : (node .mapping (before ++ rest)).isFlow = true := by
  have htasks : c.tasks = .flowValue :: .flowEntry :: .flowMapping :: us := by
    rw [h.tasks, hus]; rfl
  obtain ⟨d, gs, hgs, hmap⟩ := frames_eq_cons htasks
  obtain ⟨⟨u, e⟩, hs, rfl, rfl, hmap'⟩ := List.map_eq_cons_iff.mp hmap
  obtain ⟨⟨u, m⟩, fs, rfl, rfl, -⟩ := List.map_eq_cons_iff.mp hmap'
  have hopen : c.log = (behindColon none k).log ++ .opening .value ::
      eventsOf (g.map .token ++ Xs) := by
    rw [h.log, eventsOf_append, eventsOf_tokens]
  obtain ⟨hvalue, -, -⟩ := log_eq_append hgs hopen
  rw [hlog, Crumb.eventsBefore_cons _ (List.cons_ne_nil _ _)] at hvalue
  obtain ⟨hentry, -, -⟩ := log_eq_append (c := { c with frames := _ }) rfl hvalue
  rw [Crumb.eventsBefore_cons _ hne] at hentry
  obtain ⟨-, -, rfl⟩ := log_eq_append (c := { c with frames := _ }) rfl hentry
  -- the mapping awaits an entry, and with one it is in the style of its task
  have hbegins : BeginsWith leftBrace m := by
    cases (Formed.start t).leads h.leads with
    | stream _ hc => simp [hc.frames] at hgs
    | place hs => simp [h.slot] at hs
    | node _ hc =>
      obtain ⟨u, hc⟩ := hc
      obtain ⟨vs, hs, hframes, -, -, hawaiting⟩ := hc.frames
      obtain ⟨hvalue, rfl⟩ := List.cons.inj (hgs.symm.trans hframes)
      obtain ⟨rfl, -⟩ := Frame.mk.inj hvalue
      obtain ⟨-, -, hmapping, -⟩ := hawaiting
      exact hmapping.beginsWith
  exact hbegins.append.isFlow_eq (.inr rfl)

/-- The tokens behind a value are those that are built behind it and those that are left at the
end. -/
theorem Completed.tokens_after {t : Text} {o : Option Nat} {k c : Config} {g ys : List Token}
    {x : Tree} (h : Completed t o k g [x] ys c) {e : List Event}
    (he : (start t).run.log =
      (behindColon o k).log ++ .opening .value :: (g.map .leaf ++ (x.events ++ .closing :: e))) :
    Event.tokens e ++ (start t).run.rest.map Lexeme.token = ys := by
  have hrun := (Leads.to_run (start t)).tokens_eq
  rw [Config.tokens, ← tokens_log, he, h.tokens_eq] at hrun
  simpa [leavesOf] using hrun

end Config

/-! ## Scalars as values

The run comes to the scalar and completes the value behind it. What is asked of another node is
that it does so, too. -/

/-- The parser fills the place of a value with the node `N` if `ys` follow. -/
def Fills (column : Nat) (N : Tree) (ys : List Token) : Prop :=
  ∀ s : Slot, s.minColumn = column + 1 →
    ∀ (c : Config) (d : List Tree) (fs : List Frame) (p : Position),
    Config.Reaches ((c.facing (⟨.value, d⟩ :: fs) p (N.leaves ++ ys)).fillContent s) c
      (⟨.value, d ++ [N]⟩ :: fs) ys

/-- In the text `t` a scalar `x` is the value of an entry in a block mapping at `column`, behind
the tokens `xs`, a colon and the tokens `heads`. Its line ends before `ys`. -/
structure ScalarAt (t : Text) (x : Tree) (bs : List Crumb) (column : Nat) (xs : List Token)
    (x₀ : Token) (heads ys : List Token) : Prop where
  tokens : lex t = xs ++ x₀ :: (heads ++ (x.leaves ++ ys))
  colon : x₀.kind = colon
  isHead : ∀ z ∈ heads, z.kind.isHead = true
  first : ∃ y zs, x.leaves = y :: zs ∧ y.kind.startsScalar = true
  depth : depthAfterAll 0 xs = 0
  depthAfter : depthAfterAll 0 (xs ++ x₀ :: (heads ++ x.leaves)) = 0
  before : Token.join (xs ++ x₀ :: heads) = Crumb.textBefore bs
  after : Token.join ys = Crumb.textAfter bs
  breaks : BreaksLine ys
  outside : ∀ q, Outside (column + 1) (locate q ys)
  /-- The scalar does not begin its line. -/
  line : 0 < (Position.advance {} (Token.join (xs ++ x₀ :: heads))).column
  /-- With another node in its place the tree is parsed, if the parser fills the place with it. -/
  replaced : ∀ (N : Tree) (y : Token) (zs : List Token), N.leaves = y :: zs →
    y.kind.isTrivia = false ∧ y.kind.isProperty = false ∧ y.kind.isMarker = false →
    Fills column N ys →
      ∀ t', lex t' = xs ++ x₀ :: (heads ++ (N.leaves ++ ys)) →
        parseStrict t' = .ok (Cursor.rebuild ⟨N, bs⟩)

namespace Config.ColonAt

variable {t : Text} {column : Nat} {o : Option Nat} {k : Config} {xs sp g ys zs : List Token}
    {x₀ : Token}

/-- The tokens behind the colon stay in their lines, save those that are to end one. -/
theorem straight (h : ColonAt t o k xs x₀ ys) : ∀ z ∈ ys, Straight z :=
  fun z hz => straight_of_mem_lexFrom (s := {}) (t := t) (by
    have := h.tokens
    rw [lex] at this
    simp [this, hz])

/-- Behind the colon and spaces the line has begun. -/
theorem column_pos (h : ColonAt t o k xs x₀ (sp ++ ys)) (hsp : ∀ z ∈ sp, z.kind = space) :
    0 < ((Position.advance {} (Token.join xs)).advance (Token.join (x₀ :: sp))).column := by
  have hcuts : Cuts {} (xs ++ x₀ :: (sp ++ ys)) [] :=
    .of_lexFrom (t := t) (by simpa [lex] using h.tokens)
  have hline :=
    (Cuts.cases_cons hcuts.right).1.atLineStart_after (by simp [h.colon]) (by simp [h.colon])
  have hlength := length_line_afterAll (s := {}) (p := {}) rfl (xs ++ [x₀])
  have hcolon : 0 < (Position.advance {} (Token.join (xs ++ [x₀]))).column := by
    rw [← hlength, List.length_pos_iff]
    simpa [atLineStart] using hline
  have hpos := column_pos_of_straight hcolon (fun z hz => by rw [hsp z hz]; rfl)
    fun z hz => h.straight z (by simp [hz])
  simpa [Position.advance_append] using hpos

end Config.ColonAt

namespace Config

/-- The parser comes to a scalar `x` as the value behind a colon : it takes the spaces `sp` and
the tokens `g`, and then the scalar, which begins with `y`. The value is complete in `c`, and
`e` is built behind it. -/
structure ScalarRun (t : Text) (column : Nat) (k : Config) (xs : List Token) (x₀ : Token) (x : Tree)
    (sp g : List Token) (y : Token) (zs ys : List Token) (s : Slot) (c : Config) (e : List Event) :
    Prop where
  colon : ColonAt t (some column) k xs x₀ (sp ++ (g ++ (x.leaves ++ ys)))
  faultless : (start t).run.faults = []
  leaves : x.leaves = y :: zs
  first : y.kind.startsScalar = true
  spaces : ∀ z ∈ sp, z.kind = space
  behindSpaces : ∀ z us, g ++ (x.leaves ++ ys) = z :: us → z.kind ≠ space
  approach : Approach y.kind ⟨column + 1, some column, false⟩
    ((Position.advance {} (Token.join xs)).advance (Token.join (x₀ :: sp))) g s
  completed : Completed t (some column) k g [x] ys c
  log : (start t).run.log =
    (behindColon (some column) k).log ++ .opening .value ::
      (g.map .leaf ++ (x.events ++ .closing :: e))

/-- The scalar of a parsed tree is one that the parser comes to. -/
theorem ColonAt.exists_scalarRun {t : Text} {column : Nat} {k : Config} {xs ys₀ : List Token}
    {x₀ : Token} (h : ColonAt t (some column) k xs x₀ ys₀) {x : Tree} {heads : List Tree}
    {slots : List Crumb} (hne : slots ≠ [])
    (hx : parseStrict t = .ok (Cursor.rebuild ⟨x, ⟨.value, heads, []⟩ :: slots⟩))
    (hlog : (behindColon (some column) k).log = Crumb.eventsBefore slots)
    (hs : x.isNode .scalar = true) :
    ∃ sp g y zs ys s c e, ScalarRun t column k xs x₀ x sp g y zs ys s c e ∧ heads = g.map .token ∧
      Crumb.eventsAfter slots = e ++ ((start t).run.rest.map Lexeme.token).map .leaf := by
  have hz := (parseStrict_eq_ok.mp hx).1
  obtain ⟨after, hopen, hafter⟩ :=
    @Cursor.exists_log t ⟨.node .value (heads ++ [x]), slots⟩ hx rfl hne
  rw [← hlog] at hopen
  obtain ⟨us, hus⟩ := h.tasks
  obtain ⟨sp, g, ys, s, c, rfl, hsp, hstart, hcase⟩ :=
    exists_blockPlace hz h.leads hus h.slot h.rest
  rcases hcase with ⟨-, hc⟩ | ⟨X, y, b, zs, ys, rfl, hy, -, ha, hX, -, -, hc⟩
  · -- the value would hold nothing
    obtain ⟨e, rfl⟩ := hc.exists_after hopen
    rw [children] at hafter
    have hkids : eventsOf (heads ++ [x]) ++ .closing :: Crumb.eventsAfter slots =
        eventsOf (g.map .token) ++ .closing ::
          (e ++ ((start t).run.rest.map Lexeme.token).map .leaf) := by
      simpa [eventsOf_tokens] using hafter
    have hmem : x ∈ g.map Tree.token := by rw [← (eventsOf_inj _ _ hkids).1]; simp
    obtain ⟨z, -, rfl⟩ := List.mem_map.mp hmem
    cases hs
  · obtain ⟨e, rfl⟩ := hc.exists_after hopen
    rw [children] at hafter
    have hkids : eventsOf (heads ++ [x]) ++ .closing :: Crumb.eventsAfter slots =
        eventsOf (g.map .token ++ [X]) ++ .closing ::
          (e ++ ((start t).run.rest.map Lexeme.token).map .leaf) := by
      simpa [eventsOf_tokens] using hafter
    -- What the run has built in the value is what the tree holds there, so its only node is the
    -- scalar.
    obtain ⟨hkids, hlast⟩ := eventsOf_inj _ _ hkids
    obtain ⟨rfl, hxX⟩ := List.append_inj' hkids rfl
    obtain rfl : x = X := by simpa using hxX
    obtain ⟨y', zs', hy', hstarts, -⟩ := hX.exists_first (isNode_eq_false hs (by decide))
    obtain rfl : y' = y := by
      rw [hy', List.cons_append] at hy
      exact (List.cons.inj hy).1
    exact ⟨sp, g, y', zs', ys, s, c, e,
      ⟨h, hz, hy', hstarts hs, hsp, hstart, ha, hc, by simpa using hopen⟩, rfl, hlast⟩

namespace ScalarRun

variable {t : Text} {column : Nat} {k c : Config} {xs sp g zs ys : List Token} {x₀ y : Token}
    {x : Tree} {s : Slot}
  {e : List Event}

/-- The first token of a scalar is no dash. -/
theorem ne_dash (h : ScalarRun t column k xs x₀ x sp g y zs ys s c e) : y.kind ≠ dash := by
  intro hy
  have hfirst := h.first
  rw [hy] at hfirst
  cases hfirst

/-- Before the scalar there are spaces, anchors, tags and trivia. -/
theorem isHead (h : ScalarRun t column k xs x₀ x sp g y zs ys s c e) :
    ∀ z ∈ sp ++ g, z.kind.isHead = true := by
  intro z hz
  rcases List.mem_append.mp hz with hz | hz
  · simp [TokenKind.isHead, h.spaces z hz, isTrivia]
  · simpa [TokenKind.isHead] using h.approach.isHead z hz

/-- The scalar does not begin its line. -/
theorem column_pos (h : ScalarRun t column k xs x₀ x sp g y zs ys s c e) :
    0 < (Position.advance {} (Token.join (xs ++ x₀ :: (sp ++ g)))).column := by
  have hpos :=
      h.approach.column_pos h.ne_dash (Nat.succ_pos column)
        (h.colon.column_pos h.spaces) fun z hz =>
    h.colon.straight z (by simp [hz])
  simpa [Position.advance_append] using hpos

/-- Before a line break, a node that fills the place of the scalar is parsed there, and all else
as before. -/
theorem run_filled (h : ScalarRun t column k xs x₀ x sp g y zs ys s c e) (hys : BreaksLine ys)
    {N : Tree} {y' : Token} {zs' : List Token} (hN : N.leaves = y' :: zs')
    (hy' : y'.kind.isTrivia = false ∧ y'.kind.isProperty = false ∧ y'.kind.isMarker = false)
    (hfills : Fills column N ys) {t' : Text}
    (hlex : lex t' = xs ++ x₀ :: (sp ++ (g ++ (N.leaves ++ ys)))) :
    (start t').run.faults = [] ∧
    (start t').run.rest.map Lexeme.token = (start t).run.rest.map Lexeme.token ∧
      (start t').run.log =
        (behindColon (some column) k).log ++ .opening .value ::
          (g.map .leaf ++ (N.events ++ .closing :: e)) := by
  have hc := h.completed
  have hcolon := h.colon
  have hbehind := h.behindSpaces
  rw [h.leaves] at hcolon hbehind
  obtain ⟨k', c', hk', hc', hf', hlogs⟩ :=
    hcolon.completed_filled h.spaces hbehind h.approach hN hy'
    (fun hd => absurd hd h.ne_dash) (fun c d fs => hfills s h.approach.minColumn_eq c d fs _) hlex
  obtain ⟨q, hr⟩ := hc.rest
  obtain ⟨q', hr'⟩ := hc'.rest
  obtain ⟨hstep, -, htasks⟩ := hc.exists_log
  obtain ⟨-, -, htasks'⟩ := hc'.exists_log
  have hrun : c.close.run.faults = [] := (hc.leads.trans (.of_step hstep)).run_eq ▸ h.faultless
  -- Behind the value a line break comes, or nothing, and the rest is the same wherever it stands.
  have hend : EndAlike c.close c'.close := by
    refine .of_alike (by rw [htasks, htasks', hk'.tasks]) (by simp [hc.slot, hc'.slot])
      (by simpa using hf') ?_ hrun
    rw [rest_close, rest_close, hr, hr']
    exact hys.alike q q'
  exact hc.run_eq hc' hend hlogs h.log

/-- What ends the line of the scalar stands outside of its mapping, wherever it stands. -/
theorem outside (h : ScalarRun t column k xs x₀ x sp g y zs ys s c e) (hys : BreaksLine ys)
    (q : Position) : Outside (column + 1) (locate q ys) := by
  obtain ⟨us, hus⟩ := h.colon.tasks
  have hc := h.completed
  obtain ⟨p, hr⟩ := hc.rest
  have hout := (endsLine_of_value (hus ▸ hc.tasks) hc.slot hr (hc.leads.run_eq ▸ h.faultless)).2
  exact hout.of_alike (hys.alike q p)

end ScalarRun

/-- A scalar that ends its line may be replaced. -/
theorem ColonAt.exists_scalarAt {t : Text} {column : Nat} {k : Config} {xs ys₀ : List Token}
    {x₀ : Token} (h : ColonAt t (some column) k xs x₀ ys₀) {x : Tree} {heads : List Tree}
    {slots : List Crumb} (hne : slots ≠ [])
    (hx : parseStrict t = .ok (Cursor.rebuild ⟨x, ⟨.value, heads, []⟩ :: slots⟩))
    (hlog : (behindColon (some column) k).log = Crumb.eventsBefore slots)
    (hs : x.isNode .scalar = true)
    (hend : Value.AtLineEnd (Crumb.textAfter (⟨.value, heads, []⟩ :: slots))) :
    ∃ hs ys, ScalarAt t x (⟨.value, heads, []⟩ :: slots) column xs x₀ hs ys := by
  obtain ⟨sp, g, y, zs, ys, s, c, e, hrun, rfl, hlast⟩ := h.exists_scalarRun hne hx hlog hs
  have hc := hrun.completed
  -- the tokens around the value are those of the tree
  have hys : ys = Event.tokens (Crumb.eventsAfter slots) := by
    rw [hlast, Event.tokens_append, Event.tokens_map_leaf]
    exact (hc.tokens_after hrun.log).symm
  have hbuilt : xs ++ x₀ :: (sp ++ g) = Event.tokens (Crumb.eventsBefore slots) ++ g := by
    have htokens := hrun.colon.tokens.symm.trans hc.tokens_eq
    rw [hlog] at htokens
    exact (List.append_left_inj (x.leaves ++ ys)).mp (by simpa [leavesOf] using htokens)
  have hjoin : Token.join ys = Crumb.textAfter (⟨.value, g.map .token, []⟩ :: slots) := by
    rw [hys, Crumb.join_tokens_eventsAfter, Crumb.textAfter]
    simp [textOf, leavesOf]
  have hbreaks : BreaksLine ys := by
    have hcuts : Cuts {} ((xs ++ x₀ :: (sp ++ (g ++ x.leaves))) ++ ys) [] :=
      .of_lexFrom (t := t) (by simpa [lex] using hrun.colon.tokens)
    exact .of_atLineEnd hcuts.right (hjoin ▸ hend)
  refine ⟨sp ++ g, ys,
    by simp [hrun.colon.tokens], h.colon, hrun.isHead, ⟨y, zs, hrun.leaves, hrun.first⟩,
    h.depth.trans h.level_block,
    (hc.depth_eq hrun.faultless (by simp [hrun.colon.tokens])).trans h.level_block, ?_,
    hjoin, hbreaks, hrun.outside hbreaks, hrun.column_pos, ?_⟩
  · rw [hbuilt, Token.join_append, Crumb.join_tokens_eventsBefore, Crumb.textBefore, textOf,
      leavesOf_map_token]
  · intro N y' zs' hN hy' hfills t' hlex
    obtain ⟨hf, hrest, hlog'⟩ :=
      hrun.run_filled hbreaks hN hy' hfills (by rw [hlex, List.append_assoc])
    refine Cursor.parseStrict_rebuild (by simp) hx hf ?_
    rw [hlog', hrest, Crumb.eventsBefore_cons _ hne, Crumb.eventsAfter_cons _ hne, hlog, hlast]
    simp [eventsOf_tokens]

end Config

namespace ScalarAt

variable {t : Text} {x : Tree} {bs : List Crumb} {column : Nat} {xs heads ys : List Token}
    {x₀ : Token}

/-- The scalar is read outside of flow collections, where a node may start and the line has
begun. -/
theorem lexState (h : ScalarAt t x bs column xs x₀ heads ys) {s : LexState}
    (hs : s = ({} : LexState).afterAll (xs ++ x₀ :: heads)) :
    s.atNodeStart = true ∧ s.depth = 0 ∧ s.atLineStart = false ∧ Cuts s (x.leaves ++ ys) [] := by
  have hcuts : Cuts {} ((xs ++ x₀ :: heads) ++ (x.leaves ++ ys)) [] :=
    .of_lexFrom (t := t) (by simpa [lex] using h.tokens)
  obtain ⟨hnode, hdepth⟩ := LexState.behind_heads xs h.colon h.isHead
  have hlength := length_line_afterAll (s := {}) (p := {}) rfl (xs ++ x₀ :: heads)
  subst hs
  refine ⟨hnode, hdepth.trans h.depth, ?_, hcuts.right⟩
  have hpos := hlength ▸ h.line
  simpa [atLineStart] using List.length_pos_iff.mp hpos

/-- With other tokens in its place that begin like a scalar, the text is cut into them and the
tokens around. -/
theorem lex_eq (h : ScalarAt t x bs column xs x₀ heads ys) (hold : StopsAt isBlank x.text)
    {ns : List Token} (hbegin : BeginsPlain (Token.join ns)) (hdepth : depthAfterAll 0 ns = 0)
    (hns : Cuts (({} : LexState).afterAll (xs ++ x₀ :: heads)) ns (Token.join ys)) :
    lex (Crumb.textBefore bs ++ Token.join ns ++ Crumb.textAfter bs) =
      xs ++ x₀ :: (heads ++ (ns ++ ys)) := by
  obtain ⟨s, hs⟩ : ∃ s, s = ({} : LexState).afterAll (xs ++ x₀ :: heads) := ⟨_, rfl⟩
  obtain ⟨hnode, hflow, -, hX⟩ := h.lexState hs
  have hcuts : Cuts {} (xs ++ x₀ :: (heads ++ (x.leaves ++ ys))) [] :=
    .of_lexFrom (t := t) (by simpa [lex] using h.tokens)
  -- the old scalar begins like the new tokens
  obtain ⟨y, zs, hy, hstarts⟩ := h.first
  have hread := hX
  rw [hy] at hread
  obtain ⟨c, u, hc, hm⟩ := (Cuts.cases_cons hread).1.not_isFlowMark hnode hstarts
  have htext : x.text = c :: (u ++ Token.join zs) := by
    rw [text, hy, Token.join_cons, hc, List.cons_append]
  have hbegins : BeginsPlain x.text := ⟨c, _, htext, hold _ _ htext, hm⟩
  have hstart : BeginAlike (Token.join (x.leaves ++ ys)) (Token.join (ns ++ ys)) := by
    rw [Token.join_append, Token.join_append]
    exact BeginAlike.append (.inl ⟨hbegins, hbegin⟩) _ _
  -- behind either the line break is read in the same way
  have hdepth' : (s.afterAll x.leaves).depth = 0 := by
    rw [hs, ← afterAll_append, LexState.depth_afterAll]
    simpa using h.depthAfter
  have hys : Cuts (s.afterAll ns) ys [] :=
    h.breaks.cuts hdepth' (by rw [LexState.depth_afterAll, hflow, hdepth]) hX.right
  have hnew := hcuts.behind_heads h.colon h.isHead (.append (by simpa using hns) (hs ▸ hys)) hstart
  have htokens : Crumb.textBefore bs ++ Token.join ns ++ Crumb.textAfter bs =
      Token.join (xs ++ x₀ :: (heads ++ (ns ++ ys))) := by
    rw [← h.before, ← h.after]
    simp
  rw [htokens, lex, hnew.lexFrom_eq]

/-- With another node in its place the text is parsed as the tree with the node. -/
theorem parse_replaced (h : ScalarAt t x bs column xs x₀ heads ys) (hold : StopsAt isBlank x.text)
    {N : Tree} {y : Token} {zs : List Token} (hN : N.leaves = y :: zs)
    (hy : y.kind.isTrivia = false ∧ y.kind.isProperty = false ∧ y.kind.isMarker = false)
    (hfills : Fills column N ys) (hbegin : BeginsPlain N.text)
    (hdepth : depthAfterAll 0 N.leaves = 0)
    (hcuts : Cuts (({} : LexState).afterAll (xs ++ x₀ :: heads)) N.leaves (Token.join ys)) :
    parseStrict (Crumb.textBefore bs ++ N.text ++ Crumb.textAfter bs) =
      .ok (Cursor.rebuild ⟨N, bs⟩) :=
  h.replaced N y zs hN hy hfills _ (h.lex_eq hold hbegin hdepth hcuts)

end ScalarAt

end YamlPatch
