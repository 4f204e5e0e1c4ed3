import YamlPatch.Proofs.Literals
import YamlPatch.Proofs.ScalarPlaces

/-!
# Block scalars in a document

A literal block scalar may be the value of any block mapping, however deep in the document
(`ValueLine.parse_literal`). `ValueLine` is such a place : an entry, and another on the next
line, in a document that is known without faults with some other scalar as the value. The lexer
guesses from the line of the header in which column the key stands, and takes lines up to one
that is indented no further. With only spaces and item indicators before the key
(`ValueLine.Aligned`) the guess is right, and the scalar ends before the next entry. The parser
does not look at columns on its own : it takes the scalar as one token wherever a node may stand
(`Config.fillContent_blockScalar`), and behind the line break it goes on as it did before
(`ScalarAt.replaced`).

The document is given by its tree, as crumbs around the value, and not by its text. So the place
may be anywhere, and what the conclusion says of the surroundings is that the crumbs are the
same. What is needed of the text around is read off the crumbs : the line of the key from its
start to the value (`ValueLine.label`), and the indentation of the line below.
-/

namespace YamlPatch

open TokenKind Lexeme YamlPatch.Tree LexState

/-! ## A value at the end of its line

The place of the scalar, given by the trees around it. The value may stand behind anchors and
tags on the line of its key. -/

/-- The surroundings of a value in a mapping, with another entry on the next line. -/
structure ValueLine where
  /-- What stands around the mapping. -/
  outer : List Crumb
  /-- What the mapping holds before the entry. -/
  before : List Tree
  /-- What the entry holds before its value : the key, the colon and a space. -/
  key : List Tree
  /-- The anchors and tags of the value. -/
  heads : List Tree
  /-- The line break behind the value. -/
  nl : Text
  /-- The column of the entry on the next line. -/
  column : Nat
  /-- The entry on the next line. -/
  next : Tree
  /-- What the mapping holds behind it. -/
  after : List Tree

namespace ValueLine

/-- The nodes around the value. -/
def slots (p : ValueLine) : List Crumb :=
  ⟨.entry, p.key, []⟩ :: ⟨.mapping, p.before,
    lineStart p.nl p.column ++ p.next :: p.after⟩ :: p.outer

/-- The text of the line from the key to the value. -/
def label (p : ValueLine) : Text := textOf (p.key ++ p.heads)

/-- The key stands in the column of the key on the next line, and the value on the line of its
key. -/
structure Aligned (p : ValueLine) : Prop where
  /-- The line up to the key is made of spaces and item indicators. -/
  lead : ∃ above lead, Crumb.textBefore (⟨.mapping, p.before, []⟩ :: p.outer) = above ++ lead ∧
    (above = [] ∨ above.getLast? = some '\n') ∧ isLead lead = true ∧ lead.length = p.column
  /-- With the key these end. -/
  key : ∃ c u, p.label = c :: u ∧ c ≠ ' ' ∧ ¬['-', ' '] <+: c :: u
  line : '\n' ∉ p.label
  newline : IsNewline p.nl
  next : p.next.isNode .entry = true
  /-- The next line is indented no further. -/
  indent : p.next.text.head? ≠ some ' '
  text : Text.allBlank (p.next.text.takeWhile (· != '\n')) = false

/-- The place of what the value holds. -/
def crumbs (p : ValueLine) : List Crumb := ⟨.value, p.heads, []⟩ :: p.slots

/-- The document with `x` as the value. -/
def document (p : ValueLine) (x : Tree) : Tree := Cursor.rebuild ⟨x, p.crumbs⟩

end ValueLine

namespace Event

/-- Behind trivia comes either another token or a node. -/
theorem leaf_ne_opening {zs ts : List Token} {y : Token} {e e' : List Event} {k : NodeKind}
    (hts : ∀ t ∈ ts, t.kind.isTrivia = true) (hy : y.kind.isTrivia = false) :
    zs.map leaf ++ leaf y :: e ≠ ts.map leaf ++ opening k :: e' := by
  induction zs generalizing ts with
  | nil =>
    intro h
    cases ts with
    | nil => cases (List.cons.inj h).1
    | cons t ts =>
      obtain rfl : y = t := leaf.inj (List.cons.inj h).1
      rw [hts y (by simp)] at hy
      cases hy
  | cons z zs ih =>
    intro h
    cases ts with
    | nil => cases (List.cons.inj h).1
    | cons t ts => exact ih (fun u hu => hts u (by simp [hu])) (List.cons.inj h).2

end Event

namespace Config

/-- Taking tokens into the innermost node adds them to the log. -/
theorem log_facing_append (c : Config) (u : Task) (d : List Tree) (fs : List Frame) (p q : Position)
    (xs ys : List Token) (ts : List Token) :
    (c.facing (⟨u, d ++ ts.map .token⟩ :: fs) q ys).log = (c.facing (⟨u, d⟩ :: fs) p xs).log ++
      ts.map .leaf := by
  rw [← eventsOf_tokens]
  simp [log, facing]

/-- Behind a value in a flow mapping its entry is closed, and the next token that is not trivia
belongs to the mapping itself. -/
theorem Completed.exists_comma {t : Text} {k c : Config} {g ys : List Token} {xs : List Tree}
    (h : Completed t none k g xs ys c) (hat : AtColon none k.tasks)
    (hz : (start t).run.faults = []) :
    ∃ (zs : List Token) (y : Token) (e : List Event), y.kind.isTrivia = false ∧
      (start t).run.log = c.log ++ .closing :: .closing :: (zs.map .leaf ++ .leaf y :: e) := by
  obtain ⟨us, hus⟩ := hat
  obtain ⟨p, hr⟩ := h.rest
  have ht : c.tasks = .flowValue :: .flowEntry :: .flowMapping :: us := by rw [h.tasks, hus]; rfl
  obtain ⟨zs, y, ws, rfl, hzs, hy⟩ := exists_comma_of_flowValue ht h.slot hr (h.leads.run_eq ▸ hz)
  have hentry : c.close.tasks = .flowEntry :: .flowMapping :: us := by simp [ht]
  have hyk : y.kind.isTrivia = false := by rcases hy with hy | hy <;> rw [hy] <;> rfl
  -- the configuration in the mapping, and the one with the trivia taken
  obtain ⟨m, hm⟩ : ∃ m, m = c.close.close := ⟨_, rfl⟩
  have hslot : m.slot = none := by simp [hm, h.slot]
  obtain ⟨d, fs, hframes, -⟩ := frames_eq_cons (show m.tasks = .flowMapping :: us by simp [hm, ht])
  have hface : m = m.facing (⟨.flowMapping, d⟩ :: fs) p (zs ++ y :: ws) :=
    eq_facing hframes hslot (by simp [hm, hr])
  have hnot : ∀ z vs, y :: ws = z :: vs → z.kind.isTrivia = false := by
    intro z vs hz
    exact (List.cons.inj hz).1 ▸ hyk
  have htrivia := m.takeTrivia_facing .flowMapping d fs p zs (y :: ws) hzs hnot
  have hlog : m.log = c.log ++ [.closing, .closing] := by
    rw [hm, log_close hentry, log_close ht, List.append_assoc]
    rfl
  have hstep :
      c.close.step = some (c.close.close.takeTrivia.takeComma rightBrace .unseparatedEntry) :=
    step_of_tasks (by simp [h.slot]) hentry
  rw [← hm] at hstep
  have hlead : Leads (start t) (m.takeTrivia.takeComma rightBrace .unseparatedEntry) :=
    (h.leads.trans (.of_step (step_of_tasks h.slot ht))).trans (.of_step hstep)
  -- either way the token is taken into the mapping
  obtain ⟨e, n, hn, he⟩ : ∃ (e : List Event) (n : Config), Leads (start t) n ∧
      n.log = m.log ++ (zs.map .leaf ++ .leaf y :: e) := by
    rw [hface, htrivia] at hlead
    have hk :=
      m.kind?_facing (⟨.flowMapping, d ++ zs.map .token⟩ :: fs) (p.advance (Token.join zs)) ws y
    have htake :=
      log_facing_append m .flowMapping d fs p ((p.advance (Token.join zs)).advance y.text)
        (zs ++ y :: ws)
      ws (zs ++ [y])
    rw [← hface, List.map_append, ← List.append_assoc] at htake
    rcases hy with hy | hy
    · simp only [takeComma, hk, hy, if_true, take_one_facing] at hlead
      exact ⟨[], _, hlead, by simpa using htake⟩
    · simp only [takeComma, hk, hy, if_true, reduceCtorEq, if_false] at hlead
      refine ⟨[.closing], _, hlead.trans (.of_step (step_of_tasks (t := .flowMapping) rfl rfl)), ?_⟩
      have hnone :=
        m.takeTrivia_facing_of_not .flowMapping (d ++ zs.map .token) fs (p.advance (Token.join zs))
        (y :: ws) hnot
      simp only [stepTask, stepFlowMapping, hnone, hk, hy, if_true, take_one_facing]
      rw [log_close (t := .flowMapping) rfl]
      simpa using congrArg (· ++ [Event.closing]) htake
  obtain ⟨e', he'⟩ := hn.to_end.grows.log
  exact ⟨zs, y, e ++ e', hyk, by rw [← he', he, hlog]; simp⟩

/-- The parser takes a block scalar as it is, wherever a node may stand. -/
theorem fillContent_blockScalar (c : Config) (d : List Tree) (fs : List Frame) (p : Position)
    {b : Token} (hb : b.kind = blockScalar) (s : Slot) (ys : List Token) :
    (c.facing (⟨.value, d⟩ :: fs) p (b :: ys)).fillContent s =
      c.facing (⟨.value, d ++ [.node .scalar [.token b]]⟩ :: fs) (p.advance b.text) ys := by
  have hwrap := c.wrap_facing .value d fs p [b] ys .scalar (n := 1) rfl
  have hkey : startsKey (locate p (b :: ys)) = false := by
    simp [startsKey, locate, Lexeme.kind, hb, isProperty, isQuoted, isPlain]
  simp only [fillContent, rest_facing, locate] at hkey ⊢
  simp only [Lexeme.kind, hb, hkey, takeInline]
  simpa using hwrap

/-- A block scalar fills the place of a value, whatever comes behind it. -/
theorem fills_blockScalar (column : Nat) {b : Token} (hb : b.kind = blockScalar) (ys : List Token) :
    Fills column (.node .scalar [.token b]) ys :=
  fun s _ c d fs p =>
    ⟨_, by rw [show (Tree.node .scalar [.token b]).leaves ++ ys = b :: ys from rfl,
    fillContent_blockScalar c d fs p hb]⟩

end Config

/-! ## Where the value lies

The place is one in the run on the old text, and it is one in block context : a comma would have
to follow otherwise. -/

/-- A line break and an indentation are trivia. -/
theorem exists_trivia_lineStart (nl : Text) (n : Nat) :
    ∃ ts : List Token, lineStart nl n = ts.map .token ∧ ∀ t ∈ ts, t.kind.isTrivia = true := by
  unfold lineStart
  split
  · exact ⟨[⟨.lineBreak, nl⟩], rfl, by simp [isTrivia]⟩
  · exact ⟨[⟨.lineBreak, nl⟩, ⟨.indent, List.replicate n ' '⟩], rfl, by simp [isTrivia]⟩

namespace ValueLine

variable {p : ValueLine}

open Config in
/-- With another entry on the next line, the mapping is none in flow style. -/
theorem not_flow {t : Text} {x : Tree} (hx : parseStrict t = .ok (p.document x))
    (hnext : p.next.isNode .entry = true) {k : Config} {xs ys : List Token} {x₀ : Token}
    (h : ColonAt t none k xs x₀ ys) {after : List Event}
    (hlog : (start t).run.log = (behindColon none k).log ++ .opening .value :: after)
    (hafter : eventsOf (p.heads ++ [x]) ++ .closing :: Crumb.eventsAfter p.slots =
      after ++ ((start t).run.rest.map Lexeme.token).map .leaf) : False := by
  have hz := (parseStrict_eq_ok.mp hx).1
  obtain ⟨us, hus⟩ := h.tasks
  obtain ⟨tr, g, ws, c, -, -, -, -, hcase⟩ := exists_flowPlace hz h.leads hus h.slot h.rest
  obtain ⟨Xs, ws, hc⟩ : ∃ Xs ws, Completed t none k g Xs ws c := by
    rcases hcase with hc | ⟨X, -, -, -, -, ws, -, -, -, -, -, -, hc⟩
    · exact ⟨[], _, hc⟩
    · exact ⟨[X], ws, hc⟩
  obtain ⟨zs, y, e, hy, hrun⟩ := hc.exists_comma h.tasks hz
  -- In a flow mapping a comma or the brace would come next. What comes is the entry on the next
  -- line.
  have hend : after = eventsOf (g.map .token ++ Xs) ++ .closing :: .closing ::
      (zs.map .leaf ++ .leaf y :: e) := by
    rw [hrun, hc.log] at hlog
    simpa [eventsOf_tokens] using hlog.symm
  rw [hend, List.append_assoc] at hafter
  have hrest := (eventsOf_inj _ _ hafter).2
  obtain ⟨ts, hts, htrivia⟩ := exists_trivia_lineStart p.nl p.column
  obtain ⟨us, hus⟩ : ∃ us, p.next = .node .entry us := by
    cases hn : p.next with
    | token z =>
      rw [hn] at hnext
      cases hnext
    | node k us =>
      rw [hn] at hnext
      exact ⟨us, by rw [show k = .entry by simpa [isNode, Tree.kind?] using hnext]⟩
  have houter : p.outer ≠ [] := by
    intro hnil
    have hroot := (parseStrict_eq_ok.mp hx).2
    simp [document, crumbs, slots, hnil, Cursor.rebuild, Crumb.fill, stream] at hroot
  rw [slots, Crumb.eventsAfter_cons _ (by simp), Crumb.eventsAfter_cons _ houter, hts, hus] at hrest
  have hboth : zs.map .leaf ++ .leaf y :: (e ++ ((start t).run.rest.map Lexeme.token).map .leaf) =
      ts.map .leaf ++ .opening .entry ::
        (eventsOf us ++ .closing ::
          (eventsOf p.after ++ .closing :: Crumb.eventsAfter p.outer)) := by
    simpa [eventsOf_tokens, events_node] using hrest.symm
  exact Event.leaf_ne_opening htrivia hy hboth

/-- Behind the value comes the line break. -/
theorem exists_textAfter (p : ValueLine) : ∃ u, Crumb.textAfter p.crumbs = p.nl ++ u :=
  ⟨_, by simp [crumbs, slots, Crumb.textAfter, textOf, leavesOf, lineStart, leaves]; rfl⟩

open Config in
/-- A scalar at the end of its line may be replaced. -/
theorem exists_scalarAt {t : Text} {x : Tree} (hx : parseStrict t = .ok (p.document x))
    (hs : x.isNode .scalar = true) (hl : IsNewline p.nl) (hnext : p.next.isNode .entry = true) :
    ∃ column xs x₀ heads ys, ScalarAt t x p.crumbs column xs x₀ heads ys := by
  have hz := (parseStrict_eq_ok.mp hx).1
  have hslots : p.slots ≠ [] := by simp [slots]
  obtain ⟨after, hlog, hafter⟩ :=
    @Cursor.exists_log t ⟨.node .value (p.heads ++ [x]), p.slots⟩ hx rfl hslots
  obtain ⟨o, k, xs, x₀, ys₀, h, hbefore⟩ := exists_colon hz hlog
  cases o with
  | none => exact (not_flow hx hnext h (hbefore ▸ hlog) hafter).elim
  | some column =>
    obtain ⟨u, hu⟩ := p.exists_textAfter
    obtain ⟨heads, ys, hat⟩ := h.exists_scalarAt hslots hx hbefore hs (.inr ⟨p.nl, u, hl, hu⟩)
    exact ⟨column, xs, x₀, heads, ys, hat⟩

end ValueLine

/-! ## The line before the value

The lexer sees a line of text, in which it looks for the column of the key. That it is the
column in which the parser has the mapping comes from the next entry, which stands in that
column too. -/

/-- Spaces and item indicators are on one line. -/
theorem not_mem_of_isLead {t : Text} (h : isLead t = true) : '\n' ∉ t := by
  fun_induction isLead t with
  | case1 => simp
  | case2 t ih => simpa using ih h
  | case3 t ih => simpa using ih h
  | case4 => cases h

namespace Text

/-- The first line of a text. -/
theorem lines_eq_takeWhile (t : Text) : ∃ ls, lines t = t.takeWhile (· != '\n') :: ls := by
  by_cases h : '\n' ∈ t
  · obtain ⟨u, w, rfl, hu⟩ := exists_append_newline h
    refine ⟨lines w, ?_⟩
    rw [lines_break u w hu,
      List.takeWhile_append_of_pos (by simpa using fun c hc => ne_of_mem_of_not_mem hc hu)]
    simp
  · obtain ⟨l, ls, hl, hone⟩ := lines_cons t
    obtain ⟨rfl, rfl⟩ := hone h
    refine ⟨[], ?_⟩
    rw [hl, List.takeWhile_eq_self_iff.mpr (by simpa using fun c hc => ne_of_mem_of_not_mem hc h)]

/-- The spaces before a text are those before its first line. -/
theorem leadingSpaces_takeWhile (t : Text) :
    leadingSpaces (t.takeWhile (· != '\n')) = leadingSpaces t := by
  induction t with
  | nil => rfl
  | cons c t ih =>
    by_cases hc : c = ' '
    · subst hc
      have hlen (u : Text) : leadingSpaces (' ' :: u) = leadingSpaces u + 1 := by
        simp [leadingSpaces]
      rw [List.takeWhile_cons_of_pos (by decide), hlen, hlen, ih]
    · rw [leadingSpaces_eq_zero (l := c :: t) (by simpa using hc)]
      refine leadingSpaces_eq_zero ?_
      rw [List.takeWhile_cons]
      split <;> simp [hc]

end Text

namespace ValueLine

variable {p : ValueLine}

/-- The text before the value ends with the line from the key on. -/
theorem textBefore_eq (p : ValueLine) : Crumb.textBefore p.crumbs =
    Crumb.textBefore (⟨.mapping, p.before, []⟩ :: p.outer) ++ p.label := by
  simp [crumbs, slots, label, Crumb.textBefore]

/-- The owner of a block scalar is its key. -/
theorem Aligned.headerColumn_eq (h : p.Aligned) {s : LexState} {xs : List Token}
    (hs : s = ({} : LexState).afterAll xs) (hxs : Token.join xs = Crumb.textBefore p.crumbs) :
    headerColumn s.line.reverse = p.column := by
  obtain ⟨above, lead, htext, habove, hlead, hcolumn⟩ := h.lead
  obtain ⟨c, u, hlabel, hc, hu⟩ := h.key
  have hbegin : LexState.lineAfter [] above = [] := by
    rcases habove with rfl | habove
    · rfl
    · exact LexState.lineAfter_of_getLast? [] habove
  have hline : s.line = (lead ++ p.label).reverse := by
    rw [hs, LexState.line_afterAll, hxs, textBefore_eq, htext, List.append_assoc,
      LexState.lineAfter_append, hbegin,
      LexState.lineAfter_of_not_mem [] (by simp [not_mem_of_isLead hlead, h.line]), List.append_nil]
  rw [hline, List.reverse_reverse, hlabel, headerColumn_of_isLead hlead hc hu, hcolumn]

/-- The line below holds text, and is not indented beyond the key. -/
theorem Aligned.stopsBlock (h : p.Aligned) {t : Text} (ht : p.nl ++ t = Crumb.textAfter p.crumbs) :
    StopsBlock p.column t := by
  obtain ⟨r, rfl⟩ : ∃ r, t = List.replicate p.column ' ' ++ (p.next.text ++ r) := by
    refine ⟨textOf p.after ++ Crumb.textAfter p.outer, ?_⟩
    simpa [crumbs, slots, Crumb.textAfter, textOf_lineStart] using ht
  obtain ⟨ls, hls⟩ := Text.lines_eq_takeWhile (List.replicate p.column ' ' ++ (p.next.text ++ r))
  refine ⟨_, ls, hls, ?_, ?_⟩
  · have hne := h.text
    simp only [Text.allBlank, List.all_eq_false] at hne ⊢
    obtain ⟨c, hc, hb⟩ := hne
    refine ⟨c, ?_, hb⟩
    rw [List.takeWhile_append_of_pos (by simp), List.takeWhile_append]
    split
    · simp [(List.takeWhile_prefix _).subset hc]
    · simp [hc]
  · have hne : p.next.text ≠ [] := by
      intro hnil
      have := h.text
      rw [hnil] at this
      cases this
    rw [Text.leadingSpaces_takeWhile, Text.leadingSpaces_indented, Text.leadingSpaces_eq_zero]
    · exact Nat.le_refl _
    · rw [List.head?_append_of_ne_nil _ hne]
      exact h.indent

variable {x : Tree} {n : Nat} {ls : List Text}

/-- Behind the key a literal block scalar is read as one token. -/
theorem Aligned.reads_literal (h : p.Aligned) (strip : Bool) (hls : LiteralLines ls)
    (hn : p.column < n) {s : LexState} {xs : List Token} (hs : s = ({} : LexState).afterAll xs)
    (hxs : Token.join xs = Crumb.textBefore p.crumbs) (hnode : s.atNodeStart = true)
    (hdepth : s.depth = 0) {t : Text} (ht : p.nl ++ t = Crumb.textAfter p.crumbs) :
    s.Reads ⟨.blockScalar, literal p.nl strip n ls⟩ (p.nl ++ t) := by
  have hlength := blockLength_literal h.newline strip hls hn (h.stopsBlock ht)
  refine .of_scan (c := '|') (u := (literal p.nl strip n ls).tail) ?_
  rw [scan_eq_scanInLine (.inr (by decide))]
  simp only [scanInLine, LexState.inFlow, hdepth, hnode, h.headerColumn_eq hs hxs, hlength]
  rfl

/-- A literal block scalar reads back its lines. Take a document without faults in which the
value of an entry, on the line of its key, is a scalar `x`, and in which another entry of the
mapping follows on the next line. Between the two put the lines instead, under `|` or `|-` and
indented beyond the key : there are no faults either, the value is the scalar that stands for
the lines, and all else is parsed as before, the entry that follows in the same mapping. -/
theorem parse_literal (strip : Bool) (hx : parseStrict (p.document x).text = .ok (p.document x))
    (hscalar : x.isNode .scalar = true) (hold : StopsAt isBlank x.text) (hp : p.Aligned)
    (hn : p.column < n) (hls : LiteralLines ls) :
    ∃ s : Tree, s.isNode .scalar = true ∧ s.text = literal p.nl strip n ls ∧
    Scalar.style s = .literal ∧
      Scalar.value s = Text.joinWith ['\n'] ls ++ (if strip then [] else ['\n']) ∧
        parseStrict (Crumb.textBefore p.crumbs ++ literal p.nl strip n ls ++
          Crumb.textAfter p.crumbs) = .ok (p.document s) := by
  obtain ⟨column, xs, x₀, heads, ys, h⟩ := exists_scalarAt hx hscalar hp.newline hp.next
  obtain ⟨b, hb⟩ : ∃ b : Token, b = ⟨.blockScalar, literal p.nl strip n ls⟩ := ⟨_, rfl⟩
  have hkind : b.kind = .blockScalar := by rw [hb]
  have hfirst : Scalar.firstKind? (.node .scalar [.token b]) = some .blockScalar := by
    simp [Scalar.firstKind?, leaves, leavesOf, hkind, isTrivia]
  have hnode : (Tree.node .scalar [.token b]).text = literal p.nl strip n ls := by
    simp [text, leaves, leavesOf, hb]
  obtain ⟨u, hu⟩ := p.exists_textAfter
  obtain ⟨hstart, hdepth, -, -⟩ := h.lexState rfl
  -- The lexer reads the scalar as one token behind the key, and goes on with the line break.
  have hread := hp.reads_literal strip hls hn rfl h.before hstart hdepth hu.symm
  rw [← hu, ← h.after] at hread
  have hleaves : (Tree.node .scalar [.token b]).leaves = [b] := rfl
  have hlevel : depthAfterAll 0 [b] = 0 := by simp [depthAfterAll, hkind, depthAfter]
  have hcuts : Cuts (({} : LexState).afterAll (xs ++ x₀ :: heads)) [b] (Token.join ys) :=
    .cons (by rw [hb]; exact hread) (.nil _ _)
  have hparse := h.parse_replaced hold hleaves (by simp [hkind, isTrivia, isProperty, isMarker])
    (Config.fills_blockScalar column hkind ys) ⟨'|', _, by rw [hnode]; rfl, rfl, rfl⟩ hlevel hcuts
  rw [hnode] at hparse
  refine ⟨.node .scalar [.token b], rfl, hnode, ?_, ?_, hparse⟩
  · simp [Scalar.style, hfirst, hnode, literal]
  · simp only [Scalar.value, hfirst, hnode]
    exact BlockScalar.decode_literal hp.newline strip (Nat.zero_lt_of_lt hn) hls

/-- The value of the key `b` in the item of a sequence, with the key `c` below it. -/
def inItem : ValueLine where
  outer :=
    [⟨.item, [mark dash '-', mark space ' '], []⟩, ⟨.sequence, [], []⟩,
      ⟨.value, lineStart ['\n'] 2, []⟩,
      ⟨.entry, [Value.keyNode ['a'], mark colon ':'], []⟩, ⟨.mapping, [], []⟩,
      ⟨.document, [], [mark lineBreak '\n']⟩, ⟨.stream, [], []⟩]
  before := []
  key := Value.keyNode ['b'] :: indicator
  heads := []
  nl := ['\n']
  column := 4
  next := Value.entryNode ['c'] (Atom.ofText ['z']).node
  after := []

/-- Two lines of text with a blank one between them, one of which looks like a comment and one
like a quoted scalar. -/
theorem parse_literal_inItem : ∃ s, Scalar.value s = "make # all\n\n  'it'\n".toList ∧
    parseStrict "a:\n  - b: |\n     make # all\n     \n       'it'\n    c: z\n".toList =
      .ok (inItem.document s) := by
  have hx : parseStrict (inItem.document (Atom.ofText ['x']).node).text =
      .ok (inItem.document (Atom.ofText ['x']).node) := by
    refine parseStrict_eq_ok.mpr ⟨List.eq_nil_of_length_eq_zero (by decide +kernel), ?_⟩
    have htree : [(Config.start (inItem.document (Atom.ofText ['x']).node).text).run.stream] =
        [inItem.document (Atom.ofText ['x']).node] := eq_of_eventsOf_eq (by decide +kernel)
    exact List.singleton_inj.mp htree
  have hp : inItem.Aligned :=
    ⟨⟨"a:\n".toList, "  - ".toList, by decide +kernel, by decide, by decide, by decide⟩,
      ⟨'b', ": ".toList, by decide +kernel, by decide, by decide⟩,
      by decide +kernel, .lf, by decide, by decide +kernel,
      by decide +kernel⟩
  have hls : LiteralLines ["make # all".toList, [], "  'it'".toList] :=
    ⟨by
      decide, by decide, ⟨"  'it'".toList, by decide, by decide⟩, ⟨"make # all".toList, by decide⟩⟩
  have hold : StopsAt isBlank (Atom.ofText ['x']).node.text := by
    rintro c u hc
    rw [show (Atom.ofText ['x']).node.text = ['x'] by decide +kernel] at hc
    cases hc
    decide
  have htext : Crumb.textBefore inItem.crumbs ++
      literal ['\n'] false 5 ["make # all".toList, [], "  'it'".toList] ++
      Crumb.textAfter inItem.crumbs =
        "a:\n  - b: |\n     make # all\n     \n       'it'\n    c: z\n".toList := by
    decide +kernel
  obtain ⟨s, -, -, -, hvalue, hparse⟩ :=
    parse_literal (n := 5) false hx (by decide) hold hp (by decide) hls
  exact ⟨s, hvalue, htext ▸ hparse⟩

end ValueLine

end YamlPatch
