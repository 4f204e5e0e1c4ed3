import YamlPatch.Proofs.NewTokens
import YamlPatch.Proofs.LineBreaks

/-!
# Writes that the parser reads back

A write changes the tree and leaves its text unread. If the value goes in place of another
(`Cursor.InPlace`) then the parser makes of the new text the very tree that the write has left
(`Cursor.parseStrict_of_put`), so what is read in the tree is also read in the text.

The place at which the write takes effect is found in the run of the parser : the log of the run
and the crumbs of the place say the same, so the place is one of a value in its entry
(`Cursor.exists_liesAt`).

Two things have to be shown of the new text. Its tokens are the leaves of the new tree : those
before the place and behind it are read as before, and those in the place as they were made. And
the parser makes the tree of these tokens, which is said for any node of the same kind in the
module on replacing. Both need to know what the text around the place begins and ends with, and
that is taken from the tree before the write, whose text was parsed without a fault.
-/

namespace YamlPatch

open TokenKind YamlPatch.Tree

/-! ## The tree of a run

A run that has ended tells its tree by its log. No node is open then, so the log is the list of
what happens while the tree is built. -/

namespace Config

/-- At the end of a run the log and the tokens left are what the tree holds. -/
theorem eventsOf_stream_run (c : Config) :
    eventsOf c.run.stream.children = c.run.log ++ (c.run.rest.map Lexeme.token).map .leaf := by
  have htasks : c.run.tasks = [] := by simp [tasks, frames_run]
  have hrest : (c.run.rest.map fun l => Tree.token l.token) =
      (c.run.rest.map Lexeme.token).map .token := by simp
  rw [log_of_tasks_nil htasks, stream, children, eventsOf_append, hrest, eventsOf_tokens]

end Config

/-- No node is opened among the tokens at the end of a list. -/
theorem Event.eq_append_of_opening {as bs cs : List Event} {k : NodeKind} {ts : List Token}
    (h : as ++ ts.map .leaf = bs ++ .opening k :: cs) :
    ∃ ds, as = bs ++ .opening k :: ds ∧ cs = ds ++ ts.map .leaf := by
  rcases List.append_eq_append_iff.mp h with ⟨ds, rfl, hds⟩ | ⟨ds, rfl, hds⟩
  · have hmem : Event.opening k ∈ ts.map Event.leaf := by simp [hds]
    simp at hmem
  · cases ds with
    | nil =>
      have hmem : Event.opening k ∈ ts.map Event.leaf := by
        rw [← hds.trans (List.nil_append _)]; simp
      simp at hmem
    | cons d ds =>
      obtain ⟨rfl, rfl⟩ := List.cons.inj hds
      exact ⟨ds, rfl, rfl⟩

/-- The tokens behind the node are those built behind it and those left. -/
theorem ValueAt.tokens_after {t : Text} {before e : List Event} {xs heads g ys : List Token}
    {x₀ : Token} {X : Tree} (h : ValueAt t before e xs x₀ heads g X ys) :
    Event.tokens e ++ (Config.start t).run.rest.map Lexeme.token = ys := by
  have htokens := (Config.Leads.to_run (Config.start t)).tokens_eq
  have hheads : xs ++ x₀ :: (heads ++ (X.leaves ++ ys)) = Event.tokens before ++ g ++
      (X.leaves ++ ys) := by
    rw [h.built]
    simp
  rw [Config.tokens, ← Config.tokens_log, h.log, h.tokens, hheads] at htokens
  simpa using htokens

/-- Content behind tokens is the first content. -/
theorem eq_of_map_token_append {l r : List Tree} {d x : Tree} {g : List Token}
    (hl : ∀ u ∈ l, u.isContent = false) (hd : d.isContent = true)
    (h : l ++ d :: r = g.map .token ++ [x]) : l = g.map .token ∧ d = x ∧ r = [] := by
  induction g generalizing l with
  | nil =>
    cases l with
    | nil => simpa using h
    | cons u l =>
      obtain ⟨rfl, h⟩ := List.cons.inj h
      simp at h
  | cons z g ih =>
    cases l with
    | nil =>
      obtain ⟨rfl, -⟩ := List.cons.inj h
      cases hd
    | cons u l =>
      obtain ⟨rfl, htail⟩ := List.cons.inj h
      obtain ⟨rfl, hx⟩ := ih (fun u hu => hl u (List.mem_cons_of_mem _ hu)) htail
      exact ⟨rfl, hx⟩

/-! ## Columns

The column of a block sequence is computed from the tree when it is written, and from the text
when it is read. -/

/-- Behind tokens the column is that behind their text. -/
theorem columnAfterAll_map_token (n : Nat) (xs : List Token) :
    columnAfterAll n (xs.map .token) = textColumn n (Token.join xs) := by
  induction xs generalizing n with
  | nil => rfl
  | cons x xs ih =>
    rw [List.map_cons, columnAfterAll, columnAfter, ih, Token.join_cons]
    simp [textColumn]

namespace Cursor

/-- What stands in a place does not change the kind of the tree around it. -/
theorem exists_rebuild_eq (t u : Tree) (bs : List Crumb) (h : bs ≠ []) :
    ∃ k, rebuild ⟨t, bs⟩ = .node k (rebuild ⟨t, bs⟩).children ∧
      rebuild ⟨u, bs⟩ = .node k (rebuild ⟨u, bs⟩).children := by
  induction bs generalizing t u with
  | nil => exact absurd rfl h
  | cons b bs ih =>
    cases bs with
    | nil => exact ⟨b.kind, rfl, rfl⟩
    | cons c cs => exact ih (b.fill t) (b.fill u) (List.cons_ne_nil c cs)

/-- A run without faults that builds the tree with `u` in the place of `t` has parsed its text
as this tree. -/
theorem parseStrict_rebuild {T T' : Text} {t u : Tree} {bs : List Crumb} (hbs : bs ≠ [])
    (hx : parseStrict T = .ok (rebuild ⟨t, bs⟩)) (hf : (Config.start T').run.faults = [])
    (hlog : (Config.start T').run.log ++ ((Config.start T').run.rest.map Lexeme.token).map .leaf =
      Crumb.eventsBefore bs ++ u.events ++ Crumb.eventsAfter bs) :
    parseStrict T' = .ok (rebuild ⟨u, bs⟩) := by
  refine parseStrict_eq_ok.mpr ⟨hf, ?_⟩
  have hkids : (Config.start T').run.stream.children = (rebuild ⟨u, bs⟩).children :=
    eq_of_eventsOf_eq (by rw [Config.eventsOf_stream_run, hlog, eventsOf_rebuild u hbs])
  obtain ⟨k, hk, hk'⟩ := exists_rebuild_eq t u bs hbs
  have hstream := (parseStrict_eq_ok.mp hx).2
  rw [hk] at hstream
  obtain ⟨rfl, -⟩ := Tree.node.inj hstream
  exact (congrArg (Tree.node .stream) hkids).trans hk'.symm

/-- What a run has built, around the value that is open in the tree. -/
theorem exists_log {T : Text} {slot : Cursor} (hx : parseStrict T = .ok slot.rebuild)
    (hvalue : slot.focus.isNode .value = true) (hne : slot.crumbs ≠ []) :
    ∃ after, (Config.start T).run.log = Crumb.eventsBefore slot.crumbs ++ .opening .value :: after ∧
      eventsOf slot.focus.children ++ .closing :: Crumb.eventsAfter slot.crumbs =
        after ++ ((Config.start T).run.rest.map Lexeme.token).map .leaf := by
  obtain ⟨-, hstream⟩ := parseStrict_eq_ok.mp hx
  obtain ⟨k, ts, hfocus⟩ : ∃ k ts, slot.focus = .node k ts := by
    cases hf : slot.focus with
    | token z =>
      rw [hf] at hvalue
      cases hvalue
    | node k ts => exact ⟨k, ts, rfl⟩
  obtain rfl : k = .value := by simpa [hfocus, isNode, Tree.kind?] using hvalue
  have hevents := Config.eventsOf_stream_run (Config.start T)
  rw [hstream, ← show Cursor.mk slot.focus slot.crumbs = slot from rfl,
    eventsOf_rebuild _ hne, hfocus, events_node] at hevents
  obtain ⟨after, hlog, hafter⟩ := Event.eq_append_of_opening
    (hevents.symm.trans (by rw [List.append_assoc, List.cons_append, List.append_assoc]))
  exact ⟨after, hlog, by simpa [hfocus, children] using hafter⟩

/-- The place of a node in the text that the tree was read from. -/
structure LiesAt (d : Cursor) (t : Text) (e : List Event) (xs : List Token) (x₀ : Token)
    (heads g ys : List Token) (bs : List Crumb) : Prop where
  valueAt : ValueAt t (Crumb.eventsBefore bs) e xs x₀ heads g d.focus ys
  crumbs : d.crumbs = ⟨.value, g.map .token, []⟩ :: bs
  ne : bs ≠ []
  after : Crumb.eventsAfter bs = e ++ ((Config.start t).run.rest.map Lexeme.token).map .leaf

/-- What a place holds in a tree without faults lies in the text behind a colon. -/
theorem exists_liesAt {T : Text} {slot d : Cursor} (hx : parseStrict T = .ok slot.rebuild)
    (hn : HasLineFeeds (lex T)) (hvalue : slot.focus.isNode .value = true) (hne : slot.crumbs ≠ [])
    (hd : slot.content? = some d) :
    ∃ e xs x₀ heads g ys, d.LiesAt T e xs x₀ heads g ys slot.crumbs := by
  have hz := (parseStrict_eq_ok.mp hx).1
  rw [content?_eq] at hd
  obtain ⟨k, l, r, hslot, hcrumbs, -, hl, hcontent⟩ := step?_eq_some hd
  obtain ⟨after, hlog, hafter⟩ := exists_log hx hvalue hne
  obtain ⟨zs, hzs⟩ : ∃ zs, (Config.start T).run.rest.map Lexeme.token = zs := ⟨_, rfl⟩
  obtain rfl : k = .value := by simpa [hslot, isNode, Tree.kind?] using hvalue
  rw [hzs, hslot, children] at hafter
  rcases exists_valueAt hz hn hlog with ⟨g, e, rfl⟩ | ⟨xs, x₀, heads, g, X, ys, e, h⟩
  · have hkids : eventsOf (l ++ d.focus :: r) ++ .closing :: Crumb.eventsAfter slot.crumbs =
        eventsOf (g.map .token) ++ .closing :: (e ++ zs.map .leaf) := by
      simpa [eventsOf_tokens] using hafter
    have hmem : d.focus ∈ g.map Tree.token := by simp [← (eventsOf_inj _ _ hkids).1]
    obtain ⟨z, -, hz⟩ := List.mem_map.mp hmem
    rw [← hz] at hcontent
    cases hcontent
  · obtain rfl : after = g.map .leaf ++ (X.events ++ .closing :: e) := by
      simpa using hlog.symm.trans h.log
    have hkids : eventsOf (l ++ d.focus :: r) ++ .closing :: Crumb.eventsAfter slot.crumbs =
        eventsOf (g.map .token ++ [X]) ++ .closing :: (e ++ zs.map .leaf) := by
      simpa [eventsOf_tokens] using hafter
    obtain ⟨hkids, hend⟩ := eventsOf_inj _ _ hkids
    obtain ⟨rfl, rfl, rfl⟩ := eq_of_map_token_append hl hcontent hkids
    exact ⟨e, xs, x₀, heads, g, ys, h, hcrumbs, hne, by rw [hend, hzs]⟩

namespace LiesAt

variable {d : Cursor} {t : Text} {e : List Event} {xs heads g ys : List Token} {x₀ : Token}
    {bs : List Crumb}

/-- The text before the place is that of the tokens before the node. -/
theorem textBefore_eq (h : d.LiesAt t e xs x₀ heads g ys bs) :
    Crumb.textBefore d.crumbs = Token.join (xs ++ x₀ :: heads) := by
  rw [h.crumbs, Crumb.textBefore, ← Crumb.join_tokens_eventsBefore, ← h.valueAt.built,
    Token.join_append, textOf, leavesOf_map_token]

/-- The text behind it is that of the tokens behind the node. -/
theorem textAfter_eq (h : d.LiesAt t e xs x₀ heads g ys bs) :
    Crumb.textAfter d.crumbs = Token.join ys := by
  rw [h.crumbs, Crumb.textAfter, ← Crumb.join_tokens_eventsAfter, h.after, ← h.valueAt.tokens_after,
    Event.tokens_append, Event.tokens_map_leaf]
  simp

/-- A block sequence stands in the column that the tree says. -/
theorem replaces (h : d.LiesAt t e xs x₀ heads g ys bs) (hn : HasLineFeeds (lex t)) {v : Value}
    {N : Tree} (hN : Replaces d.focus d.column v N) :
    Replaces d.focus (Position.advance {} (Token.join (xs ++ x₀ :: heads))).column v N := by
  cases hN with
  | atom hk a => exact .atom hk a
  | flow hk hf vs => exact .flow hk hf vs
  | @block hk hf vs hne nl hl =>
    have hmem := h.valueAt.newline_mem hn hk hf
    have hcolumn : d.column = (Position.advance {} (Token.join (xs ++ x₀ :: heads))).column := by
      rw [← h.valueAt.built, Token.join_append, Position.advance_append, column, h.crumbs,
        List.foldr_cons, columnAfterAll_map_token]
      exact (Position.column_advance ⟨0, 0, _⟩ _).symm.trans
        (Position.column_advance_of_mem _ _ hmem)
    rw [hcolumn]
    exact .block hk hf hne hl

/-- With another node in the place, the text of the tree is parsed as the tree. -/
theorem parseStrict_replace (h : d.LiesAt t e xs x₀ heads g ys bs)
    (hx : parseStrict t = .ok d.rebuild) (hn : HasLineFeeds (lex t)) {v : Value} (hv : v.Made)
    {N : Tree} (hN : Replaces d.focus d.column v N) (hold : StopsAt isBlank d.focus.text)
    (hplain : ∀ a, v = .atom a → a.written = .plain →
      NoMarker a.text ∧ (Crumb.textAfter d.crumbs).head? ≠ some '#') :
    parseStrict (d.replace N).rebuild.text = .ok (d.replace N).rebuild ∧
      lex (d.replace N).rebuild.text = xs ++ x₀ :: (heads ++ (N.leaves ++ ys)) := by
  have htext : (d.replace N).rebuild.text =
      Token.join (xs ++ x₀ :: (heads ++ (N.leaves ++ ys))) := by
    rw [text_rebuild]
    simp [replace, h.textBefore_eq, h.textAfter_eq, text]
  have hN' := h.replaces hn hN
  have hlex := h.valueAt.lex_eq hn hv hN' hold (h.textAfter_eq ▸ hplain)
  obtain ⟨hf, hrest, hlog⟩ := h.valueAt.replaced _ N v hv hN' hlex
  have hcrumbs : d.crumbs ≠ [] := by simp [h.crumbs]
  rw [htext]
  refine ⟨parseStrict_rebuild hcrumbs hx hf ?_, hlex⟩
  rw [hlog, hrest, h.crumbs, Crumb.eventsBefore_cons _ h.ne, Crumb.eventsAfter_cons _ h.ne, h.after]
  simp [eventsOf_tokens]

end LiesAt

end Cursor

/-! ## Writes in place

What may go wrong when a text is written into another is said in the hypothesis `InPlace`, and
nothing else does. -/

/-- What is written has a line feed in every line break. -/
theorem Replaces.hasLineFeeds {X N : Tree} {n : Nat} {v : Value} (h : Replaces X n v N) :
    HasLineFeeds N.leaves := by
  cases h with
  | atom hk a => exact (a.breaksAs_node ['\n']).hasLineFeeds .lf
  | flow hk hf vs => exact BreaksAs.hasLineFeeds (Value.breaksAs_flowTree _) .lf
  | block hk hf hne hl => exact (Value.breaksAs_blockTree _ _).hasLineFeeds hl

/-- The tree of an atom is made of its tokens, unless its text is taken for a marker. -/
theorem Atom.Made.tree_eq_node_of_noMarker {a : Atom} (ha : a.Made)
    (hm : a.written = .plain → NoMarker a.text) : a.tree = a.node := by
  have hcuts : Cuts {} a.tokens [] := by
    refine ha.cuts_tokens rfl (fun _ => rfl) (fun _ _ _ h => nomatch h) fun hw _ c u hc => ?_
    exact ha.isMarkerLine_eq hw (hm hw) (n := 0) (.inl rfl) hc
  have hlex : lex a.render = a.tokens := by
    rw [lex, ← join_tokens]
    exact hcuts.lexFrom_eq
  rw [tree, node, hlex]

namespace Cursor

/-- A value may be written over the node at `d`, the one at the path : the node does not begin
with white space, no empty list takes the place of a block sequence, and what is written without
quotes is not taken for the end of the document and has no comment directly behind it. -/
structure InPlace (c : Cursor) (p : KeyPath) (v : Value) (d : Cursor) : Prop where
  find : c.find? p = some d
  old : StopsAt isBlank d.focus.text
  empty : v = .sequence [] → d.focus.isFlow = true
  plain : ∀ a, v = .atom a → (a.styledLike (Scalar.style d.focus)).written = .plain →
    NoMarker a.text ∧ (Crumb.textAfter d.crumbs).head? ≠ some '#'

/-- A write over a node puts the tree of a value in its place. -/
theorem Written.exists_replaces {slot d : Cursor} {v : Value} {t : Tree} (h : slot.Written v t)
    (hd : slot.content? = some d) (hv : v.Made) (hempty : v = .sequence [] → d.focus.isFlow = true)
    (hplain : ∀ a, v = .atom a → (a.styledLike (Scalar.style d.focus)).written = .plain →
      NoMarker a.text) :
    ∃ w N, w.Made ∧ Replaces d.focus d.column w N ∧ t = (d.replace N).rebuild ∧
      ∀ b, w = .atom b → ∃ a, v = .atom a ∧ b = a.styledLike (Scalar.style d.focus) := by
  -- The place holds a node and the sequence is not emptied, so two of the outcomes remain.
  cases h with
  | fillAtom hc | fillSequence hc =>
    rw [hc] at hd
    cases hd
  | @scalar content hc hk a =>
    obtain rfl := Option.some.inj (hc.symm.trans hd)
    have ha : (a.styledLike (Scalar.style content.focus)).Made := Atom.Made.styledLike hv _
    refine ⟨.atom _, _, ha, .atom (by simp [isNode, hk]) _, ?_, ?_⟩
    · rw [setScalar, ha.tree_eq_node_of_noMarker fun hw => by simpa using hplain a rfl hw]
    · rintro b hb
      exact ⟨a, rfl, (Value.atom.inj hb).symm⟩
  | @sequence content hc hk vs hne s hs =>
    obtain rfl := Option.some.inj (hc.symm.trans hd)
    have hnew : (content.newSequence vs).Made := Value.AllMade.styledLike _ hv
    have hseq : content.focus.isNode .sequence = true := by simp [isNode, hk]
    refine ⟨content.newSequence vs, s, hnew, ?_, rfl, fun b hb => by cases hb⟩
    obtain ⟨hf, -, hread⟩ | ⟨hf, hitems, nl, hl, -, hread⟩ := content.newSequence_cases hv hne
    · obtain rfl := Except.ok.inj (hs.symm.trans hread)
      exact .flow hseq hf _
    · obtain rfl := Except.ok.inj (hs.symm.trans hread)
      exact .block hseq hf hitems hl
  | emptied hc hk hf hs =>
    obtain rfl := Option.some.inj (hc.symm.trans hd)
    rw [hempty rfl] at hf
    cases hf

/-- What is written in place is read back : the text of the tree is parsed as the tree. -/
theorem parseStrict_of_put {T : Text} {x t : Tree} {p : KeyPath} {v : Value} {d : Cursor}
    (hx : parseStrict T = .ok x) (hn : HasLineFeeds (lex T)) (hv : v.Made)
    (hin : (ofTree x).InPlace p v d) (h : (ofTree x).put p v = .ok t) :
    parseStrict t.text = .ok t ∧ HasLineFeeds (lex t.text) := by
  obtain ⟨slot, hslot, hvalue, hw⟩ := written_of_put h
  have hfollow := (slot_eq _ p) ▸ hslot
  have hd : slot.content? = some d := by
    have hfind := hin.find
    rwa [find?_eq, hfollow, Option.bind_some] at hfind
  have hne : slot.crumbs ≠ [] := by
    obtain ⟨entry, -, hentry⟩ := Option.bind_eq_some_iff.mp hslot
    rw [slot?_eq] at hentry
    obtain ⟨k, l, r, -, hcrumbs, -⟩ := step?_eq_some hentry
    simp [hcrumbs]
  have hx' : parseStrict T = .ok slot.rebuild :=
    hx.trans (congrArg _ (rebuild_follow? hfollow).symm)
  -- The place is found in the run on the old text, and the value is written over the node there.
  obtain ⟨e, xs, x₀, heads, g, ys, hlies⟩ := exists_liesAt hx' hn hvalue hne hd
  obtain ⟨w, N, hwm, hN, rfl, hatom⟩ :=
    hw.exists_replaces hd hv hin.empty fun a ha hp => (hin.plain a ha hp).1
  obtain ⟨hparse, hlex⟩ :=
      hlies.parseStrict_replace ((rebuild_content? hd).symm ▸ hx') hn hwm hN hin.old (by
    rintro b rfl hb
    obtain ⟨a, ha, rfl⟩ := hatom b rfl
    simpa using hin.plain a ha hb)
  have htokens := hlies.valueAt.tokens
  refine ⟨hparse, fun z hz => ?_⟩
  have hmem : z ∈ lex T ∨ z ∈ N.leaves := by
    simp only [hlex, htokens, List.mem_append, List.mem_cons] at hz ⊢
    tauto
  exact hmem.elim (hn z) (hN.hasLineFeeds z)

/-- In the new text the value is found at its path, and at the paths that are apart from it what
was found there before. -/
theorem reads_of_put {T : Text} {x t : Tree} {p : KeyPath} {v : Value} {d : Cursor}
    (hx : parseStrict T = .ok x) (hn : HasLineFeeds (lex T)) (hv : v.Made)
    (hin : (ofTree x).InPlace p v d) (h : (ofTree x).put p v = .ok t) :
    ∃ y, parseStrict t.text = .ok y ∧
    (∃ new, ((ofTree y).find? p).map focus = some new ∧ v.ShownBy new) ∧
      ∀ q, p.Apart q → ((ofTree y).find? q).map focus = ((ofTree x).find? q).map focus := by
  obtain ⟨y, new, rfl, hnew, hshown, hrest⟩ := exists_of_set hv (set_of_put h .error)
  exact ⟨_, (parseStrict_of_put hx hn hv hin h).1, ⟨new, hnew, hshown⟩, hrest⟩

/-- A number is written over another, before a comment. -/
example :
    let text : Text := "a:\n  b: 1 # one\n".toList
    let p : KeyPath := ⟨[['a'], ['b']], by simp⟩
    ∃ x t, parseStrict text = .ok x ∧ (ofTree x).put p (.atom (.ofInt 2)) = .ok t ∧
      t.text = "a:\n  b: 2 # one\n".toList ∧ parseStrict t.text = .ok t := by
  intro text p
  have hx : parseStrict text = .ok (parse text).tree :=
    parseStrict_eq_ok.mpr ⟨List.eq_nil_of_length_eq_zero (by decide +kernel), rfl⟩
  obtain ⟨d, hd, hd'⟩ : ∃ d, (ofTree (parse text).tree).find? p = some d ∧
      (d.focus.text, Crumb.textAfter d.crumbs) = (['1'], " # one\n".toList) :=
    Option.map_eq_some_iff.mp (by decide +kernel)
  obtain ⟨t, ht, ht'⟩ : ∃ t, (ofTree (parse text).tree).put p (.atom (.ofInt 2)) = .ok t ∧
      t.text = "a:\n  b: 2 # one\n".toList := by
    have h : ((ofTree (parse text).tree).put p (.atom (.ofInt 2))).toOption.map Tree.text =
        some "a:\n  b: 2 # one\n".toList := by decide +kernel
    cases hput : (ofTree (parse text).tree).put p (.atom (.ofInt 2)) with
    | error e => simp [hput, Except.toOption] at h
    | ok t => exact ⟨t, rfl, by simpa [hput, Except.toOption] using h⟩
  obtain ⟨hold, hafter⟩ := Prod.mk.inj hd'
  have hin : (ofTree (parse text).tree).InPlace p (.atom (.ofInt 2)) d := by
    refine ⟨hd, ?_, nofun, ?_⟩
    · rintro c u hc
      rw [hold] at hc
      cases hc
      decide
    · rintro a ha -
      cases ha
      rw [hafter]
      exact ⟨by unfold NoMarker; decide, by decide⟩
  have hn : HasLineFeeds (lex text) := by
    unfold HasLineFeeds
    decide +kernel
  have hv : (Value.atom (.ofInt 2)).Made := Atom.Made.ofInt 2
  exact ⟨_, t, hx, ht, ht', (parseStrict_of_put hx hn hv hin ht).1⟩

end Cursor

end YamlPatch
