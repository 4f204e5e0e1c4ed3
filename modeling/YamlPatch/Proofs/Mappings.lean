import YamlPatch.Proofs.Layout
import YamlPatch.Proofs.Reparsing
import YamlPatch.Proofs.RoundTrip

/-!
# Mappings come back from their text

The keys of a mapping on several lines begin lines. Behind a margin that makes no difference,
and neither does it for the mappings inside. But a key at the very start of a line is read as
the marker that ends a document if it is written plain and white space stands behind its first
three full stops (`Value.EndsDocument`) : such keys are not quoted. If it is the first of the
mapping then the document begins behind the marker, to the right of the margin
(`Value.column_ne_zero_of_endsDocument`). If it stands below another then the document ends with
the keys above, and what is left of the line has no place
(`Value.not_isDocument_of_endsDocument`). So a mapping comes back from its text exactly if no
key of that kind stands at the start of a line (`Value.reads_back_mapping_iff`).

That it comes back is the round trip of values. That else it does not is shown on the run of the
parser : at the marker it is at a step that is known, and what it reports or builds there stays.
-/

namespace YamlPatch

open TokenKind Lexeme YamlPatch.Tree LexState Config

/-! ## Tokens behind a marker

What stands behind the marker on its line is the rest of the key. -/

/-- Three full stops at the start of a line end a document if white space follows them. -/
theorem LexState.reads_documentEnd {s : LexState} (hs : s.atLineStart = true) {c : Char}
    (hc : isBlank c = true) (t : Text) : s.Reads ⟨documentEnd, ['.', '.', '.']⟩ (c :: t) :=
  .of_scan (by simp [scan, hs, scanLineStart, isMarkerLine, blankAhead, hc])

/-- Behind the marker a key goes on with a word, or with spaces and a word. -/
theorem Value.EndsDocument.exists_lexFrom {k t : Text} (hk : EndsDocument k) {s : LexState}
    (hs : s.atLineStart = true) (ht : ∀ f, wordLength f t = 0) :
    ∃ zs y ys, lexFrom s (k ++ t) = ⟨documentEnd, ['.', '.', '.']⟩ :: (zs ++ y :: ys) ∧
      (∀ z ∈ zs, z.kind = space) ∧ y.kind.isPlain = true := by
  obtain ⟨hplain, c, u, rfl, hc⟩ := hk
  have hplain := plainText_of_needsQuotes hplain
  have hchars : ∀ d ∈ c :: u, isPlainChar d = true :=
    fun d hd => hplain.chars d (by simp [List.mem_cons.mp hd])
  have hlast : ∀ d, (c :: u).getLast? = some d → isBlank d = false := fun d hd =>
    hplain.last d (by simpa [List.getLast?_cons_cons] using hd)
  let e : Token := ⟨documentEnd, ['.', '.', '.']⟩
  -- Behind the marker the line has begun, as behind a word.
  have hwithin : (s.after e).Within := ⟨rfl, rfl, s.atLineStart_after (by simp [e]) (by simp [e])⟩
  have hcuts := cuts_plainTokens_of_within hwithin hchars hlast (ht _)
  have hlex : lexFrom s ('.' :: '.' :: '.' :: c :: u ++ t) =
      e :: (plainTokens (c :: u) ++ lexFrom ((s.after e).afterAll (plainTokens (c :: u))) t) := by
    unfold Cuts at hcuts
    rw [join_plainTokens] at hcuts
    rw [← hcuts]
    exact (reads_documentEnd hs hc (u ++ t)).lexFrom_eq
  have hwords := wordy_plainTokens hlast
  have hne : plainTokens (c :: u) ≠ [] := fun h => by simpa [h] using join_plainTokens (c :: u)
  obtain ⟨x, xs, hxs⟩ := List.exists_cons_of_ne_nil hne
  rw [hxs] at hlex hwords
  obtain ⟨hx | ⟨hx, y, ys, rfl, hy⟩, -⟩ := hwords
  · exact ⟨[], x, _, hlex, by simp, hx⟩
  · exact ⟨[x], y, _, hlex, by simpa using hx, hy⟩

namespace Config

variable {c : Config} {u : Task} {d : List Tree} {fs : List Frame} {zs ys : List Token} {y : Token}

/-! ## Below another key

The lines above are read as a document, since they would be one by themselves. What follows the
marker on its line is then reported. -/

/-- What is left of a line has no place there. -/
theorem faults_finishLine (hzs : ∀ z ∈ zs, z.kind = space) (hy : y.kind.isPlain = true)
    (p : Position) : (c.facing (⟨u, d⟩ :: fs) p (zs ++ y :: ys)).finishLine.faults ≠ [] := by
  have hstop : ∀ w ws, y :: ys = w :: ws → (w.kind == space || w.kind == comment) = false := by
    refine forall_first (P := fun w => (w.kind == space || w.kind == comment) = false) ?_
    cases hk : y.kind <;> simp_all [isPlain]
  have hrun : kindRun (fun k => k == space || k == comment) (locate p (zs ++ y :: ys)) =
      zs.length :=
    kindRun_locate p (fun z hz => by simp [hzs z hz]) hstop
  dsimp only [finishLine]
  rw [rest_facing, hrun, take_facing c u d fs p zs (y :: ys) rfl, kind?_facing]
  split
  · rename_i hk
    cases hk
  · rename_i hk
    rw [Option.some.inj hk] at hy
    cases hy
  · simp [errorLine, report]

/-- Behind the root of a document a line must be over after the marker that ends it. -/
theorem faults_stepDocument {e w : Token} (hw : w.kind.isTrivia = true) (he : e.kind = documentEnd)
    (hzs : ∀ z ∈ zs, z.kind = space) (hy : y.kind.isPlain = true) (p : Position) :
    (c.facing (⟨.document, d⟩ :: fs) p (w :: e :: (zs ++ y :: ys))).stepDocument.faults ≠ [] := by
  have hws : ∀ z ∈ [w], z.kind.isTrivia = true := by simpa using hw
  have hstop : ∀ v vs, e :: (zs ++ y :: ys) = v :: vs → v.kind.isTrivia = false :=
    forall_first (by rw [he]; rfl)
  have hsplit : w :: e :: (zs ++ y :: ys) = [w] ++ e :: (zs ++ y :: ys) := rfl
  rw [hsplit, stepDocument, rest_facing, significant_locate p hws hstop,
    takeTrivia_facing c _ d fs p _ _ hws hstop]
  simp only [locate, Lexeme.kind, he]
  rw [take_one_facing, faults_close]
  exact faults_finishLine hzs hy _

/-! ## At the start of the text

Here the marker comes before any document, which is no fault. But then the root stands behind it
and not in the column of the mapping. -/

/-- Between documents a marker belongs to the stream. -/
theorem step_documentEnd {e : Token} (he : e.kind = documentEnd) (p : Position) (xs : List Token) :
    (c.facing [] p (e :: xs)).step =
      some
        ({ c with finished := c.finished ++ [Tree.token e] }.facing [] (p.advance e.text) xs) := by
  have hstop : ∀ v vs, e :: xs = v :: vs → v.kind.isTrivia = false := forall_first (by rw [he]; rfl)
  have hnone : ∀ z ∈ ([] : List Token), z.kind.isTrivia = true := by simp
  have hsig := significant_locate p hnone hstop
  have htrivia := takeTrivia_between c p hnone hstop
  simp only [List.nil_append, Token.join_nil, Position.advance_nil, List.map_nil, List.append_nil]
    at hsig htrivia
  have hstep : (c.facing [] p (e :: xs)).step = (c.facing [] p (e :: xs)).stepStream := rfl
  rw [hstep, stepStream, rest_facing, hsig, htrivia]
  simp only [locate, Lexeme.kind, he]
  rfl

/-- A word opens a mapping or a scalar. -/
theorem exists_opening_fillContent {l : Lexeme} {ls : List Lexeme} (hr : c.rest = l :: ls)
    (hl : l.kind.isPlain = true) {s : Slot} (hs : s.compact = true) :
    ∃ k : NodeKind, k.isContent = true ∧ c.log ++ [.opening k] <+: (c.fillContent s).log := by
  have hpush (t : Task) {e : Config} (h : Grows (c.push t) e) :
      c.log ++ [.opening t.nodeKind] <+: e.log :=
    log_push c t ▸ h.log
  have hk : ¬(l.kind = lineBreak ∨ l.kind = comment) ∧ l.kind ≠ dash := by
    refine ⟨?_, ?_⟩
    · rintro (h | h) <;> rw [h] at hl <;> cases hl
    · intro h
      rw [h] at hl
      cases hl
  unfold fillContent
  rw [hr]
  simp only [hk.1, hk.2, hs, true_and, if_false]
  split
  · exact ⟨.mapping, rfl, hpush (.mapping l.column) ((Grows.refl _).openEntry _)⟩
  · refine ⟨.scalar, rfl, ?_⟩
    rw [takeInline_of_isPlain hl]
    exact hpush (.plain s.minColumn) ((Grows.refl _).take _)

end Config

/-- Trees that are built of tokens and then of a node begin with these. -/
theorem Tree.exists_of_prefix {xs : List Token} {k : NodeKind} {es : List Event} {ts : List Tree}
    (h : xs.map Event.leaf ++ .opening k :: es <+: eventsOf ts) : ∃ vs us,
      ts = xs.map token ++ node k vs :: us ∧ es <+: eventsOf vs ++ .closing :: eventsOf us := by
  induction xs generalizing ts with
  | nil =>
    match ts with
    | [] => simp [eventsOf] at h
    | token x :: us => simp [eventsOf, events] at h
    | node j vs :: us =>
      simp only [eventsOf, events, List.map_nil, List.nil_append, List.append_assoc,
        List.cons_append, List.cons_prefix_cons, Event.opening.injEq] at h
      exact ⟨vs, us, by rw [h.1]; rfl, h.2⟩
  | cons x xs ih =>
    match ts with
    | [] => simp [eventsOf] at h
    | token y :: us =>
      simp only [eventsOf, events, List.map_cons, List.cons_append, List.nil_append,
        List.cons_prefix_cons, Event.leaf.injEq] at h
      obtain ⟨vs, us, rfl, hes⟩ := ih h.2
      exact ⟨vs, us, by rw [h.1]; rfl, hes⟩
    | node j vs :: us => simp [eventsOf, events] at h

/-- The run has no faults anywhere if the text is accepted. -/
theorem IsDocument.faultless {t : Text} {r : Cursor} (h : IsDocument t r) {c : Config}
    (hc : Leads (start t) c) : c.faults = [] := by
  obtain ⟨tree, htree, -⟩ := h
  have hlast : Leads c (start t).run := hc.run_eq ▸ Leads.to_run c
  exact hlast.faultless (parseStrict_eq_ok.mp htree).1

/-- If tokens come first and then the root of a document, the root stands behind these tokens. -/
theorem IsDocument.column_eq {t : Text} {r : Cursor} (h : IsDocument t r) {c : Config}
    (hc : Leads (start t) c) {xs : List Token} {k : NodeKind} (hk : k.isContent = true)
    (hlog : xs.map Event.leaf ++ [.opening .document, .opening k] <+: c.log) :
    r.column = textColumn 0 (Token.join xs) := by
  obtain ⟨tree, htree, -, hroot⟩ := h
  have hlast : Leads c (start t).run := hc.run_eq ▸ Leads.to_run c
  have hevents := hlog.trans hlast.grows.log
  have hend : (start t).run.tasks = [] := by simp [tasks, frames_run]
  rw [log_of_tasks_nil hend] at hevents
  obtain ⟨vs, us, hfinished, hdocument⟩ := exists_of_prefix hevents
  obtain ⟨ws, vs, rfl⟩ : ∃ ws vs', vs = node k ws :: vs' := by
    rcases vs with - | ⟨x | ⟨j, ws⟩, vs⟩
    · simp [eventsOf] at hdocument
    · simp [eventsOf, events] at hdocument
    · obtain rfl : k = j := by simpa [eventsOf, events] using hdocument
      exact ⟨ws, vs, rfl⟩
  have hcontent : (node k ws).isContent = true := hk
  rw [← (parseStrict_eq_ok.mp htree).2, stream, hfinished, List.append_assoc, List.cons_append,
    Cursor.root?_stream xs hcontent] at hroot
  obtain rfl := Option.some.inj hroot
  exact columnAfterAll_map_token 0 xs

/-- A word behind a marker and spaces opens the root of a document. -/
theorem exists_leads_word {t : Text} {e : Token} {zs ys : List Token} {y : Token}
    (hlex : lex t = e :: (zs ++ y :: ys)) (he : e.kind = documentEnd)
    (hzs : ∀ z ∈ zs, z.kind = space) (hy : y.kind.isPlain = true) :
    ∃ c k, Leads (start t) c ∧ k.isContent = true ∧
      (e :: zs).map Event.leaf ++ [.opening .document, .opening k] <+: c.log := by
  have hy' : y.kind.isTrivia = false ∧ y.kind.isMarker = false ∧ y.kind.isProperty = false := by
    cases hk : y.kind <;> simp [hk, isPlain] at hy <;> simp [isTrivia, isMarker, isProperty]
  have hspaces : ∀ z ∈ zs, z.kind.isTrivia = true := fun z hz => by rw [hzs z hz]; rfl
  have hprops (q : Position) : propertiesLength (locate q (y :: ys)) = 0 :=
    propertiesLength_locate q (forall_first hy'.2.2)
  have hstart : start t = (start t).facing [] {} (e :: (zs ++ y :: ys)) := by rw [← hlex]; rfl
  have hmarker := (start t).step_documentEnd he {} (zs ++ y :: ys)
  have hopen :=
    step_between { start t with finished := [Tree.token e] } (Position.advance {} e.text) ys hspaces
    ⟨hy'.1, hy'.2.1⟩
  rw [← hstart] at hmarker
  rw [fill_facing _ _ _ _ _ _ hprops] at hopen
  let c : Config := { start t with finished := Tree.token e :: zs.map .token }
  obtain ⟨k, hk, hlog⟩ :=
    exists_opening_fillContent (l := ⟨y, (Position.advance {} e.text).advance (Token.join zs)⟩)
    (c := c.facing [⟨.document, []⟩] _ (y :: ys)) rfl hy (s := ⟨0, none, true⟩) rfl
  refine ⟨_, k, (Leads.of_step hmarker).trans (.of_step hopen), hk, ?_⟩
  simpa [c, log, facing, eventsOf, events, eventsOf_tokens, Task.nodeKind] using hlog

/-- A text that begins with a marker and a word on one line has its root to the right of the
marker. -/
theorem IsDocument.le_column {t : Text} {r : Cursor} (h : IsDocument t r) {e : Token}
    {zs ys : List Token} {y : Token} (hlex : lex t = e :: (zs ++ y :: ys))
    (he : e.kind = documentEnd) (hzs : ∀ z ∈ zs, z.kind = space) (hy : y.kind.isPlain = true) :
    textColumn 0 e.text ≤ r.column := by
  obtain ⟨c, k, hc, hk, hlog⟩ := exists_leads_word hlex he hzs hy
  have hstraight : ∀ z ∈ zs, Straight z := fun z hz => by
    have hmem : z ∈ lexFrom {} t := by
      rw [show lexFrom {} t = _ from hlex]
      simp [hz]
    exact straight_of_mem_lexFrom hmem
  calc textColumn 0 e.text
      ≤ textColumn 0 e.text + zs.length := Nat.le_add_right _ _
    _ ≤ textColumn (textColumn 0 e.text) (Token.join zs) :=
        le_textColumn_join hstraight fun z hz => by rw [hzs z hz]; rfl
    _ = r.column := by rw [h.column_eq hc hk hlog, Token.join_cons, textColumn_append]

namespace Value

/-! ## Texts of mappings

The text of a mapping is cut before an entry, into that of a shorter mapping and the lines of
the rest. -/

/-- Such a key is written without quotes. -/
theorem keyText_of_endsDocument {k : Text} (h : EndsDocument k) : keyText k = k := by
  have hn := h.1
  have hcontrol : k.any isControl = false := List.any_eq_false.mpr fun c hc hcontrol => by
    have hchar := (plainText_of_needsQuotes hn).chars c hc
    simp [isPlainChar, hcontrol] at hchar
  simp [keyText, Atom.render, Atom.written, Atom.ofText, Atom.withStyle, Style.fitting,
    hcontrol, hn]

/-- The text of a mapping begins with its first key, and goes on with a colon that ends a word. -/
theorem exists_text_mapping {nl : Text} (hl : IsNewline nl) (n : Nat) (k : Text) (v : Value)
    (es : List (Text × Value)) :
    ∃ t, ((mapping ((k, v) :: es)).blockTree nl n).text = keyText k ++ t ∧
    ∀ f, wordLength f t = 0 := by
  simp only [blockTree, List.isEmpty_cons, Bool.false_eq_true, if_false, blockEntryTrees, lined,
    text_node, textOf_cons]
  generalize textOf (linesBelow nl n (blockEntryTrees nl n es)) = rest
  split
  · refine ⟨':' :: (nl ++ (List.replicate (n + 2) ' ' ++ ((v.blockTree nl (n + 2)).text ++ rest))),
      ?_, fun f => ?_⟩
    · simp [text_blockEntryNode]
    · simp [wordLength, hl.colonEndsWord]
  · refine ⟨':' :: ' ' :: (v.flowTree.text ++ rest), ?_, fun f => wordLength_indicator f _⟩
    simp [text_entryNode]

/-- The lines of entries are written one below the other. -/
theorem entryLines_append (ds es : List (Text × Value)) :
    entryLines (ds ++ es) = entryLines ds ++ entryLines es := by
  induction ds with
  | nil => rfl
  | cons d ds ih => simp [entryLines, ih]

/-- The lines of a mapping may be those of two, one below the other. -/
theorem text_mapping_append (nl : Text) {ds es : List (Text × Value)} (hds : ds ≠ [])
    (hes : es ≠ []) (n : Nat) :
    ((mapping (ds ++ es)).blockTree nl n).text = ((mapping ds).blockTree nl n).text ++
      (nl ++ List.replicate n ' ' ++ ((mapping es).blockTree nl n).text) := by
  have hlines {fs : List (Text × Value)} (h : fs ≠ []) :
      (mapping fs).blockLines = entryLines fs ∧ entryLines fs ≠ [] := by
    have hne := blockLines_ne_nil (mapping fs)
    cases fs with
    | nil => exact absurd rfl h
    | cons f fs => exact ⟨rfl, hne⟩
  obtain ⟨hd, hdne⟩ := hlines hds
  obtain ⟨he, hene⟩ := hlines hes
  rw [text_blockTree, text_blockTree, text_blockTree, hd, he, (hlines (by simp [hds])).1,
    entryLines_append, joinWith_append _ hdne hene, List.append_assoc]

/-- Entries are made in the usual ways if those of both parts are. -/
theorem entriesMade_append {ds es : List (Text × Value)} :
    EntriesMade (ds ++ es) ↔ EntriesMade ds ∧ EntriesMade es := by
  induction ds with
  | nil => simp [EntriesMade]
  | cons d ds ih => simp [EntriesMade, ih, and_assoc]

/-! ## Keys at the start of a line

The two cases together : above the key there are other entries or there are none. -/

/-- Below other keys it is not accepted. -/
theorem not_isDocument_of_endsDocument {ds es : List (Text × Value)} {k : Text} {v : Value}
    (hv : EntriesMade ds) (hds : ds ≠ []) (hbegins : ∀ d ∈ ds, ¬EndsDocument d.1)
    (hk : EndsDocument k) {nl : Text} (hl : IsNewline nl) (r : Cursor) :
    ¬IsDocument ((mapping (ds ++ (k, v) :: es)).blockTree nl 0).text r := by
  intro h
  obtain ⟨t, ht, hcolon⟩ := exists_text_mapping hl 0 k v es
  have htext := text_mapping_append nl hds (List.cons_ne_nil (k, v) es) 0
  rw [ht, keyText_of_endsDocument hk] at htext
  let s := LexState.afterAll {} (margin 0 ++ ((mapping ds).blockTree nl 0).leaves)
  have hstart : (s.after ⟨lineBreak, nl⟩).atLineStart = true := by cases hl <;> rfl
  obtain ⟨zs, y, ys, hlex, hzs, hy⟩ := hk.exists_lexFrom hstart hcolon
  have hbreak : lexFrom s (nl ++ List.replicate 0 ' ' ++ (k ++ t)) =
      ⟨lineBreak, nl⟩ :: ⟨documentEnd, ['.', '.', '.']⟩ :: (zs ++ y :: ys) := by
    rw [← hlex, List.replicate_zero, List.append_nil]
    exact (hl.reads s (k ++ t)).lexFrom_eq
  have hline : LineOver (⟨lineBreak, nl⟩ :: ⟨documentEnd, ['.', '.', '.']⟩ :: (zs ++ y :: ys)) :=
    forall_first rfl
  have hout (q : Position) :
      Outside 0
        (locate q (⟨lineBreak, nl⟩ :: ⟨documentEnd, ['.', '.', '.']⟩ :: (zs ++ y :: ys))) := by
    intro l rest hsig
    simp only [locate, significant, List.dropWhile_cons, Lexeme.kind, isTrivia, if_true, if_false,
      Bool.false_eq_true] at hsig
    obtain ⟨rfl, -⟩ := List.cons.inj hsig
    exact .inl rfl
  obtain ⟨p, hp⟩ := reaches_block (v := mapping ds) hv hl 0 (fun _ => hbegins) htext
    (.inr ⟨nl, k ++ t, hl, by simp⟩) hbreak hline hout
  -- The marker closes the document, and the rest of its line is left over.
  have hstep := hp.trans (.of_step (step_facing _ _ _ _ _ _))
  have hfaults := h.faultless hstep
  exact faults_stepDocument (w := ⟨lineBreak, nl⟩) (e := ⟨documentEnd, _⟩) rfl rfl hzs hy p hfaults

/-- Before all others it is accepted, but as a marker, and the root begins behind it. -/
theorem column_ne_zero_of_endsDocument {es : List (Text × Value)} {k : Text} {v : Value}
    (hk : EndsDocument k) {nl : Text} (hl : IsNewline nl) {r : Cursor}
    (h : IsDocument ((mapping ((k, v) :: es)).blockTree nl 0).text r) : r.column ≠ 0 := by
  obtain ⟨t, ht, hcolon⟩ := exists_text_mapping hl 0 k v es
  obtain ⟨zs, y, ys, hlex, hzs, hy⟩ := hk.exists_lexFrom (s := {}) rfl hcolon
  rw [ht, keyText_of_endsDocument hk] at h
  have hcolumn : 3 ≤ r.column := h.le_column hlex rfl hzs hy
  omega

/-! ## Coming back

One direction is the round trip of values, the other the two cases above. -/

/-- If no key is taken for a marker then the text is a document, and its root is a mapping on
several lines that stands for the value. -/
theorem reads_back_mapping {es : List (Text × Value)} (hv : EntriesMade es) (hne : es ≠ [])
    {nl : Text} (hl : IsNewline nl) (n : Nat) (hn : n = 0 → ∀ e ∈ es, ¬EndsDocument e.1) :
    ∃ r, IsDocument (Text.replaceChar '\n' nl ((mapping es).block n)) r ∧
    (mapping es).IsReadAs r.focus ∧
      r.focus.isFlow = false ∧ r.column = n := by
  have hb : (mapping es).isBlock = true := by simpa [isBlock] using hne
  exact ⟨_, isDocument_block (v := mapping es) hv hb hl n hn,
    isReadAs_blockTree (mapping es) nl n hv,
    isFlow_blockTree_mapping hne nl n, Cursor.column_ofRoot_margin n _⟩

/-- Without a margin there is no such document unless all keys are kept apart from markers. -/
theorem not_endsDocument_of_isDocument {es : List (Text × Value)} (hv : EntriesMade es) {nl : Text}
    (hl : IsNewline nl) {r : Cursor}
    (h : IsDocument (Text.replaceChar '\n' nl ((mapping es).block 0)) r) (hr : r.column = 0) :
    ∀ e ∈ es, ¬EndsDocument e.1 := by
  intro e he hk
  classical
  -- The first key that is taken for a marker has none of its kind above it.
  have hfirst : (es.find? fun e => EndsDocument e.1).isSome = true :=
    List.find?_isSome.mpr ⟨e, he, by simpa using hk⟩
  obtain ⟨⟨k, v⟩, hfind⟩ := Option.isSome_iff_exists.mp hfirst
  obtain ⟨hk, ds, fs, rfl, hds⟩ := List.find?_eq_some_iff_append.mp hfind
  have hk : EndsDocument k := by simpa using hk
  have hds : ∀ d ∈ ds, ¬EndsDocument d.1 := fun d hd => by simpa using hds d hd
  rw [replaceChar_block (v := mapping (ds ++ (k, v) :: fs)) hv (by simp [isBlock]) 0 nl,
    List.replicate_zero, List.nil_append] at h
  by_cases hne : ds = []
  · subst hne
    exact column_ne_zero_of_endsDocument hk hl h hr
  · exact not_isDocument_of_endsDocument (entriesMade_append.mp hv).1 hne hds hk hl r h

/-- A mapping on several lines from column `n`, as it is and with a carriage return before each
line feed, is accepted as one document, whose root is a block mapping at that column which
stands for the value, if and only if none of its keys stands at the start of a line and is taken
for the marker that ends a document. -/
theorem reads_back_mapping_iff {es : List (Text × Value)} (hv : EntriesMade es) (hne : es ≠ [])
    (n : Nat) {t : Text}
    (ht : t = (mapping es).block n ∨
      t = Text.replaceChar '\n' ['\r', '\n'] ((mapping es).block n)) :
    (∃ r, IsDocument t r ∧ (mapping es).IsReadAs r.focus ∧ r.focus.isFlow = false ∧ r.column = n) ↔
      (n = 0 → ∀ e ∈ es, ¬EndsDocument e.1) := by
  obtain ⟨nl, hl, rfl⟩ : ∃ nl, IsNewline nl ∧
      t = Text.replaceChar '\n' nl ((mapping es).block n) := by
    rcases ht with rfl | rfl
    · exact ⟨['\n'], .lf, (Text.replaceChar_self '\n' _).symm⟩
    · exact ⟨['\r', '\n'], .crlf, rfl⟩
  constructor
  · rintro ⟨r, hr, -, -, hcolumn⟩ rfl
    exact not_endsDocument_of_isDocument hv hl hr hcolumn
  · exact reads_back_mapping hv hne hl n

/-- What is read at the start of a line is the key behind the marker. -/
example : (mapping [("... x".toList, atom (.ofInt 1))]).block 0 = "... x: 1".toList ∧
    ((Cursor.ofTree (parse "... x: 1".toList).tree).root?.map fun r =>
      (r.column, (r.focus.childNodes .entry).map keyText?)) = some (4, [some ['x']]) := by
  decide +kernel

end Value

end YamlPatch
