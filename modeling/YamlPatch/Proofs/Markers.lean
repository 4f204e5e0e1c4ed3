import YamlPatch.Proofs.Levels
import YamlPatch.Proofs.LineStarts
import YamlPatch.Proofs.Relocation

/-!
# Documents behind a marker

A text that is cut at a document marker is read in two parts. The tokens from the marker on are
those of the second part (`lex_of_documentStart`). The parser does not take the marker before
all nodes above it are closed, unless it reports a fault at the marker itself (`Config.Spared`)
: a block collection ends at the marker, but a flow collection that is still open sets the
marker aside and goes on behind it. Once the marker comes between two documents the parser goes
on as from the start of the second part, further down (`parse_of_documentStart`). So whatever is
wrong with the first part, the trees and the faults of the second are those it has on its own.

That the parser spares the marker is an invariant of its steps. Each search ahead stops at a
marker or before the line break in front of it (`Ruled`), so the tokens that are taken before
the marker are a part of what stands before it. The exceptions are the functions that set text
aside as an error, and these report the place where they do so.
-/

namespace YamlPatch

open TokenKind LexState YamlPatch.Tree

/-! ## The tokens from a marker on

At a marker the lexer forgets all it knew of the text above. -/

/-- At the start of a line a marker is read in every context, and it leaves nothing of the
context. -/
theorem LexState.Reads.of_documentStart {s s' : LexState} {x : Token} {t : Text} (h : s.Reads x t)
    (hx : x.kind = documentStart) (hs' : s'.atLineStart = true) :
    s'.Reads x t ∧ s'.after x = s.after x := by
  have hs : s.atLineStart = true := h.atLineStart_of_isMarker (by rw [hx]; rfl)
  obtain ⟨c, u, hu, hk, hd⟩ := h
  have hline : isMarkerLine '-' c (u ++ t) = true := by
    by_contra hno
    unfold scan scanLineStart at hk
    rw [if_pos hs, if_neg hno] at hk
    split at hk
    · cases hk.trans hx
    · split at hk
      · cases hk.trans hx
      · split at hk
        · cases hk.trans hx
        · have := s.not_isMarker_scanInLine c (u ++ t)
          rw [show (s.scanInLine c (u ++ t)).1 = documentStart from hk.trans hx] at this
          cases this
  have hscan {s : LexState} (hs : s.atLineStart = true) :
      s.scan c (u ++ t) = (documentStart, 2) := by
    simp [scan, scanLineStart, hs, hline]
  refine ⟨⟨c, u, hu, by rw [hscan hs', hx], by rwa [hscan hs', ← hscan hs]⟩, ?_⟩
  have hempty {s : LexState} (hs : s.atLineStart = true) : s.line = [] := by
    simpa [atLineStart] using hs
  simp [after, hx, depthAfter, hempty hs, hempty hs']

/-- The tokens from a marker on are those of the text from the marker on, where a line starts. -/
theorem lex_of_documentStart {a b : Text} {xs ys : List Token} {x : Token}
    (h : lex (a ++ b) = xs ++ x :: ys) (ha : Token.join xs = a) (hx : x.kind = documentStart) :
    lex b = x :: ys ∧ (Position.advance {} a).column = 0 := by
  have hb : Token.join (x :: ys) = b := by
    have hjoin := join_lex (a ++ b)
    rw [h, Token.join_append, ha] at hjoin
    exact List.append_cancel_left hjoin
  obtain ⟨hread, hrest⟩ := (Cuts.of_lexFrom h).right.cases_cons
  obtain ⟨hread', hafter⟩ := hread.of_documentStart hx (show atLineStart {} = true from rfl)
  refine ⟨?_, ?_⟩
  · have hcuts : Cuts {} (x :: ys) [] := .cons hread' (hafter ▸ hrest)
    rw [← hb]
    exact hcuts.lexFrom_eq
  · have hline := LexState.length_line_afterAll (s := {}) (p := {}) rfl xs
    rw [ha] at hline
    rw [← hline, List.length_eq_zero_iff]
    simpa [LexState.atLineStart] using hread.atLineStart_of_isMarker (by rw [hx]; rfl)

/-! ## Lines before a marker

A search that ends at a line break cannot pass over a marker without passing over the line break
before it. -/

/-- Before a document marker there is a line break, if anything. -/
def Ruled (ls : List Lexeme) : Prop :=
  ls.IsChain fun l m => m.kind = documentStart → l.kind = lineBreak

/-- An end of the tokens has the property too. -/
theorem Ruled.drop {ls : List Lexeme} (h : Ruled ls) (n : Nat) : Ruled (ls.drop n) :=
  List.IsChain.suffix h (List.drop_suffix n ls)

/-- The tokens of a text have it, because a marker stands at the start of a line. -/
theorem ruled_start (t : Text) : Ruled (Config.start t).rest := by
  refine isChain_start
    (R := fun k k' => k' = documentStart → k = lineBreak) (fun {s x y t} hx hy hk => ?_) t
  by_contra hne
  have hline := hx.atLineStart_after hne (by simp [hy.text_ne_nil])
  rw [hy.atLineStart_of_isMarker (by rw [hk]; rfl)] at hline
  cases hline

variable {l : Lexeme} {ls ms : List Lexeme} {n : Nat}

/-- What is taken before a marker leaves the marker. -/
theorem suffix_drop_of_ne (hl : l.kind = documentStart) (h : l :: ls <:+ ms)
    (hn : ∀ m ∈ ms.take n, m.kind ≠ documentStart) : l :: ls <:+ ms.drop n := by
  induction n generalizing ms with
  | zero => exact h
  | succ n ih =>
    cases ms with
    | nil => simp at h
    | cons m ms =>
      rcases List.suffix_cons_iff.mp h with heq | h
      · obtain ⟨rfl, -⟩ := List.cons.inj heq
        exact absurd hl (hn l (by simp))
      · exact ih h fun k hk => hn k (by simp [hk])

/-- What is taken of a line that begins before a marker leaves the marker. -/
theorem Ruled.suffix_drop (hms : Ruled ms) (hl : l.kind = documentStart) (h : l :: ls <:+ ms)
    (hne : ms ≠ l :: ls) (hn : ∀ m ∈ ms.take n, m.kind ≠ lineBreak) : l :: ls <:+ ms.drop n := by
  induction n generalizing ms with
  | zero => exact h
  | succ n ih =>
    cases ms with
    | nil => simp at h
    | cons m ms =>
      rcases List.suffix_cons_iff.mp h with heq | h
      · exact absurd heq.symm hne
      · refine ih (hms.drop 1) h ?_ fun k hk => hn k (by simp [hk])
        rintro rfl
        exact hn m (by simp) ((List.isChain_cons_cons.mp hms).1 hl)

namespace Config

/-! ## The parser leaves a marker alone

For each move it is said what it may take. Only those that set text aside as an error take a
marker, and they report that. -/

variable {c d : Config} {p : Problem} {k : TokenKind}

/-- The tokens from the marker `l` on are left, or a fault was reported at the marker. -/
structure Spared (l : Lexeme) (ls : List Lexeme) (c : Config) : Prop where
  marker : l.kind = documentStart
  left : (∃ f ∈ c.faults, f.start = l.start) ∨ l :: ls <:+ c.rest
  ruled : Ruled c.rest

namespace Spared

/-- What changes neither the tokens that are left nor the faults. -/
theorem same (h : c.Spared l ls) (hr : d.rest = c.rest) (hf : d.faults = c.faults) :
    d.Spared l ls :=
  ⟨h.marker, by rw [hr, hf]; exact h.left, by rw [hr]; exact h.ruled⟩

/-- What takes tokens and leaves the marker. -/
theorem taken (h : c.Spared l ls) (hr : d.rest = c.rest.drop n) (hf : d.faults = c.faults)
    (hd : l :: ls <:+ c.rest → l :: ls <:+ c.rest.drop n) : d.Spared l ls :=
  ⟨h.marker, by rw [hr, hf]; exact h.left.imp_right hd, by rw [hr]; exact h.ruled.drop n⟩

/-- Opening a node leaves the marker alone. -/
theorem push (h : c.Spared l ls) (t : Task) : (c.push t).Spared l ls := h.same rfl rfl

/-- So does closing one. -/
theorem close (h : c.Spared l ls) : c.close.Spared l ls := h.same (by simp) (by simp)

/-- So does leaving a place to be filled. -/
theorem await (h : c.Spared l ls) (s : Slot) : (c.await s).Spared l ls := h.same rfl rfl

/-- Tokens other than markers may be taken. -/
theorem take (h : c.Spared l ls) (hn : ∀ m ∈ c.rest.take n, m.kind ≠ documentStart) :
    (c.take n).Spared l ls :=
  h.taken rfl (by simp) fun hs => suffix_drop_of_ne h.marker hs hn

/-- They may also be put into a node. -/
theorem wrap (h : c.Spared l ls) (hn : ∀ m ∈ c.rest.take n, m.kind ≠ documentStart) (k : NodeKind) :
    (c.wrap k n).Spared l ls :=
  h.taken rfl (by simp) fun hs => suffix_drop_of_ne h.marker hs hn

/-- A fault anywhere else changes nothing. -/
theorem report (h : c.Spared l ls) (p : Problem) : (c.report p).Spared l ls :=
  ⟨h.marker, h.left.imp_left (.imp fun _ hf => hf.imp_left (List.mem_append_left _)), h.ruled⟩

/-- A fault that is reported at the marker. -/
theorem of_report (h : c.Spared l ls) (hc : c.rest = l :: ls) (hr : ∃ n, d.rest = c.rest.drop n)
    (hf : d.faults = (c.report p).faults) : d.Spared l ls := by
  obtain ⟨n, hr⟩ := hr
  refine ⟨h.marker, .inl ⟨⟨p, l.start, Text.byteLength l.token.text⟩, ?_, rfl⟩,
    by rw [hr]; exact h.ruled.drop n⟩
  simp [hf, Config.report, hc]

/-- One token may be taken as long as the marker is not the next one. -/
theorem suffix_drop_one (h : l :: ls <:+ ms) (hne : ms ≠ l :: ls) : l :: ls <:+ ms.drop 1 := by
  cases ms with
  | nil => simp at h
  | cons m ms => exact (List.suffix_cons_iff.mp h).resolve_left fun heq => hne heq.symm

/-- So one token may be taken if it is not the marker. -/
theorem takeOne (h : c.Spared l ls) (hne : c.rest ≠ l :: ls) : (c.take 1).Spared l ls :=
  h.taken rfl (by simp) fun hs => suffix_drop_one hs hne

theorem wrapOne (h : c.Spared l ls) (hne : c.rest ≠ l :: ls) (k : NodeKind) :
    (c.wrap k 1).Spared l ls :=
  h.taken rfl (by simp) fun hs => suffix_drop_one hs hne

/-- The next token is not the marker if it has another kind. -/
theorem ne_of_kind? (h : c.Spared l ls) (hk : c.kind? = some k) (hne : k ≠ documentStart) :
    c.rest ≠ l :: ls := by
  rintro hc
  have hl : k = l.kind := by simpa [kind?, hc] using hk.symm
  exact hne (hl.trans h.marker)

/-- If the marker itself is set aside then this is the fault at the marker. -/
theorem errorToken (h : c.Spared l ls) (p : Problem) : (c.errorToken p).Spared l ls := by
  by_cases hc : c.rest = l :: ls
  · exact h.of_report (p := p) hc ⟨1, rfl⟩ (by simp [Config.errorToken])
  · exact (h.report p).wrapOne hc _

/-- An error to the end of the line begins at the marker or ends before it. -/
theorem errorLine (h : c.Spared l ls) (p : Problem) : (c.errorLine p).Spared l ls := by
  by_cases hc : c.rest = l :: ls
  · exact h.of_report (p := p) hc ⟨_, rfl⟩ (by simp [Config.errorLine])
  · refine (h.report p).taken
      (n := restOfLineLength c.rest) rfl (by simp [Config.errorLine]) fun hs => ?_
    exact h.ruled.suffix_drop h.marker hs hc fun m hm => by simpa using mem_take_kindRun m hm

/-- No quiet token is a marker. -/
theorem ne_documentStart_of_isQuiet (h : k.isQuiet = true) : k ≠ documentStart := by
  rintro rfl
  cases h

/-- A run of other kinds may be taken. -/
theorem takeRun (h : c.Spared l ls) {q : TokenKind → Bool} (hq : q documentStart = false) :
    (c.take (kindRun q c.rest)).Spared l ls := by
  refine h.take fun m hm hk => ?_
  have hm := mem_take_kindRun m hm
  rw [hk, hq] at hm
  cases hm

theorem takeTrivia (h : c.Spared l ls) : c.takeTrivia.Spared l ls := h.takeRun rfl

theorem takeSpaces (h : c.Spared l ls) : c.takeSpaces.Spared l ls := h.takeRun rfl

theorem takeProperties (h : c.Spared l ls) : (c.take (propertiesLength c.rest)).Spared l ls := by
  refine h.take fun m hm => ne_documentStart_of_isQuiet ?_
  rcases mem_take_propertiesLength m hm with hk | hk
  · exact isQuiet_of_isProperty _ hk
  · rw [hk]
    rfl

/-- No marker is counted as a word. -/
theorem ne_of_mem_take_plainLength : ∀ m ∈ ms.take (plainLength ms), m.kind ≠ documentStart :=
  fun m hm => ne_documentStart_of_isQuiet (isQuiet_of_mem_take_plainLength m hm)

/-- The rest of a line ends before the marker. -/
theorem finishLine (h : c.Spared l ls) : c.finishLine.Spared l ls := by
  have hspaces := h.takeRun (q := fun k => k == space || k == comment) rfl
  dsimp only [Config.finishLine]
  split
  · exact hspaces
  · exact hspaces
  · exact hspaces.errorLine _

/-- The indicator of an item is not the marker. -/
theorem openItem (h : c.Spared l ls) (hne : c.rest ≠ l :: ls) (column : Nat) :
    (c.openItem column).Spared l ls :=
  (((h.push .item).takeOne hne).takeSpaces).await _

/-- A key stands on its line. -/
theorem takeKey (h : c.Spared l ls) : c.takeKey.Spared l ls := by
  have hkey := (h.push .key).takeProperties
  dsimp only [Config.takeKey]
  split
  · exact hkey.close
  · exact (hkey.wrap (fun m hm => ne_documentStart_of_isQuiet (mem_take_keyLength m hm)) _).close

theorem takeColon (h : c.Spared l ls) : c.takeColon.Spared l ls := by
  unfold Config.takeColon
  split
  · exact h.takeOne (h.ne_of_kind? ‹_› (by decide))
  · exact h.report _

/-- So does all that an entry begins with. -/
theorem openEntry (h : c.Spared l ls) (column : Nat) : (c.openEntry column).Spared l ls :=
  ((h.push .entry).takeKey.takeSpaces.takeColon.takeSpaces.push .value).await _

/-- If the marker comes in place of a comma then it is reported and set aside. -/
theorem takeComma (h : c.Spared l ls) {closer : TokenKind} (p : Problem) :
    (c.takeComma closer p).Spared l ls := by
  unfold Config.takeComma
  split
  · exact h
  · rename_i k hk
    split
    · rename_i hcomma
      exact h.takeOne (h.ne_of_kind? hk (by rw [hcomma]; decide))
    · split
      · exact h
      · exact h.errorToken p

/-! ## Steps

Before a marker a step takes less than what stands before it, or it reports a fault there. -/

/-- Whatever fills a place ends before the marker, or the marker is reported. -/
theorem fillsIn {q : Option Slot} (h : c.Spared l ls) (hf : FillsIn q c d) : d.Spared l ls := by
  cases hf with
  | nothing => exact h
  | later => exact h.takeTrivia.await _
  | sequence hr hs hk =>
    exact (h.push _).openItem (h.ne_of_kind? (kind?_of_rest hr) (by rw [hk]; decide)) _
  | mapping => exact (h.push _).openEntry _
  | @collection _ _ t k hk ht =>
    refine (h.push t).takeOne (h.ne_of_kind? hk ?_)
    rintro rfl
    cases t <;> cases ht
  | plain => exact (h.push _).take ne_of_mem_take_plainLength
  | words => exact h.wrap ne_of_mem_take_plainLength _
  | scalar hk hq =>
    refine h.wrapOne (h.ne_of_kind? hk ?_) _
    rintro rfl
    rcases hq with hq | hq <;> cases hq
  | block hk => exact h.wrapOne (h.ne_of_kind? hk (by decide)) _
  | unterminated hk => exact (h.report _).wrapOne (h.ne_of_kind? hk (by decide)) _
  | strayLine => exact h.errorLine _
  | strayToken => exact h.errorToken _

/-- A node is closed before the marker. -/
theorem closes {t : Task} (h : c.Spared l ls) (hc : Closes t c d) : d.Spared l ls := by
  cases hc with
  | node => exact h.close
  | mapping => exact h.close
  | sequence => exact h.close
  | document => exact h.takeTrivia.close
  | documentEnd hl hk =>
    exact (h.takeTrivia.takeOne
      (h.takeTrivia.ne_of_kind? (kind?_takeTrivia hl) (by rw [hk]; decide))).finishLine.close
  | line => exact h.finishLine.close
  | bracket hk hcl =>
    refine (h.takeTrivia.takeOne (h.takeTrivia.ne_of_kind? hk ?_)).close
    rcases Task.closer?_eq hcl with rfl | rfl <;> decide
  | unclosed => exact (h.takeTrivia.report _).close
  | key => exact h.close.takeTrivia
  | part => exact h.close.takeTrivia.takeComma _

end Spared

/-- No node is open, and the tokens `ls` are next. -/
structure Awaits (ls : List Lexeme) (c : Config) : Prop where
  slot : c.slot = none
  frames : c.frames = []
  rest : significant c.rest = ls

namespace Spared

/-- Between two documents the parser takes another marker, or what comes before one. -/
theorem takeMarker (h : c.Spared l ls) (hc : ¬c.Awaits (l :: ls)) (hs : c.slot = none)
    (ht : c.tasks = []) : (c.takeTrivia.take 1).Spared l ls :=
  h.takeTrivia.takeOne fun hr => hc ⟨hs, frames_eq_nil ht, by rw [← rest_takeTrivia, hr]⟩

/-- A place is come to before the marker, unless the marker opens a document. -/
theorem opens {q : Option Slot} (h : c.Spared l ls) (hc : ¬c.Awaits (l :: ls)) (ho : Opens q c d) :
    d.Spared l ls := by
  cases ho with
  | slot => exact h.same rfl rfl
  | document => exact h.takeTrivia.push _
  | marked hs ht =>
    refine ((h.takeTrivia.push .document).takeOne fun hr => ?_).takeSpaces
    exact hc ⟨hs, frames_eq_nil ht, by rw [← rest_takeTrivia, ← hr]; rfl⟩
  | flowItem => exact h.takeTrivia.push _
  | flowEntry => exact (h.takeTrivia.push _).push _
  | flowValue hs ht hk =>
    exact ((h.close.takeTrivia.takeOne
      (h.close.takeTrivia.ne_of_kind? hk (by decide))).takeTrivia).push _

/-- Up to the marker between two documents every step spares it. -/
theorem step (h : c.Spared l ls) (hc : ¬c.Awaits (l :: ls)) (hd : c.step = some d) :
    d.Spared l ls := by
  cases acts_of_step hd with
  | fill ho hf => exact (h.opens hc ho).takeProperties.fillsIn hf
  | marker hs ht => exact h.takeMarker hc hs ht
  | stray => exact h.takeTrivia.errorLine _
  | entry => exact h.takeTrivia.openEntry _
  | item hs ht hl hn hk =>
    exact h.takeTrivia.openItem
      (h.takeTrivia.ne_of_kind? (kind?_takeTrivia hl) (by rw [hk]; decide)) _
  | plain hs ht hn =>
    obtain ⟨rfl, -⟩ := of_continuation hn
    exact (h.takeRun rfl).take ne_of_mem_take_plainLength
  | close hs ht hc => exact h.closes hc

/-- Without a fault at the marker a run comes to a place between two documents where the marker
is next. -/
theorem exists_awaits (h : c.Spared l ls) (hf : ∀ f ∈ c.run.faults, f.start ≠ l.start) :
    ∃ d, Leads c d ∧ d.Awaits (l :: ls) := by
  fun_induction run c with
  | case1 c hstep =>
    have hsuffix : l :: ls <:+ c.rest := by
      refine h.left.resolve_left ?_
      rintro ⟨f, hmem, hs⟩
      exact hf f hmem hs
    have htrivia := isTrivia_of_step_eq_none hstep l (hsuffix.subset (by simp))
    rw [h.marker] at htrivia
    cases htrivia
  | case2 c d hstep ih =>
    by_cases hc : c.Awaits (l :: ls)
    · exact ⟨c, .refl c, hc⟩
    · obtain ⟨e, he, hawaits⟩ := ih (h.step hc hstep) hf
      exact ⟨e, .head hstep he, hawaits⟩

end Spared

/-! ## Behind a marker

When the marker is next and no node is open, the parser is in the state in which it begins, but
further down. -/

namespace Awaits

variable {b : Text} {p : Position}

/-- Trivia between documents open no node. -/
theorem frames_takeTrivia (h : c.Awaits (l :: ls)) : c.takeTrivia.frames = [] := by
  simp [takeTrivia, take, add, h.frames]

/-- The marker is not the end of the run. -/
theorem exists_step (h : c.Awaits (l :: ls)) : ∃ d, c.step = some d := by
  refine Option.ne_none_iff_exists'.mp fun hstep => ?_
  have hl : l ∈ c.rest := by
    have hsuffix : l :: ls <:+ c.rest := h.rest ▸ List.dropWhile_suffix _
    exact hsuffix.subset (by simp)
  have htrivia := isTrivia_of_step_eq_none hstep l hl
  rw [isTrivia_of_significant h.rest] at htrivia
  cases htrivia

/-- The trivia before the next document may be taken first. -/
theorem run_takeTrivia (h : c.Awaits (l :: ls)) : c.takeTrivia.run = c.run := by
  obtain ⟨d, hd⟩ := h.exists_step
  have hl : l.kind.isTrivia = false := isTrivia_of_significant h.rest
  have hagain : c.takeTrivia.takeTrivia = c.takeTrivia := by
    have hlength : triviaLength (l :: ls) = 0 := by simp [triviaLength, kindRun, hl]
    rw [takeTrivia, rest_takeTrivia, h.rest, hlength, take_zero]
  have hstep : c.takeTrivia.step = c.step := by
    have hrest : significant (l :: ls) = l :: ls := by simp [significant, hl]
    rw [step_of_tasks_nil (by simp [h.slot]) (by simp [tasks, h.frames_takeTrivia]),
      step_of_tasks_nil h.slot (by simp [tasks, h.frames])]
    simp only [stepStream, hagain, rest_takeTrivia, h.rest, hrest]
  rw [run_of_step hd, run_of_step (hstep.trans hd)]

/-- If what is next are the tokens of a text, then the run goes on as it does from their start. -/
theorem run_eq (h : c.Awaits (l :: ls)) (hl : l :: ls = (start b).rest.map (Lexeme.down p))
    (hf : c.finish = p.down (start b).finish) :
    c.run = (start b).run.down ⟨p, c.takeTrivia.finished, c.faults⟩ := by
  have hstart : c.takeTrivia = (start b).down ⟨p, c.takeTrivia.finished, c.faults⟩ := by
    calc c.takeTrivia
        = ⟨c.takeTrivia.finished, c.takeTrivia.frames, c.takeTrivia.slot, c.takeTrivia.rest,
          c.takeTrivia.faults,
            c.takeTrivia.finish⟩ := rfl
      _ = ⟨c.takeTrivia.finished, [], none, l :: ls, c.faults, c.finish⟩ := by
          congr 1
          · exact h.frames_takeTrivia
          · simp [h.slot]
          · simp [h.rest]
          · simp [takeTrivia]
          · simp [takeTrivia, take]
      _ = (start b).down ⟨p, c.takeTrivia.finished, c.faults⟩ := by
          rw [hl, hf]
          simp [down, start]
  rw [← h.run_takeTrivia, ← run_down, ← hstart]

end Awaits

end Config

/-- A document marker separates what is above from what is below, unless a fault is reported at
the marker itself. Whatever is wrong with the text above, the documents from the marker on are
those of the text from the marker on, and so are the faults, further down. -/
theorem parse_of_documentStart {a b : Text} {xs ys : List Token} {x : Token}
    (h : lex (a ++ b) = xs ++ x :: ys) (ha : Token.join xs = a) (hx : x.kind = documentStart)
    (hf : ∀ f ∈ (parse (a ++ b)).faults, f.start ≠ Position.advance {} a) :
    ∃ ts us fs, (parse (a ++ b)).tree = .node .stream (ts ++ us) ∧ textOf ts = a ∧
      (parse b).tree = .node .stream us ∧
      (parse (a ++ b)).faults =
        fs ++ (parse b).faults.map (Fault.down (Position.advance {} a)) := by
  obtain ⟨hb, hcolumn⟩ := lex_of_documentStart h ha hx
  generalize hp : Position.advance {} a = p at hf hcolumn ⊢
  have hrest : (Config.start (a ++ b)).rest = Lexeme.locate {} xs ++ Lexeme.locate p (x :: ys) := by
    rw [Config.start, h, Lexeme.locate_append, ha, hp]
  have hspared : (Config.start (a ++ b)).Spared ⟨x, p⟩ (Lexeme.locate (p.advance x.text) ys) :=
    ⟨hx, .inr (hrest ▸ List.suffix_append _ _), ruled_start _⟩
  -- The run comes to a configuration between documents that has the marker next. From there it is
  -- the run on the text below, moved down.
  obtain ⟨c, hc, hawaits⟩ := hspared.exists_awaits hf
  have hnext : (Config.start b).rest.map (Lexeme.down p) =
      ⟨x, p⟩ :: Lexeme.locate (p.advance x.text) ys := by
    rw [Config.start, hb, ← Lexeme.locate_down, Position.down_start hcolumn, Lexeme.locate]
  have hfinish : c.finish = p.down (Config.start b).finish := by
    calc c.finish = Position.advance {} (a ++ b) := hc.grows.finish
      _ = (p.down {}).advance b := by rw [Position.advance_append, hp, Position.down_start hcolumn]
      _ = p.down (Position.advance {} b) := Position.advance_down p {} b
  have hrun := hawaits.run_eq hnext.symm hfinish
  rw [hc.run_eq] at hrun
  refine ⟨c.takeTrivia.finished, _, c.faults, ?_, ?_, rfl, congrArg Config.faults hrun⟩
  · show Config.stream _ = _
    rw [hrun, Config.stream]
    simp [Config.down, Function.comp_def, Lexeme.down]
  · have htokens : c.takeTrivia.tokens = xs ++ x :: ys := by
      rw [(Config.Grows.refl c).takeTrivia.tokens, hc.tokens_eq, h]
    have hbuilt : c.takeTrivia.built = leavesOf c.takeTrivia.finished := by
      simp [Config.built, hawaits.frames_takeTrivia]
    rw [Config.tokens, hbuilt, Config.rest_takeTrivia, hawaits.rest, List.map_cons,
      Lexeme.map_token_locate] at htokens
    rw [textOf, List.append_cancel_right htokens, ha]

/-- In a flow collection that is still open the marker is set aside, with a fault. -/
example : (parse "[1\n--- x".toList).faults.map Fault.message =
    ["2:1: expected ',' or ']' in flow sequence", "2:6: unclosed flow sequence, expected ']'"] := by
  decide +kernel

/-- A text that is accepted strictly may be cut at any of its markers. -/
theorem parseStrict_of_documentStart {a b : Text} {xs ys : List Token} {x : Token}
    (h : lex (a ++ b) = xs ++ x :: ys) (ha : Token.join xs = a) (hx : x.kind = documentStart)
    {t : Tree} (ht : parseStrict (a ++ b) = .ok t) :
    ∃ ts us, t = .node .stream (ts ++ us) ∧ textOf ts = a ∧
    parseStrict b = .ok (.node .stream us) := by
  unfold parseStrict at ht
  split at ht
  · rename_i hfaults
    obtain rfl := Except.ok.inj ht
    obtain ⟨ts, us, fs, hts, htext, hus, hfs⟩ := parse_of_documentStart h ha hx (by simp [hfaults])
    have hnone : (parse b).faults = [] := by
      rw [hfaults] at hfs
      simpa using (List.append_eq_nil_iff.mp hfs.symm).2
    exact ⟨ts, us, hts, htext, by simp [parseStrict, hnone, hus]⟩
  · cases ht

end YamlPatch
