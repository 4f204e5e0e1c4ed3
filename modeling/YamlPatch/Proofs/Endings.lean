import YamlPatch.Proofs.Nesting

/-!
# The rest of a text after a change

Behind a change the tokens are the same as before, but those on the line of the change stand in
other columns. The parser does not look at these : inside flow collections it never looks at
columns, and outside of them nothing but spaces and a comment may follow on a line (`EndsLine`).
So two configurations with the same tasks and the same tokens left run to the same end, each
adding the same to what it had built (`run_of_alike`).

Line breaks have to contain a line feed, which is where columns start again. A carriage return
alone is a line break to the lexer and one more column to the parser.
-/

namespace YamlPatch

open TokenKind

/-! ## Columns of located tokens

A position is moved on by a text, and its column is that of the text behind the last line feed. -/

namespace Lexeme

/-- Tokens stand one behind the other. -/
theorem locate_append (p : Position) (xs ys : List Token) :
    locate p (xs ++ ys) = locate p xs ++ locate (p.advance (Token.join xs)) ys := by
  induction xs generalizing p with
  | nil => rfl
  | cons x xs ih => simp [locate, ih, Position.advance_append]

/-- So tokens that are dropped move the place at which the others start. -/
theorem drop_locate (p : Position) (xs : List Token) (n : Nat) :
    (locate p xs).drop n = locate (p.advance (Token.join (xs.take n))) (xs.drop n) := by
  induction xs generalizing p n with
  | nil => simp [locate]
  | cons x xs ih =>
    cases n with
    | zero => rfl
    | succ n => simp [locate, ih, Position.advance_append]

end Lexeme

open Lexeme

/-- The column behind a text is counted as it is for trees. -/
theorem Position.column_advance (p : Position) (t : Text) :
    (p.advance t).column = Tree.textColumn p.column t := by
  induction t generalizing p with
  | nil => rfl
  | cons c t ih => exact (ih (p.step c)).trans rfl

/-- It depends on the column before the text, and not on the line or the offset. -/
theorem Position.column_advance_eq {p p' : Position} (h : p.column = p'.column) (t : Text) :
    (p.advance t).column = (p'.advance t).column := by
  rw [column_advance, column_advance, h]

/-- Behind a line feed the column does not depend on what was before. -/
theorem Position.column_advance_of_mem (p p' : Position) {t : Text} (h : '\n' ∈ t) :
    (p.advance t).column = (p'.advance t).column := by
  induction t generalizing p p' with
  | nil => simp at h
  | cons c t ih =>
    by_cases hc : c = '\n'
    · exact column_advance_eq (by simp [step, hc]) t
    · exact ih _ _ ((List.mem_cons.mp h).resolve_left fun he => hc he.symm)

namespace Alike

/-- Tokens that start in the same column are alike, columns included. -/
theorem of_column {p p' : Position} (h : p.column = p'.column) (xs : List Token) :
    Alike True [] [] (locate p xs) (locate p' xs) := by
  induction xs generalizing p p' with
  | nil => exact .nil rfl rfl
  | cons x xs ih => exact .cons rfl (fun _ => .inl h) (ih (Position.column_advance_eq h _))

/-- Tokens that start anywhere are alike, columns apart. -/
theorem of_tokens (p p' : Position) (xs : List Token) :
    Alike False [] [] (locate p xs) (locate p' xs) := by
  induction xs generalizing p p' with
  | nil => exact .nil rfl rfl
  | cons x xs ih => exact .cons rfl False.elim (ih _ _)

end Alike

/-! ## Ends of lines

Behind a line break columns are counted from there, so lists of tokens that begin with one look
alike wherever they stand. -/

/-- Nothing but spaces and comments up to the next line break or the end. -/
def EndsLine : List Token → Prop
  | [] => True
  | x :: xs => x.kind = lineBreak ∨ (x.kind = space ∨ x.kind = comment) ∧ EndsLine xs

/-- Every line break contains a line feed. -/
def HasLineFeeds (xs : List Token) : Prop := ∀ x ∈ xs, x.kind = lineBreak → '\n' ∈ x.text

/-- An end of the tokens has the property too. -/
theorem HasLineFeeds.of_suffix {xs ys : List Token} (h : HasLineFeeds xs) (hs : ys <:+ xs) :
    HasLineFeeds ys := fun x hx => h x (hs.subset hx)

/-- Where the line ends no key begins. -/
theorem EndsLine.startsKey {xs : List Token} (h : EndsLine xs) (p : Position) :
    startsKey (locate p xs) = false := by
  induction xs generalizing p with
  | nil => rfl
  | cons x xs ih =>
    rcases h with hk | ⟨hk | hk, h⟩
    · simp [YamlPatch.startsKey, locate, Lexeme.kind, hk, isProperty, isQuoted, isPlain]
    · have := ih h (p.advance x.text)
      simpa [YamlPatch.startsKey, locate, Lexeme.kind, hk, isProperty] using this
    · simp [YamlPatch.startsKey, locate, Lexeme.kind, hk, isProperty, isQuoted, isPlain]

/-- Behind a line break the rest is alike wherever it stands. -/
theorem Alike.of_lineBreak {x : Token} (hk : x.kind = lineBreak) (hn : '\n' ∈ x.text)
    (xs : List Token) (p p' : Position) :
    Alike True [] [] (locate p (x :: xs)) (locate p' (x :: xs)) := by
  have hends : EndsLine (x :: xs) := Or.inl hk
  refine .cons rfl (fun _ => .inr ⟨?_, hends.startsKey p⟩)
    (.of_column (Position.column_advance_of_mem _ _ hn) xs)
  simp [Lexeme.kind, hk, isTrivia]

/-- At the end of a line the rest is alike wherever it stands. -/
theorem Alike.of_endsLine {xs : List Token} (h : EndsLine xs) (hn : HasLineFeeds xs)
    (p p' : Position) : Alike True [] [] (locate p xs) (locate p' xs) := by
  induction xs generalizing p p' with
  | nil => exact .nil rfl rfl
  | cons x xs ih =>
    have hkey := h.startsKey p
    rcases h with hk | ⟨hk, h⟩
    · exact .of_lineBreak hk (hn x (by simp) hk) xs p p'
    · refine .cons rfl (fun _ => .inr ⟨?_, hkey⟩) (ih h (hn.of_suffix (List.suffix_cons x xs)) _ _)
      rcases hk with hk | hk <;> simp [Lexeme.kind, hk, isTrivia]

namespace Config

/-- A line that is finished without a fault ends there. -/
theorem endsLine_of_finishLine {c : Config} (h : c.finishLine.faults = []) :
    EndsLine (c.rest.map token) := by
  dsimp only [finishLine] at h
  have hk : (c.take (kindRun (fun k => k == space || k == comment) c.rest)).kind? = none ∨
      (c.take (kindRun (fun k => k == space || k == comment) c.rest)).kind? = some lineBreak := by
    split at h
    · exact .inl ‹_›
    · exact .inr ‹_›
    · simp [errorLine, report] at h
  clear h
  simp only [kind?, rest_take, drop_kindRun] at hk
  generalize c.rest = ls at hk
  induction ls with
  | nil => trivial
  | cons l ls ih =>
    by_cases hl : (l.kind == space || l.kind == comment) = true
    · have ih := ih (by simpa [List.dropWhile_cons, hl] using hk)
      have hl : l.kind = space ∨ l.kind = comment := by simpa using hl
      exact .inr ⟨hl, ih⟩
    · have hl : l.kind = lineBreak := by simpa [List.dropWhile_cons, hl] using hk
      exact .inl hl

/-! ## To the end of the text

Twins that look alike to the end are never parted, as no token is left at which they could be. -/

/-- The base of two runs that have built different things. -/
def divergence (aligned : Prop) (c c' : Config) (ts : List Task) : Base where
  aligned := aligned
  log := c.log
  log' := c'.log
  tasks := ts
  tasks' := ts

/-- With what is left alike, what is still to come is the same. -/
theorem run_of_alike {c c' : Config} (htasks : c'.tasks = c.tasks) (hslot : c'.slot = c.slot)
    (hfaults : c'.faults = []) (hrest : Alike True [] [] c.rest c'.rest)
    (hrun : c.run.faults = []) : c'.run.faults = [] ∧ c'.run.rest.map token = c.run.rest.map token ∧
      ∃ e, c.run.log = c.log ++ e ∧ c'.run.log = c'.log ++ e := by
  have h : Twins (divergence True c c' []) c.tasks c c' :=
    ⟨by simp [divergence], by simp [divergence, htasks], hslot, ⟨[], by simp [divergence]⟩,
      (Leads.to_run c).faultless hrun, hfaults, hrest⟩
  obtain ⟨us, ht⟩ := h.run trivial rfl rfl rfl hrun
  refine ⟨ht.faults', ?_, ht.log⟩
  have hr := ht.rest.drop (max c.run.rest.length c'.run.rest.length)
  rcases hr with ⟨-, hr⟩ | hr
  · rwa [List.take_of_length_le (by omega), List.take_of_length_le (by omega)] at hr
  · simp [divergence] at hr

end Config

end YamlPatch
