import YamlPatch.Tree.Parser

/-!
# What steps are made of

A configuration `Grows` into another by moves : it takes tokens, opens a node or closes one,
leaves a place to be filled or fills it, and records a problem. No step does anything else
(`Grows.step`), so what every move keeps is kept by every step.

The relation says less than `Config.step` : it forgets what has to lie ahead for a move to be
made, and allows moves in any order. That is enough for facts about all moves alike, such as
where the tokens go, and makes them independent of what the parser decides. Each function of the
parser has a lemma below with its own name. It goes on from any configuration that has been
reached already, so that the lemma for a function is made of those for the functions it calls.
-/

namespace YamlPatch

open TokenKind

namespace Config

/-- The first configuration comes to the second by moves. -/
inductive Grows : Config → Config → Prop
  | refl (c : Config) : Grows c c
  /-- The next tokens become leaves of the innermost node. -/
  | take {c d : Config} (h : Grows c d) (n : Nat) : Grows c (d.take n)
  /-- The next tokens become a node of their own. -/
  | wrap {c d : Config} (h : Grows c d) (k : NodeKind) (n : Nat) : Grows c (d.wrap k n)
  | push {c d : Config} (h : Grows c d) (t : Task) : Grows c (d.push t)
  | close {c d : Config} (h : Grows c d) : Grows c d.close
  /-- The innermost node waits for something to fill it. -/
  | await {c d : Config} (h : Grows c d) (s : Slot) : Grows c (d.await s)
  | unslot {c d : Config} (h : Grows c d) : Grows c { d with slot := none }
  /-- A problem is recorded where the parser stands. -/
  | report {c d : Config} (h : Grows c d) (p : Problem) : Grows c (d.report p)

attribute [refl] Grows.refl

namespace Grows

variable {c d e : Config}

/-- What is reached by moves can be left by moves. -/
theorem trans (h : Grows c d) (h' : Grows d e) : Grows c e := by
  induction h' with
  | refl => exact h
  | take _ n ih => exact ih.take n
  | wrap _ k n ih => exact ih.wrap k n
  | push _ t ih => exact ih.push t
  | close _ ih => exact ih.close
  | await _ s ih => exact ih.await s
  | unslot _ ih => exact ih.unslot
  | report _ p ih => exact ih.report p

/-! ## Moves in a row -/

/-- Trivia are taken like all other tokens. -/
theorem takeTrivia (h : Grows c d) : Grows c d.takeTrivia := h.take _

theorem takeSpaces (h : Grows c d) : Grows c d.takeSpaces := h.take _

/-- Text that fits nowhere is a problem, and a node of its own. -/
theorem errorLine (h : Grows c d) (p : Problem) : Grows c (d.errorLine p) := (h.report p).wrap _ _

theorem errorToken (h : Grows c d) (p : Problem) : Grows c (d.errorToken p) := (h.report p).wrap _ _

/-- What is left of a line is a problem unless it is a comment. -/
theorem finishLine (h : Grows c d) : Grows c d.finishLine := by
  dsimp only [Config.finishLine]
  split
  · exact h.take _
  · exact h.take _
  · exact (h.take _).errorLine _

/-- An item begins with its indicator and waits for its content. -/
theorem openItem (h : Grows c d) (column : Nat) : Grows c (d.openItem column) :=
  (((h.push .item).take 1).takeSpaces).await _

/-- A key is a node that is opened and closed at once. -/
theorem takeKey (h : Grows c d) : Grows c d.takeKey := by
  dsimp only [Config.takeKey]
  split
  · exact ((h.push .key).take _).close
  · exact (((h.push .key).take _).wrap _ _).close

theorem takeColon (h : Grows c d) : Grows c d.takeColon := by
  unfold Config.takeColon
  split
  · exact h.take 1
  · exact h.report _

/-- An entry takes its key and the colon, and waits for its value. -/
theorem openEntry (h : Grows c d) (column : Nat) : Grows c (d.openEntry column) :=
  ((h.push .entry).takeKey.takeSpaces.takeColon.takeSpaces.push .value).await _

theorem takeInline (h : Grows c d) (column : Nat) (k : TokenKind) :
    Grows c (d.takeInline column k) := by
  unfold Config.takeInline
  split <;> try split
  case h_1 => exact (h.push _).take 1
  case h_2 => exact (h.push _).take 1
  case h_7 => exact (h.report _).wrap _ 1
  case h_8 => exact h.errorLine _
  case h_9.isTrue => exact (h.push _).take _
  case h_9.isFalse => exact h.errorLine _
  all_goals exact h.wrap _ 1

/-- A place is filled with a node, is left for a later line, or stays empty. -/
theorem fillContent (h : Grows c d) (s : Slot) : Grows c (d.fillContent s) := by
  unfold Config.fillContent
  split
  · exact h
  · split
    · split
      · exact (h.take _).await _
      · exact h
    · split
      · exact (h.push _).openItem _
      · split
        · exact (h.push _).openEntry _
        · exact h.takeInline _ _

/-- Anchors and tags are taken before the place is filled. -/
theorem fill (h : Grows c d) (s : Slot) : Grows c (d.fill s) := (h.take _).fillContent s

/-- In a flow collection a node is filled at once, without a place that waits for it. -/
theorem takeFlowContent (h : Grows c d) (b : Bool) : Grows c (d.takeFlowContent b) := by
  unfold Config.takeFlowContent
  split
  · exact h
  · split <;> try split <;> try split
    case h_1 => exact (h.push _).take 1
    case h_2 => exact (h.push _).take 1
    case h_6 => exact (h.report _).wrap _ 1
    case h_7.isTrue => exact h.wrap _ _
    case h_7.isFalse.isTrue => exact h
    case h_7.isFalse.isFalse => exact h.errorToken _
    all_goals exact h.wrap _ 1

theorem takeFlowNode (h : Grows c d) : Grows c d.takeFlowNode := (h.take _).takeFlowContent _

/-- Behind an item or an entry comes a comma, the bracket that closes the collection, or a
problem. -/
theorem takeComma (h : Grows c d) (closer : TokenKind) (p : Problem) :
    Grows c (d.takeComma closer p) := by
  unfold Config.takeComma
  split
  · exact h
  · split
    · exact h.take 1
    · split
      · exact h
      · exact h.errorToken _

/-! ## Steps -/

/-- Between documents the parser opens one or takes a line that belongs to none. -/
theorem stepStream {c d : Config} (h : c.stepStream = some d) : Grows c d := by
  unfold Config.stepStream at h
  split at h
  · cases h
  · dsimp only at h
    have hc := (refl c).takeTrivia
    split at h <;> cases h
    · exact hc.take 1
    · exact hc.take 1
    · exact ((hc.push _).take 1).takeSpaces.fill _
    · exact (hc.push _).fill _

theorem stepFlowKey (c : Config) : Grows c c.stepFlowKey := by
  have hc := (refl c).close.takeTrivia
  dsimp only [Config.stepFlowKey]
  split
  · have hv := ((hc.take 1).takeTrivia).push .flowValue
    split
    · exact hv
    · split
      · exact hv
      · exact hv.takeFlowNode
  · exact hc

theorem stepDocument (c : Config) : Grows c c.stepDocument := by
  have hc := refl c
  unfold Config.stepDocument
  split
  · exact hc.takeTrivia.close
  · split
    · exact hc.close
    · exact hc.close
    · exact (hc.takeTrivia.take 1).finishLine.close
    · exact hc.takeTrivia.errorLine _

theorem stepMapping (c : Config) (column : Nat) : Grows c (c.stepMapping column) := by
  have hc := refl c
  unfold Config.stepMapping
  split
  · exact hc.close
  · split
    · exact hc.close
    · split
      · exact hc.takeTrivia.errorLine _
      · split
        · exact hc.takeTrivia.openEntry _
        · exact hc.takeTrivia.errorLine _

theorem stepSequence (c : Config) (column : Nat) : Grows c (c.stepSequence column) := by
  have hc := refl c
  unfold Config.stepSequence
  split
  · exact hc.close
  · split
    · exact hc.close
    · split
      · exact hc.takeTrivia.errorLine _
      · exact hc.takeTrivia.openItem _

theorem stepPlain (c : Config) (column : Nat) : Grows c (c.stepPlain column) := by
  have hc := refl c
  unfold Config.stepPlain
  split
  · exact (hc.take _).take _
  · exact hc.close

theorem stepFlowSequence (c : Config) : Grows c c.stepFlowSequence := by
  have hc := (refl c).takeTrivia
  dsimp only [Config.stepFlowSequence]
  split
  · exact (hc.report _).close
  · split
    · exact (hc.take 1).close
    · exact (hc.push _).takeFlowNode

theorem stepFlowMapping (c : Config) : Grows c c.stepFlowMapping := by
  have hc := (refl c).takeTrivia
  dsimp only [Config.stepFlowMapping]
  split
  · exact (hc.report _).close
  · split
    · exact (hc.take 1).close
    · exact ((hc.push _).push _).takeFlowNode

/-- The step for the innermost node, whatever its task is. -/
theorem stepTask (c : Config) (t : Task) : Grows c (c.stepTask t) := by
  cases t with
  | document => exact stepDocument c
  | mapping column => exact stepMapping c column
  | sequence column => exact stepSequence c column
  | plain column => exact stepPlain c column
  | flowSequence => exact stepFlowSequence c
  | flowMapping => exact stepFlowMapping c
  | key => exact stepFlowKey c
  | flowItem | flowEntry => exact (refl c).close.takeTrivia.takeComma _ _
  | entry | item => exact (refl c).finishLine.close
  | value | flowValue => exact (refl c).close

/-- No step does more than moves. -/
theorem step {c d : Config} (h : c.step = some d) : Grows c d := by
  unfold Config.step at h
  split at h
  · cases h
    exact (refl c).unslot.fill _
  · split at h
    · exact stepStream h
    · cases h
      exact stepTask c _

end Grows

end Config

end YamlPatch
