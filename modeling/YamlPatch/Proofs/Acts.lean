import YamlPatch.Proofs.Growth

/-!
# What a step can do

Every step of the parser is one of few acts (`Config.Acts`). It comes to a place that waits to
be filled (`Config.Opens`) and fills it with what is next (`Config.FillsIn`); or it goes on with
a collection or a plain scalar; or it closes a node (`Config.Closes`). A constructor tells what
the innermost node and the next tokens are when the parser does so, and the configuration that
it makes. What all acts keep is kept by every step (`Config.acts_of_step`), and no more than
this has to be known about steps.

The relations are coarser than the functions of the parser. A step that fills a place does three
things in a row, and each is a relation of its own : the place is opened, the anchors and tags
are taken, and what is next goes into the place. A proof about all steps is a case distinction
for each of the relations, and each case has the guard of the parser as a hypothesis.

Only this module looks into the step functions. If one of them changes, its lemma below changes,
and the modules about invariants (nesting, levels, contents, flaws, indentation) only if there
is an act that was not there before.
-/

namespace YamlPatch

open TokenKind

namespace Task

/-- The bracket that opens a flow collection. -/
def opener? : Task → Option TokenKind
  | flowSequence => some leftBracket
  | flowMapping => some leftBrace
  | _ => none

/-- The bracket that closes a flow collection. -/
def closer? : Task → Option TokenKind
  | flowSequence => some rightBracket
  | flowMapping => some rightBrace
  | _ => none

/-- A flow collection is closed by one of two brackets. -/
theorem closer?_eq {t : Task} {k : TokenKind} (h : k ∈ t.closer?) :
    k = rightBracket ∨ k = rightBrace := by
  cases t with
  | flowSequence => exact .inl (Option.some.inj h).symm
  | flowMapping => exact .inr (Option.some.inj h).symm
  | _ => cases h

end Task

/-- The parser closes the block sequence at column `n` here. -/
def SequenceEnds (n : Nat) (ls : List Lexeme) : Prop :=
  ∀ l rest, significant ls = l :: rest →
    l.kind.isMarker = true ∨ l.column < n ∨ l.column = n ∧ l.kind ≠ dash

namespace Config

variable {c d e : Config} {t : Task} {ts : List Task} {l : Lexeme} {ls : List Lexeme}
    {k : TokenKind}

/-! ## The next token

What the parser finds ahead is a fact about `rest`. The acts below name the token and what
stands behind it, so that a case of a proof has both at hand. -/

/-- A token whose kind is known is there. -/
theorem exists_rest (hk : c.kind? = some k) : ∃ l ls, c.rest = l :: ls ∧ l.kind = k := by
  unfold kind? at hk
  cases hr : c.rest with
  | nil => simp [hr] at hk
  | cons l ls => exact ⟨l, ls, rfl, by simpa [hr] using hk⟩

theorem kind?_of_rest (h : c.rest = l :: ls) : c.kind? = some l.kind := by
  simp [kind?, h]

/-- Behind the trivia stands the next token that counts. -/
theorem kind?_takeTrivia (h : significant c.rest = l :: ls) : c.takeTrivia.kind? = some l.kind :=
  kind?_of_rest ((rest_takeTrivia c).trans h)

/-! ## What moves leave alone

The functions of the parser that take tokens leave the tasks of the open nodes alone, and all
but those that open an item or an entry leave the place to be filled alone. The lemmas are for
`simp`. -/

@[simp] theorem tasks_takeTrivia (c : Config) : c.takeTrivia.tasks = c.tasks := tasks_take c _

@[simp] theorem tasks_takeSpaces (c : Config) : c.takeSpaces.tasks = c.tasks := tasks_take c _

@[simp] theorem tasks_errorLine (c : Config) (p : Problem) :
    (c.errorLine p).tasks = c.tasks := tasks_wrap _ _ _

@[simp] theorem tasks_errorToken (c : Config) (p : Problem) :
    (c.errorToken p).tasks = c.tasks := tasks_wrap _ _ _

@[simp] theorem tasks_finishLine (c : Config) : c.finishLine.tasks = c.tasks := by
  dsimp only [finishLine]
  split <;> simp

@[simp] theorem tasks_openItem (c : Config) (column : Nat) :
    (c.openItem column).tasks = .item :: c.tasks := by
  simp [openItem]

@[simp] theorem tasks_takeKey (c : Config) : c.takeKey.tasks = c.tasks := by
  dsimp only [takeKey]
  split <;> simp

@[simp] theorem tasks_takeColon (c : Config) : c.takeColon.tasks = c.tasks := by
  unfold takeColon
  split <;> simp

@[simp] theorem tasks_openEntry (c : Config) (column : Nat) :
    (c.openEntry column).tasks = .value :: .entry :: c.tasks := by
  simp [openEntry]

@[simp] theorem tasks_takeComma (c : Config) (closer : TokenKind) (p : Problem) :
    (c.takeComma closer p).tasks = c.tasks := by
  unfold takeComma
  split <;> try split <;> try split
  all_goals simp

@[simp] theorem slot_takeTrivia (c : Config) : c.takeTrivia.slot = c.slot := slot_take c _

@[simp] theorem slot_takeSpaces (c : Config) : c.takeSpaces.slot = c.slot := slot_take c _

@[simp] theorem slot_errorLine (c : Config) (p : Problem) : (c.errorLine p).slot = c.slot :=
  slot_wrap _ _ _

@[simp] theorem slot_errorToken (c : Config) (p : Problem) : (c.errorToken p).slot = c.slot :=
  slot_wrap _ _ _

@[simp] theorem slot_finishLine (c : Config) : c.finishLine.slot = c.slot := by
  dsimp only [finishLine]
  split <;> simp

@[simp] theorem slot_takeKey (c : Config) : c.takeKey.slot = c.slot := by
  dsimp only [takeKey]
  split <;> simp

@[simp] theorem slot_openItem (c : Config) (column : Nat) :
    (c.openItem column).slot = some ⟨column + 1, none, true⟩ := rfl

@[simp] theorem slot_openEntry (c : Config) (column : Nat) :
    (c.openEntry column).slot = some ⟨column + 1, some column, false⟩ := rfl

@[simp] theorem slot_takeComma (c : Config) (closer : TokenKind) (p : Problem) :
    (c.takeComma closer p).slot = c.slot := by
  unfold takeComma
  split <;> try split <;> try split
  all_goals simp

/-! ## Acts

A step is taken apart into the relations below. Each has one constructor for each thing that the
parser may do, with what it has checked before as hypotheses. -/

/-- The parser comes to a place that waits to be filled. In block style it is a slot. -/
inductive Opens : Option Slot → Config → Config → Prop where
  /-- A slot that was left by the step before. -/
  | slot {c : Config} {s : Slot} (hs : c.slot = some s) : Opens (some s) c { c with slot := none }
  /-- The first token of a document without a mark. -/
  | document {c : Config} {l : Lexeme} {ls : List Lexeme} (hs : c.slot = none) (ht : c.tasks = [])
      (hl : significant c.rest = l :: ls) (hk : l.kind.isMarker = false) :
      Opens (some ⟨0, none, true⟩) c (c.takeTrivia.push .document)
  /-- A document behind its mark, which is taken with the spaces on its line. -/
  | marked {c : Config} {l : Lexeme} {ls : List Lexeme} (hs : c.slot = none) (ht : c.tasks = [])
      (hl : significant c.rest = l :: ls) (hk : l.kind = documentStart) :
      Opens (some ⟨0, none, true⟩) c ((c.takeTrivia.push .document).take 1).takeSpaces
  /-- An item of a flow sequence. -/
  | flowItem {c : Config} {ts : List Task} (hs : c.slot = none)
      (ht : c.tasks = .flowSequence :: ts) : Opens none c (c.takeTrivia.push .flowItem)
  /-- The key of a flow entry, for which two nodes are opened. -/
  | flowEntry {c : Config} {ts : List Task} (hs : c.slot = none)
      (ht : c.tasks = .flowMapping :: ts) : Opens none c ((c.takeTrivia.push .flowEntry).push .key)
  /-- The value of a flow entry, behind the colon. -/
  | flowValue {c : Config} {ts : List Task} (hs : c.slot = none) (ht : c.tasks = .key :: ts)
      (hk : c.close.takeTrivia.kind? = some colon) :
      Opens none c ((c.close.takeTrivia.take 1).takeTrivia.push .flowValue)

/-- The parser fills a place, behind the anchors and tags. -/
inductive FillsIn : Option Slot → Config → Config → Prop where
  /-- The place stays empty : the line ends, and no later line is indented far enough. -/
  | nothing {p : Option Slot} {c : Config} : FillsIn p c c
  /-- What fills the slot stands on a later line. -/
  | later {s : Slot} {c : Config} {x l : Lexeme} {xs ls : List Lexeme} (hr : c.rest = x :: xs)
      (hx : x.kind = lineBreak ∨ x.kind = comment) (hl : significant c.rest = l :: ls)
      (hk : l.kind.isMarker = false)
      (hcolumn : s.minColumn ≤ l.column ∨ l.kind = dash ∧ s.dashColumn = some l.column) :
      FillsIn (some s) c (c.takeTrivia.await ⟨s.minColumn, none, true⟩)
  /-- A block sequence begins with the indicator of its first item. -/
  | sequence {s : Slot} {c : Config} {l : Lexeme} {ls : List Lexeme} (hr : c.rest = l :: ls)
      (hs : s.compact = true) (hk : l.kind = dash) :
      FillsIn (some s) c ((c.push (.sequence l.column)).openItem l.column)
  /-- A block mapping begins with the key of its first entry. -/
  | mapping {s : Slot} {c : Config} {l : Lexeme} {ls : List Lexeme} (hr : c.rest = l :: ls)
      (hl : ¬(l.kind = lineBreak ∨ l.kind = comment)) (hs : s.compact = true) (hd : l.kind ≠ dash)
      (hk : startsKey (l :: ls) = true) :
      FillsIn (some s) c ((c.push (.mapping l.column)).openEntry l.column)
  /-- A flow collection begins with its bracket. -/
  | collection {p : Option Slot} {c : Config} {t : Task} {k : TokenKind} (hk : c.kind? = some k)
      (ht : k ∈ t.opener?) : FillsIn p c ((c.push t).take 1)
  /-- A plain scalar stays open, since it may go on in a later line. -/
  | plain {s : Slot} {c : Config} {k : TokenKind} (hk : c.kind? = some k) (hp : k.isPlain = true) :
      FillsIn (some s) c ((c.push (.plain s.minColumn)).take (plainLength c.rest))
  /-- Inside a flow collection a plain scalar ends with its line. -/
  | words {c : Config} {k : TokenKind} (hk : c.kind? = some k) (hp : k.isPlain = true) :
      FillsIn none c (c.wrap .scalar (plainLength c.rest))
  /-- A quoted scalar or an alias is one token. -/
  | scalar {p : Option Slot} {c : Config} {k : TokenKind} (hk : c.kind? = some k)
      (hq : k.isQuoted = true ∨ k = reference) : FillsIn p c (c.wrap .scalar 1)
  /-- A literal or folded scalar is one token with all its lines. -/
  | block {s : Slot} {c : Config} (hk : c.kind? = some blockScalar) :
      FillsIn (some s) c (c.wrap .scalar 1)
  /-- A quoted scalar without an end is a problem, and a scalar. -/
  | unterminated {p : Option Slot} {c : Config} (hk : c.kind? = some .unterminated) :
      FillsIn p c ((c.report .unterminatedQuote).wrap .scalar 1)
  /-- What cannot begin a node on this line is an error to the end of the line. -/
  | strayLine {s : Slot} {c : Config} {p : Problem} (hp : p ≠ .missingColon) :
      FillsIn (some s) c (c.errorLine p)
  /-- What cannot begin a node in a flow collection is an error by itself. -/
  | strayToken {c : Config} {p : Problem} (hp : p ≠ .missingColon) : FillsIn none c (c.errorToken p)

/-- The parser closes the innermost node. -/
inductive Closes : Task → Config → Config → Prop where
  /-- A node that has been filled. -/
  | node {c : Config} {t : Task}
      (h : t = .document ∨ t = .value ∨ t = .flowValue ∨ ∃ n, t = .plain n) : Closes t c c.close
  /-- A block mapping, when no entry of its own comes next. -/
  | mapping {c : Config} {n : Nat} : Closes (.mapping n) c c.close
  /-- A block sequence, when no item of its own comes next. -/
  | sequence {c : Config} {n : Nat} (hn : SequenceEnds n c.rest) : Closes (.sequence n) c c.close
  /-- The text ends. -/
  | document {c : Config} (hl : significant c.rest = []) : Closes .document c c.takeTrivia.close
  /-- The mark that ends a document, with the rest of its line. -/
  | documentEnd {c : Config} {l : Lexeme} {ls : List Lexeme} (hl : significant c.rest = l :: ls)
      (hk : l.kind = .documentEnd) : Closes .document c (c.takeTrivia.take 1).finishLine.close
  /-- An entry or an item in block style ends with its line. -/
  | line {c : Config} {t : Task} (h : t = .entry ∨ t = .item) : Closes t c c.finishLine.close
  /-- The bracket of a flow collection. -/
  | bracket {c : Config} {t : Task} {k : TokenKind} (hk : c.takeTrivia.kind? = some k)
      (hc : k ∈ t.closer?) : Closes t c (c.takeTrivia.take 1).close
  /-- A flow collection without its bracket is a problem. -/
  | unclosed {c : Config} {t : Task} {k : TokenKind} {p : Problem} (hc : k ∈ t.closer?)
      (hp : p ≠ .missingColon) : Closes t c (c.takeTrivia.report p).close
  /-- The key of a flow entry without a colon. -/
  | key {c : Config} : Closes .key c c.close.takeTrivia
  /-- An item or an entry of a flow collection, with the comma behind it. -/
  | part {c : Config} {t : Task} {closer : TokenKind} {p : Problem}
      (h : t = .flowItem ∨ t = .flowEntry) (hp : p ≠ .missingColon) :
      Closes t c (c.close.takeTrivia.takeComma closer p)

/-- What a step does. -/
inductive Acts : Config → Config → Prop where
  /-- A place is opened, its properties are taken, and it is filled. -/
  | fill {p : Option Slot} {c d e : Config} (ho : Opens p c e)
      (h : FillsIn p (e.take (propertiesLength e.rest)) d) : Acts c d
  /-- A line between documents. -/
  | marker {c : Config} {l : Lexeme} {ls : List Lexeme} (hs : c.slot = none) (ht : c.tasks = [])
      (hl : significant c.rest = l :: ls) (hk : l.kind = directive ∨ l.kind = documentEnd) :
      Acts c (c.takeTrivia.take 1)
  /-- A line that fits nowhere. -/
  | stray {c : Config} {t : Task} {ts : List Task} {l : Lexeme} {ls : List Lexeme} {p : Problem}
      (hs : c.slot = none) (ht : c.tasks = t :: ts)
      (h : t = .document ∨ (∃ n, t = .mapping n) ∨ ∃ n, t = .sequence n)
      (hl : significant c.rest = l :: ls) (hp : p ≠ .missingColon) :
      Acts c (c.takeTrivia.errorLine p)
  /-- The next entry of a block mapping stands in the column of the first. -/
  | entry {c : Config} {n : Nat} {ts : List Task} {l : Lexeme} {ls : List Lexeme}
      (hs : c.slot = none) (ht : c.tasks = .mapping n :: ts) (hl : significant c.rest = l :: ls)
      (hm : l.kind.isMarker = false) (hn : l.column = n) (hk : startsKey (l :: ls) = true) :
      Acts c (c.takeTrivia.openEntry n)
  /-- The next item of a block sequence stands in the column of the first. -/
  | item {c : Config} {n : Nat} {ts : List Task} {l : Lexeme} {ls : List Lexeme}
      (hs : c.slot = none) (ht : c.tasks = .sequence n :: ts) (hl : significant c.rest = l :: ls)
      (hn : l.column = n) (hk : l.kind = dash) : Acts c (c.takeTrivia.openItem n)
  /-- A plain scalar goes on in a later line. -/
  | plain {c : Config} {m n : Nat} {ts : List Task} (hs : c.slot = none)
      (ht : c.tasks = .plain m :: ts) (hn : continuation m c.rest = some n) :
      Acts c ((c.take n).take (plainLength (c.take n).rest))
  /-- The innermost node is closed. -/
  | close {c d : Config} {t : Task} {ts : List Task} (hs : c.slot = none) (ht : c.tasks = t :: ts)
      (h : Closes t c d) : Acts c d

/-- Where a place has been opened, no other place waits. -/
theorem Opens.slot_eq {p : Option Slot} (h : Opens p c e) : e.slot = none := by
  cases h <;> simp_all

/-- Opening a place closes no node, though the value of a flow entry takes the place of its key.
-/
theorem Opens.length_tasks_le {p : Option Slot} (h : Opens p c e) :
    c.tasks.length ≤ e.tasks.length := by
  cases h with
  | slot => exact Nat.le_refl c.tasks.length
  | flowValue hs ht => simp [ht]
  | _ => simp <;> omega

/-- A place is opened by moves. -/
theorem Opens.grows {p : Option Slot} (h : Opens p c e) : Grows c e := by
  cases h with
  | slot => exact (Grows.refl c).unslot
  | document => exact (Grows.refl c).takeTrivia.push _
  | marked => exact (((Grows.refl c).takeTrivia.push _).take 1).takeSpaces
  | flowItem => exact (Grows.refl c).takeTrivia.push _
  | flowEntry => exact ((Grows.refl c).takeTrivia.push _).push _
  | flowValue => exact (((Grows.refl c).close.takeTrivia.take 1).takeTrivia).push _

/-- In a flow collection no place is left for later. -/
theorem FillsIn.slot_eq (h : FillsIn none c d) : d.slot = c.slot := by
  cases h <;> simp

/-- Filling a place closes none of the nodes around it. -/
theorem FillsIn.length_tasks_le {p : Option Slot} (h : FillsIn p c d) :
    c.tasks.length ≤ d.tasks.length := by
  cases h <;> simp <;> omega

/-- Exactly the innermost node is closed. -/
theorem Closes.tasks_eq (h : Closes t c d) : d.tasks = c.tasks.tail := by
  cases h <;> simp

/-- What waits to be filled still waits when a node has been closed. -/
theorem Closes.slot_eq (h : Closes t c d) : d.slot = c.slot := by
  cases h <;> simp

/-- Only an act that closes a node leaves fewer of them open. -/
theorem Acts.exists_closes (h : Acts c d) (hd : d.tasks.length < c.tasks.length) :
    ∃ t ts, c.tasks = t :: ts ∧ Closes t c d := by
  cases h with
  | fill ho hf =>
    have h1 := ho.length_tasks_le
    have h2 := hf.length_tasks_le
    rw [tasks_take] at h2
    omega
  | close hs ht hc => exact ⟨_, _, ht, hc⟩
  | _ => simp at hd <;> omega

/-! ## Every step is an act

There is one lemma for each function of the parser, in the order in which they call each other.
All of them go along the branches of the function and name the constructor for each. -/

/-- What is taken on this line fills the place : the kind of the next token decides how. -/
theorem fillsIn_takeInline (hk : c.kind? = some k) (s : Slot) :
    FillsIn (some s) c (c.takeInline s.minColumn k) := by
  unfold takeInline
  split
  · exact .collection hk rfl
  · exact .collection hk rfl
  · exact .scalar hk (.inl rfl)
  · exact .scalar hk (.inl rfl)
  · exact .block hk
  · exact .scalar hk (.inr rfl)
  · exact .unterminated hk
  · exact .strayLine (by simp)
  · split
    · exact .plain hk ‹_›
    · exact .strayLine (by simp)

/-- What the parser puts into a place in block style fills it. -/
theorem fillsIn_fillContent (c : Config) (s : Slot) : FillsIn (some s) c (c.fillContent s) := by
  unfold fillContent
  split
  · exact .nothing
  · rename_i l ls hr
    split
    · rename_i hx
      split
      · rename_i n hn
        obtain ⟨rfl, m, ms, hm, hmarker, hcolumn⟩ := of_laterStart hn
        rw [← hr] at hm ⊢
        exact .later hr hx hm hmarker hcolumn
      · exact .nothing
    · rename_i hx
      split
      · rename_i hdash
        exact .sequence hr hdash.1 hdash.2
      · rename_i hdash
        split
        · rename_i hkey
          exact .mapping hr hx hkey.1 (fun hd => hdash ⟨hkey.1, hd⟩) hkey.2
        · exact fillsIn_takeInline (kind?_of_rest hr) s

/-- What it puts into a place in a flow collection fills it. -/
theorem fillsIn_takeFlowContent (c : Config) (b : Bool) : FillsIn none c (c.takeFlowContent b) := by
  unfold takeFlowContent
  split
  · exact .nothing
  · rename_i k hk
    split
    · exact .collection hk rfl
    · exact .collection hk rfl
    · exact .scalar hk (.inl rfl)
    · exact .scalar hk (.inl rfl)
    · exact .scalar hk (.inr rfl)
    · exact .unterminated hk
    · split
      · exact .words hk ‹_›
      · split
        · exact .nothing
        · exact .strayToken (by simp)

/-- A place in block style that is opened and filled makes an act. -/
theorem Opens.acts_fill {s : Slot} (h : Opens (some s) c e) : Acts c (e.fill s) :=
  .fill h (fillsIn_fillContent _ s)

/-- So does one in a flow collection. -/
theorem Opens.acts_takeFlowNode (h : Opens none c e) : Acts c e.takeFlowNode :=
  .fill h (fillsIn_takeFlowContent _ _)

/-- Nothing is put into the place. -/
theorem Opens.acts_nothing (h : Opens none c e) (hp : propertiesLength e.rest = 0) : Acts c e :=
  .fill h (by rw [hp, take_zero]; exact .nothing)

/-- In a document : its end, a line that belongs nowhere, or nothing but to close it. -/
theorem acts_stepDocument (hs : c.slot = none) (ht : c.tasks = .document :: ts) :
    Acts c c.stepDocument := by
  unfold stepDocument
  split
  · exact .close hs ht (.document ‹_›)
  · rename_i l ls hl
    split
    · exact .close hs ht (.node (.inl rfl))
    · exact .close hs ht (.node (.inl rfl))
    · exact .close hs ht (.documentEnd hl ‹_›)
    · exact .stray hs ht (.inl rfl) hl (by simp)

/-- In a block mapping : the next entry, a line that is no entry, or the end of the mapping. -/
theorem acts_stepMapping {n : Nat} (hs : c.slot = none) (ht : c.tasks = .mapping n :: ts) :
    Acts c (c.stepMapping n) := by
  unfold stepMapping
  split
  · exact .close hs ht .mapping
  · rename_i l ls hl
    split
    · exact .close hs ht .mapping
    · rename_i hstop
      simp only [not_or] at hstop
      split
      · exact .stray hs ht (.inr (.inl ⟨n, rfl⟩)) hl (by simp)
      · split
        · exact .entry hs ht hl (by simpa using hstop.1) (by omega) ‹_›
        · exact .stray hs ht (.inr (.inl ⟨n, rfl⟩)) hl (by simp)

/-- In a block sequence : the next item, a line that is no item, or the end of the sequence. -/
theorem acts_stepSequence {n : Nat} (hs : c.slot = none) (ht : c.tasks = .sequence n :: ts) :
    Acts c (c.stepSequence n) := by
  unfold stepSequence
  split
  · rename_i hl
    exact .close hs ht (.sequence fun m ms hm => by simp [hl] at hm)
  · rename_i l ls hl
    split
    · rename_i hstop
      refine .close hs ht (.sequence fun m ms hm => ?_)
      obtain ⟨rfl, -⟩ := List.cons.inj (hl.symm.trans hm)
      exact hstop
    · rename_i hstop
      simp only [not_or, not_and, Decidable.not_not] at hstop
      split
      · exact .stray hs ht (.inr (.inr ⟨n, rfl⟩)) hl (by simp)
      · have hn : l.column = n := by omega
        exact .item hs ht hl hn (hstop.2.2 hn)

/-- In a plain scalar : its words on a later line, or its end. -/
theorem acts_stepPlain {m : Nat} (hs : c.slot = none) (ht : c.tasks = .plain m :: ts) :
    Acts c (c.stepPlain m) := by
  unfold stepPlain
  split
  · exact .plain hs ht ‹_›
  · exact .close hs ht (.node (.inr (.inr (.inr ⟨m, rfl⟩))))

/-- In a flow sequence : an item, the bracket, or the end of the text. -/
theorem acts_stepFlowSequence (hs : c.slot = none) (ht : c.tasks = .flowSequence :: ts) :
    Acts c c.stepFlowSequence := by
  dsimp only [stepFlowSequence]
  split
  · exact .close hs ht (.unclosed rfl (by simp))
  · rename_i k hk
    split
    · rename_i hb
      exact .close hs ht (.bracket hk (by rw [hb]; rfl))
    · exact (Opens.flowItem hs ht).acts_takeFlowNode

/-- In a flow mapping : an entry and its key, the bracket, or the end of the text. -/
theorem acts_stepFlowMapping (hs : c.slot = none) (ht : c.tasks = .flowMapping :: ts) :
    Acts c c.stepFlowMapping := by
  dsimp only [stepFlowMapping]
  split
  · exact .close hs ht (.unclosed rfl (by simp))
  · rename_i k hk
    split
    · rename_i hb
      exact .close hs ht (.bracket hk (by rw [hb]; rfl))
    · exact (Opens.flowEntry hs ht).acts_takeFlowNode

/-- Behind the key of a flow entry : the value, which may be empty, or no value at all. -/
theorem acts_stepFlowKey (hs : c.slot = none) (ht : c.tasks = .key :: ts) :
    Acts c c.stepFlowKey := by
  dsimp only [stepFlowKey]
  split
  · rename_i hk
    have hvalue := Opens.flowValue hs ht hk
    split
    · rename_i hnext
      refine hvalue.acts_nothing ?_
      simp only [kind?, Option.map_eq_none_iff, List.head?_eq_none_iff] at hnext
      rw [hnext]
      rfl
    · rename_i k hnext
      split
      · rename_i hend
        refine hvalue.acts_nothing ?_
        obtain ⟨l, ls, hl, rfl⟩ := exists_rest hnext
        rw [hl]
        rcases hend with hend | hend <;> simp [propertiesLength, hend, isProperty]
      · exact hvalue.acts_takeFlowNode
  · exact .close hs ht .key

/-- The step for the innermost node is an act, whatever its task is. -/
theorem acts_stepTask (hs : c.slot = none) (ht : c.tasks = t :: ts) : Acts c (c.stepTask t) := by
  cases t with
  | document => exact acts_stepDocument hs ht
  | mapping n => exact acts_stepMapping hs ht
  | sequence n => exact acts_stepSequence hs ht
  | plain m => exact acts_stepPlain hs ht
  | flowSequence => exact acts_stepFlowSequence hs ht
  | flowMapping => exact acts_stepFlowMapping hs ht
  | key => exact acts_stepFlowKey hs ht
  | entry => exact .close hs ht (.line (.inl rfl))
  | item => exact .close hs ht (.line (.inr rfl))
  | value => exact .close hs ht (.node (.inr (.inl rfl)))
  | flowValue => exact .close hs ht (.node (.inr (.inr (.inl rfl))))
  | flowItem => exact .close hs ht (.part (.inl rfl) (by simp))
  | flowEntry => exact .close hs ht (.part (.inr rfl) (by simp))

/-- So is a step between documents. -/
theorem acts_stepStream (hs : c.slot = none) (ht : c.tasks = []) (h : c.stepStream = some d) :
    Acts c d := by
  unfold stepStream at h
  split at h
  · cases h
  · rename_i l ls hl
    dsimp only at h
    split at h
    · cases h
      exact .marker hs ht hl (.inl ‹_›)
    · cases h
      exact .marker hs ht hl (.inr ‹_›)
    · cases h
      exact (Opens.marked hs ht hl ‹_›).acts_fill
    · cases h
      refine (Opens.document hs ht hl ?_).acts_fill
      generalize l.kind = k at *
      cases k <;> first | rfl | contradiction

/-- Every step is an act. -/
theorem acts_of_step (h : c.step = some d) : Acts c d := by
  cases hs : c.slot with
  | some s =>
    rw [step_of_slot hs] at h
    cases h
    exact (Opens.slot hs).acts_fill
  | none =>
    cases ht : c.tasks with
    | nil =>
      rw [step_of_tasks_nil hs ht] at h
      exact acts_stepStream hs ht h
    | cons t ts =>
      rw [step_of_tasks hs ht] at h
      cases h
      exact acts_stepTask hs ht

end Config

end YamlPatch
