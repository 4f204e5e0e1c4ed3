import YamlPatch.Proofs.Contents
import YamlPatch.Proofs.Shapes

/-!
# What the moves of the parser build

Each node under construction waits for the one above it (`Awaiting`). `Config.Holding` says so
of a configuration, and what holds of the trees in the innermost node; one lemma for each move
says what it makes of that node. Loose tokens and errors can be taken by any node that is no
scalar (`Tolerant`), content only by a vacant place, which then can be closed
(`Config.Resting`).

What is known of the trees in the innermost node is a parameter of `Holding`, because it changes
from move to move : that there are none when a node has been opened, that the place is vacant
while properties are taken, that an entry has its key, its colon and its value, and in the end
that the node is settled. The frames below are known once and for all by `Awaiting`, so closing
a node gives back what was known of the one around it, with one tree more.
-/

namespace YamlPatch

open TokenKind YamlPatch.Tree

/-- The frames below a node of the task wait for it, down to a document. -/
def Awaiting : Task → List Frame → Prop
  | t, [] => t = .document
  | t, f :: fs => f.task.Awaits t f.done ∧ EveryOf Shaped f.done ∧ Awaiting f.task fs

/-- Loose trees may be put in. -/
def Tolerant (P : List Tree → Prop) : Prop := ∀ us ts, P us → (∀ t ∈ ts, t.IsLoose) → P (us ++ ts)

/-- Loose trees may be put into a settled node. -/
theorem tolerant_settled {t : Task} (ht : t.nodeKind ≠ .scalar) : Tolerant t.Settled :=
  fun _ _ h => h.append_loose ht

/-- Loose trees may be put into a vacant place. -/
theorem tolerant_vacant {t : Task} : Tolerant t.Vacant := fun _ _ h => h.append_loose

/-- Loose trees may be put between the parts of an entry. -/
theorem tolerant_parts {m n : Nat} : Tolerant (EntryParts m n) := fun _ _ h => h.append_loose

/-! ## Loose tokens

What may be put into a node at any time says nothing about the node. So it is passed over in
what a node is known to hold. -/

/-- Trivia are loose. -/
theorem isLoose_of_isTrivia (k : TokenKind) (h : k.isTrivia = true) : k.isLoose = true := by
  cases k <;> first | rfl | cases h

/-- Anchors and tags are loose. -/
theorem isLoose_of_isProperty (k : TokenKind) (h : k.isProperty = true) : k.isLoose = true := by
  cases k <;> first | rfl | cases h

namespace Config

/-- The innermost node has the task `t`, and `P` holds of the trees in it. -/
structure Holding (c : Config) (t : Task) (P : List Tree → Prop) : Prop where
  finished : (node .stream c.finished).Every Shaped
  spaced : Spaced c.rest
  frames : ∃ ts fs, c.frames = ⟨t, ts⟩ :: fs ∧ P ts ∧ EveryOf Shaped ts ∧ Awaiting t fs

/-- No node is under construction. -/
structure Between (c : Config) : Prop where
  finished : (node .stream c.finished).Every Shaped
  spaced : Spaced c.rest
  frames : c.frames = []

/-- The innermost node could be closed, its bracket apart. -/
def Resting (c : Config) : Prop := ∃ t : Task, c.Holding t t.Settled

/-- The trees made of the next tokens are these tokens. -/
theorem ahead_eq (c : Config) (n : Nat) :
    c.ahead n = ((c.rest.take n).map Lexeme.token).map Tree.token := by
  simp [ahead, Function.comp_def]

/-- The next token is a tree of its own. -/
theorem ahead_one {c : Config} {k : TokenKind} (hk : c.kind? = some k) :
    ∃ x : Token, c.ahead 1 = [.token x] ∧ x.kind = k := by
  obtain ⟨l, ls, hl, rfl⟩ := exists_rest hk
  exact ⟨l.token, by simp [ahead, hl], rfl⟩

/-- What holds of the next tokens holds of the trees made of them. -/
theorem everyOf_ahead {P : Tree → Prop} {c : Config} {n : Nat} :
    EveryOf P (c.ahead n) ↔ ∀ l ∈ c.rest.take n, P (.token l.token) := by
  simp only [everyOf_iff, ahead, List.forall_mem_map, every_token]

/-- Tokens have no shape to keep. -/
theorem shaped_ahead (c : Config) (n : Nat) : EveryOf Shaped (c.ahead n) :=
  everyOf_ahead.mpr fun _ _ => trivial

/-- No tokens are nodes. -/
theorem countP_ahead {p : Tree → Bool} (hp : ∀ x, p (.token x) = false) (c : Config) (n : Nat) :
    (c.ahead n).countP p = 0 := by
  refine List.countP_eq_zero.mpr fun t ht => ?_
  obtain ⟨l, -, rfl⟩ := List.mem_map.mp ht
  simp [hp]

/-- Loose tokens make loose trees. -/
theorem isLoose_ahead {c : Config} {n : Nat} (h : ∀ l ∈ c.rest.take n, l.kind.isLoose = true) :
    ∀ t ∈ c.ahead n, t.IsLoose := by
  intro t ht
  obtain ⟨l, hl, rfl⟩ := List.mem_map.mp ht
  exact h l hl

namespace Holding

variable {c : Config} {t u : Task} {P Q : List Tree → Prop} {n : Nat} {k : TokenKind}

/-! ## Moves

A move changes what the innermost node holds, or which node that is. In either case the nodes
around it are left as they are. -/

/-- Less may be asked of the trees in the innermost node. -/
theorem mono (h : c.Holding t P) (hQ : ∀ us, P us → Q us) : c.Holding t Q := by
  obtain ⟨ts, fs, hf, hP, hs, ha⟩ := h.frames
  exact ⟨h.finished, h.spaced, ts, fs, hf, hQ ts hP, hs, ha⟩

/-- A settled node could be closed. -/
theorem resting (h : c.Holding t t.Settled) : c.Resting := ⟨t, h⟩

/-- Trees of the right shape may be put into the innermost node. What is known of it changes
with them. -/
theorem add (h : c.Holding t P) {ts : List Tree} (hs : EveryOf Shaped ts)
    (hQ : ∀ us, P us → Q (us ++ ts)) : (c.add ts).Holding t Q := by
  obtain ⟨us, fs, hf, hP, hus, ha⟩ := h.frames
  have hadd : c.add ts = { c with frames := ⟨t, us ++ ts⟩ :: fs } := by simp [Config.add, hf]
  rw [hadd]
  exact ⟨h.finished, h.spaced, us ++ ts, fs, rfl, hQ us hP, everyOf_append.mpr ⟨hus, hs⟩, ha⟩

/-- Taking away tokens changes nothing in the trees. -/
theorem withRest (h : c.Holding t P) {ls : List Lexeme} (hs : Spaced ls) :
    ({ c with rest := ls } : Config).Holding t P := ⟨h.finished, hs, h.frames⟩

/-- Tokens may be taken into the innermost node. -/
theorem take (h : c.Holding t P) (n : Nat) (hQ : ∀ us, P us → Q (us ++ c.ahead n)) :
    (c.take n).Holding t Q := (h.add (c.shaped_ahead n) hQ).withRest (h.spaced.drop n)

/-- A node around tokens has to have its shape. -/
theorem wrap (h : c.Holding t P) {k : NodeKind} (hs : Shaped (.node k (c.ahead n)))
    (hQ : ∀ us, P us → Q (us ++ [.node k (c.ahead n)])) : (c.wrap k n).Holding t Q :=
  (h.add (by simp [every_node, hs, c.shaped_ahead n]) hQ).withRest (h.spaced.drop n)

/-- A node may be opened that the innermost one waits for. It is empty at first. -/
theorem push (h : c.Holding t P) (ht : ∀ us, P us → t.Awaits u us) :
    (c.push u).Holding u (· = []) := by
  obtain ⟨us, fs, hf, hP, hus, ha⟩ := h.frames
  exact ⟨h.finished, h.spaced, [], ⟨t, us⟩ :: fs, by simp [Config.push, hf], rfl, everyOf_nil,
    ht us hP, hus, ha⟩

/-- A place may be left to be filled. -/
theorem await (h : c.Holding t P) (s : Slot) : (c.await s).Holding t P :=
  ⟨h.finished, h.spaced, h.frames⟩

/-- A problem is not in the trees. -/
theorem report (h : c.Holding t P) (p : Problem) : (c.report p).Holding t P :=
  ⟨h.finished, h.spaced, h.frames⟩

/-- A node that is closed settles the one around it. -/
theorem close_of_holds (h : c.Holding t t.Complete) (ht : t ≠ .document) :
    ∃ u : Task, u.holds t = true ∧ c.close.Holding u u.Settled := by
  obtain ⟨ts, fs, hf, hcomplete, hts, ha⟩ := h.frames
  cases fs with
  | nil => exact absurd ha ht
  | cons f fs =>
    obtain ⟨hawaits, hfs, hbelow⟩ := ha
    refine ⟨f.task, hawaits.holds, ?_⟩
    have hbase : ({ c with frames := f :: fs } : Config).Holding f.task (· = f.done) :=
      ⟨h.finished, h.spaced, f.done, fs, rfl, rfl, hfs, hbelow⟩
    have hclose : c.close = ({ c with frames := f :: fs } : Config).add [.node t.nodeKind ts] := by
      simp [Config.close, hf, Frame.tree]
    rw [hclose]
    refine hbase.add (by simpa [every_node] using ⟨hcomplete.1, hts⟩) ?_
    rintro _ rfl
    exact hawaits.settles ts hcomplete

/-- A document that is closed is finished. -/
theorem close_document (h : c.Holding .document Task.document.Complete) : c.close.Between := by
  obtain ⟨ts, fs, hf, hcomplete, hts, ha⟩ := h.frames
  cases fs with
  | cons f fs =>
    have := ha.1.holds
    revert this
    cases f.task <;> simp [Task.holds]
  | nil =>
    have hclose :
        c.close = { c with frames := [], finished := c.finished ++ [.node .document ts] } := by
      simp [Config.close, hf, Frame.tree, Task.nodeKind, Config.add]
    rw [hclose]
    obtain ⟨hstream, hfinished⟩ := every_node.mp h.finished
    refine ⟨every_node.mpr ⟨HoldsOnly.append hstream (.node (by simp)), ?_⟩, h.spaced, rfl⟩
    exact everyOf_append.mpr ⟨hfinished, by simpa [every_node] using ⟨hcomplete.1, hts⟩⟩

/-- The key of a flow entry is the first thing in it. -/
theorem close_key (h : c.Holding .key Task.key.Complete) :
    c.close.Holding .flowEntry (EntryParts 0 0) := by
  obtain ⟨ts, fs, hf, hcomplete, hts, ha⟩ := h.frames
  cases fs with
  | nil => cases ha
  | cons f fs =>
    obtain ⟨hawaits, -, hbelow⟩ := ha
    obtain ⟨u, done⟩ := f
    obtain rfl : u = .flowEntry := by
      have := hawaits.holds
      revert this
      cases u <;> simp [Task.holds]
    obtain rfl : done = [] := hawaits.first rfl
    have hclose : c.close = { c with frames := ⟨.flowEntry, [.node .key ts]⟩ :: fs } := by
      simp [Config.close, hf, Frame.tree, Task.nodeKind, Config.add]
    rw [hclose]
    exact ⟨h.finished, h.spaced, _, fs, rfl, .of_key ts,
      by simpa [every_node] using ⟨hcomplete.1, hts⟩, hbelow⟩

/-- A settled node is complete. -/
theorem complete (h : c.Holding t t.Settled) : c.Holding t t.Complete :=
  h.mono fun _ => Task.Settled.complete

/-! ## Loose tokens and errors

Trivia, anchors, tags and whatever is reported are put in where they stand. A node that may hold
them anywhere holds what it did before. -/

/-- Loose tokens may be taken at any time. -/
theorem takeLoose (h : c.Holding t P) (hP : Tolerant P)
    (hn : ∀ l ∈ c.rest.take n, l.kind.isLoose = true) : (c.take n).Holding t P :=
  h.take n fun us hus => hP us _ hus (isLoose_ahead hn)

/-- So may a run of a loose kind. -/
theorem takeRun (h : c.Holding t P) (hP : Tolerant P) {p : TokenKind → Bool}
    (hp : ∀ k, p k = true → k.isLoose = true) : (c.take (kindRun p c.rest)).Holding t P :=
  h.takeLoose hP fun l hl => hp _ (mem_take_kindRun l hl)

theorem takeTrivia (h : c.Holding t P) (hP : Tolerant P) : c.takeTrivia.Holding t P :=
  h.takeRun hP isLoose_of_isTrivia

theorem takeSpaces (h : c.Holding t P) (hP : Tolerant P) : c.takeSpaces.Holding t P :=
  h.takeRun hP fun k hk => by
    obtain rfl : k = space := by simpa using hk
    rfl

theorem takeProperties (h : c.Holding t P) (hP : Tolerant P) :
    (c.take (propertiesLength c.rest)).Holding t P :=
  h.takeLoose hP fun l hl => by
    rcases mem_take_propertiesLength l hl with h | h
    · exact isLoose_of_isProperty _ h
    · rw [h]
      rfl

theorem takeOne (h : c.Holding t P) (hP : Tolerant P) (hk : c.kind? = some k)
    (hl : k.isLoose = true) : (c.take 1).Holding t P := by
  obtain ⟨x, hx, rfl⟩ := ahead_one hk
  exact h.take 1 fun us hus => hP us _ hus (by simpa [hx, IsLoose] using hl)

/-- An error may be put in at any time. -/
theorem wrapError (h : c.Holding t P) (hP : Tolerant P) (n : Nat) :
    (c.wrap .error n).Holding t P := by
  refine h.wrap ?_ fun us hus => hP us _ hus (by simp [IsLoose])
  rw [ahead_eq]
  exact .of_tokens _

theorem errorLine (h : c.Holding t P) (hP : Tolerant P) (p : Problem) :
    (c.errorLine p).Holding t P :=
  (h.report p).wrapError hP _

theorem errorToken (h : c.Holding t P) (hP : Tolerant P) (p : Problem) :
    (c.errorToken p).Holding t P :=
  (h.report p).wrapError hP 1

/-- The rest of a line is loose, or it is an error. -/
theorem finishLine (h : c.Holding t P) (hP : Tolerant P) : c.finishLine.Holding t P := by
  have ht := h.takeRun hP (p := fun k => k == space || k == comment) fun k hk => by
    rcases (by simpa using hk : k = space ∨ k = comment) with rfl | rfl <;> rfl
  dsimp only [Config.finishLine]
  split
  · exact ht
  · exact ht
  · exact ht.errorLine hP _

/-- A comma is loose, and so is what stands in its place. -/
theorem takeComma (h : c.Holding t P) (hP : Tolerant P) (closer : TokenKind) (p : Problem) :
    (c.takeComma closer p).Holding t P := by
  unfold Config.takeComma
  split
  · exact h
  · rename_i k hk
    split
    · rename_i hc
      exact h.takeOne hP hk (by rw [hc]; rfl)
    · split
      · exact h
      · exact h.errorToken hP _

/-! ## Content

A scalar is put into a node as a whole, a collection as a node that is still to be filled. -/

/-- A vacant place takes a scalar. -/
theorem wrapScalar (h : c.Holding t t.Vacant) (hs : IsScalar (c.ahead n)) :
    (c.wrap .scalar n).Resting :=
  (h.wrap (k := .scalar) hs fun _ hus => hus.concat rfl).resting

/-- A token that stands alone is a scalar. -/
theorem isScalar_one (hk : c.kind? = some k) (hs : k.standsAlone = true) :
    IsScalar (c.ahead 1) := by
  obtain ⟨x, hx, rfl⟩ := ahead_one hk
  exact ⟨[x], hx, .inl ⟨x, rfl, hs⟩⟩

/-- The words ahead make a plain scalar. -/
theorem isWords_ahead (hk : c.kind? = some k) (hp : k.isPlain = true) :
    IsWords ((c.rest.take (plainLength c.rest)).map Lexeme.token) := by
  obtain ⟨l, ls, hl, rfl⟩ := exists_rest hk
  rw [hl]
  exact .of_plainLength hp

/-- A vacant place could be closed, since places may be empty. -/
theorem vacant_resting (h : c.Holding t t.Vacant) : c.Resting :=
  (h.mono fun _ => Task.Vacant.settled).resting

/-- A bracket opens a flow collection in a vacant place. -/
theorem openFlow (h : c.Holding t t.Vacant) {k : TokenKind} (hk : c.kind? = some k)
    (hu : k ∈ u.opener?) : ((c.push u).take 1).Resting := by
  have hplace : (t.isPlace || t.isFlowPlace) = true := by
    obtain ⟨us, _, _, hus, -⟩ := h.frames
    simpa using hus.place
  obtain ⟨x, hx, rfl⟩ := ahead_one (c := c.push u) hk
  cases u with
  | flowSequence =>
    obtain hk : leftBracket = x.kind := Option.some.inj hu
    refine ⟨.flowSequence,
      (h.push (u := .flowSequence) fun _ hus => hus.awaits hplace rfl).take 1 ?_⟩
    rintro _ rfl
    rw [hx, List.nil_append]
    exact ⟨⟨.of_tokens [x], x, [], rfl, hk.symm⟩, by simp [Task.closer?, isToken, tokenKind?, ← hk]⟩
  | flowMapping =>
    obtain hk : leftBrace = x.kind := Option.some.inj hu
    have hbegins : BeginsWith leftBrace [token x] := ⟨x, [], rfl, hk.symm⟩
    refine ⟨.flowMapping, (h.push (u := .flowMapping) fun _ hus => hus.awaits hplace rfl).take 1 ?_⟩
    rintro _ rfl
    rw [hx, List.nil_append]
    refine ⟨⟨⟨.of_tokens [x], fun hf => ?_⟩, hbegins⟩,
      by simp [Task.closer?, isToken, tokenKind?, ← hk]⟩
    rw [hbegins.isFlow_eq (.inr rfl)] at hf
    cases hf
  | _ => cases hu

/-- Words open a plain scalar in a vacant place. -/
theorem openPlain (h : c.Holding t t.Vacant) (hp : t.isPlace = true) (hk : c.kind? = some k)
    (hplain : k.isPlain = true) (column : Nat) :
    ((c.push (.plain column)).take (plainLength c.rest)).Resting := by
  have hpush := h.push (u := .plain column) fun _ hus => hus.awaits hp rfl
  refine ⟨.plain column, hpush.take _ ?_⟩
  rintro _ rfl
  have hwords := isWords_ahead hk hplain
  rw [List.nil_append, ahead_eq]
  exact Task.Complete.settled ⟨⟨_, rfl, .inr hwords⟩, _, rfl, hwords⟩ rfl

end Holding

end Config

end YamlPatch
