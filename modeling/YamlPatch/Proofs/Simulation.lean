import YamlPatch.Proofs.Acts
import YamlPatch.Proofs.Lookalike

/-!
# Two runs side by side

Two configurations are `Twins` if nothing that decides the next step tells them apart. Their
tokens left are alike, their slots agree, and so do their tasks down to a base; what they have
built since the base is the same (`Config.log`). What stands below the base, and what was built
before it, may differ : it plays no part until the base is reached.

The relation survives every step, unless the first configuration gets `Lost` : it has reported a
fault, or it has come to the end of the common tokens. Hence whole runs go side by side
(`Twins.leads`). Since `Lost` stays `Lost`, the lemma for a move can be chained like the moves
themselves; `Par` is short for twins that may have got lost.

Inside flow collections columns are not looked at, so there the tokens need not be aligned.

The simulation is used in one direction only : the first run is known to have no faults, and the
second is compared with it. So a lemma may give up as soon as the first run reports a problem,
and nothing has to be said about two faulty texts. The tasks above the base are existential
(`us`) in the lemmas about functions that open nodes, since which nodes these are depends on the
next token, and is the same for both.
-/

namespace YamlPatch

open TokenKind

/-- What two runs start from : whether their columns agree, what follows the common tokens, what
each had built, and the tasks at the base of each. -/
structure Base where
  aligned : Prop
  tail : List Lexeme := []
  tail' : List Lexeme := []
  log : List Event
  log' : List Event
  tasks : List Task := []
  tasks' : List Task := []

/-- Part of a flow collection, where columns are not looked at. -/
def Task.isFlow : Task → Bool
  | .key | .flowSequence | .flowItem | .flowMapping | .flowEntry | .flowValue => true
  | _ => false

namespace Config

/-- Nothing tells the two apart above the base; `ts` are the tasks there. -/
structure Twins (b : Base) (ts : List Task) (c c' : Config) : Prop where
  tasks : c.tasks = ts ++ b.tasks
  tasks' : c'.tasks = ts ++ b.tasks'
  slot : c'.slot = c.slot
  log : ∃ e, c.log = b.log ++ e ∧ c'.log = b.log' ++ e
  faults : c.faults = []
  faults' : c'.faults = []
  rest : Alike b.aligned b.tail b.tail' c.rest c'.rest

/-- A fault has been found, or the common tokens are used up. -/
def Lost (b : Base) (c : Config) : Prop := c.faults ≠ [] ∨ c.rest.length < b.tail.length

/-- Twins, or the first has got lost. -/
def Par (b : Base) (ts : List Task) (c c' : Config) : Prop := Lost b c ∨ Twins b ts c c'

variable {b : Base} {ts : List Task} {c c' d d' : Config}

/-- Who has got lost stays lost : faults are not taken back, and tokens are not put back. -/
theorem Lost.mono (h : Lost b c) (hd : Grows c d) : Lost b d := by
  rcases h with h | h
  · exact .inl fun h0 => h (hd.faultless h0)
  · exact .inr (Nat.lt_of_le_of_lt hd.length_le h)

/-- Twins see the same kind of token next. -/
theorem Twins.kind?_eq (h : Twins b ts c c') : c'.kind? = c.kind? := h.rest.head?_eq

theorem Twins.par (h : Twins b ts c c') : Par b ts c c' := .inr h

namespace Par

/-- A reported fault ends the comparison. -/
theorem of_faults (h : d.faults ≠ []) : Par b ts d d' := .inl (.inl h)

/-- Where the first reports a problem the comparison is over. -/
theorem of_report (p : Problem) : Par b ts (c.report p) d' := of_faults (by simp [report])

/-! ## Moves

Each move is made by both, and it keeps them twins or loses the first. -/

/-- Both take the same number of tokens. If that takes them past the common ones, the first is
lost. -/
theorem take (h : Par b ts c c') {m m' : Nat}
    (hm : Alike b.aligned b.tail b.tail' c.rest c'.rest → m' = m) :
    Par b ts (c.take m) (c'.take m') := by
  rcases h with h | h
  · exact .inl (h.mono ((Grows.refl c).take m))
  · obtain rfl := hm h.rest
    rcases h.rest.drop m' with ⟨hr, ht⟩ | hr
    · obtain ⟨e, he, he'⟩ := h.log
      refine .inr ⟨by simpa using h.tasks, by simpa using h.tasks', by simpa using h.slot, ?_,
        by simpa using h.faults, by simpa using h.faults', hr⟩
      refine ⟨e ++ c.leavesAhead m', by simp [he], ?_⟩
      rw [log_take, he', leavesAhead, ht, ← leavesAhead, List.append_assoc]
    · exact .inl (.inr hr)

/-- The same, with a node around the tokens. -/
theorem wrap (h : Par b ts c c') (k : NodeKind) {m m' : Nat}
    (hm : Alike b.aligned b.tail b.tail' c.rest c'.rest → m' = m) :
    Par b ts (c.wrap k m) (c'.wrap k m') := by
  rcases h with h | h
  · exact .inl (h.mono ((Grows.refl c).wrap k m))
  · obtain rfl := hm h.rest
    rcases h.rest.drop m' with ⟨hr, ht⟩ | hr
    · obtain ⟨e, he, he'⟩ := h.log
      refine .inr ⟨by simpa using h.tasks, by simpa using h.tasks', by simpa using h.slot, ?_,
        by simpa using h.faults, by simpa using h.faults', hr⟩
      refine ⟨e ++ .opening k :: (c.leavesAhead m' ++ [.closing]), by simp [he], ?_⟩
      rw [log_wrap, he', leavesAhead, ht, ← leavesAhead, List.append_assoc]
    · exact .inl (.inr hr)

/-- Both open the same node. -/
theorem push (h : Par b ts c c') (t : Task) : Par b (t :: ts) (c.push t) (c'.push t) := by
  rcases h with h | h
  · exact .inl (h.mono ((Grows.refl c).push t))
  · obtain ⟨e, he, he'⟩ := h.log
    refine .inr ⟨by simp [h.tasks], by simp [h.tasks'], by simpa using h.slot, ?_, h.faults,
      h.faults', h.rest⟩
    exact ⟨e ++ [.opening t.nodeKind], by simp [he], by simp [he']⟩

/-- Both close the node above the base. -/
theorem close {t : Task} (h : Par b (t :: ts) c c') : Par b ts c.close c'.close := by
  rcases h with h | h
  · exact .inl (h.mono (Grows.refl c).close)
  · obtain ⟨e, he, he'⟩ := h.log
    refine .inr ⟨by simp [h.tasks], by simp [h.tasks'], by simpa using h.slot, ?_,
      by simpa using h.faults, by simpa using h.faults', by simpa using h.rest⟩
    refine ⟨e ++ [.closing], ?_, ?_⟩
    · rw [log_close h.tasks, he, List.append_assoc]
    · rw [log_close h.tasks', he', List.append_assoc]

/-- Both leave the same place to be filled. -/
theorem await (h : Par b ts c c') (s : Slot) : Par b ts (c.await s) (c'.await s) := by
  rcases h with h | h
  · exact .inl (h.mono ((Grows.refl c).await s))
  · exact .inr ⟨h.tasks, h.tasks', rfl, h.log, h.faults, h.faults', h.rest⟩

/-- Both turn to the place that was left to be filled. -/
theorem unslot (h : Par b ts c c') :
    Par b ts { c with slot := none } { c' with slot := none } := by
  rcases h with h | h
  · exact .inl h
  · exact .inr ⟨h.tasks, h.tasks', rfl, h.log, h.faults, h.faults', h.rest⟩

theorem takeTrivia (h : Par b ts c c') : Par b ts c.takeTrivia c'.takeTrivia :=
  h.take fun h => h.triviaLength_eq

theorem takeSpaces (h : Par b ts c c') : Par b ts c.takeSpaces c'.takeSpaces :=
  h.take fun h => h.spacesLength_eq

/-- Both take the same anchors and tags. -/
theorem takeProperties (h : Par b ts c c') :
    Par b ts (c.take (propertiesLength c.rest)) (c'.take (propertiesLength c'.rest)) :=
  h.take fun h => h.propertiesLength_eq

/-- Both finish the line in the same way, or the first reports what it has left over. -/
theorem finishLine (h : Par b ts c c') : Par b ts c.finishLine c'.finishLine := by
  have h1 : Par b ts (c.take (kindRun (fun k => k == space || k == comment) c.rest))
      (c'.take (kindRun (fun k => k == space || k == comment) c'.rest)) :=
    h.take fun h => h.lineEndLength_eq
  dsimp only [Config.finishLine]
  rcases h1 with h1 | h1
  · left
    split
    · exact h1
    · exact h1
    · exact h1.mono ((Grows.refl _).errorLine _)
  · rw [h1.kind?_eq]
    split
    · exact .inr h1
    · exact .inr h1
    · exact of_faults (by simp [errorLine, report])

theorem openItem (h : Par b ts c c') (column : Nat) :
    Par b (.item :: ts) (c.openItem column) (c'.openItem column) :=
  (((h.push .item).take fun _ => rfl).takeSpaces).await _

/-- Both take the same key. -/
theorem takeKey (h : Par b ts c c') : Par b ts c.takeKey c'.takeKey := by
  have h1 : Par b (.key :: ts) ((c.push .key).take (propertiesLength c.rest))
      ((c'.push .key).take (propertiesLength c'.rest)) := (h.push .key).takeProperties
  dsimp only [Config.takeKey]
  rcases h1 with h1 | h1
  · left
    split
    · exact h1.mono (Grows.refl _).close
    · exact h1.mono ((Grows.refl _).wrap _ _).close
  · have hn := h1.rest.keyLength_eq
    rw [hn]
    split
    · exact h1.par.close
    · exact (h1.par.wrap _ fun _ => rfl).close

theorem takeColon (h : Par b ts c c') : Par b ts c.takeColon c'.takeColon := by
  unfold Config.takeColon
  rcases h with h | h
  · left
    split
    · exact h.mono ((Grows.refl c).take 1)
    · exact h.mono ((Grows.refl c).report _)
  · rw [h.kind?_eq]
    split
    · exact h.par.take fun _ => rfl
    · exact of_report _

/-- Both open the next entry of a block mapping. -/
theorem openEntry (h : Par b ts c c') (column : Nat) :
    Par b (.value :: .entry :: ts) (c.openEntry column) (c'.openEntry column) :=
  ((h.push .entry).takeKey.takeSpaces.takeColon.takeSpaces.push .value).await _

/-- Both take what stands on this line, whatever it is. The nodes that stay open are the same.
-/
theorem takeInline (h : Par b ts c c') (column : Nat) (k : TokenKind) :
    ∃ us, Par b (us ++ ts) (c.takeInline column k) (c'.takeInline column k) := by
  unfold Config.takeInline
  split <;> try split
  case h_1 => exact ⟨[_], (h.push _).take fun _ => rfl⟩
  case h_2 => exact ⟨[_], (h.push _).take fun _ => rfl⟩
  case h_7 => exact ⟨[], of_faults (by simp [report])⟩
  case h_8 => exact ⟨[], of_faults (by simp [errorLine, report])⟩
  case h_9.isTrue => exact ⟨[_], (h.push (.plain column)).take fun h => h.plainLength_eq⟩
  case h_9.isFalse => exact ⟨[], of_faults (by simp [errorLine, report])⟩
  all_goals exact ⟨[], h.wrap _ fun _ => rfl⟩

/-- Both fill a place in block style in the same way. Here columns have to agree. -/
theorem fillContent (ha : b.aligned) (h : Par b ts c c') (s : Slot) :
    ∃ us, Par b (us ++ ts) (c.fillContent s) (c'.fillContent s) := by
  rcases h with h | h
  · exact ⟨[], .inl (h.mono ((Grows.refl c).fillContent s))⟩
  have hr := h.rest
  unfold Config.fillContent
  generalize hx : c.rest = xs at hr ⊢
  generalize hx' : c'.rest = xs' at hr ⊢
  cases xs with
  | nil =>
    cases hr
    exact ⟨[], .inr h⟩
  | cons l ls =>
    obtain ⟨l', ls', rfl, hk⟩ := hr.exists_cons
    have hkey := hr.startsKey_eq
    dsimp only
    rw [hk, hr.laterStart_eq ha s]
    split
    · split
      · exact ⟨[], (h.par.take fun _ => rfl).await _⟩
      · exact ⟨[], .inr h⟩
    · split
      · rename_i hd
        have hc := hr.column_eq ha (by rw [hd.2]; rfl)
        rw [hc]
        exact ⟨[_, _], (h.par.push _).openItem _⟩
      · rw [hkey]
        split
        · rename_i hd
          rw [hr.column_eq_of_startsKey ha hd.2]
          exact ⟨[_, _, _], (h.par.push _).openEntry _⟩
        · exact h.par.takeInline _ _

/-- Properties come first; then the place is filled. -/
theorem fill (ha : b.aligned) (h : Par b ts c c') (s : Slot) :
    ∃ us, Par b (us ++ ts) (c.fill s) (c'.fill s) :=
  h.takeProperties.fillContent ha s

/-- Both take the same node inside a flow collection. Here columns play no part. -/
theorem takeFlowContent (h : Par b ts c c') (p : Bool) :
    ∃ us, us.all Task.isFlow ∧
      Par b (us ++ ts) (c.takeFlowContent p) (c'.takeFlowContent p) := by
  rcases h with h | h
  · exact ⟨[], rfl, .inl (h.mono ((Grows.refl c).takeFlowContent p))⟩
  unfold Config.takeFlowContent
  rw [h.kind?_eq]
  split
  · exact ⟨[], rfl, .inr h⟩
  · split <;> try split <;> try split
    case h_1 => exact ⟨[_], rfl, (h.par.push .flowSequence).take fun _ => rfl⟩
    case h_2 => exact ⟨[_], rfl, (h.par.push .flowMapping).take fun _ => rfl⟩
    case h_6 => exact ⟨[], rfl, of_faults (by simp [report])⟩
    case h_7.isTrue => exact ⟨[], rfl, h.par.wrap _ fun h => h.plainLength_eq⟩
    case h_7.isFalse.isTrue => exact ⟨[], rfl, .inr h⟩
    case h_7.isFalse.isFalse => exact ⟨[], rfl, of_faults (by simp [errorToken, report])⟩
    all_goals exact ⟨[], rfl, h.par.wrap _ fun _ => rfl⟩

theorem takeFlowNode (h : Par b ts c c') :
    ∃ us, us.all Task.isFlow ∧ Par b (us ++ ts) c.takeFlowNode c'.takeFlowNode := by
  unfold Config.takeFlowNode
  rcases h with h | h
  · exact ⟨[], rfl, .inl (h.mono (Grows.refl c).takeFlowNode)⟩
  · rw [h.rest.propertiesLength_eq]
    exact (h.par.take fun _ => rfl).takeFlowContent _

/-- Both take the comma, or leave the bracket that closes the collection. -/
theorem takeComma (h : Par b ts c c') (closer : TokenKind) (p : Problem) :
    Par b ts (c.takeComma closer p) (c'.takeComma closer p) := by
  rcases h with h | h
  · exact .inl (h.mono ((Grows.refl c).takeComma closer p))
  unfold Config.takeComma
  rw [h.kind?_eq]
  split
  · exact .inr h
  · split
    · exact h.par.take fun _ => rfl
    · split
      · exact .inr h
      · exact of_faults (by simp [errorToken, report])

/-! ## Steps inside flow collections

No column is looked at here, so the twins may stand in different ones. -/

/-- Behind the key of a flow entry both find the colon, or neither does. -/
theorem stepFlowKey (h : Par b (.key :: ts) c c') :
    ∃ us, us.all Task.isFlow ∧ Par b (us ++ ts) c.stepFlowKey c'.stepFlowKey := by
  have h1 := h.close.takeTrivia
  -- If the run is lost it stays so, whatever it does at the colon.
  rcases h1 with h1 | h1
  · refine ⟨[], rfl, .inl ?_⟩
    dsimp only [Config.stepFlowKey]
    split
    · have hv := (((Grows.refl c.close.takeTrivia).take 1).takeTrivia).push .flowValue
      split
      · exact h1.mono hv
      · split
        · exact h1.mono hv
        · exact h1.mono hv.takeFlowNode
    · exact h1
  dsimp only [Config.stepFlowKey]
  rw [h1.kind?_eq]
  split
  -- Both take the colon and what is behind it, unless the value is empty.
  · have h2 := (((h1.par.take fun _ => rfl).takeTrivia).push .flowValue : Par b (.flowValue :: ts)
      ((c.close.takeTrivia.take 1).takeTrivia.push .flowValue)
      ((c'.close.takeTrivia.take 1).takeTrivia.push .flowValue))
    rcases h2 with h2 | h2
    · refine ⟨[], rfl, .inl ?_⟩
      split
      · exact h2
      · split
        · exact h2
        · exact h2.mono (Grows.refl _).takeFlowNode
    · rw [h2.kind?_eq]
      split
      · exact ⟨[.flowValue], rfl, .inr h2⟩
      · split
        · exact ⟨[.flowValue], rfl, .inr h2⟩
        · obtain ⟨us, hus, h3⟩ := h2.par.takeFlowNode
          exact ⟨us ++ [.flowValue], by simpa [Task.isFlow] using hus, by simpa using h3⟩
  · exact ⟨[], rfl, .inr h1⟩

/-- In a flow sequence both open an item, or both close the sequence. -/
theorem stepFlowSequence (h : Par b (.flowSequence :: ts) c c') :
    ∃ us, us.all Task.isFlow ∧ Par b (us ++ ts) c.stepFlowSequence c'.stepFlowSequence := by
  have h1 := h.takeTrivia
  dsimp only [Config.stepFlowSequence]
  rcases h1 with h1 | h1
  · refine ⟨[], rfl, .inl ?_⟩
    split
    · exact h1.mono ((Grows.refl _).report _).close
    · split
      · exact h1.mono ((Grows.refl _).take 1).close
      · exact h1.mono ((Grows.refl _).push _).takeFlowNode
  · rw [h1.kind?_eq]
    split
    · exact ⟨[], rfl, of_faults (by simp [report])⟩
    · split
      · exact ⟨[], rfl, (h1.par.take fun _ => rfl).close⟩
      · obtain ⟨us, hus, h2⟩ := (h1.par.push .flowItem).takeFlowNode
        exact ⟨us ++ [.flowItem, .flowSequence],
          by simpa [Task.isFlow] using hus, by simpa using h2⟩

/-- In a flow mapping both open an entry, or both close the mapping. -/
theorem stepFlowMapping (h : Par b (.flowMapping :: ts) c c') :
    ∃ us, us.all Task.isFlow ∧ Par b (us ++ ts) c.stepFlowMapping c'.stepFlowMapping := by
  have h1 := h.takeTrivia
  dsimp only [Config.stepFlowMapping]
  rcases h1 with h1 | h1
  · refine ⟨[], rfl, .inl ?_⟩
    split
    · exact h1.mono ((Grows.refl _).report _).close
    · split
      · exact h1.mono ((Grows.refl _).take 1).close
      · exact h1.mono (((Grows.refl _).push _).push _).takeFlowNode
  · rw [h1.kind?_eq]
    split
    · exact ⟨[], rfl, of_faults (by simp [report])⟩
    · split
      · exact ⟨[], rfl, (h1.par.take fun _ => rfl).close⟩
      · obtain ⟨us, hus, h2⟩ := ((h1.par.push .flowEntry).push .key).takeFlowNode
        exact ⟨us ++ [.key, .flowEntry, .flowMapping], by simpa [Task.isFlow] using hus,
          by simpa using h2⟩

/-- Inside a flow collection a step does not look at columns and leaves no block task above. -/
theorem stepTask_of_isFlow {t : Task} (ht : t.isFlow = true) (h : Par b (t :: ts) c c') :
    ∃ us, us.all Task.isFlow ∧ Par b (us ++ ts) (c.stepTask t) (c'.stepTask t) := by
  cases t with
  | key => exact h.stepFlowKey
  | flowSequence => exact h.stepFlowSequence
  | flowItem => exact ⟨[], rfl, h.close.takeTrivia.takeComma _ _⟩
  | flowMapping => exact h.stepFlowMapping
  | flowEntry => exact ⟨[], rfl, h.close.takeTrivia.takeComma _ _⟩
  | flowValue => exact ⟨[], rfl, h.close⟩
  | _ => simp [Task.isFlow] at ht

/-! ## Steps

In block style columns decide, and the base says that they agree. -/

/-- In a document both find the end of it, or a line that the first reports. -/
theorem stepDocument (h : Par b (.document :: ts) c c') :
    ∃ us, Par b us c.stepDocument c'.stepDocument := by
  rcases h with h | h
  · exact ⟨ts, .inl (h.mono (Grows.stepTask c .document))⟩
  have hr := h.rest.significant
  unfold Config.stepDocument
  generalize hx : significant c.rest = xs at hr ⊢
  generalize hx' : significant c'.rest = xs' at hr ⊢
  cases xs with
  | nil =>
    cases hr
    exact ⟨ts, h.par.takeTrivia.close⟩
  | cons l ls =>
    obtain ⟨l', ls', rfl, hk⟩ := hr.exists_cons
    dsimp only
    rw [hk]
    split
    · exact ⟨ts, h.par.close⟩
    · exact ⟨ts, h.par.close⟩
    · exact ⟨ts, (h.par.takeTrivia.take fun _ => rfl).finishLine.close⟩
    · exact ⟨ts, of_faults (by simp [errorLine, report])⟩

/-- In a block mapping both open the next entry in its column, or both close the mapping. -/
theorem stepMapping (ha : b.aligned) (column : Nat) (h : Par b (.mapping column :: ts) c c') :
    ∃ us, Par b us (c.stepMapping column) (c'.stepMapping column) := by
  rcases h with h | h
  · exact ⟨ts, .inl (h.mono (Grows.stepTask c (.mapping column)))⟩
  have hr := h.rest.significant
  unfold Config.stepMapping
  generalize hx : significant c.rest = xs at hr ⊢
  generalize hx' : significant c'.rest = xs' at hr ⊢
  cases xs with
  | nil =>
    cases hr
    exact ⟨ts, h.par.close⟩
  | cons l ls =>
    obtain ⟨l', ls', rfl, hk⟩ := hr.exists_cons
    have hc := hr.column_eq ha (isTrivia_of_significant hx)
    dsimp only
    rw [hk, hc, hr.startsKey_eq]
    split
    · exact ⟨ts, h.par.close⟩
    · split
      · exact ⟨ts, of_faults (by simp [errorLine, report])⟩
      · split
        · exact ⟨_, h.par.takeTrivia.openEntry _⟩
        · exact ⟨ts, of_faults (by simp [errorLine, report])⟩

/-- In a block sequence both open the next item in its column, or both close the sequence. -/
theorem stepSequence (ha : b.aligned) (column : Nat) (h : Par b (.sequence column :: ts) c c') :
    ∃ us, Par b us (c.stepSequence column) (c'.stepSequence column) := by
  rcases h with h | h
  · exact ⟨ts, .inl (h.mono (Grows.stepTask c (.sequence column)))⟩
  have hr := h.rest.significant
  unfold Config.stepSequence
  generalize hx : significant c.rest = xs at hr ⊢
  generalize hx' : significant c'.rest = xs' at hr ⊢
  cases xs with
  | nil =>
    cases hr
    exact ⟨ts, h.par.close⟩
  | cons l ls =>
    obtain ⟨l', ls', rfl, hk⟩ := hr.exists_cons
    have hc := hr.column_eq ha (isTrivia_of_significant hx)
    dsimp only
    rw [hk, hc]
    split
    · exact ⟨ts, h.par.close⟩
    · split
      · exact ⟨ts, of_faults (by simp [errorLine, report])⟩
      · exact ⟨_, h.par.takeTrivia.openItem _⟩

/-- A plain scalar goes on in a later line for both, or is closed for both. -/
theorem stepPlain (ha : b.aligned) (column : Nat) (h : Par b (.plain column :: ts) c c') :
    ∃ us, Par b us (c.stepPlain column) (c'.stepPlain column) := by
  rcases h with h | h
  · exact ⟨ts, .inl (h.mono (Grows.stepTask c (.plain column)))⟩
  unfold Config.stepPlain
  rw [h.rest.continuation_eq ha]
  split
  · exact ⟨_, (h.par.take fun _ => rfl).take fun h => h.plainLength_eq⟩
  · exact ⟨ts, h.par.close⟩

/-- A step of the innermost task keeps twins together, in block context if columns agree. -/
theorem stepTask (ha : b.aligned) (t : Task) (h : Par b (t :: ts) c c') :
    ∃ us, Par b us (c.stepTask t) (c'.stepTask t) := by
  by_cases hf : t.isFlow = true
  · obtain ⟨us, -, h'⟩ := h.stepTask_of_isFlow hf
    exact ⟨_, h'⟩
  cases t with
  | document => exact h.stepDocument
  | mapping column => exact h.stepMapping ha column
  | entry => exact ⟨ts, h.finishLine.close⟩
  | value => exact ⟨ts, h.close⟩
  | sequence column => exact h.stepSequence ha column
  | item => exact ⟨ts, h.finishLine.close⟩
  | plain column => exact h.stepPlain ha column
  | _ => simp [Task.isFlow] at hf

end Par

/-! ## Runs

By induction on the length of a run, as long as the common tokens last. -/

/-- Between documents both stop, or both take the same step. -/
theorem Twins.stepStream (ha : b.aligned) (h : Twins b ts c c') :
    (c.stepStream = none → c'.stepStream = none) ∧
      ∀ d, c.stepStream = some d → ∃ d' us, c'.stepStream = some d' ∧ Par b us d d' := by
  have hr := h.rest.significant
  unfold Config.stepStream
  generalize hx : significant c.rest = xs at hr ⊢
  generalize hx' : significant c'.rest = xs' at hr ⊢
  cases xs with
  | nil =>
    cases hr
    simp
  | cons l ls =>
    obtain ⟨l', ls', rfl, hk⟩ := hr.exists_cons
    have ht := h.par.takeTrivia
    dsimp only
    rw [hk]
    split
    · simpa using ⟨_, ht.take fun _ => rfl⟩
    · simpa using ⟨_, ht.take fun _ => rfl⟩
    · obtain ⟨us, hp⟩ :=
        ((ht.push .document).take (m := 1) fun _ => rfl).takeSpaces.fill ha ⟨0, none, true⟩
      simpa using ⟨_, hp⟩
    · obtain ⟨us, hp⟩ := (ht.push .document).fill ha ⟨0, none, true⟩
      simpa using ⟨_, hp⟩

/-- Twins without tasks below make the same step. -/
theorem Twins.step (ha : b.aligned) (hb : b.tasks = []) (hb' : b.tasks' = [])
    (h : Twins b ts c c') :
    (c.step = none → c'.step = none) ∧
      ∀ d, c.step = some d → ∃ d' us, c'.step = some d' ∧ Par b us d d' := by
  cases hs : c.slot with
  | some s =>
    obtain ⟨us, hp⟩ := h.par.unslot.fill ha s
    rw [step_of_slot hs, step_of_slot (h.slot.trans hs)]
    simpa using ⟨_, hp⟩
  | none =>
    have hs' := h.slot.trans hs
    have ht := h.tasks
    have ht' := h.tasks'
    rw [hb, List.append_nil] at ht
    rw [hb', List.append_nil] at ht'
    cases ts with
    | nil =>
      rw [step_of_tasks_nil hs ht, step_of_tasks_nil hs' ht']
      exact h.stepStream ha
    | cons t ts =>
      obtain ⟨us, hp⟩ := h.par.stepTask ha t
      rw [step_of_tasks hs ht, step_of_tasks hs' ht']
      simpa using ⟨_, hp⟩

/-- Twins without tasks below go side by side as long as the first is not lost. -/
theorem Twins.leads (ha : b.aligned) (hb : b.tasks = []) (hb' : b.tasks' = [])
    (h : Twins b ts c c') (hl : Leads c d) (hd : ¬ Lost b d) :
    ∃ d' us, Leads c' d' ∧ Twins b us d d' := by
  obtain ⟨n, hn⟩ := hl
  induction hn generalizing c' ts with
  | refl => exact ⟨c', ts, .refl _, h⟩
  | cons hstep hs ih =>
    obtain ⟨e', us, he', hp⟩ := (h.step ha hb hb').2 _ hstep
    have hn := mt (fun h => Lost.mono h (Leads.grows ⟨_, hs⟩)) hd
    obtain ⟨d', vs, hl', hd'⟩ := ih (hp.resolve_left hn) hd
    exact ⟨d', vs, .head he' hl', hd'⟩

/-- Twins whose common tokens go to the end run to the same end, if there are no faults. -/
theorem Twins.run (ha : b.aligned) (hb : b.tasks = []) (hb' : b.tasks' = []) (hn : b.tail = [])
    (h : Twins b ts c c') (hf : c.run.faults = []) : ∃ us, Twins b us c.run c'.run := by
  have hd : ¬ Lost b c.run := by
    rintro (h0 | h0)
    · exact h0 hf
    · simp [hn] at h0
  obtain ⟨d', us, hl', ht⟩ := h.leads ha hb hb' (.to_run c) hd
  have hs := (ht.step ha hb hb').1 (Leads.step_run c)
  rcases Leads.cases_head (.to_run d') with he | ⟨e, he, -⟩
  · rw [← hl'.run_eq, ← he]
    exact ⟨us, ht⟩
  · rw [hs] at he
    cases he

end Config

end YamlPatch
