import YamlPatch.Proofs.Simulation

/-!
# What may stand inside what

The tasks of a configuration that the parser comes to are nested in a fixed way : a document
holds everything, a value stands in an entry and an entry in a mapping, an item in a sequence,
and the parts of flow collections in one another (`Task.holds`). A place waits to be filled only
in a document, a value or an item. `Config.Nested` says so, and it holds on every run
(`Nested.leads`).

The nodes below the innermost ones are left alone until those are closed. `Config.Within` names
a frame with the ones below it, and `Within.exists_closed` finds the configuration in which the
frame is complete.

The run to that configuration is found by induction on the measure, which goes down in every
step. As long as there are frames above, or the place of the frame is open, there is a step, and
a step closes one node at a time : so the frame comes to be the innermost one before it is
closed.
-/

namespace YamlPatch

open TokenKind

namespace Task

/-- The block places : what can hold a node of any kind. -/
def isPlace : Task → Bool
  | document | value | item => true
  | _ => false

/-- The places in flow collections. -/
def isFlowPlace : Task → Bool
  | key | flowItem | flowValue => true
  | _ => false

/-- The place is one that is filled so : in block style there is a slot. -/
def takes (t : Task) : Option Slot → Bool
  | some _ => t.isPlace
  | none => t.isFlowPlace

/-- The first task may stand directly around the second. -/
def holds : Task → Task → Bool
  | t, mapping _ => t.isPlace
  | t, sequence _ => t.isPlace
  | t, plain _ => t.isPlace
  | t, flowSequence => t.isPlace || t.isFlowPlace
  | t, flowMapping => t.isPlace || t.isFlowPlace
  | mapping _, entry => true
  | entry, value => true
  | sequence _, item => true
  | flowEntry, key => true
  | flowEntry, flowValue => true
  | flowMapping, flowEntry => true
  | flowSequence, flowItem => true
  | _, _ => false

/-- Each task may stand in the one below it, and the last is a document. -/
def nested : List Task → Bool
  | [] => true
  | [t] => t == document
  | t :: u :: ts => u.holds t && nested (u :: ts)

/-- What stands below the innermost task is nested as well. -/
theorem nested_tail {t : Task} {ts : List Task} (h : nested (t :: ts) = true) :
    nested ts = true := by
  cases ts with
  | nil => rfl
  | cons u ts => simp_all [nested]

end Task

open YamlPatch.Task

namespace Config

/-- The tasks are nested as they should be, and only a block place waits to be filled. -/
structure Nested (c : Config) : Prop where
  tasks : nested c.tasks = true
  place : ∀ s, c.slot = some s → ∃ t ts, c.tasks = t :: ts ∧ t.isPlace = true

namespace Nested

variable {c d e : Config} {p : Option Slot} {t : Task} {ts : List Task}

/-- On the way to a place the tasks stay nested, and the innermost one is a place of the right
sort. -/
theorem opens (h : Nested c) (ho : Opens p c e) :
    nested e.tasks = true ∧ ∃ t ts, e.tasks = t :: ts ∧ t.takes p = true := by
  have htasks := h.tasks
  cases ho with
  | slot hs =>
    obtain ⟨t, ts, ht, hp⟩ := h.place _ hs
    exact ⟨htasks, t, ts, ht, hp⟩
  | document hs ht => exact ⟨by simp [ht, nested], _, _, by simp [ht]; exact ⟨rfl, rfl⟩, rfl⟩
  | marked hs ht => exact ⟨by simp [ht, nested], _, _, by simp [ht]; exact ⟨rfl, rfl⟩, rfl⟩
  | flowItem hs ht =>
    rw [ht] at htasks
    exact ⟨by simp [ht, nested, holds, htasks], _, _, rfl, rfl⟩
  | flowEntry hs ht =>
    rw [ht] at htasks
    exact ⟨by simp [ht, nested, holds, htasks], _, _, rfl, rfl⟩
  | @flowValue _ ts hs ht =>
    -- a key that is the innermost node is that of a flow entry
    rw [ht] at htasks
    obtain ⟨us, rfl⟩ : ∃ us, ts = .flowEntry :: us := by
      cases ts with
      | nil => simp [nested] at htasks
      | cons u us => revert htasks; cases u <;> simp [nested, holds]
    exact ⟨by simpa [ht, nested, holds] using nested_tail htasks, _, _, rfl, rfl⟩

/-- What fills a place may stand in it. -/
theorem fillsIn (h : nested c.tasks = true) (ht : c.tasks = t :: ts) (hp : t.takes p = true)
    (hs : c.slot = none) (hf : FillsIn p c d) : Nested d := by
  have h' := ht ▸ h
  have hopen {s : Slot} {u : Task} {us : List Task} (hd : d.slot = some s)
      (htasks : d.tasks = u :: us)
      (hu : u.isPlace = true) (hn : nested d.tasks = true) : Nested d :=
    ⟨hn, fun _ _ => ⟨u, us, htasks, hu⟩⟩
  cases hf with
  | nothing => exact ⟨h, by simp [hs]⟩
  | later => exact hopen rfl (by simpa using ht) hp (by simpa using h)
  | sequence => exact hopen rfl (by simp; exact ⟨rfl, rfl⟩) rfl (by simp_all [nested, holds, takes])
  | mapping => exact hopen rfl (by simp; exact ⟨rfl, rfl⟩) rfl (by simp_all [nested, holds, takes])
  | @collection _ _ u _ _ hu =>
    refine ⟨?_, by simp [hs]⟩
    cases u <;> cases hu <;> cases p <;> simp_all [nested, holds, takes]
  | plain => exact ⟨by simp_all [nested, holds, takes], by simp [hs]⟩
  | _ => exact ⟨by simpa using h, by simp [hs]⟩

/-- A step keeps the tasks nested. -/
theorem step (h : Nested c) (hd : c.step = some d) : Nested d := by
  have htasks := h.tasks
  cases acts_of_step hd with
  | fill ho hf =>
    obtain ⟨he, t, ts, ht, hp⟩ := h.opens ho
    exact fillsIn (by simpa using he) (by simpa using ht) hp (by simp [ho.slot_eq]) hf
  | entry hs ht =>
    rw [ht] at htasks
    exact ⟨by simp [ht, nested, holds, htasks], fun _ _ => ⟨_, _, by simp; exact ⟨rfl, rfl⟩, rfl⟩⟩
  | item hs ht =>
    rw [ht] at htasks
    exact ⟨by simp [ht, nested, holds, htasks], fun _ _ => ⟨_, _, by simp; exact ⟨rfl, rfl⟩, rfl⟩⟩
  | close hs ht hc =>
    exact ⟨by rw [hc.tasks_eq, ht]; exact nested_tail (ht ▸ htasks), by simp [hc.slot_eq, hs]⟩
  | _ => exact ⟨by simpa using htasks, by simp [*]⟩

/-- At the start there are none. -/
theorem start (t : Text) : Nested (start t) := ⟨rfl, by simp [Config.start]⟩

/-- So they are nested all along a run. -/
theorem leads (h : Nested c) (hd : Leads c d) : Nested d := hd.keeps step h

end Nested

/-! ## Frames that are left alone

All moves work on the innermost frame, so the ones below it are as they were. The number of
frames above tells how often a node has to be closed before the frame is the innermost one
again. -/

/-- A frame with what is below it, and `m` frames above it. -/
def Within (t : Task) (fs : List Frame) (finished : List Tree) (m : Nat) (c : Config) : Prop :=
  (∃ gs done, c.frames = gs ++ ⟨t, done⟩ :: fs ∧ gs.length = m) ∧ c.finished = finished

namespace Within

variable {t : Task} {fs : List Frame} {finished : List Tree} {m : Nat} {c : Config}

/-- The innermost frame has none above it. -/
theorem of_frames {done : List Tree} (h : c.frames = ⟨t, done⟩ :: fs) :
    Within t fs c.finished 0 c :=
  ⟨⟨[], done, h, rfl⟩, rfl⟩

/-- Without frames above it the frame is the innermost one. -/
theorem exists_tasks (h : Within t fs finished 0 c) : ∃ ts, c.tasks = t :: ts := by
  obtain ⟨⟨gs, done, hf, hgs⟩, -⟩ := h
  obtain rfl := List.length_eq_zero_iff.mp hgs
  exact ⟨fs.map Frame.task, by simp [tasks, hf]⟩

/-- Trees are put into the innermost frame, which leaves the ones below it alone. -/
theorem add (h : Within t fs finished m c) (ts : List Tree) :
    Within t fs finished m (c.add ts) := by
  obtain ⟨⟨gs, done, hf, hm⟩, hfin⟩ := h
  unfold Config.add
  cases gs with
  | nil => simpa [hf] using ⟨⟨[], done ++ ts, by simp, hm⟩, hfin⟩
  | cons g gs => simpa [hf] using ⟨⟨{ g with done := g.done ++ ts } :: gs, done, by simp, hm⟩, hfin⟩

/-- Taking tokens leaves them alone as well. -/
theorem take (h : Within t fs finished m c) (n : Nat) : Within t fs finished m (c.take n) :=
  h.add _

theorem wrap (h : Within t fs finished m c) (k : NodeKind) (n : Nat) :
    Within t fs finished m (c.wrap k n) :=
  h.add _

/-- A node that is opened stands above the frame. -/
theorem push (h : Within t fs finished m c) (u : Task) :
    Within t fs finished (m + 1) (c.push u) := by
  obtain ⟨⟨gs, done, hf, hm⟩, hfin⟩ := h
  exact ⟨⟨⟨u, []⟩ :: gs, done, by simp [Config.push, hf], by simp [hm]⟩, hfin⟩

/-- A node above the frame is closed without touching it. -/
theorem close (h : Within t fs finished (m + 1) c) : Within t fs finished m c.close := by
  obtain ⟨⟨gs, done, hf, hm⟩, hfin⟩ := h
  cases gs with
  | nil => simp at hm
  | cons g gs =>
    have hc : c.close = ({ c with frames := gs ++ ⟨t, done⟩ :: fs } : Config).add [g.tree] := by
      simp [Config.close, hf]
    rw [hc]
    exact add (c := { c with frames := gs ++ ⟨t, done⟩ :: fs })
      ⟨⟨gs, done, rfl, by simpa using hm⟩, hfin⟩ _

theorem await (h : Within t fs finished m c) (s : Slot) : Within t fs finished m (c.await s) := h

theorem report (h : Within t fs finished m c) (p : Problem) :
    Within t fs finished m (c.report p) := h

theorem unslot (h : Within t fs finished m c) : Within t fs finished m { c with slot := none } := h

theorem takeTrivia (h : Within t fs finished m c) : Within t fs finished m c.takeTrivia := h.take _

theorem takeSpaces (h : Within t fs finished m c) : Within t fs finished m c.takeSpaces := h.take _

theorem errorLine (h : Within t fs finished m c) (p : Problem) :
    Within t fs finished m (c.errorLine p) := (h.report p).wrap _ _

theorem errorToken (h : Within t fs finished m c) (p : Problem) :
    Within t fs finished m (c.errorToken p) := (h.report p).wrap _ _

theorem finishLine (h : Within t fs finished m c) : Within t fs finished m c.finishLine := by
  dsimp only [Config.finishLine]
  split
  · exact h.take _
  · exact h.take _
  · exact (h.take _).errorLine _

/-- An item is one more frame above. -/
theorem openItem (h : Within t fs finished m c) (column : Nat) :
    Within t fs finished (m + 1) (c.openItem column) :=
  (((h.push .item).take 1).takeSpaces).await _

theorem takeKey (h : Within t fs finished m c) : Within t fs finished m c.takeKey := by
  dsimp only [Config.takeKey]
  split
  · exact ((h.push .key).take _).close
  · exact (((h.push .key).take _).wrap _ _).close

theorem takeColon (h : Within t fs finished m c) : Within t fs finished m c.takeColon := by
  unfold Config.takeColon
  split
  · exact h.take 1
  · exact h.report _

/-- An entry and its value are two more. -/
theorem openEntry (h : Within t fs finished m c) (column : Nat) :
    Within t fs finished (m + 2) (c.openEntry column) :=
  ((h.push .entry).takeKey.takeSpaces.takeColon.takeSpaces.push .value).await _

theorem takeComma (h : Within t fs finished m c) (closer : TokenKind) (p : Problem) :
    Within t fs finished m (c.takeComma closer p) := by
  unfold Config.takeComma
  split
  · exact h
  · split
    · exact h.take 1
    · split
      · exact h
      · exact h.errorToken _

/-! ## Steps

A step may open several nodes, but it closes no more than one of those that it has found open. -/

variable {d e : Config} {p : Option Slot}

/-- Whatever fills a place is built above the frame. -/
theorem fillsIn (h : Within t fs finished m c) (hf : FillsIn p c d) :
    ∃ n, Within t fs finished n d := by
  cases hf with
  | nothing => exact ⟨_, h⟩
  | later => exact ⟨_, h.takeTrivia.await _⟩
  | sequence => exact ⟨_, (h.push _).openItem _⟩
  | mapping => exact ⟨_, (h.push _).openEntry _⟩
  | collection => exact ⟨_, (h.push _).take 1⟩
  | plain => exact ⟨_, (h.push _).take _⟩
  | words => exact ⟨_, h.wrap _ _⟩
  | scalar => exact ⟨_, h.wrap _ 1⟩
  | block => exact ⟨_, h.wrap _ 1⟩
  | unterminated => exact ⟨_, (h.report _).wrap _ 1⟩
  | strayLine => exact ⟨_, h.errorLine _⟩
  | strayToken => exact ⟨_, h.errorToken _⟩

/-- One node is closed at a time. -/
theorem closes {u : Task} (h : Within t fs finished (m + 1) c) (hc : Closes u c d) :
    Within t fs finished m d := by
  cases hc with
  | node => exact h.close
  | mapping => exact h.close
  | sequence => exact h.close
  | document => exact h.takeTrivia.close
  | documentEnd => exact (h.takeTrivia.take 1).finishLine.close
  | line => exact h.finishLine.close
  | bracket => exact (h.takeTrivia.take 1).close
  | unclosed => exact (h.takeTrivia.report _).close
  | key => exact h.close.takeTrivia
  | part => exact h.close.takeTrivia.takeComma _ _

/-- Only the node of a key is closed on the way to a place. -/
theorem opens (h : Within t fs finished m c)
    (hm : c.slot ≠ none ∨ m ≠ 0 ∨ c.tasks.head? ≠ some .key) (ho : Opens p c e) :
    ∃ n, Within t fs finished n e := by
  cases ho with
  | slot => exact ⟨_, h.unslot⟩
  | document => exact ⟨_, h.takeTrivia.push _⟩
  | marked => exact ⟨_, ((h.takeTrivia.push _).take 1).takeSpaces⟩
  | flowItem => exact ⟨_, h.takeTrivia.push _⟩
  | flowEntry => exact ⟨_, (h.takeTrivia.push _).push _⟩
  | flowValue hs ht =>
    obtain ⟨m, rfl⟩ :=
      Nat.exists_eq_succ_of_ne_zero ((hm.resolve_left (by simp [hs])).resolve_right (by simp [ht]))
    exact ⟨_, ((h.close.takeTrivia.take 1).takeTrivia).push _⟩

/-- An act that closes no node leaves the frame open, and so does one that closes a node above
it. -/
theorem acts (h : Within t fs finished m c) (hm : c.slot ≠ none ∨ m ≠ 0 ∨ c.tasks.head? ≠ some .key)
    (ha : Acts c d) : (∃ n, Within t fs finished n d) ∨ m = 0 ∧ c.slot = none ∧ Closes t c d := by
  cases ha with
  | fill ho hf =>
    obtain ⟨n, he⟩ := h.opens hm ho
    exact .inl ((he.take _).fillsIn hf)
  | marker => exact .inl ⟨_, h.takeTrivia.take 1⟩
  | stray => exact .inl ⟨_, h.takeTrivia.errorLine _⟩
  | entry => exact .inl ⟨_, h.takeTrivia.openEntry _⟩
  | item => exact .inl ⟨_, h.takeTrivia.openItem _⟩
  | plain => exact .inl ⟨_, (h.take _).take _⟩
  | close hs ht hc =>
    cases m with
    | zero =>
      obtain ⟨us, hus⟩ := h.exists_tasks
      obtain ⟨rfl, -⟩ := List.cons.inj (hus.symm.trans ht)
      exact .inr ⟨rfl, hs, hc⟩
    | succ m => exact .inl ⟨_, h.closes hc⟩

/-- As long as its place is open or other frames are above it, a frame is not closed. -/
theorem step (h : Within t fs finished m c) (hm : c.slot ≠ none ∨ m ≠ 0) (hd : c.step = some d) :
    ∃ n, Within t fs finished n d := by
  refine (h.acts (hm.imp_right .inl) (acts_of_step hd)).resolve_right ?_
  rintro ⟨h0, hs, -⟩
  exact hm.elim (absurd hs) (absurd h0)

/-- A frame that is begun is completed : the run comes to where it is the innermost one again
and holds no open place. -/
theorem exists_closed (h : Within t fs finished m c) :
    ∃ d done, Leads c d ∧ d.frames = ⟨t, done⟩ :: fs ∧ d.finished = finished ∧ d.slot = none := by
  generalize hn : c.measure = n
  induction n using Nat.strongRecOn generalizing c m with
  | _ n ih =>
    by_cases hm : c.slot ≠ none ∨ m ≠ 0
    · have hstep : ∃ d, c.step = some d := by
        cases hs : c.slot with
        | some s => exact ⟨_, step_of_slot hs⟩
        | none =>
          obtain ⟨⟨gs, done, hf, -⟩, -⟩ := h
          cases gs with
          | nil => exact ⟨_, step_of_tasks hs (by simp [tasks, hf]; exact ⟨rfl, rfl⟩)⟩
          | cons g gs => exact ⟨_, step_of_tasks hs (by simp [tasks, hf]; exact ⟨rfl, rfl⟩)⟩
      obtain ⟨d, hd⟩ := hstep
      obtain ⟨k, hk⟩ := h.step hm hd
      obtain ⟨e, done, hl, he⟩ := ih d.measure (hn ▸ measure_step hd) hk rfl
      exact ⟨e, done, .head hd hl, he⟩
    · simp only [not_or, Decidable.not_not] at hm
      obtain ⟨⟨gs, done, hf, hgs⟩, hfin⟩ := h
      have : gs = [] := List.length_eq_zero_iff.mp (hgs.trans hm.2)
      exact ⟨c, done, .refl c, by simpa [this] using hf, hfin, hm.1⟩

end Within

end Config

end YamlPatch
