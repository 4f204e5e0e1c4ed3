import YamlPatch.Proofs.Nesting

/-!
# Where a value begins

A value node is opened in two ways : behind the colon of a block entry, in the step that opens
the entry (`Config.Opening`), and behind the colon of a flow entry (`Config.FlowOpening`). No
other step opens one (`valueCount_step`). So the place of a value in the tree of a text leads
back to the step in which the parser came to it (`exists_opening`), with the log as long as what
stands before the value in the tree.

The step is told apart by what lies ahead only up to the colon, so twins that share their tokens
up to there come to it together (`Opening.twins`, `FlowOpening.twins`).

The step is found by counting. The log is never shortened, and in the log of the whole tree
there are so many openings of values before the one in question; the run has to pass that number
in some step (`Leads.exists_valueCount`). What was built before that step is what stands before
the value in the tree, because between two equal counts nothing can be cut differently
(`append_cons_inj`).
-/

namespace YamlPatch

open TokenKind Event

namespace Config

/-! ## The two steps

Both are stated as relations between two configurations, with all that is known where the value
is opened. -/

/-- A slot that is come to is filled in the same step. -/
theorem Opens.step {c e : Config} {s : Slot} (h : Opens (some s) c e) :
    c.step = some (e.fill s) := by
  cases h with
  | slot h => exact step_of_slot h
  | marked hs ht hl hk => simp [step_of_tasks_nil hs ht, stepStream, hl, hk]
  | @document _ l ls hs ht hl hk =>
    rw [step_of_tasks_nil hs ht, stepStream, hl]
    revert hk
    cases h : l.kind <;> simp_all [isMarker]

/-- The step opens an entry of the block mapping at `column`, the mapping being the innermost node
of the second configuration. -/
inductive Opening (c : Config) : Config → Nat → Prop where
  | next {column : Nat} {ts : List Task} {l : Lexeme} {ls : List Lexeme} (hs : c.slot = none)
      (ht : c.tasks = .mapping column :: ts) (hl : significant c.rest = l :: ls)
      (hstop : ¬ (l.kind.isMarker ∨ l.column < column)) (hcolumn : ¬ column < l.column)
      (hkey : startsKey (l :: ls) = true) : Opening c c.takeTrivia column
  | first {e : Config} {s : Slot} {l : Lexeme} {ls : List Lexeme} (he : Opens (some s) c e)
      (hl : e.rest.drop (propertiesLength e.rest) = l :: ls)
      (hbreak : ¬ (l.kind = lineBreak ∨ l.kind = comment)) (hdash : ¬ (s.compact ∧ l.kind = dash))
      (hkey : s.compact ∧ startsKey (l :: ls)) :
      Opening c ((e.take (propertiesLength e.rest)).push (.mapping l.column)) l.column

/-- In either case the step opens an entry : the next one of a mapping, or the first one
together with its mapping. -/
theorem Opening.step {c m : Config} {column : Nat} (h : Opening c m column) :
    c.step = some (m.openEntry column) := by
  cases h with
  | next hs ht hl hstop hcolumn hkey =>
    rw [step_of_tasks hs ht]
    simp only [stepTask, stepMapping, hl, if_neg hstop, if_neg hcolumn, hkey, if_true]
  | @first e s l ls he hl hbreak hdash hkey =>
    rw [he.step, fill, fillContent, rest_take, hl]
    dsimp only
    rw [if_neg hbreak, if_neg hdash, if_pos hkey]

/-- Where an entry is opened nothing waits to be filled. -/
theorem Opening.slot_eq {c m : Config} {column : Nat} (h : Opening c m column) : m.slot = none := by
  cases h with
  | next hs => simpa using hs
  | first he => simp [he.slot_eq]

/-- The mapping that gets the entry is the innermost node. -/
theorem Opening.tasks_eq {c m : Config} {column : Nat} (h : Opening c m column) :
    ∃ ts, m.tasks = .mapping column :: ts := by
  cases h with
  | next hs ht => exact ⟨_, by simpa using ht⟩
  | first => exact ⟨_, rfl⟩

/-- It is reached by moves. -/
theorem Opening.grows {c m : Config} {column : Nat} (h : Opening c m column) : Grows c m := by
  cases h with
  | next => exact (Grows.refl c).takeTrivia
  | first he => exact (he.grows.take _).push _

/-- An entry with its key, before the colon. -/
def keyed (m : Config) : Config := (m.push .entry).takeKey.takeSpaces

/-- A value opened behind a colon in block context. -/
def valued (k : Config) (column : Nat) : Config :=
  ((k.take 1).takeSpaces.push .value).await ⟨column + 1, some column, false⟩

/-- Behind a key the colon is taken and the value opened. -/
theorem openEntry_of_colon {m : Config} (h : m.keyed.kind? = some colon) (column : Nat) :
    m.openEntry column = m.keyed.valued column := by
  have hc : m.keyed.takeColon = m.keyed.take 1 := by rw [takeColon, if_pos h]
  rw [valued, ← hc]
  rfl

/-- Without faults there is a colon behind the key, and an entry is opened in two parts. -/
theorem openEntry_eq {m : Config} {column : Nat} (h : (m.openEntry column).faults = []) :
    m.keyed.kind? = some colon ∧ m.openEntry column = m.keyed.valued column := by
  have hk : m.keyed.kind? = some colon := by
    by_cases hk : m.keyed.kind? = some colon
    · exact hk
    · have hr : m.keyed.takeColon.faults ≠ [] := by
        rw [takeColon, if_neg hk]
        simp [report]
      have hg : Grows m.keyed.takeColon (m.openEntry column) :=
        ((Grows.refl _).takeSpaces.push .value).await ⟨column + 1, some column, false⟩
      exact absurd (hg.faultless h) hr
  exact ⟨hk, openEntry_of_colon hk column⟩

/-- The step takes the colon of a flow entry, whose key is complete. -/
structure FlowOpening (c : Config) : Prop where
  slot : c.slot = none
  tasks : ∃ ts, c.tasks = .key :: ts
  colon : c.close.takeTrivia.kind? = some colon

/-- A value opened behind a colon in flow context, and what it begins with. -/
def flowValued (k : Config) : Config :=
  let v := (k.take 1).takeTrivia.push .flowValue
  match v.kind? with
  | none => v
  | some t => if t = comma ∨ t = rightBrace then v else v.takeFlowNode

/-- The step takes the colon and what the value begins with. -/
theorem FlowOpening.step {c : Config} (h : FlowOpening c) :
    c.step = some c.close.takeTrivia.flowValued := by
  obtain ⟨ts, ht⟩ := h.tasks
  rw [step_of_tasks h.slot ht]
  simp only [stepTask, stepFlowKey, h.colon, if_true]
  rfl

/-- The value is opened before its first node. -/
theorem flowValued_grows (k : Config) :
    Grows ((k.take 1).takeTrivia.push .flowValue) k.flowValued := by
  dsimp only [flowValued]
  split
  · rfl
  · split
    · rfl
    · exact (Grows.refl _).takeFlowNode

/-! ## No other step

The number of values that have been opened is read off the log. For each function of the parser
it is said by how much the number grows, which is none for most of them. -/

/-- How many value nodes have been opened. -/
def valueCount (c : Config) : Nat := c.log.count (opening .value)

/-- Leaves open no values. -/
theorem count_leaves (ts : List Token) : (ts.map leaf).count (opening .value) = 0 := by
  induction ts with
  | nil => rfl
  | cons t ts ih => simpa [List.count_cons] using ih

theorem count_leavesAhead (c : Config) (n : Nat) :
    (c.leavesAhead n).count (opening .value) = 0 := count_leaves _

/-- Taking tokens opens no values. So it is with all functions of the parser but those that open
an entry or the value of a flow entry. -/
@[simp] theorem valueCount_take (c : Config) (n : Nat) : (c.take n).valueCount = c.valueCount := by
  simp [valueCount, count_leavesAhead]

/-- A node around tokens is no value. -/
theorem valueCount_wrap (c : Config) {k : NodeKind} (hk : k ≠ .value) (n : Nat) :
    (c.wrap k n).valueCount = c.valueCount := by
  simp [valueCount, count_leavesAhead, hk]

@[simp] theorem valueCount_wrap_scalar (c : Config) (n : Nat) :
    (c.wrap .scalar n).valueCount = c.valueCount := valueCount_wrap c (by decide) n

/-- A node that is opened may be a value. -/
@[simp] theorem valueCount_push (c : Config) (t : Task) :
    (c.push t).valueCount = c.valueCount + if t.nodeKind = .value then 1 else 0 := by
  simp [valueCount, List.count_cons]

@[simp] theorem valueCount_close (c : Config) : c.close.valueCount = c.valueCount := by
  cases ht : c.tasks with
  | nil => simp [close, frames_eq_nil ht]
  | cons t ts => simp [valueCount, log_close ht]

@[simp] theorem valueCount_await (c : Config) (s : Slot) :
    (c.await s).valueCount = c.valueCount := rfl

@[simp] theorem valueCount_report (c : Config) (p : Problem) :
    (c.report p).valueCount = c.valueCount := rfl

@[simp] theorem valueCount_takeTrivia (c : Config) : c.takeTrivia.valueCount = c.valueCount :=
  valueCount_take c _

@[simp] theorem valueCount_takeSpaces (c : Config) : c.takeSpaces.valueCount = c.valueCount :=
  valueCount_take c _

@[simp] theorem valueCount_errorLine (c : Config) (p : Problem) :
    (c.errorLine p).valueCount = c.valueCount := valueCount_wrap _ (by decide) _

@[simp] theorem valueCount_errorToken (c : Config) (p : Problem) :
    (c.errorToken p).valueCount = c.valueCount := valueCount_wrap _ (by decide) _

@[simp] theorem valueCount_finishLine (c : Config) : c.finishLine.valueCount = c.valueCount := by
  dsimp only [finishLine]
  split <;> simp

@[simp] theorem valueCount_openItem (c : Config) (column : Nat) :
    (c.openItem column).valueCount = c.valueCount := by
  simp [openItem, Task.nodeKind]

@[simp] theorem valueCount_takeKey (c : Config) : c.takeKey.valueCount = c.valueCount := by
  dsimp only [takeKey]
  split <;> simp [Task.nodeKind]

@[simp] theorem valueCount_takeColon (c : Config) : c.takeColon.valueCount = c.valueCount := by
  unfold takeColon
  split <;> simp

/-- An entry is opened together with its value. -/
@[simp] theorem valueCount_openEntry (c : Config) (column : Nat) :
    (c.openEntry column).valueCount = c.valueCount + 1 := by
  simp [openEntry, Task.nodeKind]

@[simp] theorem valueCount_takeComma (c : Config) (closer : TokenKind) (p : Problem) :
    (c.takeComma closer p).valueCount = c.valueCount := by
  unfold takeComma
  split <;> try split <;> try split
  all_goals simp

/-- A place is come to without a value, except behind the colon of a flow entry. -/
theorem Opens.valueCount_eq {c e : Config} {p : Option Slot} (h : Opens p c e)
    (hc : ¬FlowOpening c) : e.valueCount = c.valueCount := by
  cases h with
  | slot => rfl
  | flowValue hs ht hk => exact absurd ⟨hs, ⟨_, ht⟩, hk⟩ hc
  | _ => simp [Task.nodeKind]

/-- A place is filled without a value, unless the first entry of a mapping is put in. -/
theorem FillsIn.valueCount_eq {c d : Config} {p : Option Slot} (h : FillsIn p c d) :
    d.valueCount = c.valueCount ∨ ∃ s l ls, p = some s ∧ c.rest = l :: ls ∧
    ¬(l.kind = lineBreak ∨ l.kind = comment) ∧
      ¬(s.compact ∧ l.kind = dash) ∧ (s.compact ∧ startsKey (l :: ls)) ∧
      d = (c.push (.mapping l.column)).openEntry l.column := by
  cases h with
  | mapping hr hl hs hd hk => exact .inr ⟨_, _, _, rfl, hr, hl, fun h => hd h.2, ⟨hs, hk⟩, rfl⟩
  | @collection _ _ t _ _ ht =>
    cases t with
    | flowSequence | flowMapping => simp [Task.nodeKind]
    | _ => cases ht
  | _ => simp [Task.nodeKind]

/-- Closing nodes opens no value. -/
theorem Closes.valueCount_eq {c d : Config} {t : Task} (h : Closes t c d) :
    d.valueCount = c.valueCount := by
  cases h <;> simp

/-- Behind the colon of a flow entry one value is opened. -/
theorem valueCount_flowValued (k : Config) : k.flowValued.valueCount = k.valueCount + 1 := by
  have hopen : ((k.take 1).takeTrivia.push .flowValue).valueCount = k.valueCount + 1 := by
    simp [Task.nodeKind]
  dsimp only [flowValued]
  split
  · exact hopen
  · split
    · exact hopen
    · rcases (fillsIn_takeFlowContent _ _).valueCount_eq with h | ⟨s, _, _, hs, -⟩
      · rw [takeFlowNode, h, valueCount_take, hopen]
      · cases hs

/-- Before an entry is opened no value is. -/
theorem Opening.valueCount_eq {c m : Config} {column : Nat} (h : Opening c m column) :
    m.valueCount = c.valueCount := by
  cases h with
  | next => simp
  | first he =>
    rw [valueCount_push, valueCount_take, he.valueCount_eq fun hc => ?_]
    · simp [Task.nodeKind]
    · obtain ⟨ts, ht⟩ := hc.tasks
      cases he <;> simp_all [hc.slot]

/-- A step opens a value only behind the colon of an entry. -/
theorem valueCount_step {c d : Config} (h : c.step = some d) :
    d.valueCount = c.valueCount ∨ (∃ m column, Opening c m column) ∨ FlowOpening c := by
  cases acts_of_step h with
  | fill ho hf =>
    by_cases hc : FlowOpening c
    · exact .inr (.inr hc)
    rcases hf.valueCount_eq with h | ⟨s, l, ls, rfl, hr, hl, hd, hk, rfl⟩
    · left
      rw [h, valueCount_take, ho.valueCount_eq hc]
    · exact .inr (.inl ⟨_, _, .first ho hr hl hd hk⟩)
  | entry hs ht hl hm hn hk =>
    exact .inr (.inl ⟨_, _, .next hs ht hl (by simp [hm, hn]) (by omega) hk⟩)
  | close hs ht hc => exact .inl hc.valueCount_eq
  | _ => left; simp

/-! ## Twins

What decides such a step lies before the colon or is the colon itself. So it is shared by twins
whose common tokens reach that far. -/

variable {b : Base} {ts : List Task} {c c' : Config}

/-- Twins come to a slot together, and are twins there. -/
theorem Opens.twins (hb : b.tasks = []) (hb' : b.tasks' = []) (h : Twins b ts c c')
    {e : Config} {s : Slot} (he : Opens (some s) c e) :
    ∃ e' us, Opens (some s) c' e' ∧ Par b us e e' := by
  cases he with
  | slot hs => exact ⟨_, _, .slot (h.slot.trans hs), h.par.unslot⟩
  | @marked _ l ls hs ht hl hk =>
    have hts : ts = [] := by simpa [hb, ht] using h.tasks
    have ht' : c'.tasks = [] := by simp [h.tasks', hb', hts]
    have hr := h.rest.significant
    rw [hl] at hr
    obtain ⟨l', ls', hl', hk'⟩ := hr.exists_cons
    exact ⟨_, _, .marked (h.slot.trans hs) ht' hl' (hk'.trans hk),
      ((h.par.takeTrivia.push .document).take fun _ => rfl).takeSpaces⟩
  | @document _ l ls hs ht hl hk =>
    have hts : ts = [] := by simpa [hb, ht] using h.tasks
    have ht' : c'.tasks = [] := by simp [h.tasks', hb', hts]
    have hr := h.rest.significant
    rw [hl] at hr
    obtain ⟨l', ls', hl', hk'⟩ := hr.exists_cons
    exact ⟨_, _, .document (h.slot.trans hs) ht' hl' (hk' ▸ hk), h.par.takeTrivia.push .document⟩

/-- Twins open an entry together. -/
theorem Opening.twins (ha : b.aligned) (hb : b.tasks = []) (hb' : b.tasks' = [])
    (h : Twins b ts c c') {m : Config} {column : Nat} (ho : Opening c m column)
    (hm : ¬ Lost b m) : ∃ m' us, Opening c' m' column ∧ Twins b us m m' := by
  cases ho with
  | @next _ us l ls hs ht hl hstop hcolumn hkey =>
    have hr := h.rest.significant
    rw [hl] at hr
    obtain ⟨l', ls', hl', hk⟩ := hr.exists_cons
    rw [hl'] at hr
    have hc := hr.column_eq ha (isTrivia_of_significant hl)
    have hts : c'.tasks = .mapping column :: us := by
      rw [h.tasks', hb', ← ht, h.tasks, hb]
    exact ⟨_, _, .next (h.slot.trans hs) hts hl' (by rwa [hk, hc]) (by rwa [hc])
      (by rwa [hr.startsKey_eq]), h.par.takeTrivia.resolve_left hm⟩
  | @first e s l ls he hl hbreak hdash hkey =>
    obtain ⟨e', us, he', hp⟩ := he.twins hb hb' h
    have hp := hp.takeProperties
    have ht := hp.resolve_left (mt (fun hl => hl.mono ((Grows.refl _).push (.mapping l.column))) hm)
    have hr := ht.rest
    rw [rest_take, rest_take, hl] at hr
    obtain ⟨l', ls', hl', hk⟩ := hr.exists_cons
    rw [hl'] at hr
    have hc := hr.column_eq_of_startsKey ha hkey.2
    have ho : Opening c' _ l'.column :=
      .first he' hl' (by rwa [hk]) (by rwa [hk]) (by rwa [hr.startsKey_eq])
    rw [hc] at ho
    exact ⟨_, _, ho, (hp.push (.mapping l.column)).resolve_left hm⟩

/-- Twins take the colon of a flow entry together. -/
theorem FlowOpening.twins (hb : b.tasks = []) (hb' : b.tasks' = []) (h : Twins b ts c c')
    (ho : FlowOpening c) (hm : ¬ Lost b c.close.takeTrivia) :
    FlowOpening c' ∧ ∃ us, Twins b us c.close.takeTrivia c'.close.takeTrivia := by
  obtain ⟨us, ht⟩ := ho.tasks
  obtain rfl : ts = .key :: us := by rw [← ht, h.tasks, hb, List.append_nil]
  have hk := h.par.close.takeTrivia.resolve_left hm
  have ht' : c'.tasks = .key :: us := by rw [h.tasks', hb', List.append_nil]
  exact ⟨⟨h.slot.trans ho.slot, ⟨us, ht'⟩, hk.kind?_eq.trans ho.colon⟩, us, hk⟩

/-! ## From the tree back to the step

A place in the final log is told by the number of values before it. The step is the one in which
this number is passed. -/

/-- Two places before which the same element has occurred equally often are the same. -/
theorem append_cons_inj {α : Type} [BEq α] [LawfulBEq α] (x : α) {as as' bs bs' : List α}
    (h : as ++ x :: bs = as' ++ x :: bs') (hc : as.count x = as'.count x) : as = as' := by
  induction as generalizing as' with
  | nil =>
    cases as' with
    | nil => rfl
    | cons a as' =>
      obtain ⟨rfl, -⟩ := List.cons.inj h
      simp at hc
  | cons a as ih =>
    cases as' with
    | nil =>
      obtain ⟨rfl, -⟩ := List.cons.inj h
      simp at hc
    | cons a' as' =>
      obtain ⟨rfl, h'⟩ := List.cons.inj h
      have : as.count x = as'.count x := by simpa [List.count_cons] using hc
      rw [ih h' this]

/-- A run in which the number of opened values passes `n` has a step in which it does. -/
theorem Leads.exists_valueCount {c d : Config} {n : Nat} (h : Leads c d) (hc : c.valueCount ≤ n)
    (hd : n < d.valueCount) :
    ∃ e f, Leads c e ∧ e.step = some f ∧ Leads f d ∧ e.valueCount ≤ n ∧ n < f.valueCount := by
  obtain ⟨k, hk⟩ := h
  induction hk with
  | refl => omega
  | @cons k c c' d hstep hs ih =>
    by_cases hc' : c'.valueCount ≤ n
    · obtain ⟨e, f, hl, he, hf, hen, hfn⟩ := ih hc' hd
      exact ⟨e, f, .head hstep hl, he, hf, hen, hfn⟩
    · exact ⟨c, c', .refl c, hstep, ⟨k, hs⟩, hc, by omega⟩

/-- The step in which a value is opened that stands in the final log behind `before`. In block
context the entry is opened in that step, in flow context its key is complete. -/
theorem exists_opening {c z : Config} {before after : List Event} (h : Leads c z)
    (hc : c.log = []) (hz : z.faults = []) (hlog : z.log = before ++ opening .value :: after) :
    (∃ e m column, Leads c e ∧ Opening e m column ∧ m.keyed.kind? = some colon ∧
        Leads (m.keyed.valued column) z ∧ (m.keyed.take 1).takeSpaces.log = before) ∨
      ∃ e, Leads c e ∧ FlowOpening e ∧ Leads e.close.takeTrivia.flowValued z ∧
        (e.close.takeTrivia.take 1).takeTrivia.log = before := by
  have hz' : z.valueCount = before.count (opening .value) + (after.count (opening .value) + 1) := by
    simp [valueCount, hlog]
  obtain ⟨e, f, hl, he, hf, hen, hfn⟩ :=
    h.exists_valueCount (n := before.count (opening .value)) (by simp [valueCount, hc]) (by omega)
  -- the value that the step opens is the one behind `before`
  have hplace (j : Config) (hj : j.valueCount = e.valueCount)
      (hjf : j.log ++ [opening .value] <+: f.log) (hfj : f.valueCount ≤ j.valueCount + 1) :
      j.log = before := by
    obtain ⟨rest, hrest⟩ := hjf.trans hf.grows.log
    have h' : j.log ++ opening .value :: rest = before ++ opening .value :: after := by
      rw [← hlog, ← hrest, List.append_assoc, List.singleton_append]
    have hcount : j.log.count (opening .value) = j.valueCount := rfl
    exact append_cons_inj (opening .value) h' (by omega)
  rcases valueCount_step he with hsame | ⟨m, column, hm⟩ | hk
  · omega
  · left
    rw [hm.step] at he
    obtain rfl := Option.some.inj he
    obtain ⟨hcolon, heq⟩ := openEntry_eq (hf.faultless hz)
    refine ⟨e, m, column, hl, hm, hcolon, heq ▸ hf, hplace _ ?_ ?_ ?_⟩
    · simpa [keyed, Task.nodeKind] using hm.valueCount_eq
    · rw [heq]
      simp [valued, Task.nodeKind]
    · simp [keyed, Task.nodeKind]
  · right
    rw [hk.step] at he
    obtain rfl := Option.some.inj he
    refine ⟨e, hl, hk, hf, hplace _ (by simp) ?_ ?_⟩
    · refine List.IsPrefix.trans ?_ (flowValued_grows _).log
      simp [Task.nodeKind]
    · rw [valueCount_flowValued]
      simp

end Config

end YamlPatch
