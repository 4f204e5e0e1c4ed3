import YamlPatch.Proofs.Forming

/-!
# Every flaw is a fault

What is wrong with a text shows in its tree : text that fits nowhere is in an error node, a
quote that is left open is an unterminated token, and a flow collection that is left open does
not end with its bracket. A tree without all that is `Tree.Flawless` throughout.

A move that records a fault puts such a flaw into the tree, and no other move does
(`Config.Blamed`). That a block collection is not taken for one in brackets, and that a flow
collection has no closing bracket of its own before its end, is known from its shape
(`Config.Formed`). So a text is accepted strictly if and only if its tree is flawless
(`parse_faults`), and then it is also known that one of the faults does not occur at all : a key
that was seen has its colon.

`Config.Blamed` is an equivalence, and it is kept in both directions at once. There are two ways
to keep it : a move does neither (`Blamed.keep`), or it does both (`Blamed.fault`). Every lemma
about a function of the parser is one of the two, chosen by the same case distinction as in the
function. For flow collections the equivalence looks ahead : the flaw is put in only when the
node is closed, so the fault for a missing bracket is reported in the step that closes it.
-/

namespace YamlPatch

open TokenKind

namespace Tree

/-- The node ends with its bracket. -/
def EndsWith (k : TokenKind) (ts : List Tree) : Prop :=
  ∃ x, ts.getLast? = some (token x) ∧ x.kind = k

/-- Nothing is wrong with the tree itself. -/
def Flawless : Tree → Prop
  | .token x => x.kind ≠ unterminated
  | .node .error _ => False
  | .node .sequence ts => (node .sequence ts).isFlow = true → EndsWith rightBracket ts
  | .node .mapping ts => (node .mapping ts).isFlow = true → EndsWith rightBrace ts
  | .node _ _ => True

/-- A node in block style is flawless unless it is an error. -/
theorem flawless_of_not_isFlow {k : NodeKind} {ts : List Tree} (hk : k ≠ .error)
    (hf : (node k ts).isFlow = false) : (node k ts).Flawless := by
  cases k <;> simp_all [Flawless]

end Tree

open YamlPatch.Tree

/-- A flow collection is flawless if and only if it ends with its bracket. -/
theorem flawless_of_closer {t : Task} {k : TokenKind} (hk : k ∈ t.closer?) {ts : List Tree}
    (h : EndsWith k ts) : (node t.nodeKind ts).Flawless := by
  cases t with
  | flowSequence =>
    obtain rfl := Option.some.inj hk
    exact fun _ => h
  | flowMapping =>
    obtain rfl := Option.some.inj hk
    exact fun _ => h
  | _ => cases hk

/-- A flow collection that is complete and flawless ends with its bracket. -/
theorem endsWith_of_flawless {t : Task} {k : TokenKind} (hk : k ∈ t.closer?) {ts : List Tree}
    (ht : t.Complete ts) (h : (node t.nodeKind ts).Flawless) : EndsWith k ts := by
  cases t with
  | flowSequence =>
    obtain rfl := Option.some.inj hk
    exact h (ht.2.isFlow_eq (.inl rfl))
  | flowMapping =>
    obtain rfl := Option.some.inj hk
    exact h (ht.2.isFlow_eq (.inr rfl))
  | _ => cases hk

namespace Config

/-- All trees built so far are flawless. -/
def AllFlawless (c : Config) : Prop :=
  EveryOf Flawless c.finished ∧ ∀ f ∈ c.frames, EveryOf Flawless f.done

/-- There are faults if and only if there are flaws; a colon is not missed. -/
structure Blamed (c : Config) : Prop where
  iff : c.faults = [] ↔ c.AllFlawless
  colon : ∀ f ∈ c.faults, f.problem ≠ .missingColon

/-! ## Flaws that moves put in

A node is without flaws if its parts are, and a token if it is not an unterminated one. -/

variable {c d : Config} {t : Task} {ts : List Task} {n : Nat} {k : TokenKind} {p : Problem}

/-- New trees have to be flawless themselves. -/
theorem allFlawless_add (c : Config) (us : List Tree) :
    (c.add us).AllFlawless ↔ c.AllFlawless ∧ EveryOf Flawless us := by
  unfold add
  split
  · rename_i hf
    simp [AllFlawless, hf]
  · rename_i f fs hf
    simp only [AllFlawless, hf, List.mem_cons, forall_eq_or_imp, everyOf_append]
    tauto

/-- A node that is closed has to be flawless itself; the trees in it were asked about before. -/
theorem allFlawless_close {f : Frame} {fs : List Frame} (hf : c.frames = f :: fs) :
    c.close.AllFlawless ↔ c.AllFlawless ∧ f.tree.Flawless := by
  have hclose : c.close = ({ c with frames := fs } : Config).add [f.tree] := by simp [close, hf]
  rw [hclose, allFlawless_add]
  simp only [AllFlawless, hf, List.mem_cons, forall_eq_or_imp, everyOf_cons, everyOf_nil, and_true,
    Frame.tree, every_node]
  tauto

/-- Tokens are flawless if they are terminated. -/
theorem allFlawless_take : (c.take n).AllFlawless ↔
    c.AllFlawless ∧ ∀ l ∈ c.rest.take n, l.kind ≠ unterminated :=
  (allFlawless_add c _).trans (and_congr_right' everyOf_ahead)

/-- A node around tokens is flawless if they are, and it is itself. -/
theorem allFlawless_wrap {k : NodeKind} : (c.wrap k n).AllFlawless ↔
    c.AllFlawless ∧ (Tree.node k (c.ahead n)).Flawless ∧
    ∀ l ∈ c.rest.take n, l.kind ≠ unterminated := by
  refine (allFlawless_add c _).trans (and_congr_right' ?_)
  simp only [everyOf_cons, everyOf_nil, and_true, every_node]
  exact and_congr_right' everyOf_ahead

/-- A kind that excludes open quotes is not theirs. -/
theorem ne_unterminated {p : TokenKind → Bool} (hp : p unterminated = false) {k : TokenKind}
    (hk : p k = true) : k ≠ unterminated := by
  rintro rfl
  simp [hp] at hk

namespace Blamed

/-- A move that records no fault and puts no flaw in. -/
theorem keep (h : c.Blamed) (hf : d.faults = c.faults) (hd : d.AllFlawless ↔ c.AllFlawless) :
    d.Blamed :=
  ⟨by rw [hf, h.iff, hd], by rw [hf]; exact h.colon⟩

/-- A move that records a fault and puts a flaw in. -/
theorem fault (h : c.Blamed) (hf : d.faults = (c.report p).faults) (hd : ¬ d.AllFlawless)
    (hp : p ≠ .missingColon) : d.Blamed := by
  refine ⟨⟨fun h0 => ?_, fun h0 => absurd h0 hd⟩, fun f hmem => ?_⟩
  · simp [hf, report] at h0
  · rw [hf, report] at hmem
    rcases List.mem_append.mp hmem with hmem | hmem
    · exact h.colon f hmem
    · obtain rfl := List.mem_singleton.mp hmem
      cases c.rest <;> exact hp

/-! ## Moves

Each move either puts in what is without flaws or reports a problem. There is one lemma for
each, all with the same conclusion. -/

/-- Tokens may be taken if no open quote is among them. -/
theorem take (h : c.Blamed) (hn : ∀ l ∈ c.rest.take n, l.kind ≠ unterminated) : (c.take n).Blamed :=
  h.keep (faults_take c n) (allFlawless_take.trans (and_iff_left hn))

/-- A run of other kinds may be taken. -/
theorem takeRun (h : c.Blamed) {p : TokenKind → Bool} (hp : p unterminated = false) :
    (c.take (kindRun p c.rest)).Blamed :=
  h.take fun l hl => ne_unterminated hp (mem_take_kindRun l hl)

theorem takeTrivia (h : c.Blamed) : c.takeTrivia.Blamed := h.takeRun rfl

theorem takeSpaces (h : c.Blamed) : c.takeSpaces.Blamed := h.takeRun rfl

theorem takeProperties (h : c.Blamed) : (c.take (propertiesLength c.rest)).Blamed :=
  h.take fun l hl => by
    rcases mem_take_propertiesLength l hl with h | h
    · exact ne_unterminated rfl h
    · simp [h]

/-- No open quote is counted as a word. -/
theorem plain_ne_unterminated : ∀ l ∈ c.rest.take (plainLength c.rest), l.kind ≠ unterminated :=
  fun l hl => by
  rcases mem_take_plainLength l hl with h | h
  · exact ne_unterminated rfl h
  · simp [h]

/-- The next token is no open quote if it has another kind. -/
theorem one_ne_unterminated (hk : c.kind? = some k) (hu : k ≠ unterminated) :
    ∀ l ∈ c.rest.take 1, l.kind ≠ unterminated := by
  obtain ⟨l, ls, hl, rfl⟩ := exists_rest hk
  simpa [hl] using hu

theorem takeOne (h : c.Blamed) (hk : c.kind? = some k) (hu : k ≠ unterminated) :
    (c.take 1).Blamed :=
  h.take (one_ne_unterminated hk hu)

/-- A scalar is flawless without an open quote. -/
theorem wrapScalar (h : c.Blamed) (hn : ∀ l ∈ c.rest.take n, l.kind ≠ unterminated) :
    (c.wrap .scalar n).Blamed :=
  h.keep (faults_wrap c _ n) (allFlawless_wrap.trans (and_iff_left ⟨trivial, hn⟩))

theorem wrapOne (h : c.Blamed) (hk : c.kind? = some k) (hu : k ≠ unterminated) :
    (c.wrap .scalar 1).Blamed :=
  h.wrapScalar (one_ne_unterminated hk hu)

/-- An open quote is a flaw. -/
theorem wrapQuote (h : c.Blamed) (hk : c.kind? = some unterminated) :
    ((c.report .unterminatedQuote).wrap .scalar 1).Blamed := by
  obtain ⟨l, ls, hl, hu⟩ := exists_rest hk
  refine h.fault (faults_wrap _ _ 1) (fun hd => ?_) (by simp)
  exact (allFlawless_wrap.mp hd).2.2 l (by simp [report, hl]) hu

/-- An error is a fault and a flaw. -/
theorem errorLine (h : c.Blamed) (hp : p ≠ .missingColon) : (c.errorLine p).Blamed :=
  h.fault (faults_wrap _ _ _) (fun hd => (allFlawless_wrap.mp hd).2.1) hp

theorem errorToken (h : c.Blamed) (hp : p ≠ .missingColon) : (c.errorToken p).Blamed :=
  h.fault (faults_wrap _ _ 1) (fun hd => (allFlawless_wrap.mp hd).2.1) hp

/-- A node that is opened is empty, so nothing is wrong with it yet. -/
theorem push (h : c.Blamed) (t : Task) : (c.push t).Blamed :=
  h.keep rfl (by simp [AllFlawless, Config.push])

/-- A place that is left to be filled is not in the tree. -/
theorem await (h : c.Blamed) (s : Slot) : (c.await s).Blamed := h.keep rfl Iff.rfl

/-- Closing a node that is flawless itself. -/
theorem close (h : c.Blamed) (hf : ∀ f fs, c.frames = f :: fs → f.tree.Flawless) :
    c.close.Blamed := by
  cases hc : c.frames with
  | nil => simpa [Config.close, hc] using h
  | cons f fs =>
    exact h.keep (faults_close c) ((allFlawless_close hc).trans (and_iff_left (hf f fs hc)))

/-- Nothing can be wrong with nodes that are no collections. -/
theorem closeOther (h : c.Blamed) (ht : c.tasks = t :: ts)
    (hk : t.nodeKind ≠ .mapping ∧ t.nodeKind ≠ .sequence) : c.close.Blamed := by
  refine h.close fun f fs hf => ?_
  obtain rfl : f.task = t := by simpa [tasks, hf] using congrArg List.head? ht
  revert hk
  unfold Frame.tree
  cases f.task <;> simp [Task.nodeKind, Flawless]

/-- Block collections are not taken for flow collections. -/
theorem closeBlock (h : c.Blamed) {P : List Tree → Prop} (hc : c.Holding t P)
    (hP : ∀ us, P us → BeginsBlock us) : c.close.Blamed := by
  obtain ⟨us, fs, hf, hus, -⟩ := hc.frames
  refine h.close fun f gs hf' => ?_
  obtain ⟨rfl, rfl⟩ := List.cons.inj (hf.symm.trans hf')
  exact flawless_of_not_isFlow (by cases t <;> simp [Task.nodeKind]) (hP us hus).isFlow_eq

/-- A flow collection is closed behind its bracket. -/
theorem closeFlow (h : c.Blamed) (hc : c.Holding t t.Settled) (hk : c.kind? = some k)
    (ht : k ∈ t.closer?) : (c.take 1).close.Blamed := by
  obtain ⟨x, hx, rfl⟩ := ahead_one hk
  have hne : x.kind ≠ unterminated := by rcases Task.closer?_eq ht with h | h <;> simp [h]
  have hends := hc.take 1 (Q := EndsWith x.kind) fun us _ => ⟨x, by simp [hx], rfl⟩
  obtain ⟨us, fs, hf, hus, -⟩ := hends.frames
  refine (h.takeOne hk hne).close fun f gs hf' => ?_
  obtain ⟨rfl, rfl⟩ := List.cons.inj (hf.symm.trans hf')
  exact flawless_of_closer ht hus

/-- A flow collection without its bracket is a flaw. -/
theorem closeOpen (h : c.Blamed) (hc : c.Holding t t.Settled) (hk : k ∈ t.closer?)
    (hp : p ≠ .missingColon) : (c.report p).close.Blamed := by
  obtain ⟨us, fs, hf, hus, -⟩ := hc.frames
  refine h.fault (faults_close _) (fun hd => ?_) hp
  obtain ⟨x, hlast, hx⟩ :=
    endsWith_of_flawless hk hus.complete ((allFlawless_close (c := c.report p) hf).mp hd).2
  have hno := hus.unclosed k hk _ (List.mem_of_getLast? hlast)
  simp [isToken, tokenKind?, hx] at hno

/-- The rest of a line is a comment, or it is a fault and a flaw. -/
theorem finishLine (h : c.Blamed) : c.finishLine.Blamed := by
  have ht := h.takeRun (p := fun k => k == space || k == comment) rfl
  dsimp only [Config.finishLine]
  split
  · exact ht
  · exact ht
  · exact ht.errorLine (by simp)

/-- A comma that is missing is a fault, and what stands in its place is a flaw. -/
theorem takeComma (h : c.Blamed) (closer : TokenKind) (hp : p ≠ .missingColon) :
    (c.takeComma closer p).Blamed := by
  unfold Config.takeComma
  split
  · exact h
  · rename_i k hk
    split
    · rename_i hc
      exact h.takeOne hk (by simp [hc])
    · split
      · exact h
      · exact h.errorToken hp

/-- The indicator of an item is no flaw. -/
theorem openItem (h : c.Blamed) (hk : c.kind? = some dash) (column : Nat) :
    (c.openItem column).Blamed :=
  (((h.push .item).takeOne (k := dash) hk (by simp)).takeSpaces).await _

/-- Nor is a key. -/
theorem takeKey (h : c.Blamed) : c.takeKey.Blamed := by
  have hp := (h.push .key).takeProperties
  dsimp only [Config.takeKey]
  split
  · exact hp.closeOther (show _ = Task.key :: c.tasks by simp) (by simp [Task.nodeKind])
  · refine (hp.wrapScalar ?_).closeOther (show _ = Task.key :: c.tasks by simp)
      (by simp [Task.nodeKind])
    intro l hl
    rcases kind_of_mem_take_keyLength l hl with h | h | h
    · exact ne_unterminated rfl h
    · exact ne_unterminated rfl h
    · simp [h]

/-- The key that was seen has its colon. -/
theorem openEntry (h : c.Blamed) {l : Lexeme} {ls : List Lexeme} (hr : c.rest = l :: ls)
    (hl : l.kind ≠ space) (hs : Spaced c.rest) (hk : startsKey (l :: ls) = true) (column : Nat) :
    (c.openEntry column).Blamed := by
  have hcolon := kind?_keyed hr hl hs hk
  rw [openEntry_of_colon hcolon]
  exact ((((h.push .entry).takeKey.takeSpaces.takeOne hcolon (by simp)).takeSpaces).push
    .value).await _

/-! ## Steps

What is without flaws at the start stays so as long as nothing is reported. The converse is that
whatever is reported leaves an error in the tree, or an open end. -/

/-- What fits nowhere is a flaw, and so is an open quote. -/
theorem fillsIn {q : Option Slot} (h : c.Blamed) (hs : Spaced c.rest) (hc : q ≠ none → c.pastSpaces)
    (hf : FillsIn q c d) : d.Blamed := by
  cases hf with
  | nothing => exact h
  | later => exact h.takeTrivia.await _
  | sequence hr _ hk => exact (h.push _).openItem (hk ▸ kind?_of_rest hr) _
  | @mapping _ _ l _ hr _ _ _ hkey =>
    exact (h.push _).openEntry hr (hc (by simp) l (by simp [hr])) hs hkey _
  | @collection _ _ t k hk ht =>
    exact (h.push t).takeOne (k := k) hk (by cases t <;> cases ht <;> simp)
  | plain => exact (h.push _).take plain_ne_unterminated
  | words => exact h.wrapScalar plain_ne_unterminated
  | scalar hk hq => exact h.wrapOne hk (by rintro rfl; simp [isQuoted] at hq)
  | block hk => exact h.wrapOne hk (by simp)
  | unterminated hk => exact h.wrapQuote hk
  | strayLine hp => exact h.errorLine hp
  | strayToken hp => exact h.errorToken hp

/-- On the way to a place nothing is wrong. -/
theorem opens {q : Option Slot} (h : c.Blamed) (ho : Opens q c d) : d.Blamed := by
  cases ho with
  | slot => exact ⟨h.iff, h.colon⟩
  | document => exact h.takeTrivia.push _
  | marked _ _ hl hk =>
    exact ((h.takeTrivia.push _).takeOne (kind?_takeTrivia hl) (by simp [hk])).takeSpaces
  | flowItem => exact h.takeTrivia.push _
  | flowEntry => exact (h.takeTrivia.push _).push _
  | flowValue _ ht hk =>
    exact ((((h.closeOther ht (by simp [Task.nodeKind])).takeTrivia).takeOne hk
      (by simp)).takeTrivia).push _

/-- A collection that is left open is a flaw. -/
theorem closes (h : c.Blamed) (hc : c.Holding t t.Settled) (ht : c.tasks = t :: ts)
    (hcl : Closes t c d) : d.Blamed := by
  cases hcl with
  | node hk =>
    exact h.closeOther ht (by rcases hk with rfl | rfl | rfl | ⟨n, rfl⟩ <;> simp [Task.nodeKind])
  | mapping => exact h.closeBlock hc fun us hus => hus.complete.2
  | sequence => exact h.closeBlock hc fun us hus => hus.complete.2
  | document => exact h.takeTrivia.closeOther (by simpa using ht) (by simp [Task.nodeKind])
  | documentEnd hl hk =>
    have hend := h.takeTrivia.takeOne (kind?_takeTrivia hl) (by simp [hk])
    exact hend.finishLine.closeOther (by simpa using ht) (by simp [Task.nodeKind])
  | line hk =>
    exact h.finishLine.closeOther (by simpa using ht)
      (by rcases hk with rfl | rfl <;> simp [Task.nodeKind])
  | bracket hk hcl =>
    exact h.takeTrivia.closeFlow
      (hc.takeTrivia (tolerant_settled (Task.nodeKind_of_closer hcl))) hk hcl
  | unclosed hcl hp =>
    exact h.takeTrivia.closeOpen
      (hc.takeTrivia (tolerant_settled (Task.nodeKind_of_closer hcl))) hcl hp
  | key => exact (h.closeOther ht (by simp [Task.nodeKind])).takeTrivia
  | part hk hp =>
    exact (h.closeOther ht
      (by rcases hk with rfl | rfl <;> simp [Task.nodeKind])).takeTrivia.takeComma _ hp

/-- A step keeps the equivalence. -/
theorem step (h : c.Blamed) (hc : c.Formed) (hd : c.step = some d) : d.Blamed := by
  cases acts_of_step hd with
  | @fill q _ _ e ho hf =>
    exact ((h.opens ho).takeProperties).fillsIn ((hc.spaced.of_suffix ho.grows.rest).drop _)
      (fun hq => (hc.pastSpaces_of_opens ho hq).takeProperties) hf
  | marker _ _ hl hk =>
    exact h.takeTrivia.takeOne (kind?_takeTrivia hl) (by rcases hk with hk | hk <;> simp [hk])
  | stray _ _ _ _ hp => exact h.takeTrivia.errorLine hp
  | entry _ _ hl _ _ hkey =>
    exact h.takeTrivia.openEntry (by simpa using hl) (ne_space_of_significant hl)
      (by simpa [← drop_triviaLength] using hc.spaced.drop _) hkey _
  | item _ _ hl _ hk => exact h.takeTrivia.openItem (hk ▸ kind?_takeTrivia hl) _
  | plain _ _ hn =>
    obtain ⟨rfl, -⟩ := of_continuation hn
    exact (h.takeRun rfl).take plain_ne_unterminated
  | close hs ht hcl => exact h.closes (hc.settled hs ht) ht hcl

/-- At the start there are neither faults nor flaws. -/
theorem start (t : Text) : (Config.start t).Blamed :=
  ⟨by simp [Config.start, AllFlawless], by simp [Config.start]⟩

/-- So it holds all along a run. -/
theorem leads (h : c.Blamed) (hc : c.Formed) (hd : Leads c d) : d.Blamed :=
  (hd.keeps (P := fun c => c.Formed ∧ c.Blamed)
    (fun h hstep => ⟨h.1.step hstep, h.2.step h.1 hstep⟩) ⟨hc, h⟩).2

end Blamed

end Config

/-- No other problem is called a missing colon. -/
theorem Problem.eq_missingColon_of_message {p : Problem}
    (h : p.message = "expected ':' after mapping key") : p = .missingColon := by
  cases p with
  | missingColon => rfl
  | unexpected k => cases k <;> simp [message, TokenKind.name] at h
  | unexpectedInFlow k => cases k <;> simp [message, TokenKind.name] at h
  | _ => simp [message] at h

/-- A text is accepted strictly if and only if nothing is wrong with its tree : it has no error, no
quote that is left open, and its flow collections end with their brackets. A colon behind a key is
never missed. -/
theorem parse_faults (t : Text) :
    ((parse t).faults = [] ↔ (parse t).tree.Every Flawless) ∧
      ∀ f ∈ (parse t).faults, f.problem.message ≠ "expected ':' after mapping key" := by
  have h := (Config.Blamed.start t).leads (.start t) (.to_run _)
  have hframes := Config.frames_run (Config.start t)
  have hrest := Config.isTrivia_of_step_eq_none (Config.Leads.step_run (Config.start t))
  refine ⟨h.iff.trans ?_, fun f hf hmessage =>
    h.colon f hf (Problem.eq_missingColon_of_message hmessage)⟩
  show _ ↔ (Config.stream _).Every Flawless
  rw [Config.stream, every_node, everyOf_append, Config.AllFlawless, hframes]
  have htrivia : EveryOf Flawless ((Config.start t).run.rest.map fun l => .token l.token) := by
    rw [everyOf_iff, List.forall_mem_map]
    exact fun l hl => every_token.mpr (Config.ne_unterminated (p := isTrivia) rfl (hrest l hl))
  simp [htrivia, Flawless]

end YamlPatch
