import YamlPatch.Proofs.Forming

/-!
# Block sequences below their keys

A block sequence that is the value of a key stands below the key : the place for the value takes
no block collection at first, and it does so only once a line break was taken into it
(`Config.Hung`). Every step keeps this, so in the tree of every text there is a line break
between a key and its block sequence, in the node of the value (`parse_hanging`).

The invariant has a flag. It says whether a block sequence may be put into the innermost node,
and is true behind a line break or where the node is no value. A slot knows this as `compact`,
so between two steps the flag is that of the slot (`Config.Hangs`). A line break is certain
because a comment is always followed by one (`Lined`) : the parser may take the comment at the
end of the line of the key and then looks for the value on a later line.
-/

namespace YamlPatch

open TokenKind LexState YamlPatch.Tree

/-! ## Comments end at a line break

A comment goes to the end of its line. Behind it there is the line break or nothing at all. -/

/-- Behind a comment there is a line break, if anything. -/
def Lined (ls : List Lexeme) : Prop := ls.IsChain fun l m => l.kind = comment → m.kind = lineBreak

/-- An end of the tokens has the property too. -/
theorem Lined.of_suffix {ls ms : List Lexeme} (h : Lined ls) (hm : ms <:+ ls) : Lined ms :=
  List.IsChain.suffix h hm

theorem Lined.drop {ls : List Lexeme} (h : Lined ls) (n : Nat) : Lined (ls.drop n) :=
  h.of_suffix (List.drop_suffix n ls)

/-- The tokens of a text have it, since a comment goes to the end of its line. -/
theorem lined_start (t : Text) : Lined (Config.start t).rest := by
  refine isChain_start
    (R := fun k k' => k = comment → k' = lineBreak) (fun {s x y t} hx hy hk => ?_) t
  have hstop : StopsAt (fun c => c != '\n' && c != '\r') (y.text ++ t) := by
    have h := hx.endsAt (by rw [hk]; rfl)
    rwa [EndsAt, hk] at h
  obtain ⟨c, u, hu, hscan, -⟩ := hy
  rw [hu] at hstop
  have hc : c = '\n' ∨ c = '\r' := by simpa [or_iff_not_imp_left] using hstop c _ rfl
  rw [← hscan]
  rcases hc with rfl | rfl <;> rw [scan_eq_scanInLine (.inr (by decide))] <;> rfl

/-- Trivia that begin with a line break or a comment have a line break in them, if they do not
reach the end of the text. -/
theorem Lined.exists_lineBreak {l : Lexeme} {ls : List Lexeme} (h : Lined (l :: ls))
    (hk : l.kind = lineBreak ∨ l.kind = comment) (hs : significant (l :: ls) ≠ []) :
    ∃ m ∈ (l :: ls).take (triviaLength (l :: ls)), m.kind = lineBreak := by
  rcases hk with hk | hk
  · exact ⟨l, by simp [triviaLength, kindRun, hk, isTrivia], hk⟩
  · cases ls with
    | nil => simp [significant, hk, isTrivia] at hs
    | cons m ms =>
      have hm : m.kind = lineBreak := (List.isChain_cons_cons.mp h).1 hk
      exact ⟨m, by simp [triviaLength, kindRun, hk, hm, isTrivia], hm⟩

/-! ## Trees

Line breaks are looked for among the children themselves, not in the nodes under them : the
break between a key and its sequence is a child of the value. -/

namespace Tree

/-- A sequence that does not begin with its bracket. -/
def isBlockSequence (t : Tree) : Bool :=
  t.isNode .sequence && !t.children.head?.any (isToken leftBracket)

/-- There is a line break directly among the trees. -/
def HasBreak (ts : List Tree) : Prop := ∃ t ∈ ts, t.isToken lineBreak = true

/-- Each block sequence among the trees has a line break before it. -/
def Broken (ts : List Tree) : Prop :=
  ∀ l t r, ts = l ++ t :: r → t.isBlockSequence = true → HasBreak l

/-- A block sequence that is the value of a key stands below it. -/
def Hanging : Tree → Prop
  | .node .value ts => Broken ts
  | _ => True

variable {ts us : List Tree}

/-- A line break stays when more trees come behind it. -/
theorem HasBreak.append (h : HasBreak us) : HasBreak (us ++ ts) := by
  obtain ⟨t, ht, hk⟩ := h
  exact ⟨t, List.mem_append_left ts ht, hk⟩

theorem broken_nil : Broken [] := by
  intro l t r h
  simp at h

/-- A block sequence may come behind the trees if there is a line break among them. -/
theorem Broken.append (h : Broken us) (ht : ∀ t ∈ ts, t.isBlockSequence = true → HasBreak us) :
    Broken (us ++ ts) := by
  intro l t r heq hk
  rcases List.append_eq_append_iff.mp heq with ⟨m, rfl, hts⟩ | ⟨m, rfl, hm⟩
  · exact (ht t (by simp [hts]) hk).append
  · cases m with
    | nil =>
      obtain rfl : t :: r = ts := by simpa using hm
      simpa using ht t (by simp) hk
    | cons u m =>
      obtain ⟨rfl, -⟩ := List.cons.inj hm
      exact h l t m rfl hk

/-- Only the values of keys are asked about. -/
theorem hanging_of_ne {k : NodeKind} (hk : k ≠ .value) : (node k ts).Hanging := by
  cases k <;> trivial

/-- A sequence without brackets is a block sequence. -/
theorem isBlockSequence_of_not_isFlow {t : Tree} (hk : t.kind? = some .sequence)
    (hf : t.isFlow = false) : t.isBlockSequence = true := by
  cases t with
  | token x => cases hk
  | node k ts =>
    obtain rfl := Option.some.inj hk
    match ts with
    | [] => rfl
    | .node _ _ :: _ => rfl
    | .token x :: ts =>
      have hx : x.kind ≠ leftBracket :=
        fun hx => by simp [isFlow, firstToken, firstTokenOf, hx] at hf
      simp [isBlockSequence, isNode, kind?, children, isToken, tokenKind?, hx]

/-- What is no sequence is no block sequence. -/
theorem isBlockSequence_of_ne {k : NodeKind} (hk : k ≠ .sequence) :
    (node k ts).isBlockSequence = false := by
  simp [isBlockSequence, isNode, kind?, hk]

end Tree

/-! ## Nodes under construction

The flag is about the innermost node only. The nodes around it hold one child more that is still
to come, and what that child may be was settled when it was opened. -/

/-- A block sequence. -/
def Task.isBlockSequence : Task → Bool
  | sequence _ => true
  | _ => false

/-- In the nodes under construction block sequences hang below their keys. With `b` one may be
put into the innermost. -/
def AllHang : Bool → List Frame → Prop
  | _, [] => True
  | b, f :: fs => EveryOf Hanging f.done ∧
      (f.task.nodeKind = .value → Broken f.done ∧ (b = true → HasBreak f.done)) ∧
      AllHang f.task.isBlockSequence fs

namespace Config

/-- In all that is built block sequences hang below their keys. With `b` one may be put into the
innermost node. -/
structure Hung (b : Bool) (c : Config) : Prop where
  finished : EveryOf Hanging c.finished
  frames : AllHang b c.frames
  lined : Lined c.rest

/-- Between two steps a block sequence may be put in if the place to fill takes block
collections. -/
def Hangs (c : Config) : Prop := c.Hung (c.slot.any Slot.compact)

variable {c d : Config} {b : Bool} {t : Task} {ts : List Task} {n : Nat} {k : TokenKind}
    {p : Problem}

namespace Hung

/-! ## Moves

Most moves leave the flag as it is. It becomes true where a line break is taken, and it is lost
where the value of an entry is opened. -/

/-- Where a block sequence may be put in, nothing is wrong if none is. -/
theorem weaken (h : c.Hung b) : c.Hung false := by
  refine ⟨h.finished, ?_, h.lined⟩
  have hframes := h.frames
  cases hc : c.frames with
  | nil => trivial
  | cons f fs =>
    rw [hc] at hframes
    exact ⟨hframes.1, fun hk => ⟨(hframes.2.1 hk).1, by simp⟩, hframes.2.2⟩

/-- Where nothing waits to be filled nothing more is asked. -/
theorem hangs (h : c.Hung b) (hs : c.slot = none) : c.Hangs := by
  rw [Hangs, hs]
  exact h.weaken

/-- A place that is left to be filled knows whether it takes block collections. -/
theorem await {s : Slot} (h : c.Hung s.compact) : (c.await s).Hangs :=
  ⟨h.finished, h.frames, h.lined⟩

theorem report (h : c.Hung b) (p : Problem) : (c.report p).Hung b := ⟨h.finished, h.frames, h.lined⟩

/-- Taking tokens away keeps it, as long as comments end at line breaks. -/
theorem withRest (h : c.Hung b) {ls : List Lexeme} (hl : Lined ls) :
    ({ c with rest := ls } : Config).Hung b :=
  ⟨h.finished, h.frames, hl⟩

/-- Trees may be put in that hang below their keys themselves, and block sequences where they
may be. -/
theorem add {us : List Tree} (h : c.Hung b) (hus : EveryOf Hanging us)
    (hb : ∀ u ∈ us, u.isBlockSequence = true → b = true) : (c.add us).Hung b := by
  have hframes := h.frames
  unfold Config.add
  split
  · rename_i hc
    exact ⟨everyOf_append.mpr ⟨h.finished, hus⟩, by simp [hc, AllHang], h.lined⟩
  · rename_i f fs hc
    rw [hc] at hframes
    obtain ⟨hdone, hvalue, hbelow⟩ := hframes
    refine ⟨h.finished, ⟨everyOf_append.mpr ⟨hdone, hus⟩, fun hk => ?_, hbelow⟩, h.lined⟩
    obtain ⟨hbroken, hbreak⟩ := hvalue hk
    exact ⟨hbroken.append fun u hu hseq => hbreak (hb u hu hseq), fun hb => (hbreak hb).append⟩

/-- Tokens may be put in anywhere. -/
theorem take (h : c.Hung b) (n : Nat) : (c.take n).Hung b := by
  refine (h.add (everyOf_ahead.mpr fun _ _ => trivial) fun u hu hk => ?_).withRest (h.lined.drop n)
  obtain ⟨l, -, rfl⟩ := List.mem_map.mp hu
  simp [isBlockSequence, isNode, Tree.kind?] at hk

/-- Behind a line break a block sequence may be put in. -/
theorem takeBreak (h : c.Hung b) (hl : ∃ l ∈ c.rest.take n, l.kind = lineBreak) :
    (c.take n).Hung true := by
  obtain ⟨hfinished, hframes, hlined⟩ := h.take n
  refine ⟨hfinished, ?_, hlined⟩
  obtain ⟨l, hl, hk⟩ := hl
  have hbreak (us : List Tree) : HasBreak (us ++ c.ahead n) :=
    ⟨.token l.token, List.mem_append_right us (List.mem_map.mpr ⟨l, hl, rfl⟩),
      by simp [isToken, tokenKind?, show l.token.kind = lineBreak from hk]⟩
  cases hc : c.frames with
  | nil => simp [Config.take, Config.add, hc, AllHang]
  | cons f fs =>
    have htake : (c.take n).frames = { f with done := f.done ++ c.ahead n } :: fs := by
      simp [Config.take, Config.add, hc]
    rw [htake] at hframes ⊢
    exact ⟨hframes.1, fun hk => ⟨(hframes.2.1 hk).1, fun _ => hbreak f.done⟩, hframes.2.2⟩

/-- So may nodes around tokens other than sequences and values. -/
theorem wrap {k : NodeKind} (h : c.Hung b) (hk : k ≠ .value ∧ k ≠ .sequence) (n : Nat) :
    (c.wrap k n).Hung b := by
  refine (h.add ?_ ?_).withRest (h.lined.drop n)
  · simpa [every_node, hanging_of_ne hk.1] using everyOf_ahead.mpr fun _ _ => trivial
  · simp [isBlockSequence_of_ne hk.2]

/-- A node may be opened, and a block sequence may be put into it if it is no value. -/
theorem push (h : c.Hung b) (ht : t.isBlockSequence = true → b = true) {r : Bool}
    (hr : r = true → t.nodeKind ≠ .value) : (c.push t).Hung r := by
  refine ⟨h.finished, ⟨everyOf_nil, fun hk => ⟨broken_nil, fun h => absurd hk (hr h)⟩, ?_⟩, h.lined⟩
  cases hs : t.isBlockSequence with
  | true => exact ht hs ▸ h.frames
  | false => exact h.weaken.frames

/-- A node that is no block sequence. -/
theorem pushOther (h : c.Hung b) (ht : t.isBlockSequence = false) : (c.push t).Hung false :=
  h.push (by simp [ht]) (by simp)

/-- A node is put into the one around it. If it turns out to be a block sequence then its task
has said so when it was opened, and it was allowed there. -/
theorem close (h : c.Hung b) (hf : ∀ f fs, c.frames = f :: fs → f.tree.isBlockSequence = true →
    f.task.isBlockSequence = true) : c.close.Hung false := by
  cases hc : c.frames with
  | nil => simpa [Config.close, hc] using h.weaken
  | cons f fs =>
    have hframes := h.frames
    rw [hc] at hframes
    obtain ⟨hdone, hvalue, hbelow⟩ := hframes
    have hclose : c.close = ({ c with frames := fs } : Config).add [f.tree] := by
      simp [Config.close, hc]
    rw [hclose]
    have hself : f.tree.Hanging := by
      by_cases hk : f.task.nodeKind = .value
      · rw [Frame.tree, hk]
        exact (hvalue hk).1
      · exact hanging_of_ne hk
    have hbase : ({ c with frames := fs } : Config).Hung f.task.isBlockSequence :=
      ⟨h.finished, hbelow, h.lined⟩
    refine Hung.weaken (hbase.add ?_ ?_)
    · exact everyOf_cons.mpr ⟨every_node.mpr ⟨hself, hdone⟩, everyOf_nil⟩
    · simpa using hf f fs hc

/-- Only a sequence in brackets is more than its task tells. -/
theorem closeOther (h : c.Hung b) (ht : c.tasks = t :: ts) (hne : t ≠ .flowSequence) :
    c.close.Hung false := by
  refine h.close fun f fs hf hk => ?_
  obtain rfl : f.task = t := by simpa [tasks, hf] using congrArg List.head? ht
  revert hk hne
  unfold Frame.tree
  cases f.task <;>
    simp [Task.nodeKind, Task.isBlockSequence, Tree.isBlockSequence, isNode, Tree.kind?]

/-- A flow sequence begins with its bracket, so it is no block sequence. -/
theorem closeFlow (h : c.Hung b) {P : List Tree → Prop} (hc : c.Holding .flowSequence P)
    (hP : ∀ us, P us → BeginsWith leftBracket us) : c.close.Hung false := by
  obtain ⟨us, fs, hf, hus, -⟩ := hc.frames
  refine h.close fun f gs hf' hk => ?_
  obtain ⟨rfl, -⟩ := List.cons.inj (hf.symm.trans hf')
  obtain ⟨x, vs, rfl, hx⟩ := hP us hus
  simp [Frame.tree, Tree.isBlockSequence, children, isToken, tokenKind?, hx] at hk

theorem takeTrivia (h : c.Hung b) : c.takeTrivia.Hung b := h.take _

theorem takeSpaces (h : c.Hung b) : c.takeSpaces.Hung b := h.take _

theorem wrapScalar (h : c.Hung b) (n : Nat) : (c.wrap .scalar n).Hung b := h.wrap (by simp) n

theorem errorLine (h : c.Hung b) (p : Problem) : (c.errorLine p).Hung b :=
  (h.report p).wrap (by simp) _

theorem errorToken (h : c.Hung b) (p : Problem) : (c.errorToken p).Hung b :=
  (h.report p).wrap (by simp) 1

theorem finishLine (h : c.Hung b) : c.finishLine.Hung b := by
  dsimp only [Config.finishLine]
  split
  · exact h.take _
  · exact h.take _
  · exact (h.take _).errorLine _

theorem takeComma (h : c.Hung b) (closer : TokenKind) (p : Problem) :
    (c.takeComma closer p).Hung b := by
  unfold Config.takeComma
  split
  · exact h
  · split
    · exact h.take 1
    · split
      · exact h
      · exact h.errorToken p

/-- An item takes a block sequence on its own line. -/
theorem openItem (h : c.Hung b) (column : Nat) : (c.openItem column).Hangs :=
  (((h.push (t := .item) (by simp [Task.isBlockSequence]) (by simp [Task.nodeKind])).take
    1).takeSpaces).await

/-- A key holds a scalar at most. -/
theorem takeKey (h : c.Hung b) : c.takeKey.Hung false := by
  have hkey := (h.pushOther (t := .key) rfl).take (propertiesLength c.rest)
  dsimp only [Config.takeKey]
  split
  · exact hkey.closeOther (show _ = Task.key :: c.tasks by simp) (by simp)
  · exact (hkey.wrapScalar _).closeOther (show _ = Task.key :: c.tasks by simp) (by simp)

theorem takeColon (h : c.Hung b) : c.takeColon.Hung b := by
  unfold Config.takeColon
  split
  · exact h.take 1
  · exact h.report _

/-- The place for the value of a key takes no block collection at first. -/
theorem openEntry (h : c.Hung b) (column : Nat) : (c.openEntry column).Hangs := by
  have hentry := (h.pushOther (t := .entry) rfl).takeKey.takeSpaces.takeColon.takeSpaces
  exact await (s := ⟨column + 1, some column, false⟩) (hentry.pushOther (t := .value) rfl)

/-! ## Steps

A block sequence is opened in a slot that takes block collections. By the invariant such a slot
has the line break before it, or is no value. -/

/-- Once a line break was taken the place takes block collections. -/
theorem fillsIn {q : Option Slot} (h : c.Hung (q.any Slot.compact)) (hs : c.slot = none)
    (hf : FillsIn q c d) : d.Hangs := by
  cases hf with
  | nothing => exact h.hangs hs
  | @later s _ x l xs ls hr hx hl =>
    refine await (s := ⟨s.minColumn, none, true⟩) (h.takeBreak ?_)
    rw [hr]
    exact (hr ▸ h.lined).exists_lineBreak hx (by simp [← hr, hl])
  | sequence hr hc => exact (h.push (fun _ => hc) (r := false) (by simp)).openItem _
  | mapping => exact (h.pushOther rfl).openEntry _
  | @collection _ _ t _ _ ht =>
    cases t with
    | flowSequence | flowMapping => exact ((h.pushOther rfl).take 1).hangs (by simp [hs])
    | _ => cases ht
  | plain => exact ((h.pushOther rfl).take _).hangs (by simp [hs])
  | words => exact (h.wrapScalar _).hangs (by simp [hs])
  | scalar => exact (h.wrapScalar 1).hangs (by simp [hs])
  | block => exact (h.wrapScalar 1).hangs (by simp [hs])
  | unterminated => exact ((h.report _).wrapScalar 1).hangs (by simp [hs])
  | strayLine => exact (h.errorLine _).hangs (by simp [hs])
  | strayToken => exact (h.errorToken _).hangs (by simp [hs])

/-- Only a sequence in brackets has to show them. -/
theorem closes (h : c.Hung b) (hc : c.Holding t t.Settled) (ht : c.tasks = t :: ts)
    (hcl : Closes t c d) : d.Hung false := by
  -- A flow sequence is none in block style because it begins with its bracket; of the other nodes
  -- nothing has to be known.
  have hbegins (us : List Tree) (hus : Task.flowSequence.Settled us) : BeginsWith leftBracket us :=
    hus.complete.2
  cases hcl with
  | node hk => exact h.closeOther ht (by rcases hk with rfl | rfl | rfl | ⟨n, rfl⟩ <;> simp)
  | mapping => exact h.closeOther ht (by simp)
  | sequence => exact h.closeOther ht (by simp)
  | document => exact h.takeTrivia.closeOther (by simpa using ht) (by simp)
  | documentEnd => exact (h.takeTrivia.take 1).finishLine.closeOther (by simpa using ht) (by simp)
  | line hk =>
    exact h.finishLine.closeOther (by simpa using ht) (by rcases hk with rfl | rfl <;> simp)
  | bracket =>
    by_cases hseq : t = .flowSequence
    · subst hseq
      have htrivia := hc.takeTrivia (tolerant_settled (by simp [Task.nodeKind]))
      have hend :=
        htrivia.take 1 (Q := BeginsWith leftBracket) fun us hus => (hbegins us hus).append
      exact (h.takeTrivia.take 1).closeFlow hend fun _ hus => hus
    · exact (h.takeTrivia.take 1).closeOther (by simpa using ht) hseq
  | unclosed =>
    by_cases hseq : t = .flowSequence
    · subst hseq
      have htrivia := hc.takeTrivia (tolerant_settled (by simp [Task.nodeKind]))
      exact (h.takeTrivia.report _).closeFlow (htrivia.report _) hbegins
    · exact (h.takeTrivia.report _).closeOther (by simpa using ht) hseq
  | key => exact (h.closeOther ht (by simp)).takeTrivia
  | part hk =>
    exact ((h.closeOther ht (by rcases hk with rfl | rfl <;> simp)).takeTrivia).takeComma _ _

end Hung

namespace Hangs

/-- At the start there are no nodes. -/
theorem start (t : Text) : (Config.start t).Hangs :=
  ⟨by simp [Config.start], by simp [Config.start, AllHang], lined_start t⟩

/-- A place that takes block collections is new, or it is a slot that does. -/
theorem opens {q : Option Slot} (h : c.Hangs) (ho : Opens q c d) : d.Hung (q.any Slot.compact) := by
  cases ho with
  | slot hs =>
    rw [Hangs, hs] at h
    exact ⟨h.finished, h.frames, h.lined⟩
  | document => exact h.takeTrivia.push (by simp [Task.isBlockSequence]) (by simp [Task.nodeKind])
  | marked =>
    exact ((h.takeTrivia.push (t := .document) (r := true) (by simp [Task.isBlockSequence])
      (by simp [Task.nodeKind])).take 1).takeSpaces
  | flowItem => exact h.takeTrivia.pushOther rfl
  | flowEntry => exact (h.takeTrivia.pushOther (t := .flowEntry) rfl).pushOther rfl
  | flowValue hs ht =>
    exact (((h.closeOther ht (by simp)).takeTrivia.take 1).takeTrivia).pushOther rfl

/-- A step keeps it. -/
theorem step (h : c.Hangs) (hc : c.Formed) (hd : c.step = some d) : d.Hangs := by
  cases acts_of_step hd with
  | fill ho hf => exact ((h.opens ho).take _).fillsIn (by simp [ho.slot_eq]) hf
  | marker hs => exact (h.takeTrivia.take 1).hangs (by simp [hs])
  | stray hs => exact (h.takeTrivia.errorLine _).hangs (by simp [hs])
  | entry => exact h.takeTrivia.openEntry _
  | item => exact h.takeTrivia.openItem _
  | plain hs => exact ((h.take _).take _).hangs (by simp [hs])
  | close hs ht hcl =>
    exact (Hung.closes h (hc.settled hs ht) ht hcl).hangs (by simp [hcl.slot_eq, hs])

/-- So does a run. -/
theorem leads (h : c.Hangs) (hc : c.Formed) (hd : Leads c d) : d.Hangs :=
  (hd.keeps (P := fun c => c.Formed ∧ c.Hangs)
    (fun h hstep => ⟨h.1.step hstep, h.2.step h.1 hstep⟩) ⟨hc, h⟩).2

end Hangs

end Config

/-- In the tree of a text, well formed or not, the block sequences that are values of keys stand
below them. -/
theorem parse_hanging (t : Text) : (parse t).tree.Every Hanging := by
  have h := (Config.Hangs.start t).leads (.start t) (.to_run _)
  show (Config.stream _).Every Hanging
  refine every_node.mpr ⟨trivial, everyOf_append.mpr ⟨h.finished, ?_⟩⟩
  rw [everyOf_iff, List.forall_mem_map]
  exact fun _ _ => every_token.mpr trivial

end YamlPatch
