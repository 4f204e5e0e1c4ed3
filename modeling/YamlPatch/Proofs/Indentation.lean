import YamlPatch.Proofs.Layout

/-!
# Block structure follows indentation

The columns that the parser compares are those of the tokens ahead, and the text of the trees
that it has built ends where the next token begins (`Config.Laid`). A place to fill asks for no
less than the nodes around it (`Config.Suits`), so a block collection is opened only where it
may stand. Every step keeps this, and the tree of every text is laid out by its columns
(`parse_laidOut`).

Trees do not know where they stand. `Config.column` computes the column of the next tree of the
innermost node from the texts of all that is before it, and `Config.spot` what is asked of a
tree there by the nodes around. The first lemmas follow these two through the moves; after that
the columns of the tokens never have to be looked at again, except where the parser does so.

A key and its colon need care. The value of a block entry may begin on the line of the key,
where no block collection is allowed, and on a later line a block sequence may stand in the
column of the key itself. The slot that `Config.openEntry` leaves says both, and `Suits` is what
it says.
-/

namespace YamlPatch

open TokenKind YamlPatch.Tree

/-! ## Nodes under construction

Where the next tree of a node stands is known from the texts of the trees before it, and where
these stand from the nodes around. -/

/-- Block collections under construction know their column. -/
def Task.StartsAt (n : Nat) : Task → Prop
  | mapping m | sequence m => m = n
  | _ => True

/-- The node may stand in the spot at the column, and so may the trees in it where they stand. -/
structure Frame.Stands (b : Spot) (n : Nat) (f : Frame) : Prop where
  admits : b.Admits n f.task.isBracketed f.task.nodeKind
  starts : f.task.StartsAt n
  done : LaidOutAll (b.within n f.task.isBracketed f.task.nodeKind) n f.done

/-- The spot and the column of the next tree of the innermost node. -/
def standing (finished : List Tree) : List Frame → Spot × Nat
  | [] => (.place 0 0, textColumn 0 (textOf finished))
  | f :: fs =>
    ((standing finished fs).1.within (standing finished fs).2 f.task.isBracketed f.task.nodeKind,
      textColumn (standing finished fs).2 (textOf f.done))

/-- All that is built is laid out. -/
def AllStand (finished : List Tree) : List Frame → Prop
  | [] => LaidOutAll (.place 0 0) 0 finished
  | f :: fs => AllStand finished fs ∧ f.Stands (standing finished fs).1 (standing finished fs).2

namespace Config

/-- Where the next tree of the innermost node stands. -/
def spot (c : Config) : Spot := (standing c.finished c.frames).1

/-- The column of the next tree of the innermost node. -/
def column (c : Config) : Nat := (standing c.finished c.frames).2

/-- What is built is laid out, and the tokens left begin where it ends. -/
structure Laid (c : Config) : Prop where
  frames : AllStand c.finished c.frames
  rest : ∃ p ys, c.rest = Lexeme.locate p ys ∧ p.column = c.column
  straight : ∀ l ∈ c.rest, Straight l.token

variable {c : Config} {t : Task} {ts : List Task} {l : Lexeme} {ls : List Lexeme} {n : Nat}
    {k : TokenKind}

/-- Putting trees into the innermost node does not move it. -/
@[simp] theorem spot_add (c : Config) (us : List Tree) : (c.add us).spot = c.spot := by
  unfold add
  split
  · simp [spot, *, standing]
  · simp [spot, *, standing]

/-- The next tree stands behind the ones that were put in. -/
@[simp] theorem column_add (c : Config) (us : List Tree) :
    (c.add us).column = textColumn c.column (textOf us) := by
  unfold add
  split
  · simp [column, *, standing, textColumn_append]
  · simp [column, *, standing, textColumn_append]

@[simp] theorem spot_take (c : Config) (n : Nat) : (c.take n).spot = c.spot := spot_add c _

@[simp] theorem spot_takeTrivia (c : Config) : c.takeTrivia.spot = c.spot := spot_add c _

@[simp] theorem spot_takeSpaces (c : Config) : c.takeSpaces.spot = c.spot := spot_add c _

/-- The next tree stands in the node that has been opened. -/
@[simp] theorem spot_push (c : Config) (t : Task) :
    (c.push t).spot = c.spot.within c.column t.isBracketed t.nodeKind := rfl

/-- It stands in the column of that node, as long as there is nothing in it. -/
@[simp] theorem column_push (c : Config) (t : Task) : (c.push t).column = c.column := by
  simp [column, push, standing, textColumn]

/-- The text of the trees made of the next tokens is the text of these tokens. -/
theorem textOf_ahead (c : Config) (n : Nat) :
    textOf (c.ahead n) = Token.join ((c.rest.take n).map Lexeme.token) := by
  rw [textOf, leavesOf_ahead]

/-- Tokens may stand anywhere. -/
theorem laidOutAll_ahead {b : Spot} {m : Nat} (c : Config) (n : Nat) :
    LaidOutAll b m (c.ahead n) := by
  rw [ahead_eq]
  exact laidOutAll_tokens _

/-- Nodes that may stand anywhere. -/
theorem laidOut_of_isPlain {b : Spot} {m : Nat} {k : NodeKind} {us : List Tree}
    (hk : k = .scalar ∨ k = .error ∨ k = .key) (h : LaidOutAll b m us) :
    (node k us).LaidOut b m := by
  rw [laidOut_node]
  rcases hk with rfl | rfl | rfl
  · exact ⟨trivial, h⟩
  · exact ⟨trivial, h⟩
  · exact ⟨trivial, h⟩

/-- Trees may be put in that may stand where they are put. -/
theorem allStand_add (h : AllStand c.finished c.frames) {us : List Tree}
    (hus : LaidOutAll c.spot c.column us) : AllStand (c.add us).finished (c.add us).frames := by
  unfold add
  split
  · rename_i hf
    simp only [spot, column, hf, standing, AllStand] at hus h ⊢
    exact laidOutAll_append.mpr ⟨h, hus⟩
  · rename_i f fs hf
    simp only [spot, column, hf, standing, AllStand] at hus h ⊢
    exact ⟨h.1, h.2.admits, h.2.starts, laidOutAll_append.mpr ⟨h.2.done, hus⟩⟩

namespace Laid

/-! ## Moves

A move adds trees at the end and takes their tokens away, so the column of the next tree stays
that of the next token. -/

/-- The next tokens become trees. -/
theorem move (h : c.Laid) {us : List Tree} (hus : LaidOutAll c.spot c.column us)
    (htext : textOf us = Token.join ((c.rest.take n).map Lexeme.token)) :
    ({ c.add us with rest := c.rest.drop n } : Config).Laid := by
  refine ⟨allStand_add h.frames hus, ?_, fun l hl => h.straight l (List.mem_of_mem_drop hl)⟩
  obtain ⟨p, ys, hrest, hp⟩ := h.rest
  refine ⟨p.advance (Token.join (ys.take n)), ys.drop n, by rw [hrest, Lexeme.drop_locate], ?_⟩
  have hcolumn : ({ c.add us with rest := c.rest.drop n } : Config).column = (c.add us).column :=
    rfl
  rw [hcolumn, column_add, htext, Position.column_advance, hp, List.map_take, hrest,
    Lexeme.map_token_locate]

/-- Tokens may be taken. -/
theorem take (h : c.Laid) (n : Nat) : (c.take n).Laid :=
  h.move (laidOutAll_ahead c n) (textOf_ahead c n)

theorem takeTrivia (h : c.Laid) : c.takeTrivia.Laid := h.take _

theorem takeSpaces (h : c.Laid) : c.takeSpaces.Laid := h.take _

/-- Nodes without structure may be put around tokens. -/
theorem wrap (h : c.Laid) {k : NodeKind} (hk : k = .scalar ∨ k = .error ∨ k = .key) (n : Nat) :
    (c.wrap k n).Laid :=
  h.move (laidOutAll_cons.mpr ⟨laidOut_of_isPlain hk (laidOutAll_ahead c n), laidOutAll_nil⟩)
    (by simpa using textOf_ahead c n)

theorem report (h : c.Laid) (p : Problem) : (c.report p).Laid := ⟨h.frames, h.rest, h.straight⟩

theorem await (h : c.Laid) (s : Slot) : (c.await s).Laid := ⟨h.frames, h.rest, h.straight⟩

theorem errorLine (h : c.Laid) (p : Problem) : (c.errorLine p).Laid :=
  (h.report p).wrap (.inr (.inl rfl)) _

theorem errorToken (h : c.Laid) (p : Problem) : (c.errorToken p).Laid :=
  (h.report p).wrap (.inr (.inl rfl)) 1

/-- A node may be opened that the spot admits, in the column where its collection starts. -/
theorem push (h : c.Laid) (ht : c.spot.Admits c.column t.isBracketed t.nodeKind)
    (hs : t.StartsAt c.column) : (c.push t).Laid := by
  refine ⟨⟨h.frames, ht, hs, laidOutAll_nil⟩, ?_, h.straight⟩
  obtain ⟨p, ys, hrest, hp⟩ := h.rest
  exact ⟨p, ys, hrest, by rw [column_push, hp]⟩

/-- Closing a node, whose brackets show that it is a flow collection. -/
theorem close (h : c.Laid) (hflow : ∀ f fs, c.frames = f :: fs → f.task.nodeKind = .mapping ∨
    f.task.nodeKind = .sequence → f.tree.isFlow = f.task.isBracketed) : c.close.Laid := by
  cases hc : c.frames with
  | nil => simpa [Config.close, hc] using h
  | cons f fs =>
    have hframes := h.frames
    obtain ⟨p, ys, hrest, hp⟩ := h.rest
    rw [hc] at hframes
    obtain ⟨hbelow, hadmits, -, hdone⟩ := hframes
    have htree : f.tree.LaidOut (standing c.finished fs).1 (standing c.finished fs).2 := by
      unfold Frame.tree at hflow ⊢
      rw [laidOut_node]
      have hf := hflow f fs hc
      revert hadmits hdone hf
      generalize f.task.nodeKind = k
      cases k <;> simp +contextual [Spot.Admits, Spot.within]
    let below : Config := { c with frames := fs }
    have hclose : c.close = below.add [f.tree] := by simp [below, Config.close, hc]
    have hcolumn : (below.add [f.tree]).column = c.column := by
      rw [column_add]
      simp [below, column, hc, standing, Frame.tree]
    rw [hclose]
    refine ⟨allStand_add hbelow (laidOutAll_cons.mpr ⟨htree, laidOutAll_nil⟩), ?_,
      by simpa using h.straight⟩
    exact ⟨p, ys, by simpa using hrest, hp.trans hcolumn.symm⟩

/-- A node that is no collection. -/
theorem closeOther (h : c.Laid) (ht : c.tasks = t :: ts)
    (hk : t.nodeKind ≠ .mapping ∧ t.nodeKind ≠ .sequence) : c.close.Laid := by
  refine h.close fun f fs hf hkind => ?_
  obtain rfl : f.task = t := by simpa [tasks, hf] using congrArg List.head? ht
  exact absurd hkind (not_or.mpr hk)

/-- A collection in the style of its task. -/
theorem closeStyled (h : c.Laid) {P : List Tree → Prop} (hc : c.Holding t P)
    (hP : ∀ us, P us → t.InStyle us) : c.close.Laid := by
  obtain ⟨us, fs, hf, hus, -⟩ := hc.frames
  refine h.close fun f gs hf' hkind => ?_
  obtain ⟨rfl, rfl⟩ := List.cons.inj (hf.symm.trans hf')
  have hstyle := hP us hus
  cases t with
  | mapping | sequence => exact BeginsBlock.isFlow_eq hstyle
  | flowMapping => exact BeginsWith.isFlow_eq hstyle (.inr rfl)
  | flowSequence => exact BeginsWith.isFlow_eq hstyle (.inl rfl)
  | _ => simp [Task.nodeKind] at hkind

/-- A settled node shows its style, so it may be closed. -/
theorem closeSettled (h : c.Laid) (hc : c.Holding t t.Settled) : c.close.Laid :=
  h.closeStyled hc fun _ hus => hus.complete.2

/-! ## What stands next

Here the column of a token is compared with that of a tree. In a block collection the next tree
has to begin in its column. -/

/-- The next token stands where the text built so far ends. -/
theorem column_eq (h : c.Laid) (hr : c.rest = l :: ls) : l.column = c.column := by
  obtain ⟨p, ys, hrest, hp⟩ := h.rest
  cases ys with
  | nil => simp [hr, Lexeme.locate] at hrest
  | cons y ys =>
    obtain ⟨rfl, -⟩ := List.cons.inj (hr.symm.trans hrest)
    exact hp

/-- The trees of the innermost node stand where those of a node with its task do. -/
theorem exists_spot (h : c.Laid) (ht : c.tasks = t :: ts) :
    ∃ (b : Spot) (m : Nat), t.StartsAt m ∧ c.spot = b.within m t.isBracketed t.nodeKind := by
  obtain ⟨done, fs, hf, -⟩ := frames_eq_cons ht
  have hframes := h.frames
  rw [hf] at hframes
  exact ⟨(standing c.finished fs).1, _, hframes.2.starts, by simp [spot, hf, standing]⟩

/-- In a block mapping the next tree is an entry in the column of the mapping. -/
theorem spot_mapping (h : c.Laid) (ht : c.tasks = .mapping n :: ts) : c.spot = .inMapping n := by
  obtain ⟨b, _, rfl, hspot⟩ := h.exists_spot ht
  exact hspot

/-- In a block sequence it is an item in the column of the sequence. -/
theorem spot_sequence (h : c.Laid) (ht : c.tasks = .sequence n :: ts) : c.spot = .inSequence n := by
  obtain ⟨b, _, rfl, hspot⟩ := h.exists_spot ht
  exact hspot

/-- In brackets columns are not asked about. -/
theorem spot_bracketed (h : c.Laid) (ht : c.tasks = t :: ts) (hb : t.isBracketed = true) :
    c.spot = .flow := by
  obtain ⟨b, m, -, hspot⟩ := h.exists_spot ht
  cases t with
  | flowSequence | flowMapping => exact hspot
  | _ => cases hb

/-- Straight tokens lead to the right. -/
theorem le_column_take (h : c.Laid) (hk : ∀ l ∈ c.rest.take n, l.kind.isStraight = true) :
    c.column + (c.rest.take n).length ≤ (c.take n).column := by
  have hcolumn : (c.take n).column = (c.add (c.ahead n)).column := rfl
  rw [hcolumn, column_add, textOf_ahead]
  have hstraight : ∀ x ∈ (c.rest.take n).map Lexeme.token, Straight x :=
    List.forall_mem_map.mpr fun l hl => h.straight l (List.mem_of_mem_take hl)
  simpa using le_textColumn_join (n := c.column) hstraight (List.forall_mem_map.mpr hk)

end Laid

/-! ## Places to fill

A place says from which column on a block collection may stand in it. For a block sequence that may
be one column less, that of the key whose value it is. -/

/-- A place to fill asks for no less than its surroundings. A block collection on the line of the
indicator is to the right of it; a block sequence may stand at the column that is welcome to it. -/
def Suits (c : Config) (s : Slot) : Prop :=
  ∃ m q, c.spot = .place m q ∧ q ≤ m ∧ m ≤ s.minColumn ∧ (∀ d ∈ s.dashColumn, q ≤ d) ∧
    (s.compact = true → m ≤ c.column ∨ q ≤ c.column ∧ c.kind? = some dash)

/-- What is built is laid out, and the place to fill suits its surroundings. -/
structure Placed (c : Config) : Prop where
  laid : c.Laid
  slot : ∀ s, c.slot = some s → c.Suits s

/-- Where nothing waits to be filled nothing more is asked. -/
theorem Laid.placed (h : c.Laid) (hs : c.slot = none) : c.Placed := ⟨h, by simp [hs]⟩

/-- A place suits its surroundings behind anchors and tags too. They only lead further to the
right, and a block collection does not follow them on their line. -/
theorem Suits.takeProperties {s : Slot} (h : c.Laid) (hs : c.Suits s) :
    (c.take (propertiesLength c.rest)).Suits s := by
  obtain ⟨m, q, hspot, hqm, hmin, hdash, hcompact⟩ := hs
  refine ⟨m, q, by simpa using hspot, hqm, hmin, hdash, fun hc => ?_⟩
  have hle : c.column + (c.rest.take (propertiesLength c.rest)).length ≤
      (c.take (propertiesLength c.rest)).column := h.le_column_take fun l hl => by
    rcases mem_take_propertiesLength l hl with h | h
    · revert h
      cases l.kind <;> simp [isProperty, isStraight]
    · rw [h]
      rfl
  rcases hcompact hc with hm | ⟨hq, hk⟩
  · exact .inl (by omega)
  · obtain ⟨l, ls, hl, hdash⟩ := exists_rest hk
    have hzero : propertiesLength c.rest = 0 := by simp [hl, propertiesLength, hdash, isProperty]
    exact .inr ⟨by omega, by simpa [hzero, kind?] using hk⟩

namespace Laid

/-! ## Block collections

The column of a collection is that of its first item or entry, and the parser opens another one
only in this column. -/

/-- An item starts at the column of its sequence, and what it holds to the right of that. -/
theorem openItem (h : c.Laid) (hspot : c.spot = .inSequence n) (hc : c.column = n)
    (hk : c.kind? = some dash) : (c.openItem n).Placed := by
  have hitem : (c.push .item).Laid :=
    h.push (by simp [Task.nodeKind, Spot.Admits, hspot, hc]) trivial
  have hdash : n + 1 ≤ ((c.push .item).take 1).column := by
    obtain ⟨l, ls, hl, hdash⟩ := exists_rest hk
    simpa [hl, hc] using hitem.le_column_take (n := 1) (by simp [hl, hdash, isStraight])
  have hspaces : n + 1 ≤ ((c.push .item).take 1).takeSpaces.column :=
    Nat.le_trans (Nat.le_trans hdash (Nat.le_add_right _ _))
      ((hitem.take 1).le_column_take fun l hl => by
      rw [show l.kind = space by simpa using mem_take_kindRun l hl]
      rfl)
  refine ⟨(hitem.take 1).takeSpaces.await _, fun s hs => ?_⟩
  obtain rfl : (⟨n + 1, none, true⟩ : Slot) = s := Option.some.inj hs
  refine ⟨n + 1, n + 1, ?_, le_rfl, le_rfl, by simp, fun _ => .inl hspaces⟩
  show ((c.push .item).take 1).takeSpaces.spot = _
  simp [hspot, Task.nodeKind, Spot.within]

/-- The key of an entry may stand anywhere. -/
theorem takeKey (h : c.Laid) (hr : c.rest = l :: ls) (hl : l.kind ≠ space)
    (hk : startsKey (l :: ls) = true) : c.takeKey.Laid ∧ c.takeKey.spot = c.spot := by
  rw [takeKey_of_startsKey hr hl hk]
  refine ⟨?_, spot_add c _⟩
  rw [rest_takeKey, List.drop_drop]
  refine h.move (laidOutAll_cons.mpr ⟨laidOut_of_isPlain (.inr (.inr rfl)) ?_, laidOutAll_nil⟩) ?_
  · exact laidOutAll_append.mpr ⟨laidOutAll_ahead c _,
      laidOutAll_cons.mpr ⟨laidOut_of_isPlain (.inl rfl) (laidOutAll_ahead _ _), laidOutAll_nil⟩⟩
  · rw [List.take_add, List.map_append, Token.join_append]
    simp [keyAhead, textOf_ahead]

/-- An entry starts at the column of its mapping, and what it holds to the right of that, save for
block sequences. -/
theorem openEntry (h : c.Laid) (hspot : c.spot = .inMapping n) (hc : c.column = n)
    (hr : c.rest = l :: ls) (hl : l.kind ≠ space) (hs : Spaced c.rest)
    (hk : startsKey (l :: ls) = true) : (c.openEntry n).Placed := by
  rw [openEntry_of_colon (kind?_keyed hr hl hs hk)]
  have hentry : (c.push .entry).Laid :=
    h.push (by simp [Task.nodeKind, Spot.Admits, hspot, hc]) trivial
  obtain ⟨hkey, hkeyspot⟩ := hentry.takeKey hr hl hk
  have hvalue := ((hkey.takeSpaces.take 1).takeSpaces).push (t := .value) trivial trivial
  refine ⟨hvalue.await _, fun s hs => ?_⟩
  obtain rfl : (⟨n + 1, some n, false⟩ : Slot) = s := Option.some.inj hs
  refine ⟨n + 1, n, ?_, Nat.le_succ n, le_rfl, by simp, by simp⟩
  show (((c.push .entry).takeKey.takeSpaces.take 1).takeSpaces.push .value).spot = _
  simp [hkeyspot, hspot, Task.nodeKind, Spot.within]

/-! ## Places

Flow collections are admitted everywhere, block collections where the place suits them. -/

/-- A flow collection may stand anywhere. -/
theorem openFlow (h : c.Laid) (ht : k ∈ t.opener?) : ((c.push t).take 1).Laid := by
  cases t with
  | flowSequence => exact (h.push (t := .flowSequence) (.inl rfl) trivial).take 1
  | flowMapping => exact (h.push (t := .flowMapping) (.inl rfl) trivial).take 1
  | _ => cases ht

/-- What is left of a line is taken, or set aside as an error. -/
theorem finishLine (h : c.Laid) : c.finishLine.Laid := by
  dsimp only [Config.finishLine]
  split
  · exact h.take _
  · exact h.take _
  · exact (h.take _).errorLine _

/-- So is what stands behind an item or an entry in brackets. -/
theorem takeComma (h : c.Laid) (closer : TokenKind) (p : Problem) :
    (c.takeComma closer p).Laid := by
  unfold Config.takeComma
  split
  · exact h
  · split
    · exact h.take 1
    · split
      · exact h
      · exact h.errorToken _

/-- On a later line the place takes block collections, from the column that it asks for. -/
theorem awaitLater (h : c.Laid) {s : Slot} (hs : c.Suits s) (hl : significant c.rest = l :: ls)
    (hcolumn : s.minColumn ≤ l.column ∨ l.kind = dash ∧ s.dashColumn = some l.column) :
    (c.takeTrivia.await ⟨s.minColumn, none, true⟩).Placed := by
  obtain ⟨m, q, hspot, hqm, hmin, hwelcome, -⟩ := hs
  have hstart : l.column = c.takeTrivia.column :=
    h.takeTrivia.column_eq ((rest_takeTrivia c).trans hl)
  refine ⟨h.takeTrivia.await _, fun s' hs' => ?_⟩
  obtain rfl : (⟨s.minColumn, none, true⟩ : Slot) = s' := Option.some.inj hs'
  refine ⟨m, q, (spot_takeTrivia c).trans hspot, hqm, hmin, by simp, fun _ => ?_⟩
  show m ≤ c.takeTrivia.column ∨ q ≤ c.takeTrivia.column ∧ c.takeTrivia.kind? = some dash
  rcases hcolumn with hcolumn | ⟨hdash, hcolumn⟩
  · exact .inl (by omega)
  · exact .inr ⟨hstart ▸ hwelcome _ hcolumn, by rw [kind?_takeTrivia hl, hdash]⟩

/-- Its first item is at the column of the sequence. -/
theorem openSequence (h : c.Laid) {s : Slot} (hs : c.Suits s) (hr : c.rest = l :: ls)
    (hc : s.compact = true) (hk : l.kind = dash) :
    ((c.push (.sequence l.column)).openItem l.column).Placed := by
  obtain ⟨m, q, hspot, hqm, -, -, hcompact⟩ := hs
  have hcolumn := h.column_eq hr
  have hq : q ≤ c.column := (hcompact hc).elim (Nat.le_trans hqm) And.left
  have hpush : (c.push (.sequence l.column)).Laid := h.push (.inr ⟨m, q, hspot, hq⟩) hcolumn
  exact hpush.openItem (by simp [Task.nodeKind, Task.isBracketed, Spot.within, hcolumn])
    (by simp [hcolumn]) (hk ▸ kind?_of_rest hr)

/-- Its first entry is at the column of the mapping. -/
theorem openMapping (h : c.Laid) {s : Slot} (hs : c.Suits s) (hr : c.rest = l :: ls)
    (hc : s.compact = true) (hd : l.kind ≠ dash) (hl : l.kind ≠ space) (hspaced : Spaced c.rest)
    (hk : startsKey (l :: ls) = true) :
    ((c.push (.mapping l.column)).openEntry l.column).Placed := by
  obtain ⟨m, q, hspot, -, -, -, hcompact⟩ := hs
  have hcolumn := h.column_eq hr
  have hm : m ≤ c.column := (hcompact hc).resolve_right fun h =>
    hd (Option.some.inj ((kind?_of_rest hr).symm.trans h.2))
  have hpush : (c.push (.mapping l.column)).Laid := h.push (.inr ⟨m, q, hspot, hm⟩) hcolumn
  exact hpush.openEntry (by simp [Task.nodeKind, Task.isBracketed, Spot.within, hcolumn])
    (by simp [hcolumn]) hr hl hspaced hk

/-! ## Steps

A step fills a place, comes to one or closes a node. In each case the layout of what is built is
known from the lemmas above. -/

/-- Block collections are put only into places that they suit. -/
theorem fillsIn {q : Option Slot} {d : Config} (h : c.Laid) (hs : ∀ s ∈ q, c.Suits s)
    (hslot : c.slot = none) (hp : q ≠ none → c.pastSpaces) (hspaced : Spaced c.rest)
    (hf : FillsIn q c d) : d.Placed := by
  cases hf with
  | nothing => exact h.placed hslot
  | later _ _ hl _ hcolumn => exact h.awaitLater (hs _ rfl) hl hcolumn
  | sequence hr hc hk => exact h.openSequence (hs _ rfl) hr hc hk
  | mapping hr _ hc hd hk =>
    exact h.openMapping (hs _ rfl) hr hc hd (hp (by simp) _ (by simp [hr])) hspaced hk
  | collection _ ht => exact (h.openFlow ht).placed (by simp [hslot])
  | @plain s =>
    exact ((h.push (t := .plain s.minColumn) trivial trivial).take _).placed (by simp [hslot])
  | words => exact (h.wrap (.inl rfl) _).placed (by simp [hslot])
  | scalar => exact (h.wrap (.inl rfl) 1).placed (by simp [hslot])
  | block => exact (h.wrap (.inl rfl) 1).placed (by simp [hslot])
  | unterminated => exact ((h.report _).wrap (.inl rfl) 1).placed (by simp [hslot])
  | strayLine => exact (h.errorLine _).placed (by simp [hslot])
  | strayToken => exact (h.errorToken _).placed (by simp [hslot])

/-- Only collections have to show their brackets. -/
theorem closes {d : Config} (h : c.Laid) (hc : c.Holding t t.Settled) (ht : c.tasks = t :: ts)
    (hcl : Closes t c d) : d.Laid := by
  cases hcl with
  | node hk =>
    exact h.closeOther ht (by rcases hk with rfl | rfl | rfl | ⟨n, rfl⟩ <;> simp [Task.nodeKind])
  | mapping => exact h.closeSettled hc
  | sequence => exact h.closeSettled hc
  | document => exact h.takeTrivia.closeOther (by simpa using ht) (by simp [Task.nodeKind])
  | documentEnd =>
    exact (h.takeTrivia.take 1).finishLine.closeOther (by simpa using ht) (by simp [Task.nodeKind])
  | line hk =>
    exact h.finishLine.closeOther (by simpa using ht)
      (by rcases hk with rfl | rfl <;> simp [Task.nodeKind])
  | bracket _ hcl =>
    have htrivia := hc.takeTrivia (tolerant_settled (Task.nodeKind_of_closer hcl))
    have hend := htrivia.take 1 (Q := t.InStyle) fun us hus => by
      cases t with
      | flowSequence | flowMapping => exact BeginsWith.append hus.complete.2
      | _ => cases hcl
    exact (h.takeTrivia.take 1).closeStyled hend fun us hus => hus
  | unclosed hcl =>
    have htrivia := hc.takeTrivia (tolerant_settled (Task.nodeKind_of_closer hcl))
    exact (h.takeTrivia.report _).closeSettled (htrivia.report _)
  | key => exact (h.closeOther ht (by simp [Task.nodeKind])).takeTrivia
  | part hk =>
    exact (h.closeOther ht
      (by rcases hk with rfl | rfl <;> simp [Task.nodeKind])).takeTrivia.takeComma _ _

end Laid

namespace Placed

/-- At the start there is nothing, in column 0. -/
theorem start (t : Text) : (Config.start t).Placed := by
  refine ⟨⟨laidOutAll_nil, ⟨{}, lex t, rfl, rfl⟩, fun l hl => ?_⟩, by simp [Config.start]⟩
  have hmem : l.token ∈ (Config.start t).rest.map Lexeme.token := List.mem_map_of_mem hl
  rw [Config.start, Lexeme.map_token_locate] at hmem
  exact straight_of_mem_lexFrom hmem

/-- Between documents nothing is asked of a place. -/
theorem suits_document (hs : c.spot = .place 0 0) : c.Suits ⟨0, none, true⟩ :=
  ⟨0, 0, hs, le_rfl, le_rfl, by simp, fun _ => .inl (Nat.zero_le _)⟩

/-- Between documents nothing is asked of a tree. -/
theorem spot_of_tasks_nil (ht : c.tasks = []) : c.spot = .place 0 0 := by
  rw [spot, show c.frames = [] by simpa [tasks] using ht]
  rfl

/-- A place that the parser comes to suits its surroundings. -/
theorem opens {q : Option Slot} {e : Config} (h : c.Placed) (ho : Opens q c e) :
    e.Laid ∧ ∀ s ∈ q, e.Suits s := by
  have htrivia := h.laid.takeTrivia
  -- A block collection may stand in a document and below an entry or an item; in flow collections
  -- only flow nodes may.
  cases ho with
  | slot hs =>
    refine ⟨⟨h.laid.frames, h.laid.rest, h.laid.straight⟩, fun s hs' => ?_⟩
    obtain rfl := Option.some.inj hs'
    exact h.slot _ hs
  | document _ ht =>
    refine ⟨htrivia.push trivial trivial, fun s hs => ?_⟩
    obtain rfl := Option.some.inj hs
    exact suits_document (by simp [spot_of_tasks_nil ht, Task.nodeKind, Spot.within])
  | marked _ ht =>
    refine ⟨((htrivia.push (t := .document) trivial trivial).take 1).takeSpaces, fun s hs => ?_⟩
    obtain rfl := Option.some.inj hs
    exact suits_document (by simp [spot_of_tasks_nil ht, Task.nodeKind, Spot.within])
  | flowItem _ ht =>
    have hspot : c.takeTrivia.spot = .flow :=
      (spot_takeTrivia c).trans (h.laid.spot_bracketed ht rfl)
    exact ⟨htrivia.push (by simp [hspot, Task.nodeKind, Spot.Admits]) trivial, by simp⟩
  | flowEntry _ ht =>
    have hspot : c.takeTrivia.spot = .flow :=
      (spot_takeTrivia c).trans (h.laid.spot_bracketed ht rfl)
    have hentry :=
      htrivia.push (t := .flowEntry) (by simp [hspot, Task.nodeKind, Spot.Admits]) trivial
    exact ⟨hentry.push trivial trivial, by simp⟩
  | flowValue _ ht =>
    have hkey := (h.laid.closeOther ht (by simp [Task.nodeKind])).takeTrivia
    exact ⟨((hkey.take 1).takeTrivia).push trivial trivial, by simp⟩

/-- A step keeps the layout. -/
theorem step {d : Config} (h : c.Placed) (hc : c.Formed) (hd : c.step = some d) : d.Placed := by
  have htrivia := h.laid.takeTrivia
  cases acts_of_step hd with
  | fill ho hf =>
    obtain ⟨he, hsuits⟩ := h.opens ho
    exact (he.take _).fillsIn (fun s hs => (hsuits s hs).takeProperties he) (by simp [ho.slot_eq])
      (fun hq => (hc.pastSpaces_of_opens ho hq).takeProperties)
        ((hc.spaced.of_suffix ho.grows.rest).drop _) hf
  | marker hs => exact (htrivia.take 1).placed (by simp [hs])
  | stray hs => exact (htrivia.errorLine _).placed (by simp [hs])
  | entry _ ht hl _ hn hkey =>
    have hrest := (rest_takeTrivia c).trans hl
    exact htrivia.openEntry ((spot_takeTrivia c).trans (h.laid.spot_mapping ht))
      ((htrivia.column_eq hrest).symm.trans hn) hrest (ne_space_of_significant hl)
        (hc.spaced.drop _) hkey
  | item _ ht hl hn hk =>
    exact htrivia.openItem ((spot_takeTrivia c).trans (h.laid.spot_sequence ht))
      ((htrivia.column_eq ((rest_takeTrivia c).trans hl)).symm.trans hn) (hk ▸ kind?_takeTrivia hl)
  | plain hs => exact ((h.laid.take _).take _).placed (by simp [hs])
  | close hs ht hcl => exact (h.laid.closes (hc.settled hs ht) ht hcl).placed (hcl.slot_eq.trans hs)

/-- So it is kept all along a run. -/
theorem leads {d : Config} (h : c.Placed) (hc : c.Formed) (hd : Leads c d) : d.Placed :=
  (hd.keeps (P := fun c => c.Formed ∧ c.Placed)
    (fun h hstep => ⟨h.1.step hstep, h.2.step h.1 hstep⟩) ⟨hc, h⟩).2

end Placed

end Config

/-- Block structure follows indentation, on every text : all entries of a block mapping and all
items of a block sequence start at the column of the collection, a block collection under an
entry or an item starts to the right of it, or at it if a block sequence is the value of an
entry, and there are no block collections in flow collections. -/
theorem parse_laidOut (t : Text) : (parse t).tree.LaidOut (.place 0 0) 0 := by
  have h := ((Config.Placed.start t).leads (.start t) (.to_run _)).laid.frames
  rw [Config.frames_run] at h
  refine laidOut_node.mpr ⟨trivial, laidOutAll_append.mpr ⟨h, ?_⟩⟩
  have hrest : ((Config.start t).run.rest.map fun l => .token l.token) =
      ((Config.start t).run.rest.map Lexeme.token).map Tree.token := by simp
  rw [hrest]
  exact laidOutAll_tokens _

end YamlPatch
