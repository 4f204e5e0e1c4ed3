import YamlPatch.Proofs.Building

/-!
# Every node is built in its shape

A configuration that the parser comes to is `Config.Formed` : what is finished has its shape,
and so have the trees in the nodes under construction; each node waits for the one above it; and
the innermost one is settled, or a vacant place if there is a place to fill. Every step keeps
this (`Config.Formed.step`), so at the end of the run there is `parse_shaped` : on every text,
well formed or not, every node of the tree has the shape of its kind.

The invariant is stronger than what the tree shows in the end. It knows of each frame what is
still missing in it, so closing a node is no more than putting its tree into the one below,
where it is waited for. Two facts are about the tokens and not about the trees : a block
collection does not begin with a space, because the spaces before it have been taken
(`Config.pastSpaces`), and two tokens of spaces never follow each other (`Spaced`).
-/

namespace YamlPatch

open TokenKind YamlPatch.Tree

namespace Config

/-! ## Between two steps

Two things are known of spaces where a node begins : they have been taken, and no others follow. -/

/-- No space is next. -/
def pastSpaces (c : Config) : Prop := ∀ l ∈ c.rest.head?, l.kind ≠ space

/-- Behind a run of a kind there is no token of that kind. -/
theorem head?_dropWhile_ne {p : TokenKind → Bool} {k : TokenKind} (hk : p k = true)
    (ls : List Lexeme) : ∀ l ∈ (ls.dropWhile fun l => p l.kind).head?, l.kind ≠ k := by
  rintro l hl rfl
  have := List.head?_dropWhile_not (fun l : Lexeme => p l.kind) ls
  rw [Option.mem_def.mp hl] at this
  simp [hk] at this

/-- Behind the spaces there is no space. -/
theorem pastSpaces_takeSpaces (c : Config) : c.takeSpaces.pastSpaces := by
  have hrest : c.takeSpaces.rest = c.rest.dropWhile fun l => l.kind == space := drop_kindRun _ _
  rw [pastSpaces, hrest]
  exact head?_dropWhile_ne (p := (· == space)) (by simp) c.rest

/-- Behind the trivia there is none either. -/
theorem pastSpaces_takeTrivia (c : Config) : c.takeTrivia.pastSpaces := by
  rw [pastSpaces, rest_takeTrivia]
  exact head?_dropWhile_ne (p := isTrivia) rfl c.rest

/-- Anchors and tags are taken with the spaces behind them. -/
theorem pastSpaces.takeProperties {c : Config} (h : c.pastSpaces) :
    (c.take (propertiesLength c.rest)).pastSpaces := by
  rw [pastSpaces, rest_take, drop_propertiesLength h]
  exact head?_dropWhile_ne (p := fun k => k.isProperty || k == space) (by simp) c.rest

/-- What the parser has built between two steps. -/
inductive Formed (c : Config) : Prop where
  | stream (hs : c.slot = none) (h : c.Between)
  | node (hs : c.slot = none) (h : c.Resting)
  | place {t : Task} {s : Slot} (hs : c.slot = some s) (ht : t.isPlace = true) (hc : c.pastSpaces)
      (h : c.Holding t t.Vacant)

namespace Holding

variable {c : Config} {t : Task} {P : List Tree → Prop} {l : Lexeme} {ls : List Lexeme}

/-! ## Block collections

An item begins with its indicator, and an entry with its key, which the parser has seen before
it opens the entry. So both are in block style, and the entry is sure to get its colon. -/

/-- An item may be opened in a sequence that waits for one. -/
theorem openItem (h : c.Holding t P) (ht : ∀ us, P us → t.Awaits .item us)
    (hk : c.kind? = some dash) (column : Nat) : (c.openItem column).Formed := by
  obtain ⟨x, hx, hdash⟩ := ahead_one (c := c.push .item) hk
  have hitem : ((c.push .item).take 1).Holding .item Task.item.Vacant := by
    refine (h.push ht).take 1 ?_
    rintro _ rfl
    rw [hx, List.nil_append]
    exact Task.vacant_dash hdash
  exact .place rfl rfl (pastSpaces_takeSpaces _) ((hitem.takeSpaces tolerant_vacant).await _)

/-- The scalar of a key. -/
theorem isScalar_keyLength {ks : List Lexeme} (hk : l.kind.isQuoted = true ∨
    l.kind.isQuoted = false ∧ l.kind.isPlain = true) (hr : c.rest = l :: ks) :
    IsScalar (c.ahead (keyLength c.rest)) := by
  rcases hk with hq | ⟨hq, hp⟩
  · have hone : keyLength c.rest = 1 := by simp [hr, keyLength, hq]
    rw [hone]
    exact isScalar_one (k := l.kind) (by simp [Config.kind?, hr]) (by
      revert hq
      cases l.kind <;> simp [isQuoted, standsAlone])
  · have hlen : keyLength c.rest = plainLength c.rest := by simp [hr, keyLength, hq, hp]
    rw [hlen]
    exact ⟨_, ahead_eq c _, .inr (isWords_ahead (k := l.kind) (by simp [Config.kind?, hr]) hp)⟩

/-- The key that lies ahead is a place with a scalar in it. -/
theorem every_keyAhead (hr : c.rest = l :: ls) (hl : l.kind ≠ space)
    (hk : startsKey (l :: ls) = true) : c.keyAhead.Every Shaped := by
  obtain ⟨k, ks, hks, h⟩ := exists_scalar_of_startsKey hl hk
  have hscalar : IsScalar ((c.take (propertiesLength c.rest)).ahead
      (keyLength (c.take (propertiesLength c.rest)).rest)) :=
    isScalar_keyLength (h.imp And.left fun h => ⟨h.1, h.2.1⟩) (by rw [rest_take, hr, hks])
  have hproperties : IsPlace (c.ahead (propertiesLength c.rest)) :=
    ⟨by rw [ahead_eq]; exact .of_tokens _, by rw [countP_ahead fun _ => rfl]; exact Nat.zero_le 1⟩
  refine every_node.mpr ⟨hproperties.concat ?_ rfl, ?_⟩
  · intro t ht
    obtain ⟨l, -, rfl⟩ := List.mem_map.mp ht
    rfl
  · exact everyOf_append.mpr ⟨shaped_ahead c _,
      by simpa [every_node] using ⟨hscalar, shaped_ahead _ _⟩⟩

/-- The key that lies ahead has its scalar. -/
theorem hasKeyScalars_keyAhead (c : Config) : HasKeyScalars [c.keyAhead] := by
  intro t ht _
  obtain rfl : t = c.keyAhead := by simpa using ht
  rw [keyAhead, children, List.countP_append, countP_ahead fun _ => rfl]
  rfl

/-- An entry that begins with a key is in block style. -/
theorem beginsBlock_keyAhead (c : Config) : BeginsBlock [c.keyAhead] := by
  refine ⟨_, [], rfl, ?_⟩
  have hquiet : ∀ x ∈ c.keyAhead.leaves, x.kind.isQuiet = true := by
    intro x hx
    simp only [keyAhead, leaves, leavesOf_append, leavesOf, leavesOf_ahead, List.append_nil,
      List.mem_append, List.mem_map] at hx
    rcases hx with ⟨l, hl, rfl⟩ | ⟨l, hl, rfl⟩
    · rcases mem_take_propertiesLength l hl with h | h
      · exact isQuiet_of_isProperty _ h
      · rw [show l.token.kind = space from h]
        rfl
    · exact mem_take_keyLength l hl
  unfold Tree.isFlow
  split
  · rename_i x hx
    obtain ⟨xs, hxs⟩ := c.keyAhead.exists_leaves hx
    have := hquiet x (by simp [hxs])
    revert this
    cases x.kind <;> simp [isQuiet]
  · rfl

/-- An entry may be opened in a mapping that waits for one, at a key. There is no space before
the key, so the entry begins with it. -/
theorem openEntry (h : c.Holding t P) (ht : ∀ us, P us → t.Awaits .entry us) (hr : c.rest = l :: ls)
    (hl : l.kind ≠ space) (hk : startsKey (l :: ls) = true) (column : Nat) :
    (c.openEntry column).Formed := by
  rw [openEntry_of_colon (kind?_keyed hr hl h.spaced hk)]
  have hcolon := kind?_keyed hr hl h.spaced hk
  -- What the entry holds so far : its parts, of which `m` are colons, a key with a scalar, and a
  -- beginning in block style.
  let Q (m : Nat) (us : List Tree) : Prop := EntryParts m 0 us ∧ HasKeyScalars us ∧ BeginsBlock us
  have hQ (m : Nat) : Tolerant (Q m) := fun us ts h hts =>
    ⟨h.1.append_loose hts, h.2.1.append_loose hts, h.2.2.append⟩
  have hkey : (c.push .entry).takeKey.Holding .entry (Q 0) := by
    rw [takeKey_of_startsKey (m := c.push .entry) hr hl hk]
    refine Holding.withRest (P := Q 0) ?_ ?_
    · refine (h.push ht).add (by simpa using every_keyAhead (c := c.push .entry) hr hl hk) ?_
      rintro _ rfl
      exact ⟨.of_key _, hasKeyScalars_keyAhead _, beginsBlock_keyAhead _⟩
    · rw [rest_takeKey]
      exact (h.spaced.drop _).drop _
  have hkeyed : c.keyed.Holding .entry (Q 0) := hkey.takeSpaces (hQ 0)
  have hcolon : (c.keyed.take 1).Holding .entry (Q 1) := by
    obtain ⟨x, hx, hcolon⟩ := ahead_one hcolon
    refine hkeyed.take 1 fun us hus => ?_
    rw [hx]
    exact ⟨hus.1.concat_colon hcolon, hus.2.1.append (by simp [isNode, Tree.kind?]), hus.2.2.append⟩
  have hvalue := (hcolon.takeSpaces (hQ 1)).push (u := .value) fun us hus =>
    Task.entry_awaits hus.1 hus.2.1 hus.2.2
  refine .place rfl rfl ?_ ((hvalue.mono ?_).await _)
  · exact pastSpaces_takeSpaces _
  · rintro _ rfl
    exact Task.vacant_nil (.inr (.inl rfl))

/-! ## Places

All that can be put into a place is content or what the place waits for, and it is the same
whether the place is a document, a value or an item. -/

/-- A vacant place is filled with what fits into it. -/
theorem fillsIn {q : Option Slot} {d : Config} (h : c.Holding t t.Vacant) (hp : t.takes q = true)
    (hs : c.slot = none) (hc : q ≠ none → c.pastSpaces) (hf : FillsIn q c d) : d.Formed := by
  cases hf with
  | nothing => exact .node hs h.vacant_resting
  | later => exact .place rfl hp (pastSpaces_takeTrivia c) ((h.takeTrivia tolerant_vacant).await _)
  | @sequence _ _ l _ hr _ hk =>
    have hpush := h.push (u := .sequence l.column) fun _ hus => hus.awaits hp rfl
    exact hpush.openItem (fun us hus => Task.sequence_awaits (.inl hus)) (hk ▸ kind?_of_rest hr) _
  | @mapping _ _ l _ hr _ _ _ hkey =>
    have hpush := h.push (u := .mapping l.column) fun _ hus => hus.awaits hp rfl
    exact hpush.openEntry (fun us hus => Task.mapping_awaits (.inl hus)) hr
      (hc (by simp) l (by simp [hr])) hkey _
  | collection hk ht => exact .node (by simp [hs]) (h.openFlow hk ht)
  | plain hk hplain => exact .node (by simp [hs]) (h.openPlain hp hk hplain _)
  | words hk hplain =>
    exact .node (by simp [hs]) (h.wrapScalar ⟨_, ahead_eq c _, .inr (isWords_ahead hk hplain)⟩)
  | scalar hk hq =>
    exact .node (by simp [hs]) (h.wrapScalar (isScalar_one hk (standsAlone_of_isQuoted hq)))
  | block hk => exact .node (by simp [hs]) (h.wrapScalar (isScalar_one hk rfl))
  | unterminated hk => exact .node (by simp [hs]) ((h.report _).wrapScalar (isScalar_one hk rfl))
  | strayLine => exact .node (by simp [hs]) (h.errorLine tolerant_vacant _).vacant_resting
  | strayToken => exact .node (by simp [hs]) (h.errorToken tolerant_vacant _).vacant_resting

/-! ## Closing

When a node is closed the one around it has waited for it, and is settled again. -/

/-- Closing a node that is no document leaves one that could be closed, and that is no scalar. -/
theorem close_resting (h : c.Holding t t.Complete) (ht : t ≠ .document) :
    ∃ u : Task, u.nodeKind ≠ .scalar ∧ c.close.Holding u u.Settled := by
  obtain ⟨u, hu, hclose⟩ := h.close_of_holds ht
  refine ⟨u, ?_, hclose⟩
  intro hscalar
  cases u with
  | plain => cases t <;> cases hu
  | _ => cases hscalar

/-- Closing a complete node settles the one around it. -/
theorem formed_close (h : c.Holding t t.Complete) (ht : t ≠ .document) (hs : c.slot = none) :
    c.close.Formed := by
  obtain ⟨u, -, hu⟩ := h.close_resting ht
  exact .node (by simp [hs]) hu.resting

/-- The bracket of a flow collection is taken, and the collection closed. -/
theorem close_closer (h : c.Holding t t.Settled) {k : TokenKind} (hk : c.kind? = some k)
    (hc : k ∈ t.closer?) (hs : c.slot = none) : (c.take 1).close.Formed := by
  obtain ⟨x, hx, rfl⟩ := ahead_one hk
  refine formed_close (t := t) (h.take 1 fun us hus => ?_) ?_ (by simp [hs])
  · rw [hx]
    exact hus.complete.append_closer hc
  · rintro rfl
    cases hc

/-- A settled node may be closed in all the ways in which the parser does so. -/
theorem closes {d : Config} (h : c.Holding t t.Settled) (hs : c.slot = none) (hcl : Closes t c d) :
    d.Formed := by
  cases hcl with
  | node hk =>
    rcases hk with rfl | rfl | rfl | ⟨n, rfl⟩
    · exact .stream (by simp [hs]) h.complete.close_document
    · exact h.complete.formed_close (by simp) hs
    · exact h.complete.formed_close (by simp) hs
    · exact h.complete.formed_close (by simp) hs
  | mapping => exact h.complete.formed_close (by simp) hs
  | sequence => exact h.complete.formed_close (by simp) hs
  | document =>
    exact .stream (by simp [hs])
      (h.takeTrivia (tolerant_settled (by simp [Task.nodeKind]))).complete.close_document
  | @documentEnd _ l _ hl hk =>
    have hT : Tolerant Task.document.Settled := tolerant_settled (by simp [Task.nodeKind])
    have hend := (h.takeTrivia hT).takeOne hT (kind?_takeTrivia hl) (by rw [hk]; rfl)
    exact .stream (by simp [hs]) (hend.finishLine hT).complete.close_document
  | line hk =>
    have hT : Tolerant t.Settled :=
      tolerant_settled (by rcases hk with rfl | rfl <;> simp [Task.nodeKind])
    exact (h.finishLine hT).complete.formed_close (by rcases hk with rfl | rfl <;> simp)
      (by simp [hs])
  | bracket hk hc =>
    exact (h.takeTrivia (tolerant_settled (Task.nodeKind_of_closer hc))).close_closer hk hc
      (by simp [hs])
  | unclosed hc =>
    have htrivia := h.takeTrivia (tolerant_settled (Task.nodeKind_of_closer hc))
    exact (htrivia.report _).complete.formed_close (by rintro rfl; cases hc) (by simp [hs])
  | key =>
    refine .node (by simp [hs]) ⟨.flowEntry,
      (h.complete.close_key.takeTrivia tolerant_parts).mono fun us hus => ?_⟩
    exact Task.Complete.settled ⟨⟨0, by simp, hus⟩, trivial⟩ rfl
  | part hk =>
    -- after an item or an entry of a flow collection comes a comma
    obtain ⟨u, hu, hclose⟩ := h.complete.close_resting (by rcases hk with rfl | rfl <;> simp)
    have hT := tolerant_settled hu
    exact .node (by simp [hs]) ((hclose.takeTrivia hT).takeComma hT _ _).resting

/-- The words on a later line go on with a plain scalar. -/
theorem continues {m n : Nat} (h : c.Holding (.plain m) (Task.plain m).Settled)
    (hn : continuation m c.rest = some n) :
    ((c.take n).take (plainLength (c.take n).rest)).Resting := by
  obtain ⟨hgap, l, ls, hl, hp⟩ := of_continuation hn
  have hwords := isWords_ahead (c := c.take n) (k := l.kind) (by simp [Config.kind?, hl]) hp
  have htake :=
    h.take n (Q := fun us => ∃ xs ys : List Token, us = (xs ++ ys).map token ∧ IsWords xs ∧
      ∀ x ∈ ys, isGap x.kind = true) ?_
  · refine ⟨.plain m, htake.take _ ?_⟩
    rintro _ ⟨xs, ys, rfl, hxs, hys⟩
    have hall := hxs.append hys hwords
    rw [ahead_eq, ← List.map_append]
    exact Task.Complete.settled ⟨⟨_, rfl, .inr hall⟩, _, rfl, hall⟩ rfl
  · rintro _ ⟨⟨-, xs, rfl, hxs⟩, -⟩
    refine ⟨xs, (c.rest.take n).map Lexeme.token,
      by rw [ahead_eq, List.map_append], hxs, fun x hx => ?_⟩
    obtain ⟨m, hm, rfl⟩ := List.mem_map.mp hx
    rw [hgap] at hm
    exact mem_take_kindRun m hm

end Holding

namespace Between

variable {c : Config}

/-- Between documents tokens go into the stream. -/
theorem take (h : c.Between) (n : Nat) : (c.take n).Between := by
  have htake :
      c.take n = { c with finished := c.finished ++ c.ahead n, rest := c.rest.drop n } := by
    simp [Config.take, Config.add, h.frames]
  rw [htake]
  obtain ⟨hstream, hfinished⟩ := every_node.mp h.finished
  refine ⟨every_node.mpr ⟨HoldsOnly.append hstream ?_,
    everyOf_append.mpr ⟨hfinished, shaped_ahead c n⟩⟩, h.spaced.drop n, h.frames⟩
  rw [ahead_eq]
  exact .of_tokens _

/-- A document is a vacant place. -/
theorem push_document (h : c.Between) : (c.push .document).Holding .document Task.document.Vacant :=
  ⟨h.finished, h.spaced, [], [],
    by simp [Config.push, h.frames], Task.vacant_nil (.inl rfl), everyOf_nil, rfl⟩

end Between

namespace Formed

variable {c d : Config} {t : Task} {ts : List Task} {q : Option Slot}

/-- Two tokens of spaces never follow each other. -/
theorem spaced (h : c.Formed) : Spaced c.rest := by
  cases h with
  | stream _ h => exact h.spaced
  | node _ h => exact h.choose_spec.spaced
  | place _ _ _ h => exact h.spaced

/-- Without tasks no node is under construction. -/
theorem between (h : c.Formed) (ht : c.tasks = []) : c.Between := by
  have hno {t : Task} {P : List Tree → Prop} (h : c.Holding t P) : False := by
    obtain ⟨us, fs, hf, -⟩ := h.frames
    simp [tasks, hf] at ht
  cases h with
  | stream _ h => exact h
  | node _ h => exact (hno h.choose_spec).elim
  | place _ _ _ h => exact (hno h).elim

/-- A node that is the innermost one when no place waits to be filled is settled. -/
theorem settled (h : c.Formed) (hs : c.slot = none) (ht : c.tasks = t :: ts) :
    c.Holding t t.Settled := by
  cases h with
  | stream _ h => simp [tasks, h.frames] at ht
  | node _ h =>
    obtain ⟨u, h⟩ := h
    obtain ⟨us, fs, hf, -⟩ := h.frames
    obtain rfl : u = t := by simpa [tasks, hf] using congrArg List.head? ht
    exact h
  | place hs' => simp [hs] at hs'

/-- The spaces before what fills a place were taken before. -/
theorem pastSpaces_of_opens (h : c.Formed) (ho : Opens q c d) (hq : q ≠ none) : d.pastSpaces := by
  cases ho with
  | slot hs =>
    cases h with
    | place _ _ hp _ => exact hp
    | stream hs' => simp [hs] at hs'
    | node hs' => simp [hs] at hs'
  | document => exact pastSpaces_takeTrivia c
  | marked => exact pastSpaces_takeSpaces _
  | _ => exact absurd rfl hq

/-- A place that the parser comes to is vacant. -/
theorem opens (h : c.Formed) (ho : Opens q c d) :
    ∃ t : Task, t.takes q = true ∧ d.Holding t t.Vacant := by
  have hempty {t : Task} (ht : t = .document ∨ t = .value ∨ t.isFlowPlace = true) (us : List Tree)
      (hus : us = []) : t.Vacant us := hus ▸ Task.vacant_nil ht
  -- What the innermost node holds before the place is opened is known in each case, and the place
  -- itself is empty.
  cases ho with
  | slot hs =>
    cases h with
    | place _ ht _ h => exact ⟨_, ht, h.finished, h.spaced, h.frames⟩
    | stream hs' => simp [hs] at hs'
    | node hs' => simp [hs] at hs'
  | document _ ht => exact ⟨.document, rfl, ((h.between ht).take _).push_document⟩
  | marked _ ht hl hk =>
    have hdocument :=
      (((h.between ht).take _).push_document).takeOne tolerant_vacant (kind?_takeTrivia hl)
      (by rw [hk]; rfl)
    exact ⟨.document, rfl, hdocument.takeSpaces tolerant_vacant⟩
  | flowItem hs ht =>
    have htrivia := (h.settled hs ht).takeTrivia (tolerant_settled (by simp [Task.nodeKind]))
    exact ⟨.flowItem, rfl,
      (htrivia.push fun _ => Task.flowSequence_awaits).mono (hempty (.inr (.inr rfl)))⟩
  | flowEntry hs ht =>
    have htrivia := (h.settled hs ht).takeTrivia (tolerant_settled (by simp [Task.nodeKind]))
    have hentry := htrivia.push (u := .flowEntry) fun _ => Task.flowMapping_awaits
    exact ⟨.key, rfl,
      (hentry.push fun _ hus => hus ▸ Task.flowEntry_awaits_key).mono (hempty (.inr (.inr rfl)))⟩
  | flowValue hs ht hk =>
    have hentry := (h.settled hs ht).complete.close_key.takeTrivia tolerant_parts
    have hcolon : (c.close.takeTrivia.take 1).Holding .flowEntry (EntryParts 1 0) := by
      obtain ⟨x, hx, hcolon⟩ := ahead_one hk
      exact hentry.take 1 fun us hus => by rw [hx]; exact hus.concat_colon hcolon
    exact ⟨.flowValue, rfl,
      ((hcolon.takeTrivia tolerant_parts).push fun _ => Task.flowEntry_awaits_value).mono
      (hempty (.inr (.inr rfl)))⟩

/-- At the start nothing is. -/
theorem start (t : Text) : (Config.start t).Formed :=
  .stream rfl ⟨every_node.mpr ⟨by simp [Shaped, HoldsOnly, Config.start], everyOf_nil⟩,
    spaced_start t, rfl⟩

/-- A step keeps the shapes. -/
theorem step (h : c.Formed) (hd : c.step = some d) : d.Formed := by
  cases acts_of_step hd with
  | fill ho hf =>
    obtain ⟨t, hp, he⟩ := h.opens ho
    exact (he.takeProperties tolerant_vacant).fillsIn hp (by simp [ho.slot_eq])
      (fun hq => (h.pastSpaces_of_opens ho hq).takeProperties) hf
  | marker hs ht => exact .stream (by simp [hs]) (((h.between ht).take _).take 1)
  | @stray _ t _ _ _ _ hs ht hk =>
    have hT : Tolerant t.Settled :=
      tolerant_settled (by rcases hk with rfl | ⟨n, rfl⟩ | ⟨n, rfl⟩ <;> simp [Task.nodeKind])
    exact .node (by simp [hs]) (((h.settled hs ht).takeTrivia hT).errorLine hT _).resting
  | entry hs ht hl _ _ hkey =>
    have htrivia := (h.settled hs ht).takeTrivia (tolerant_settled (by simp [Task.nodeKind]))
    exact htrivia.openEntry (fun us hus => Task.mapping_awaits (.inr hus))
      ((rest_takeTrivia c).trans hl) (ne_space_of_significant hl) hkey _
  | item hs ht hl _ hk =>
    have htrivia := (h.settled hs ht).takeTrivia (tolerant_settled (by simp [Task.nodeKind]))
    exact htrivia.openItem (fun us hus => Task.sequence_awaits (.inr hus))
      (hk ▸ kind?_takeTrivia hl) _
  | plain hs ht hn => exact .node (by simp [hs]) ((h.settled hs ht).continues hn)
  | close hs ht hcl => exact (h.settled hs ht).closes hs hcl

/-- So they are kept all along a run. -/
theorem leads (h : c.Formed) (hd : Leads c d) : d.Formed := hd.keeps step h

end Formed

end Config

/-- What is left between documents belongs to the stream. -/
theorem Config.Between.stream_eq {c : Config} (h : c.Between) :
    c.stream = .node .stream (c.take c.rest.length).finished := by
  simp [stream, Config.take, Config.add, h.frames, ahead]

/-- On every text, well formed or not, the tree is a stream and every node in it has the shape
of its kind. -/
theorem parse_shaped (t : Text) :
    (parse t).tree.isNode .stream = true ∧ (parse t).tree.Every Shaped := by
  have hframes := Config.frames_run (Config.start t)
  have hopen {u : Task} {P : List Tree → Prop} : ¬ (Config.start t).run.Holding u P := fun h => by
    obtain ⟨ts, fs, hf, -⟩ := h.frames
    simp [hf] at hframes
  refine ⟨rfl, ?_⟩
  cases (Config.Formed.start t).leads (.to_run _) with
  | stream hs h =>
    show (Config.stream _).Every Shaped
    rw [h.stream_eq]
    exact (h.take _).finished
  | node hs h =>
    obtain ⟨u, h⟩ := h
    exact absurd h hopen
  | place hs ht hc h => exact absurd h hopen

end YamlPatch
