import YamlPatch.Tree.Parser

/-!
# Every step of the parser makes progress

A step takes a token, closes a node or settles a place that was to be filled. What it opens is
paid for by the tokens it takes : `Config.measure` counts eight for each token left, one for
each open node and one for a place to fill, and goes down in every step (`Config.measure_step`).
The work is in the steps that open nodes : each of them takes at least one token, because the
token ahead is one that the node can start with.

Eight is enough for the dearest token. The key of an entry may open a mapping, an entry, its value
and a place to fill, and there may be a document to open around them. A lemma about a function
says by how much the measure goes down, and not only that it does : `measure_openItem` leaves six
of the eight for the functions that call it, `measure_openEntry` five, and `measure_fillContent`
four for a document.
-/

namespace YamlPatch

open TokenKind

namespace Config

/-! ## What the moves change

Each function of the parser changes few of the fields that are counted. The lemmas below are for
`simp` : tokens are dropped from those that are left, opening adds a node, and the others keep
the number of nodes and the place to be filled. -/

@[simp] theorem rest_add (c : Config) (ts : List Tree) : (c.add ts).rest = c.rest := by
  unfold add; split <;> rfl

@[simp] theorem slot_add (c : Config) (ts : List Tree) : (c.add ts).slot = c.slot := by
  unfold add; split <;> rfl

@[simp] theorem length_frames_add (c : Config) (ts : List Tree) :
    (c.add ts).frames.length = c.frames.length := by
  unfold add; split <;> simp_all

@[simp] theorem rest_take (c : Config) (n : Nat) : (c.take n).rest = c.rest.drop n := rfl

/-- Taking no tokens is doing nothing. -/
theorem take_zero (c : Config) : c.take 0 = c := by
  obtain ⟨finished, frames, slot, rest, faults, finish⟩ := c
  cases frames <;> simp [take, add, ahead]

@[simp] theorem rest_wrap (c : Config) (k : NodeKind) (n : Nat) :
    (c.wrap k n).rest = c.rest.drop n := rfl

@[simp] theorem rest_takeTrivia (c : Config) : c.takeTrivia.rest = significant c.rest :=
  drop_triviaLength c.rest

@[simp] theorem rest_push (c : Config) (t : Task) : (c.push t).rest = c.rest := rfl

@[simp] theorem rest_report (c : Config) (p : Problem) : (c.report p).rest = c.rest := rfl

@[simp] theorem rest_close (c : Config) : c.close.rest = c.rest := by
  unfold close; split <;> simp

@[simp] theorem length_frames_take (c : Config) (n : Nat) :
    (c.take n).frames.length = c.frames.length := length_frames_add c _

@[simp] theorem length_frames_takeTrivia (c : Config) :
    c.takeTrivia.frames.length = c.frames.length := length_frames_take c _

@[simp] theorem length_frames_wrap (c : Config) (k : NodeKind) (n : Nat) :
    (c.wrap k n).frames.length = c.frames.length := length_frames_add c _

@[simp] theorem length_frames_push (c : Config) (t : Task) :
    (c.push t).frames.length = c.frames.length + 1 := rfl

@[simp] theorem length_frames_report (c : Config) (p : Problem) :
    (c.report p).frames.length = c.frames.length := rfl

@[simp] theorem length_frames_errorLine (c : Config) (p : Problem) :
    (c.errorLine p).frames.length = c.frames.length := length_frames_wrap _ _ _

@[simp] theorem length_frames_finishLine (c : Config) :
    c.finishLine.frames.length = c.frames.length := by
  dsimp only [finishLine]
  split <;> simp

/-! ## The measure

A move either takes tokens, and then the measure goes down by eight for each, or it changes the
measure by one at most. -/

/-- Eight for each token left, one for each open node, one for a place to fill. -/
def measure (c : Config) : Nat :=
  8 * c.rest.length + c.frames.length + c.slot.elim 0 fun _ => 1

/-- Taking tokens pays eight for each of them, as long as there are any. -/
theorem measure_take (c : Config) (n : Nat) :
    (c.take n).measure + 8 * min n c.rest.length = c.measure := by
  simp only [measure, take, List.length_drop, length_frames_add, slot_add]
  omega

/-- A node around tokens is closed at once, so only the tokens count. -/
theorem measure_wrap (c : Config) (k : NodeKind) (n : Nat) :
    (c.wrap k n).measure + 8 * min n c.rest.length = c.measure := by
  simp only [measure, wrap, List.length_drop, length_frames_add, slot_add]
  omega

/-- A node that is opened costs one. -/
@[simp] theorem measure_push (c : Config) (t : Task) : (c.push t).measure = c.measure + 1 := by
  dsimp only [measure, push, List.length_cons]
  omega

@[simp] theorem measure_report (c : Config) (p : Problem) : (c.report p).measure = c.measure := rfl

/-- A node that is closed pays one; between documents there is none. -/
theorem measure_close (c : Config) : c.close.measure + min 1 c.frames.length = c.measure := by
  unfold close
  split
  · simp_all
  · simp_all only [measure, rest_add, length_frames_add, slot_add, List.length_cons]
    omega

/-- A place to be filled costs one at most, since there is never more than one. -/
theorem measure_await_le (c : Config) (s : Slot) : (c.await s).measure ≤ c.measure + 1 := by
  dsimp only [measure, await]
  cases c.slot <;> simp

/-- Taking tokens costs nothing. -/
theorem measure_take_le (c : Config) (n : Nat) : (c.take n).measure ≤ c.measure := by
  have := measure_take c n
  omega

theorem measure_takeTrivia_le (c : Config) : c.takeTrivia.measure ≤ c.measure :=
  measure_take_le c _

theorem measure_takeSpaces_le (c : Config) : c.takeSpaces.measure ≤ c.measure :=
  measure_take_le c _

/-- Taking part of what is left pays eight. -/
theorem measure_take_of_pos {c : Config} {n : Nat} (hn : 0 < n) (hc : c.rest ≠ []) :
    (c.take n).measure + 8 ≤ c.measure := by
  have := measure_take c n
  have := List.length_pos_iff.mpr hc
  omega

/-- A node around at least one token pays eight. -/
theorem measure_wrap_of_pos {c : Config} {n : Nat} (k : NodeKind) (hn : 0 < n) (hc : c.rest ≠ []) :
    (c.wrap k n).measure + 8 ≤ c.measure := by
  have := measure_wrap c k n
  have := List.length_pos_iff.mpr hc
  omega

theorem measure_wrap_le (c : Config) (k : NodeKind) (n : Nat) :
    (c.wrap k n).measure ≤ c.measure := by
  have := measure_wrap c k n
  omega

theorem measure_errorLine_le (c : Config) (p : Problem) : (c.errorLine p).measure ≤ c.measure :=
  measure_wrap_le (c.report p) _ _

/-- Text that fits nowhere pays for itself if there is any of it on this line. -/
theorem measure_errorLine {c : Config} {l : Lexeme} {ls : List Lexeme} (hc : c.rest = l :: ls)
    (hl : l.kind ≠ lineBreak) (p : Problem) : (c.errorLine p).measure + 8 ≤ c.measure :=
  measure_wrap_of_pos (c := c.report p) _
    (by rw [hc]; exact kindRun_pos (by simpa using hl)) (by simp [hc])

/-- A token that fits nowhere pays for itself. -/
theorem measure_errorToken {c : Config} (hc : c.rest ≠ []) (p : Problem) :
    (c.errorToken p).measure + 8 ≤ c.measure :=
  measure_wrap_of_pos (c := c.report p) _ Nat.one_pos hc

theorem measure_finishLine_le (c : Config) : c.finishLine.measure ≤ c.measure := by
  dsimp only [finishLine]
  split
  · exact measure_take_le c _
  · exact measure_take_le c _
  · exact Nat.le_trans (measure_errorLine_le _ _) (measure_take_le c _)

/-! ## Block collections

An item or an entry is opened together with the place in it, and both are paid for by the token
that begins it. -/

/-- The indicator pays for the item and its place, and six are left. -/
theorem measure_openItem {c : Config} (hc : c.rest ≠ []) (column : Nat) :
    (c.openItem column).measure + 6 ≤ c.measure := by
  have h1 := measure_await_le ((c.push .item).take 1).takeSpaces ⟨column + 1, none, true⟩
  have h2 := measure_takeSpaces_le ((c.push .item).take 1)
  have h3 := measure_take_of_pos (c := c.push .item) Nat.one_pos hc
  simp only [measure_push] at h3
  unfold openItem
  omega

@[simp] theorem slot_take (c : Config) (n : Nat) : (c.take n).slot = c.slot := slot_add c _

theorem measure_takeColon_le (c : Config) : c.takeColon.measure ≤ c.measure := by
  unfold takeColon
  split
  · exact measure_take_le c 1
  · exact Nat.le_of_eq (measure_report c _)

@[simp] theorem rest_takeKey (c : Config) : c.takeKey.rest =
    (c.rest.drop (propertiesLength c.rest)).drop
      (keyLength (c.rest.drop (propertiesLength c.rest))) := by
  dsimp only [takeKey]
  split <;> simp_all

/-- A key closes the node it opens, so it pays for every token it takes. -/
theorem measure_takeKey (c : Config) :
    c.takeKey.measure + 8 * min (propertiesLength c.rest +
      keyLength (c.rest.drop (propertiesLength c.rest))) c.rest.length ≤ c.measure := by
  have h1 := measure_take (c.push .key) (propertiesLength c.rest)
  simp only [measure_push, rest_push] at h1
  dsimp only [takeKey]
  split
  · have h2 := measure_close ((c.push .key).take (propertiesLength c.rest))
    simp_all only [rest_push, rest_take, length_frames_take, length_frames_push]
    omega
  · have h2 := measure_wrap ((c.push .key).take (propertiesLength c.rest)) .scalar
      (keyLength (c.rest.drop (propertiesLength c.rest)))
    have h3 := measure_close (((c.push .key).take (propertiesLength c.rest)).wrap .scalar
      (keyLength (c.rest.drop (propertiesLength c.rest))))
    simp only [rest_push, rest_take, List.length_drop, length_frames_wrap, length_frames_take,
      length_frames_push] at h2 h3 ⊢
    omega

/-- A key has at least one token, which pays for the entry, its value and the place. Five are
left. -/
theorem measure_openEntry {c : Config} {l : Lexeme} {ls : List Lexeme} (hc : c.rest = l :: ls)
    (hk : startsKey (l :: ls) = true) (column : Nat) :
    (c.openEntry column).measure + 5 ≤ c.measure := by
  have hkey : (c.push .entry).takeKey.takeSpaces.measure + 8 ≤ (c.push .entry).measure := by
    have h1 := measure_takeKey (c.push .entry)
    have h2 := measure_take (c.push .entry).takeKey (spacesLength (c.push .entry).takeKey.rest)
    have h3 : (c.push .entry).takeKey.takeSpaces =
        (c.push .entry).takeKey.take (spacesLength (c.push .entry).takeKey.rest) := rfl
    have h4 := startsKey_pos hk
    rw [h3]
    simp only [rest_takeKey, rest_push, hc, List.length_drop, List.length_cons] at h1 h2 ⊢
    by_cases hp : propertiesLength (l :: ls) = 0
    · rw [hp, List.drop_zero] at h1 h2 ⊢
      by_cases hn : keyLength (l :: ls) = 0
      · simp only [hn, List.drop_zero] at h1 h2 ⊢
        omega
      · omega
    · omega
  have h1 := measure_takeColon_le (c.push .entry).takeKey.takeSpaces
  have h2 := measure_takeSpaces_le (c.push .entry).takeKey.takeSpaces.takeColon
  have h3 := measure_await_le ((c.push .entry).takeKey.takeSpaces.takeColon.takeSpaces.push .value)
    ⟨column + 1, some column, false⟩
  simp only [measure_push] at h3 hkey
  dsimp only [openEntry]
  omega

/-! ## One node

What fills a place begins with a token that is taken, so even where nodes are opened the measure
goes down. Only a place that stays empty takes nothing. -/

/-- If the next token has a kind then there is one. -/
theorem kind?_eq_some {c : Config} {k : TokenKind} (h : c.kind? = some k) :
    ∃ l ls, c.rest = l :: ls ∧ l.kind = k := by
  unfold kind? at h
  cases hr : c.rest with
  | nil => simp [hr] at h
  | cons l ls => exact ⟨l, ls, rfl, by simpa [hr] using h⟩

/-- A node on this line takes a token, and may stay open. That leaves seven. -/
theorem measure_takeInline {c : Config} {l : Lexeme} {ls : List Lexeme} (hc : c.rest = l :: ls)
    (hl : l.kind ≠ lineBreak) (column : Nat) :
    (c.takeInline column l.kind).measure + 7 ≤ c.measure := by
  have hne : c.rest ≠ [] := by simp [hc]
  have open1 (t : Task) : ((c.push t).take 1).measure + 7 ≤ c.measure := by
    have := measure_take_of_pos (c := c.push t) Nat.one_pos hne
    simp only [measure_push] at this
    omega
  have wrap1 : (c.wrap .scalar 1).measure + 7 ≤ c.measure := by
    have := measure_wrap_of_pos (c := c) .scalar Nat.one_pos hne
    omega
  have line (p : Problem) : (c.errorLine p).measure + 7 ≤ c.measure := by
    have := measure_errorLine hc hl p
    omega
  unfold takeInline
  split
  · exact open1 _
  · exact open1 _
  · exact wrap1
  · exact wrap1
  · exact wrap1
  · exact wrap1
  · have := measure_wrap_of_pos (c := c.report .unterminatedQuote) .scalar Nat.one_pos hne
    simp only [measure_report] at this
    omega
  · exact line _
  · split
    · rename_i hp
      have := measure_take_of_pos (c := c.push (.plain column)) (n := plainLength c.rest)
        (by rw [hc]; exact plainLength_pos hp) hne
      simp only [measure_push] at this
      omega
    · exact line _

/-- Filling a place costs nothing, and may do nothing if the place stays empty. -/
theorem measure_fillContent_le (c : Config) (s : Slot) :
    (c.fillContent s).measure ≤ c.measure := by
  unfold fillContent
  split
  · exact Nat.le_refl _
  · rename_i l ls hc
    have hne : c.rest ≠ [] := by simp [hc]
    split
    · split
      · rename_i hl _ n hn
        have hpos : 0 < n := by
          rw [(of_laterStart hn).1]
          exact kindRun_pos (by rcases hl with hl | hl <;> simp [hl, isTrivia])
        have h1 := measure_take_of_pos hpos hne
        have h2 := measure_await_le (c.take n) ⟨s.minColumn, none, true⟩
        omega
      · exact Nat.le_refl _
    · rename_i hl
      split
      · have := measure_openItem (c := c.push (.sequence l.column)) hne l.column
        simp only [measure_push] at this
        omega
      · split
        · rename_i hk
          have := measure_openEntry (c := c.push (.mapping l.column)) hc hk.2 l.column
          simp only [measure_push] at this
          omega
        · have := measure_takeInline hc (fun h => hl (Or.inl h)) s.minColumn
          omega

/-- A token that is not trivia fills the place. -/
theorem measure_fillContent {c : Config} {l : Lexeme} {ls : List Lexeme} (hc : c.rest = l :: ls)
    (hl : l.kind.isTrivia = false) (s : Slot) : (c.fillContent s).measure + 4 ≤ c.measure := by
  have hne : c.rest ≠ [] := by simp [hc]
  have hb : ¬(l.kind = lineBreak ∨ l.kind = comment) := by
    rintro (h | h) <;> simp [h, isTrivia] at hl
  unfold fillContent
  split
  · simp_all
  · rename_i l' ls' hc'
    obtain ⟨rfl, rfl⟩ := List.cons.inj (hc.symm.trans hc')
    rw [if_neg hb]
    split
    · have := measure_openItem (c := c.push (.sequence l.column)) hne l.column
      simp only [measure_push] at this
      omega
    · split
      · rename_i hk
        have := measure_openEntry (c := c.push (.mapping l.column)) hc hk.2 l.column
        simp only [measure_push] at this
        omega
      · have := measure_takeInline hc (fun h => hb (Or.inl h)) s.minColumn
        omega

/-- Filling a place costs nothing : what it opens, its tokens pay for. -/
theorem measure_fill_le (c : Config) (s : Slot) : (c.fill s).measure ≤ c.measure :=
  Nat.le_trans (measure_fillContent_le _ s) (measure_take_le c _)

/-- If some token other than trivia lies ahead, four are left behind it and its properties. -/
theorem measure_fill {c : Config} {l : Lexeme} {ls : List Lexeme} (hc : c.rest = l :: ls)
    (hl : l.kind.isTrivia = false) (s : Slot) : (c.fill s).measure + 4 ≤ c.measure := by
  unfold fill
  by_cases hp : propertiesLength c.rest = 0
  · have h0 : (c.take (propertiesLength c.rest)).rest = l :: ls := by
      rw [rest_take, hp, hc, List.drop_zero]
    have h1 := measure_fillContent h0 hl s
    have h2 := measure_take_le c (propertiesLength c.rest)
    omega
  · have h1 := measure_fillContent_le (c.take (propertiesLength c.rest)) s
    have h2 := measure_take_of_pos (Nat.pos_of_ne_zero hp) (c := c) (by simp [hc])
    omega

/-! ## Flow collections

A node in a flow collection may be empty behind an anchor or a tag. Then it is the property that
has been taken. -/

/-- Without a next token the text has ended. -/
theorem kind?_eq_none {c : Config} (h : c.kind? = none) : c.rest = [] := by
  simpa [kind?] using h

theorem rest_ne_nil_of_kind? {c : Config} {k : TokenKind} (h : c.kind? = some k) : c.rest ≠ [] := by
  intro h'
  simp [kind?, h'] at h

/-- A node in a flow collection takes a token, unless it may be empty behind properties. -/
theorem measure_takeFlowContent {c : Config} (hc : c.rest ≠ []) (b : Bool) :
    (c.takeFlowContent b).measure + (if b then 0 else 7) ≤ c.measure := by
  have open1 (t : Task) : ((c.push t).take 1).measure + 7 ≤ c.measure := by
    have := measure_take_of_pos (c := c.push t) Nat.one_pos hc
    simp only [measure_push] at this
    omega
  have wrap1 : (c.wrap .scalar 1).measure + 7 ≤ c.measure := by
    have := measure_wrap_of_pos (c := c) .scalar Nat.one_pos hc
    omega
  have some7 {m : Nat} (h : m + 7 ≤ c.measure) : m + (if b then 0 else 7) ≤ c.measure := by
    split <;> omega
  unfold takeFlowContent
  split
  · rename_i h
    exact absurd (kind?_eq_none h) hc
  · rename_i k hk
    split
    · exact some7 (open1 _)
    · exact some7 (open1 _)
    · exact some7 wrap1
    · exact some7 wrap1
    · exact some7 wrap1
    · refine some7 ?_
      have := measure_wrap_of_pos (c := c.report .unterminatedQuote) .scalar Nat.one_pos hc
      simp only [measure_report] at this
      omega
    · split
      · rename_i hp
        obtain ⟨l, ls, hr, rfl⟩ := kind?_eq_some hk
        refine some7 ?_
        have := measure_wrap_of_pos (c := c) .scalar (n := plainLength c.rest)
          (by rw [hr]; exact plainLength_pos hp) hc
        omega
      · split
        · rename_i h
          rw [if_pos h.1]
          exact Nat.le_refl _
        · refine some7 ?_
          have := measure_errorToken hc (.unexpectedInFlow k)
          omega

theorem measure_takeFlowContent_le (c : Config) (b : Bool) :
    (c.takeFlowContent b).measure ≤ c.measure := by
  by_cases hc : c.rest = []
  · simp [takeFlowContent, kind?, hc]
  · have := measure_takeFlowContent hc b
    omega

/-- A node in a flow collection, with or without properties, takes at least one token. -/
theorem measure_takeFlowNode {c : Config} (hc : c.rest ≠ []) :
    c.takeFlowNode.measure + 7 ≤ c.measure := by
  unfold takeFlowNode
  by_cases hp : propertiesLength c.rest = 0
  · have h1 := measure_takeFlowContent (c := c.take (propertiesLength c.rest))
      (by rw [rest_take, hp, List.drop_zero]; exact hc) false
    have h2 := measure_take_le c (propertiesLength c.rest)
    have h3 : (propertiesLength c.rest != 0) = false := by simp [hp]
    simp only [Bool.false_eq_true, if_false] at h1
    rw [h3]
    omega
  · have h1 := measure_takeFlowContent_le (c.take (propertiesLength c.rest))
      (propertiesLength c.rest != 0)
    have h2 := measure_take_of_pos (Nat.pos_of_ne_zero hp) hc
    omega

/-- A comma is taken or a problem is recorded; neither costs anything. -/
theorem measure_takeComma_le (c : Config) (closer : TokenKind) (p : Problem) :
    (c.takeComma closer p).measure ≤ c.measure := by
  unfold takeComma
  split
  · exact Nat.le_refl _
  · rename_i k hk
    split
    · exact measure_take_le c 1
    · split
      · exact Nat.le_refl _
      · have := measure_errorToken (rest_ne_nil_of_kind? hk) p
        omega

/-! ## Steps

One lemma for each task. Where a step opens nothing it takes a token or closes a node. -/

theorem ne_lineBreak {l : Lexeme} (h : l.kind.isTrivia = false) : l.kind ≠ lineBreak := by
  intro h'
  simp [h', isTrivia] at h

/-- Between documents a step takes a token : the mark, or the first one of a document. -/
theorem measure_stepStream {c c' : Config} (h : c.stepStream = some c') :
    c'.measure < c.measure := by
  unfold stepStream at h
  split at h
  · cases h
  · rename_i l ls hs
    have hl := isTrivia_of_significant hs
    have h0 := measure_takeTrivia_le c
    have hr : c.takeTrivia.rest = l :: ls := by rw [rest_takeTrivia, hs]
    have hne : c.takeTrivia.rest ≠ [] := by simp [hs]
    dsimp only at h
    split at h
    · cases h
      have := measure_take_of_pos Nat.one_pos hne
      omega
    · cases h
      have := measure_take_of_pos Nat.one_pos hne
      omega
    · cases h
      have h1 := measure_fill_le (((c.takeTrivia.push .document).take 1).takeSpaces) ⟨0, none, true⟩
      have h2 := measure_takeSpaces_le ((c.takeTrivia.push .document).take 1)
      have h3 := measure_take_of_pos (c := c.takeTrivia.push .document) Nat.one_pos hne
      simp only [measure_push] at h3
      omega
    · cases h
      have h1 := measure_fill (c := c.takeTrivia.push .document) hr hl ⟨0, none, true⟩
      simp only [measure_push] at h1
      omega

/-- Closing a node makes the measure smaller. -/
theorem measure_close_lt {c : Config} (h : 0 < c.frames.length) : c.close.measure < c.measure := by
  have := measure_close c
  omega

/-- A document takes its end, a line that does not belong to it, or is closed. -/
theorem measure_stepDocument {c : Config} (hf : 0 < c.frames.length) :
    c.stepDocument.measure < c.measure := by
  have h0 := measure_takeTrivia_le c
  unfold stepDocument
  split
  · have := measure_close_lt (c := c.takeTrivia) (by simpa using hf)
    omega
  · rename_i l ls hs
    have hl := isTrivia_of_significant hs
    have hr : c.takeTrivia.rest = l :: ls := by rw [rest_takeTrivia, hs]
    split
    · exact measure_close_lt hf
    · exact measure_close_lt hf
    · have h1 := measure_take_le c.takeTrivia 1
      have h2 := measure_finishLine_le (c.takeTrivia.take 1)
      have h3 := measure_close_lt (c := (c.takeTrivia.take 1).finishLine) (by simpa using hf)
      omega
    · have := measure_errorLine hr (ne_lineBreak hl) .contentAfterRoot
      omega

/-- A block mapping opens its next entry, takes a line that is none, or is closed. -/
theorem measure_stepMapping {c : Config} (hf : 0 < c.frames.length) (column : Nat) :
    (c.stepMapping column).measure < c.measure := by
  have h0 := measure_takeTrivia_le c
  unfold stepMapping
  split
  · exact measure_close_lt hf
  · rename_i l ls hs
    have hl := isTrivia_of_significant hs
    have hr : c.takeTrivia.rest = l :: ls := by rw [rest_takeTrivia, hs]
    split
    · exact measure_close_lt hf
    · split
      · have := measure_errorLine hr (ne_lineBreak hl) .unexpectedIndentation
        omega
      · split
        · rename_i hk
          have := measure_openEntry hr hk column
          omega
        · have := measure_errorLine hr (ne_lineBreak hl) .expectedKey
          omega

/-- A block sequence does the same with its items. -/
theorem measure_stepSequence {c : Config} (hf : 0 < c.frames.length) (column : Nat) :
    (c.stepSequence column).measure < c.measure := by
  have h0 := measure_takeTrivia_le c
  unfold stepSequence
  split
  · exact measure_close_lt hf
  · rename_i l ls hs
    have hl := isTrivia_of_significant hs
    have hr : c.takeTrivia.rest = l :: ls := by rw [rest_takeTrivia, hs]
    split
    · exact measure_close_lt hf
    · split
      · have := measure_errorLine hr (ne_lineBreak hl) .unexpectedIndentation
        omega
      · have := measure_openItem (c := c.takeTrivia) (by simp [hs]) column
        omega

/-- A line that continues a plain scalar has at least one word. -/
theorem plainLength_of_continuation {min n : Nat} {ls : List Lexeme}
    (h : continuation min ls = some n) : 0 < plainLength (ls.drop n) ∧ ls.drop n ≠ [] := by
  obtain ⟨-, l, rest, hl, hp⟩ := of_continuation h
  rw [hl]
  exact ⟨plainLength_pos hp, by simp⟩

/-- A plain scalar takes the words of its next line or is closed. -/
theorem measure_stepPlain {c : Config} (hf : 0 < c.frames.length) (column : Nat) :
    (c.stepPlain column).measure < c.measure := by
  unfold stepPlain
  split
  · rename_i n hn
    obtain ⟨hp, hne⟩ := plainLength_of_continuation hn
    have h1 := measure_take_le c n
    have h2 := measure_take_of_pos (c := c.take n) hp hne
    simp only [rest_take] at h2 ⊢
    omega
  · exact measure_close_lt hf

/-- A flow sequence opens an item, takes its bracket, or is closed at the end of the text. -/
theorem measure_stepFlowSequence {c : Config} (hf : 0 < c.frames.length) :
    c.stepFlowSequence.measure < c.measure := by
  have h0 := measure_takeTrivia_le c
  dsimp only [stepFlowSequence]
  split
  · have := measure_close_lt (c := c.takeTrivia.report .unclosedSequence) (by simpa using hf)
    simp only [measure_report] at this
    omega
  · rename_i k hk
    split
    · have h1 := measure_take_le c.takeTrivia 1
      have h2 := measure_close_lt (c := c.takeTrivia.take 1) (by simpa using hf)
      omega
    · have := measure_takeFlowNode (c := c.takeTrivia.push .flowItem) (rest_ne_nil_of_kind? hk)
      simp only [measure_push] at this
      omega

/-- A flow mapping opens an entry and its key, which costs two nodes, or is closed. -/
theorem measure_stepFlowMapping {c : Config} (hf : 0 < c.frames.length) :
    c.stepFlowMapping.measure < c.measure := by
  have h0 := measure_takeTrivia_le c
  dsimp only [stepFlowMapping]
  split
  · have := measure_close_lt (c := c.takeTrivia.report .unclosedMapping) (by simpa using hf)
    simp only [measure_report] at this
    omega
  · rename_i k hk
    split
    · have h1 := measure_take_le c.takeTrivia 1
      have h2 := measure_close_lt (c := c.takeTrivia.take 1) (by simpa using hf)
      omega
    · have := measure_takeFlowNode (c := (c.takeTrivia.push .flowEntry).push .key)
        (rest_ne_nil_of_kind? hk)
      simp only [measure_push] at this
      omega

/-- The key of a flow entry is closed, and the value is opened behind the colon that pays for
it. -/
theorem measure_stepFlowKey {c : Config} (hf : 0 < c.frames.length) :
    c.stepFlowKey.measure < c.measure := by
  have h0 := measure_close_lt hf
  have h1 := measure_takeTrivia_le c.close
  dsimp only [stepFlowKey]
  split
  · rename_i hk
    have h2 := measure_take_of_pos Nat.one_pos (rest_ne_nil_of_kind? hk)
    have h3 := measure_takeTrivia_le (c.close.takeTrivia.take 1)
    have h4 := measure_push (c.close.takeTrivia.take 1).takeTrivia .flowValue
    split
    · omega
    · rename_i k hk
      split
      · omega
      · have := measure_takeFlowNode (rest_ne_nil_of_kind? hk)
        omega
  · omega

theorem measure_finishLine_close {c : Config} (hf : 0 < c.frames.length) :
    c.finishLine.close.measure < c.measure := by
  have h1 := measure_finishLine_le c
  have h2 := measure_close_lt (c := c.finishLine) (by simpa using hf)
  omega

theorem measure_close_takeComma {c : Config} (hf : 0 < c.frames.length) (closer : TokenKind)
    (p : Problem) : (c.close.takeTrivia.takeComma closer p).measure < c.measure := by
  have h1 := measure_close_lt hf
  have h2 := measure_takeTrivia_le c.close
  have h3 := measure_takeComma_le c.close.takeTrivia closer p
  omega

/-- The step for the innermost node makes the measure smaller, whatever its task is. -/
theorem measure_stepTask {c : Config} (hf : 0 < c.frames.length) (t : Task) :
    (c.stepTask t).measure < c.measure := by
  cases t with
  | document => exact measure_stepDocument hf
  | mapping column => exact measure_stepMapping hf column
  | entry => exact measure_finishLine_close hf
  | key => exact measure_stepFlowKey hf
  | value => exact measure_close_lt hf
  | sequence column => exact measure_stepSequence hf column
  | item => exact measure_finishLine_close hf
  | plain column => exact measure_stepPlain hf column
  | flowSequence => exact measure_stepFlowSequence hf
  | flowItem => exact measure_close_takeComma hf _ _
  | flowMapping => exact measure_stepFlowMapping hf
  | flowEntry => exact measure_close_takeComma hf _ _
  | flowValue => exact measure_close_lt hf

/-- Every step makes the measure smaller. -/
theorem measure_step {c c' : Config} (h : c.step = some c') : c'.measure < c.measure := by
  unfold step at h
  split at h
  · rename_i s hs
    cases h
    have h1 := measure_fill_le { c with slot := none } s
    have h2 : ({ c with slot := none } : Config).measure + 1 = c.measure := by
      simp [measure, hs]
    omega
  · split at h
    · exact measure_stepStream h
    · rename_i f fs hf
      cases h
      exact measure_stepTask (by simp [hf]) f.task

end Config

end YamlPatch
