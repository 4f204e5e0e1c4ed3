import Mathlib.Data.List.Induction
import YamlPatch.Proofs.FlowParsing

/-!
# The way from an indicator to its node

Between the colon of an entry and the node behind it stand anchors and tags, and the node may
stand on a later line. `Approach k s p g s'` says that the tokens `g` lead from the place `s` to
the place `s'`, where a node is filled in whose first token is of the kind `k`. The parser
follows every approach (`Approach.reaches`), and where it has filled a place it has followed one
(`exists_approach`). So a node is filled in where another one was, and a place that held nothing
but anchors and tags holds a node behind a space.

The kind of the first token is a parameter since it matters on a later line only : a dash may
stand further to the left there than other nodes. On the line of the indicator every node may
follow. So an approach for one kind of node is one for another, unless the other node is a block
sequence.

What the parser finds at the end of its way is the case split of the second half (`Settles`) : a
node, or nothing before the line or the text ends. In the second case it is said what would have
to stand there to lead to a node (`FindsNothing`), which is what a write puts there.
-/

namespace YamlPatch

open TokenKind Lexeme

/-! ## Anchors and tags

On one line there may be several of them. The spaces behind each belong to it, so where a row of
them ends, something else begins. -/

/-- Anchors and tags with the spaces behind each. -/
def Properties (ps : List Token) : Prop :=
  ps = [] ∨ ∃ x xs, ps = x :: xs ∧ x.kind.isProperty = true ∧
    ∀ y ∈ xs, y.kind.isProperty = true ∨ y.kind = space

/-- The tokens begin neither with an anchor or a tag nor with a space. -/
def Bare (ys : List Token) : Prop :=
  ∀ y zs, ys = y :: zs → y.kind.isProperty = false ∧ y.kind ≠ space

/-- The parser takes all of them, and nothing of what follows. -/
theorem Properties.length_eq {ps ys : List Token} (h : Properties ps) (hys : Bare ys)
    (p : Position) : propertiesLength (locate p (ps ++ ys)) = ps.length := by
  rcases h with rfl | ⟨x, xs, rfl, hx, hxs⟩
  · exact propertiesLength_locate p fun y zs hy => (hys y zs hy).1
  · have hrest : ∀ y ∈ xs, (y.kind.isProperty || y.kind == space) = true := by simpa using hxs
    have hend : ∀ y zs, ys = y :: zs → (y.kind.isProperty || y.kind == space) = false :=
      fun y zs hy => by simpa using hys y zs hy
    have hrun :=
      kindRun_locate (p.advance x.text) (q := fun k => k.isProperty || k == space) hrest hend
    simp [locate, propertiesLength, Lexeme.kind, hx, hrun]

/-- They are trivia or properties. -/
theorem Properties.isHead {ps : List Token} (h : Properties ps) : ∀ x ∈ ps, x.kind.isTrivia = true ∨
    x.kind.isProperty = true := by
  rcases h with rfl | ⟨x, xs, rfl, hx, hxs⟩
  · simp
  · intro y hy
    rcases List.mem_cons.mp hy with rfl | hy
    · exact .inr hx
    · rcases hxs y hy with h | h
      · exact .inr h
      · exact .inl (by rw [h]; rfl)

/-- Behind the last anchor or tag there may be any number of spaces. -/
theorem Properties.exists_kept {ps : List Token} (h : Properties ps) (hne : ps ≠ []) :
    ∃ kept x gap, ps = kept ++ x :: gap ∧ x.kind.isProperty = true ∧ (∀ y ∈ gap, y.kind = space) ∧
      ∀ gap', (∀ y ∈ gap', y.kind = space) → Properties (kept ++ x :: gap') := by
  obtain ⟨x, xs, rfl, hx, hxs⟩ := h.resolve_left hne
  clear h hne
  -- By induction from the end : spaces are passed over, up to the last anchor or tag.
  induction xs using List.reverseRecOn with
  | nil =>
    exact ⟨[], x, [], rfl, hx,
      by simp, fun gap' hg => .inr ⟨x, gap', rfl, hx, fun y hy => .inr (hg y hy)⟩⟩
  | append_singleton xs z ih =>
    by_cases hz : z.kind = space
    · obtain ⟨kept, w, gap, hk, hw, hgap, hall⟩ := ih fun y hy => hxs y (by simp [hy])
      refine ⟨kept, w, gap ++ [z], ?_, hw, ?_, hall⟩
      · rw [← List.cons_append, hk]
        simp
      · intro y hy
        rcases List.mem_append.mp hy with hy | hy
        · exact hgap y hy
        · rw [List.mem_singleton.mp hy, hz]
    · have hp : z.kind.isProperty = true := (hxs z (by simp)).resolve_right hz
      refine ⟨x :: xs, z, [],
        by simp, hp, by simp, fun gap' hg => .inr ⟨x, xs ++ z :: gap', by simp, hx, ?_⟩⟩
      intro y hy
      simp only [List.mem_append, List.mem_cons] at hy
      rcases hy with hy | rfl | hy
      · exact hxs y (by simp [hy])
      · exact .inl hp
      · exact .inr (hg y hy)

/-! ## Ways to a node

A way goes on by anchors and tags on the line, or by a line break and the indentation of a later
line. It may do so a number of times. -/

/-- The tokens lead from a place to the place of a node whose first token is of the kind `k`. -/
inductive Approach (k : TokenKind) : Slot → Position → List Token → Slot → Prop where
  | here {s : Slot} {p : Position} {ps : List Token} (hps : Properties ps) : Approach k s p ps s
  | later {s s' : Slot} {p : Position} {ps ts gs : List Token} {t : Token} (hps : Properties ps)
      (ht : t.kind = lineBreak ∨ t.kind = comment) (hts : ∀ x ∈ t :: ts, x.kind.isTrivia = true)
      (hgs : ∀ y zs, gs = y :: zs → y.kind.isProperty = true)
      (hcolumn : s.minColumn ≤ ((p.advance (Token.join ps)).advance (Token.join (t :: ts))).column ∨
        gs = [] ∧ k = dash ∧
          s.dashColumn = some ((p.advance (Token.join ps)).advance (Token.join (t :: ts))).column)
      (h : Approach k ⟨s.minColumn, none, true⟩
        ((p.advance (Token.join ps)).advance (Token.join (t :: ts))) gs s') :
      Approach k s p (ps ++ (t :: ts ++ gs)) s'

/-- On the way the column that a later line has to reach stays the same. -/
theorem Approach.minColumn_eq {k : TokenKind} {s s' : Slot} {p : Position} {g : List Token}
    (h : Approach k s p g s') : s'.minColumn = s.minColumn := by
  induction h with
  | here => rfl
  | later _ _ _ _ _ _ ih => exact ih

/-- Behind a line break every node may follow that is no further to the left. -/
theorem Approach.of_ne_dash {k k' : TokenKind} {s s' : Slot} {p : Position} {g : List Token}
    (h : Approach k s p g s') (hk : k ≠ dash) : Approach k' s p g s' := by
  induction h with
  | here hps => exact .here hps
  | later hps ht hts hgs hcolumn _ ih =>
    exact .later hps ht hts hgs (.inl (hcolumn.resolve_right fun h => hk h.2.1)) ih

/-- The tokens of a way are trivia or properties. -/
theorem Approach.isHead {k : TokenKind} {s s' : Slot} {p : Position} {g : List Token}
    (h : Approach k s p g s') : ∀ x ∈ g, x.kind.isTrivia = true ∨ x.kind.isProperty = true := by
  induction h with
  | here hps => exact hps.isHead
  | later hps ht hts _ _ _ ih =>
    intro x hx
    rcases List.mem_append.mp hx with hx | hx
    · exact hps.isHead x hx
    · rcases List.mem_append.mp hx with hx | hx
      · exact .inl (hts x hx)
      · exact ih x hx

/-- A line break or a comment is bare. -/
theorem bare_of_lineBreak {t : Token} (ht : t.kind = lineBreak ∨ t.kind = comment)
    (ts : List Token) : Bare (t :: ts) := by
  intro y zs hy
  obtain ⟨rfl, -⟩ := List.cons.inj hy
  rcases ht with h | h <;> simp [h, isProperty]

open Config in
/-- The parser follows an approach. -/
theorem Approach.reaches {k : TokenKind} {s s' : Slot} {p : Position} {g : List Token}
    (h : Approach k s p g s') (c : Config) (u : Task) (d : List Tree) (fs : List Frame) {x : Token}
    {xs : List Token} (hx : x.kind = k)
    (hk : k.isTrivia = false ∧ k.isProperty = false ∧ k.isMarker = false) {fs' : List Frame}
    {ys : List Token} (hgoal : ∀ d', d' = d ++ g.map .token → Reaches ((c.facing (⟨u, d'⟩ :: fs)
      (p.advance (Token.join g)) (x :: xs)).fillContent s') c fs' ys) :
    Reaches ((c.facing (⟨u, d⟩ :: fs) p (g ++ x :: xs)).await s) c fs' ys := by
  have hbare : Bare (x :: xs) := by
    intro y zs hy
    obtain ⟨rfl, -⟩ := List.cons.inj hy
    rw [hx]
    refine ⟨hk.2.1, ?_⟩
    rintro rfl
    cases hk.1
  induction h generalizing d with
  | @here s p ps hps =>
    refine .head (await_facing _ _ _ _ _) ?_
    rw [fill, rest_facing, take_facing c u d fs p ps (x :: xs) (hps.length_eq hbare p)]
    exact hgoal _ rfl
  | @later s s' p ps ts gs t hps ht hts hgs hcolumn _ ih =>
    refine .head (await_facing _ _ _ _ _) ?_
    have hbreak : Bare (t :: ts ++ (gs ++ x :: xs)) := bare_of_lineBreak ht _
    have hl : ps ++ (t :: ts ++ gs) ++ x :: xs = ps ++ (t :: ts ++ (gs ++ x :: xs)) := by simp
    rw [hl, fill, rest_facing, take_facing c u d fs p ps _ (hps.length_eq hbreak p)]
    -- the token behind the trivia is a property or the first of the node
    have hnext : ∃ y zs, gs ++ x :: xs = y :: zs ∧
        (y.kind.isTrivia = false ∧ y.kind.isMarker = false) ∧ (gs = [] → y.kind = k) := by
      cases gs with
      | nil => exact ⟨x, xs, rfl, by rw [hx]; exact ⟨hk.1, hk.2.2⟩, fun _ => hx⟩
      | cons y gs =>
        have hy := hgs y gs rfl
        refine ⟨y, gs ++ x :: xs, rfl, ?_, by simp⟩
        revert hy
        cases y.kind <;> simp [isProperty, isTrivia, isMarker]
    obtain ⟨y, zs, hy, hy', hyk⟩ := hnext
    rw [hy, fillContent_below c u _ fs _ ht hts hy' ?_ zs, ← hy]
    · refine ih _ fun d' hd' => ?_
      have := hgoal d' (by rw [hd']; simp)
      simpa [Position.advance_append] using this
    · refine hcolumn.imp_right fun h => ⟨(hyk h.1).trans h.2.1, h.2.2⟩

/-! ## The way that the parser takes

From where the parser is left at a place it goes on until a node follows, or until there is
none. What it has passed by then is a way to a node. -/

/-- The tokens lead to a node, whose tokens come next. -/
def Finds (s : Slot) (p : Position) (g : List Token) (s' : Slot) (ys : List Token) : Prop :=
  ∃ y zs, ys = y :: zs ∧ (y.kind.isProperty = false ∧ y.kind ≠ space ∧ y.kind ≠ lineBreak ∧
    y.kind ≠ comment) ∧ Approach y.kind s p g s'

/-- There are no tokens, or they end with an anchor or a tag and spaces, in place of which others
would lead to a node. -/
def FindsNothing (s : Slot) (p : Position) (g : List Token) (s' : Slot) : Prop :=
  g = [] ∧ s' = s ∨ ∃ kept x gap, g = kept ++ x :: gap ∧ x.kind.isProperty = true ∧
    (∀ y ∈ gap, y.kind = space) ∧
      ∀ k gap', (∀ y ∈ gap', y.kind = space) → Approach k s p (kept ++ x :: gap') s'

/-- If a way does not begin with trivia it begins with an anchor or a tag. -/
theorem Approach.first {k : TokenKind} {s s' : Slot} {p : Position} {g zs : List Token} {y : Token}
    (h : Approach k s p g s') (hg : g = y :: zs) (hy : y.kind.isTrivia = false) :
    y.kind.isProperty = true := by
  rcases h.isHead y (by simp [hg]) with h | h
  · rw [hy] at h
    cases h
  · exact h

/-- Tokens begin with all the anchors and tags that they begin with. -/
theorem exists_properties {xs : List Token} (hxs : ∀ y zs, xs = y :: zs → y.kind ≠ space) :
    ∃ ps ys, xs = ps ++ ys ∧ Properties ps ∧ Bare ys := by
  cases xs with
  | nil => exact ⟨[], [], rfl, .inl rfl, by simp [Bare]⟩
  | cons x xs =>
    by_cases hx : x.kind.isProperty = true
    · obtain ⟨ys, zs, rfl, hys, hzs⟩ :=
        exists_run (fun y : Token => y.kind.isProperty || y.kind == space) xs
      exact ⟨x :: ys, zs, rfl, .inr ⟨x, ys, rfl, hx, by simpa using hys⟩, by simpa [Bare] using hzs⟩
    · refine ⟨[], x :: xs, rfl, .inl rfl, ?_⟩
      intro y zs hy
      have hs := hxs y zs hy
      obtain ⟨rfl, -⟩ := List.cons.inj hy
      exact ⟨by simpa using hx, hs⟩

/-- So they begin with all their trivia. -/
theorem exists_trivia (xs : List Token) :
    ∃ ts ys, xs = ts ++ ys ∧ (∀ x ∈ ts, x.kind.isTrivia = true) ∧
      ∀ y zs, ys = y :: zs → y.kind.isTrivia = false :=
  exists_run (fun x : Token => x.kind.isTrivia) xs

/-- At the end of a way the parser finds a node, or nothing before the end of the text or of the
line. -/
def Settles (s : Slot) (p : Position) (g : List Token) (s' : Slot) (ys : List Token) : Prop :=
  Finds s p g s' ys ∨ FindsNothing s p g s' ∧
    (ys = [] ∨ ∃ y zs, ys = y :: zs ∧ (y.kind = lineBreak ∨ y.kind = comment) ∧
      laterStart s' (locate (p.advance (Token.join g)) ys) = none)

/-- A node on a later line starts behind trivia, in a column where it may. -/
theorem exists_of_laterStart {s : Slot} {p : Position} {y : Token} {zs : List Token} {n : Nat}
    (hy : y.kind = lineBreak ∨ y.kind = comment) (h : laterStart s (locate p (y :: zs)) = some n) :
    ∃ ts w ws, zs = ts ++ w :: ws ∧ (∀ x ∈ y :: ts, x.kind.isTrivia = true) ∧
      (w.kind.isTrivia = false ∧ w.kind.isMarker = false) ∧
      (s.minColumn ≤ (p.advance (Token.join (y :: ts))).column ∨
        w.kind = dash ∧ s.dashColumn = some (p.advance (Token.join (y :: ts))).column) := by
  obtain ⟨ts, rest, hsplit, hts, hrest⟩ := exists_trivia (y :: zs)
  cases ts with
  | nil =>
    have := hrest y zs hsplit.symm
    rcases hy with hy | hy <;> rw [hy] at this <;> cases this
  | cons t ts =>
    obtain ⟨rfl, rfl⟩ := List.cons.inj hsplit
    have hlater : laterStart s (locate p ((y :: ts) ++ rest)) = some n := h
    obtain ⟨-, l, ls, hl, hmarker, hcolumn⟩ := of_laterStart hlater
    rw [significant_locate _ hts hrest] at hl
    cases rest with
    | nil => cases hl
    | cons w ws =>
      obtain ⟨rfl, -⟩ := List.cons.inj hl
      exact ⟨ts, w, ws, rfl, hts, ⟨hrest w ws rfl, hmarker⟩, hcolumn⟩

/-- A way to a node that is not empty begins with an anchor or a tag, if it does not begin with
trivia. -/
theorem Approach.head {k : TokenKind} {s s' : Slot} {p : Position} {g us ws : List Token}
    {w : Token} (h : Approach k s p g s') (hg : w :: ws = g ++ us) (hw : w.kind.isTrivia = false) :
    ∀ y zs, g = y :: zs → y = w ∧ y.kind.isProperty = true := by
  rintro y zs rfl
  obtain ⟨rfl, -⟩ := List.cons.inj hg
  exact ⟨rfl, h.first rfl hw⟩

/-- What a way leads to from the start of a line, it also leads to from the lines before. -/
theorem Settles.later {s s' : Slot} {p q : Position} {ps ts g us ws : List Token} {y w : Token}
    (hps : Properties ps) (hy : y.kind = lineBreak ∨ y.kind = comment)
    (hts : ∀ x ∈ y :: ts, x.kind.isTrivia = true) (hw : w.kind.isTrivia = false)
    (hq : q = (p.advance (Token.join ps)).advance (Token.join (y :: ts)))
    (hcolumn : s.minColumn ≤ q.column ∨ w.kind = dash ∧ s.dashColumn = some q.column)
    (hg : w :: ws = g ++ us) (h : Settles ⟨s.minColumn, none, true⟩ q g s' us) :
    Settles s p (ps ++ (y :: ts ++ g)) s' us := by
  subst hq
  -- A node was found, or nothing was : the way is longer by the lines before in either case, and
  -- so is every way to a node that might have stood there.
  rcases h with ⟨z, vs, rfl, hz, ha⟩ | ⟨hnothing, hus⟩
  · refine .inl ⟨z, vs, rfl, hz, .later hps hy hts (fun x zs hx => (ha.head hg hw x zs hx).2) ?_ ha⟩
    refine hcolumn.imp_right fun h => ?_
    cases g with
    | nil =>
      obtain ⟨rfl, -⟩ := List.cons.inj hg
      exact ⟨rfl, h.1, h.2⟩
    | cons v g =>
      obtain ⟨rfl, hv⟩ := ha.head hg hw v g rfl
      rw [h.1] at hv
      cases hv
  · rcases hnothing with ⟨rfl, -⟩ | ⟨kept, x, gap, rfl, hx, hgap, hall⟩
    · -- the first token of the line is not trivia, so it has been taken
      rcases hus with rfl | ⟨z, vs, rfl, hz, -⟩
      · cases hg
      · obtain ⟨rfl, -⟩ := List.cons.inj hg
        rcases hz with hz | hz <;> rw [hz] at hw <;> cases hw
    -- A dash that may stand further to the left is a node, and not an anchor or a tag.
    · have hmin :
          s.minColumn ≤ ((p.advance (Token.join ps)).advance (Token.join (y :: ts))).column := by
        refine hcolumn.resolve_right fun h => ?_
        obtain ⟨v, vs, hv⟩ := List.exists_cons_of_ne_nil (l := kept ++ x :: gap) (by simp)
        obtain ⟨rfl, hv⟩ := (hall w.kind gap hgap).head hg hw v vs hv
        rw [h.1] at hv
        cases hv
      have hend : us = [] ∨ ∃ z vs, us = z :: vs ∧ (z.kind = lineBreak ∨ z.kind = comment) ∧
          laterStart s' (locate (p.advance (Token.join (ps ++ (y :: ts ++ (kept ++ x :: gap)))))
            us) = none := by
        simpa [Position.advance_append] using hus
      refine .inr
        ⟨.inr ⟨ps ++ (y :: ts ++ kept), x, gap, by simp, hx, hgap, fun k gap' hgap' => ?_⟩, hend⟩
      have hl : ps ++ (y :: ts ++ kept) ++ x :: gap' = ps ++ (y :: ts ++ (kept ++ x :: gap')) := by
        simp
      rw [hl]
      refine .later hps hy hts (fun z vs hz => ?_) (.inl hmin) (hall k gap' hgap')
      cases kept with
      | nil =>
        obtain ⟨rfl, -⟩ := List.cons.inj hz
        exact hx
      | cons v kept =>
        obtain ⟨rfl, -⟩ := List.cons.inj hz
        exact ((hall k gap hgap).head hg hw v (kept ++ x :: gap) rfl).2

/-- Anchors and tags with nothing behind them lead to nothing. -/
theorem Properties.findsNothing {ps : List Token} (hps : Properties ps) (s : Slot) (p : Position) :
    FindsNothing s p ps s := by
  by_cases he : ps = []
  · exact .inl ⟨he, rfl⟩
  · obtain ⟨kept, x, gap, hk, hx, hgap, hall⟩ := hps.exists_kept he
    exact .inr ⟨kept, x, gap, hk, hx, hgap, fun k gap' hg => .here (hall gap' hg)⟩

open Config in
/-- The parser comes to a place with no way left, from where a node follows or nothing does. -/
theorem exists_approach (c : Config) (u : Task) (d : List Tree) (fs : List Frame) (p : Position)
    (s : Slot) {xs : List Token} (hxs : ∀ y zs, xs = y :: zs → y.kind ≠ space) :
    ∃ g ys s', xs = g ++ ys ∧
      Leads ((c.facing (⟨u, d⟩ :: fs) p xs).await s)
        ((c.facing (⟨u, d ++ g.map .token⟩ :: fs) (p.advance (Token.join g)) ys).fillContent s') ∧
      Settles s p g s' ys := by
  -- By induction on the tokens ahead : each line break that is passed takes one at least.
  induction hn : xs.length using Nat.strongRecOn generalizing xs d p s with
  | _ n ih =>
    obtain ⟨ps, ys, rfl, hps, hys⟩ := exists_properties hxs
    have hfill : ((c.facing (⟨u, d⟩ :: fs) p (ps ++ ys)).await s).step =
        some
          ((c.facing (⟨u, d ++ ps.map .token⟩ :: fs) (p.advance (Token.join ps)) ys).fillContent
            s) := by
      rw [await_facing, fill, rest_facing, take_facing c u d fs p ps ys (hps.length_eq hys p)]
    have hempty := hps.findsNothing s p
    cases ys with
    | nil => exact ⟨ps, [], s, rfl, .of_step hfill, .inr ⟨hempty, .inl rfl⟩⟩
    | cons y zs =>
      -- At the end of the line the parser looks for a later line that starts far enough to the
      -- right, and begins anew there. Anything else is the node.
      by_cases hy : y.kind = lineBreak ∨ y.kind = comment
      · cases hlater : laterStart s (locate (p.advance (Token.join ps)) (y :: zs)) with
        | none =>
          exact ⟨ps, y :: zs, s, rfl, .of_step hfill, .inr ⟨hempty, .inr ⟨y, zs, rfl, hy, hlater⟩⟩⟩
        | some n =>
          obtain ⟨ts, w, ws, rfl, hts, hw, hcolumn⟩ := exists_of_laterStart hy hlater
          have hspace : ∀ z us, w :: ws = z :: us → z.kind ≠ space := by
            intro z us hz
            obtain ⟨rfl, -⟩ := List.cons.inj hz
            intro h
            rw [h] at hw
            cases hw.1
          have hbelow :=
            fillContent_below c u (d ++ ps.map .token) fs (p.advance (Token.join ps)) hy
            hts hw hcolumn ws
          obtain ⟨g, us, s', hg, hl, hend⟩ := ih (w :: ws).length (by
            rw [← hn]
            simp only [List.length_append, List.length_cons]
            omega) (d ++ ps.map .token ++ (y :: ts).map .token)
            ((p.advance (Token.join ps)).advance (Token.join (y :: ts))) ⟨s.minColumn, none, true⟩
            hspace rfl
          refine ⟨ps ++ (y :: ts ++ g), us, s', by rw [hg]; simp, ?_,
            hend.later hps hy hts hw.1 rfl hcolumn hg⟩
          have h := Leads.head hfill (hbelow ▸ hl)
          simpa [Position.advance_append] using h
      · refine ⟨ps, y :: zs, s, rfl, .of_step hfill, .inl ⟨y, zs, rfl, ?_, .here hps⟩⟩
        have := hys y zs rfl
        exact ⟨this.1, this.2, not_or.mp hy⟩

end YamlPatch
