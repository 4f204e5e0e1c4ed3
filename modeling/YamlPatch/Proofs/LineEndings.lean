import YamlPatch.Proofs.Commuting
import YamlPatch.Proofs.Partition

/-!
# Line endings are kept

A text may be written throughout with line feeds, or throughout with a carriage return before
each (`Text.BrokenBy`). The lexer cuts no line break in two, so the tokens of such a text are
written that way one by one (`Token.BrokenBy`). What is written into a document has no control
characters, line breaks of a block sequence apart, and these are like the first one of the
document.

There is a first one, because a block sequence that is the value of a key stands below the key
(`Tree.StandsBelow`). Writes may take away lines, but not that one, so `Tree.Tidy` is kept by
every write (`Tree.Rewrites.tidy`) and the documents that any run of writes makes have the line
endings of the text (`lineEndings_of_rewrites`).

The invariant is on trees, since what is written after a write is decided by the tree and not by
its text. `Tree.Tidy` says of one node what is needed, and `Tree.Every` that it holds of all
nodes of a document. A write replaces a tree in one place; all other nodes hold what they held,
but for those around the place, which are looked at one by one on the way to the root
(`Cursor.every_replace`).
-/

namespace YamlPatch

open TokenKind YamlPatch.Tree

/-! ## Texts

What is asked of a text is stated with the two neighbours of each break. So a text may be cut
and joined at every place that is not between a carriage return and its line feed. -/

namespace Text

/-- Line feeds stand behind carriage returns only, and carriage returns before line feeds. -/
def Paired (t : Text) : Prop :=
  (∀ l r, t = l ++ '\n' :: r → l.getLast? = some '\r') ∧
  ∀ l r, t = l ++ '\r' :: r → r.head? = some '\n'

/-- Every line break in the text is `nl`. -/
inductive BrokenBy (nl : Text) : Text → Prop where
  | nil : BrokenBy nl []
  | cons {c : Char} {t : Text} (hc : isBreakChar c = false) (h : BrokenBy nl t) :
      BrokenBy nl (c :: t)
  | lineBreak {t : Text} (h : BrokenBy nl t) : BrokenBy nl (nl ++ t)

namespace BrokenBy

variable {nl t u : Text}

/-- Two texts with such line breaks are one. -/
theorem append (h : BrokenBy nl t) (hu : BrokenBy nl u) : BrokenBy nl (t ++ u) := by
  induction h with
  | nil => exact hu
  | cons hc _ ih => exact .cons hc ih
  | lineBreak _ ih =>
    rw [List.append_assoc]
    exact .lineBreak ih

/-- The line break is one. -/
theorem newline (nl : Text) : BrokenBy nl nl := by
  have h : BrokenBy nl (nl ++ []) := lineBreak .nil
  rwa [List.append_nil] at h

/-- Without line breaks there is nothing to ask. -/
theorem of_forall (h : ∀ c ∈ t, isBreakChar c = false) : BrokenBy nl t := by
  induction t with
  | nil => exact .nil
  | cons c t ih => exact .cons (h c (by simp)) (ih fun d hd => h d (by simp [hd]))

/-- So it is without control characters. -/
theorem of_noControls (h : NoControls t) : BrokenBy nl t := of_forall fun c hc => by
  have hfeed : c ≠ '\n' := fun heq => h.not_mem (by decide) (heq ▸ hc)
  have hreturn : c ≠ '\r' := fun heq => h.not_mem (by decide) (heq ▸ hc)
  simp [isBreakChar, hfeed, hreturn]

/-- Spaces are no line breaks. -/
theorem spaces (n : Nat) : BrokenBy nl (List.replicate n ' ') :=
  of_forall fun _ hc => List.eq_of_mem_replicate hc ▸ by decide

/-- Texts that are joined by the line break have it, and others between them. -/
theorem joinWith {sep : Text} (hsep : BrokenBy nl sep) {ls : List Text}
    (h : ∀ l ∈ ls, BrokenBy nl l) : BrokenBy nl (Text.joinWith sep ls) := by
  induction ls with
  | nil => exact .nil
  | cons l ls ih =>
    have hl := h l (by simp)
    cases ls with
    | nil => exact hl
    | cons m ls =>
      rw [Value.joinWith_cons sep l (by simp)]
      exact (hl.append hsep).append (ih fun k hk => h k (List.mem_cons_of_mem l hk))

/-- What begins with a line feed is broken by line feeds. -/
theorem of_lineFeed (h : BrokenBy nl ('\n' :: t)) (hl : IsNewline nl) :
    nl = ['\n'] ∧ BrokenBy nl t := by
  generalize hu : '\n' :: t = u at h
  cases h with
  | nil => cases hu
  | cons hc => cases hu; cases hc
  | lineBreak h =>
    cases hl with
    | lf =>
      obtain ⟨-, rfl⟩ := List.cons.inj hu
      exact ⟨rfl, h⟩
    | crlf => simp at hu

/-- What begins with a carriage return goes on with a line feed. -/
theorem of_return (h : BrokenBy nl ('\r' :: t)) (hl : IsNewline nl) :
    nl = ['\r', '\n'] ∧ ∃ u, t = '\n' :: u ∧ BrokenBy nl u := by
  generalize hu : '\r' :: t = u at h
  cases h with
  | nil => cases hu
  | cons hc => cases hu; cases hc
  | @lineBreak u h =>
    cases hl with
    | lf => simp at hu
    | crlf =>
      obtain ⟨-, rfl⟩ := List.cons.inj hu
      exact ⟨rfl, u, rfl, h⟩

/-- A text may be cut where no line break is cut. -/
theorem of_append (h : BrokenBy nl (u ++ t)) (hl : IsNewline nl) (hu : EndsInLine u) :
    BrokenBy nl u ∧ BrokenBy nl t := by
  generalize hw : u ++ t = w at h
  -- By induction on the line breaks of the text, as far as the first part goes.
  induction h generalizing u with
  | nil =>
    obtain ⟨rfl, rfl⟩ := List.append_eq_nil_iff.mp hw
    exact ⟨.nil, .nil⟩
  | cons hc h ih =>
    cases u with
    | nil => exact ⟨.nil, by rw [List.nil_append] at hw; exact hw ▸ .cons hc h⟩
    | cons d u =>
      obtain ⟨rfl, htail⟩ := List.cons.inj hw
      exact (ih hu.of_cons htail).imp_left (.cons hc)
  | lineBreak h ih =>
    cases u with
    | nil => exact ⟨.nil, by rw [List.nil_append] at hw; exact hw ▸ .lineBreak h⟩
    | cons d u =>
      cases hl with
      | lf =>
        obtain ⟨rfl, htail⟩ := List.cons.inj hw
        exact (ih hu.of_cons htail).imp_left .lineBreak
      | crlf =>
        obtain ⟨rfl, htail⟩ := List.cons.inj hw
        cases u with
        | nil => exact absurd (hu '\r' rfl) (by decide)
        | cons e u =>
          obtain ⟨rfl, hrest⟩ := List.cons.inj htail
          exact (ih hu.of_cons.of_cons hrest).imp_left .lineBreak

end BrokenBy

/-- With line feeds throughout, a text has no carriage return. -/
theorem brokenBy_lf_iff {t : Text} : BrokenBy ['\n'] t ↔ '\r' ∉ t := by
  constructor
  · intro h
    induction h with
    | nil => simp
    | cons hc _ ih =>
      rintro (_ | ⟨_, hmem⟩)
      · cases hc
      · exact ih hmem
    | lineBreak _ ih => simpa using ih
  · intro h
    induction t with
    | nil => exact .nil
    | cons c t ih =>
      simp only [List.mem_cons, not_or] at h
      by_cases hc : c = '\n'
      · subst hc
        exact .lineBreak (ih h.2)
      · exact .cons (by simp [isBreakChar, hc, Ne.symm h.1]) (ih h.2)

namespace Paired

variable {t u : Text}

/-- Two texts in which they are paired are one. -/
theorem append (hu : Paired u) (ht : Paired t) : Paired (u ++ t) := by
  refine ⟨fun l r h => ?_, fun l r h => ?_⟩
  · rcases List.append_eq_append_iff.mp h with ⟨m, rfl, hm⟩ | ⟨m, rfl, hm⟩
    · rw [List.getLast?_append, ht.1 m r hm, Option.some_or]
    · cases m with
      | nil => cases ht.1 [] r hm.symm
      | cons d m =>
        obtain ⟨rfl, -⟩ := List.cons.inj hm
        exact hu.1 l m rfl
  · rcases List.append_eq_append_iff.mp h with ⟨m, rfl, hm⟩ | ⟨m, rfl, hm⟩
    · exact ht.2 m r hm
    · cases m with
      | nil => exact ht.2 [] r hm.symm
      | cons d m =>
        obtain ⟨rfl, hr⟩ := List.cons.inj hm
        rw [show r = m ++ t from hr, List.head?_append, hu.2 l m rfl, Option.some_or]

/-- The end of a text is paired if no pair is cut. -/
theorem of_append (h : Paired (u ++ t)) (hu : u.getLast? ≠ some '\r') : Paired t := by
  refine ⟨fun l r heq => ?_, fun l r heq => h.2 (u ++ l) r (by simp [heq])⟩
  have hlast := h.1 (u ++ l) r (by simp [heq])
  rw [List.getLast?_append] at hlast
  cases hl : l.getLast? with
  | none => exact absurd (by simpa [hl] using hlast) hu
  | some d => simpa [hl] using hlast

/-- A character that is neither is paired. -/
theorem singleton {c : Char} (hc : isBreakChar c = false) : Paired [c] := by
  simp only [isBreakChar, Bool.or_eq_false_iff, beq_eq_false_iff_ne] at hc
  constructor <;> intro l r h <;> cases l <;> simp_all

/-- The pair itself is. -/
theorem newline : Paired ['\r', '\n'] := by
  constructor <;> intro l r h
  · match l with
    | [] => simp at h
    | [d] =>
      obtain ⟨rfl, -⟩ := List.cons.inj h
      rfl
    | _ :: _ :: l => simp at h
  · match l with
    | [] =>
      obtain ⟨-, rfl⟩ := List.cons.inj h
      rfl
    | [d] => simp at h
    | _ :: _ :: l => simp at h

end Paired

/-- With a carriage return before each line feed, they are paired and stand nowhere else. -/
theorem brokenBy_crlf_iff {t : Text} : BrokenBy ['\r', '\n'] t ↔ Paired t := by
  constructor
  · intro h
    induction h with
    | nil => constructor <;> intro l r h <;> simp at h
    | cons hc _ ih => exact (Paired.singleton hc).append ih
    | lineBreak _ ih => exact Paired.newline.append ih
  · intro h
    induction hn : t.length using Nat.strong_induction_on generalizing t with
    | _ n ih =>
    match t with
    | [] => exact .nil
    | c :: u =>
      by_cases hreturn : c = '\r'
      · subst hreturn
        obtain ⟨u, rfl⟩ := List.head?_eq_some_iff.mp (h.2 [] u rfl)
        have hu : Paired u := h.of_append (u := ['\r', '\n']) (by simp)
        exact .lineBreak (ih u.length (by simp only [← hn, List.length_cons]; omega) hu rfl)
      · have hfeed : c ≠ '\n' := by
          rintro rfl
          cases h.1 [] u rfl
        have hu : Paired u := h.of_append (u := [c]) (by simpa using hreturn)
        exact .cons (by simp [isBreakChar, hfeed, hreturn]) (ih u.length (by simp [← hn]) hu rfl)

end Text

open Text

variable {nl : Text}

/-! ## Tokens

A line break is one token and other breaks are inside of quoted scalars and block scalars, none
of which is cut between the two characters. -/

/-- Every line break in the token is `nl`, and the token is `nl` if it is one. -/
structure Token.BrokenBy (nl : Text) (x : Token) : Prop where
  text : Text.BrokenBy nl x.text
  lineBreak : x.kind = lineBreak → x.text = nl

/-- Tokens with such line breaks make up a text with them. -/
theorem brokenBy_join {xs : List Token} (h : ∀ x ∈ xs, x.BrokenBy nl) :
    BrokenBy nl (Token.join xs) := by
  induction xs with
  | nil => exact .nil
  | cons x xs ih => exact (h x (by simp)).text.append (ih fun y hy => h y (by simp [hy]))

/-- A token is not cut off inside a line break. -/
theorem LexState.Reads.brokenBy {s : LexState} {x : Token} {t : Text} (h : s.Reads x t)
    (hl : IsNewline nl) (ht : BrokenBy nl (x.text ++ t)) : x.BrokenBy nl ∧ BrokenBy nl t := by
  obtain ⟨c, u, n, hu, hspans, htake, hdrop⟩ := h.exists_spans
  by_cases hk : x.kind = lineBreak
  · rw [hk] at hspans
    rw [hu] at ht
    suffices hx : x.text = nl ∧ BrokenBy nl t from ⟨⟨hx.1 ▸ .newline _, fun _ => hx.1⟩, hx.2⟩
    rw [hu]
    cases hspans with
    | lineFeed hc =>
      obtain rfl : u = [] := by simpa using htake.symm
      subst hc
      obtain ⟨rfl, ht⟩ := ht.of_lineFeed hl
      exact ⟨rfl, ht⟩
    | carriageReturn hc =>
      subst hc
      obtain ⟨rfl, v, hv, ht⟩ := ht.of_return hl
      rw [show u ++ t = '\n' :: v from hv] at htake hdrop
      exact ⟨by rw [← htake]; rfl, hdrop ▸ ht⟩
    | inLine hk => cases hk
  -- Other tokens end inside their line, so the cut behind them is in no line break. Only a quote
  -- that is never closed may end otherwise, and the text ends with it.
  · by_cases hq : x.kind = unterminated ∧ t = []
    · obtain ⟨-, rfl⟩ := hq
      rw [List.append_nil] at ht
      exact ⟨⟨ht, fun h => absurd h hk⟩, .nil⟩
    · have hend := hspans.endsInLine hk fun hkind => by
        rw [hdrop]
        exact fun ht => hq ⟨hkind, ht⟩
      rw [htake, ← hu] at hend
      exact (ht.of_append hl hend).imp_left fun hx => ⟨hx, fun h => absurd h hk⟩

/-- The tokens of a text have the line endings of the text. -/
theorem brokenBy_of_mem_lex {t : Text} (hl : IsNewline nl) (ht : BrokenBy nl t) :
    ∀ x ∈ lex t, x.BrokenBy nl := by
  suffices h : ∀ {s : LexState} {xs : List Token}, Cuts s xs [] → BrokenBy nl (Token.join xs) →
      ∀ x ∈ xs, x.BrokenBy nl from h (.of_lexFrom rfl) (by rwa [join_lex])
  intro s xs hxs ht
  induction xs generalizing s with
  | nil => simp
  | cons x xs ih =>
    obtain ⟨hx, hxs⟩ := Cuts.cases_cons hxs
    rw [List.append_nil] at hx
    obtain ⟨hbroken, ht⟩ := hx.brokenBy hl ht
    exact List.forall_mem_cons.mpr ⟨hbroken, ih hxs ht⟩

/-! ## Trees

What holds of a text as a whole holds of its tokens, and a property of all nodes in a tree tells
the same of the leaves. -/

/-- The value of a key, if it is a block sequence, has a line break before it. -/
def Tree.StandsBelow (ts : List Tree) : Prop :=
  ∀ l t r, ts = l ++ t :: r → (∀ u ∈ l, u.isContent = false) → t.isBlockSequence = true → HasBreak l

/-- Line breaks are `nl`, and a block sequence stands below its key. -/
def Tree.Tidy (nl : Text) : Tree → Prop
  | .token x => x.BrokenBy nl
  | .node .value ts => StandsBelow ts
  | .node _ _ => True

namespace Tree

variable {ts : List Tree} {t u : Tree}

/-- Only of the value of a key something is asked. -/
theorem tidy_of_ne {k : NodeKind} (hk : k ≠ .value) : (node k ts).Tidy nl := by
  cases k <;> trivial

mutual

/-- What holds of the leaves and of the nodes holds of the tree. -/
theorem Every.of_leaves {P Q : Tree → Prop} (hP : ∀ k ts, P (node k ts) → Q (node k ts)) :
    ∀ t : Tree, t.Every P → (∀ x ∈ t.leaves, Q (token x)) → t.Every Q
  | .token x, _, hx => every_token.mpr (hx x (by simp [leaves]))
  | .node k ts, h, hx =>
    every_node.mpr ⟨hP k ts h.self,
      EveryOf.of_leaves hP ts (every_node.mp h).2 (by simpa [leaves] using hx)⟩

/-- So it is with several trees. -/
theorem EveryOf.of_leaves {P Q : Tree → Prop} (hP : ∀ k ts, P (node k ts) → Q (node k ts)) :
    ∀ ts : List Tree, EveryOf P ts → (∀ x ∈ leavesOf ts, Q (token x)) → EveryOf Q ts
  | [], _, _ => everyOf_nil
  | t :: ts, h, hx =>
    have hx := List.forall_mem_append.mp hx
    everyOf_cons.mpr ⟨Every.of_leaves hP t (everyOf_cons.mp h).1 hx.1,
      EveryOf.of_leaves hP ts (everyOf_cons.mp h).2 hx.2⟩

end

mutual

/-- What holds of all trees in a tree holds of its leaves. -/
theorem Every.forall_leaves {P : Tree → Prop} : ∀ t : Tree, t.Every P → ∀ x ∈ t.leaves, P (token x)
  | .token x, h => by simpa [leaves] using h
  | .node k ts, h => by simpa [leaves] using EveryOf.forall_leaves ts (every_node.mp h).2

/-- So it is with several trees. -/
theorem EveryOf.forall_leaves {P : Tree → Prop} :
    ∀ ts : List Tree, EveryOf P ts → ∀ x ∈ leavesOf ts, P (token x)
  | [], _ => by simp [leavesOf]
  | t :: ts, h => List.forall_mem_append.mpr
    ⟨Every.forall_leaves t (everyOf_cons.mp h).1, EveryOf.forall_leaves ts (everyOf_cons.mp h).2⟩

end

/-- The text of a tidy document is broken so. -/
theorem Every.brokenBy_text (h : t.Every (Tidy nl)) : BrokenBy nl t.text :=
  brokenBy_join h.forall_leaves

/-- The line breaks among its leaves are those of the document. -/
theorem Every.breaksAs (h : t.Every (Tidy nl)) : BreaksAs nl t.leaves :=
  fun x hx => (h.forall_leaves t x hx).lineBreak

/-- What holds of all trees in a tree holds of those in a child. -/
theorem Every.child {P : Tree → Prop} (h : t.Every P) (hu : u ∈ t.children) : u.Every P := by
  cases t with
  | token x => simp [children] at hu
  | node k ts => exact everyOf_iff.mp (every_node.mp h).2 u hu

end Tree

/-- What holds of all trees in the tree of a text holds of those in a sequence that is read from
it. -/
theorem every_of_readSequence {P : Tree → Prop} {t : Text} {s : Tree} (h : (parse t).tree.Every P)
    (hs : readSequence t = .ok s) : s.kind? = some .sequence ∧ s.Every P := by
  unfold readSequence at hs
  split at hs
  · cases hs
  · rename_i tree htree
    split at hs
    · rename_i u hu
      cases hs
      have hparse : (parse t).tree = tree := (parseStrict_eq_ok.mp htree).2
      obtain ⟨hu, hk⟩ := Option.filter_eq_some_iff.mp hu
      obtain ⟨d, hd, hcontent⟩ := Option.bind_eq_some_iff.mp hu
      have hdocument := (hparse ▸ h).child (List.mem_of_find?_eq_some hd)
      exact ⟨by simpa [isNode] using hk, hdocument.child (List.mem_of_find?_eq_some hcontent)⟩
    · cases hs

/-- The tree of a text has the line endings of the text. -/
theorem tidy_parse {t : Text} (hl : IsNewline nl) (ht : BrokenBy nl t) :
    (parse t).tree.Every (Tidy nl) := by
  refine .of_leaves (fun k ts h => ?_) _ (parse_hanging t) ?_
  · by_cases hk : k = .value
    · subst hk
      exact fun l u r heq _ hblock => h l u r heq hblock
    · exact tidy_of_ne hk
  · rw [leaves_parse]
    exact brokenBy_of_mem_lex hl ht

/-- So has a sequence that is read from it. -/
theorem tidy_of_readSequence {t : Text} {s : Tree} (hl : IsNewline nl) (ht : BrokenBy nl t)
    (hs : readSequence t = .ok s) : s.kind? = some .sequence ∧ s.Every (Tidy nl) :=
  every_of_readSequence (tidy_parse hl ht) hs

/-! ## Writes

Of all that a write may put into the document only block sequences have line breaks. They get
the one that the document begins with. -/

namespace Tree

/-- A block sequence is content. -/
theorem isContent_of_isBlockSequence {t : Tree} (h : t.isBlockSequence = true) :
    t.isContent = true := by
  simp only [isBlockSequence, isNode, Bool.and_eq_true, beq_iff_eq] at h
  simp [isContent, h.1, NodeKind.isContent]

/-- The value of a key that is no block sequence may stand anywhere. -/
theorem standsBelow_of_content {ls rs : List Tree} {t : Tree} (hl : ∀ u ∈ ls, u.isContent = false)
    (ht : t.isContent = true) (hb : t.isBlockSequence = false) : StandsBelow (ls ++ t :: rs) := by
  intro l u r heq hl' hu
  obtain ⟨-, rfl, -⟩ := eq_of_append_cons heq hl ht hl' (isContent_of_isBlockSequence hu)
  cases hu.symm.trans hb

/-- A tree of the same kind may stand where a tree stands. -/
theorem StandsBelow.replace {ls rs : List Tree} {t x : Tree} {k : NodeKind}
    (h : StandsBelow (ls ++ t :: rs)) (ht : t.kind? = some k) (hx : x.kind? = some k)
    (hb : x.isBlockSequence = true → t.isBlockSequence = true) : StandsBelow (ls ++ x :: rs) := by
  have hcontent : x.isContent = t.isContent := by rw [isContent, isContent, ht, hx]
  intro l u r heq hl hu
  -- The block sequence in question stands behind the tree, in its place, or before it.
  rcases List.append_eq_append_iff.mp heq with ⟨m, rfl, hm⟩ | ⟨m, rfl, hm⟩
  · cases m with
    | nil =>
      obtain ⟨rfl, rfl⟩ := List.cons.inj hm
      rw [List.append_nil] at hl ⊢
      exact h ls t rs rfl hl (hb hu)
    | cons v m =>
      obtain ⟨rfl, rfl⟩ := List.cons.inj hm
      have hl' : ∀ v ∈ ls ++ t :: m, v.isContent = false := by
        simp only [List.mem_append, List.mem_cons] at hl ⊢
        rintro v (hv | rfl | hv)
        · exact hl v (.inl hv)
        · exact hcontent ▸ hl x (.inr (.inl rfl))
        · exact hl v (.inr (.inr hv))
      obtain ⟨w, hw, hbreak⟩ := h (ls ++ t :: m) u r (by simp) hl' hu
      refine ⟨w, ?_, hbreak⟩
      simp only [List.mem_append, List.mem_cons] at hw ⊢
      rcases hw with hw | rfl | hw
      · exact .inl hw
      · cases w with
        | token y => cases ht
        | node => cases hbreak
      · exact .inr (.inr hw)
  · cases m with
    | nil =>
      obtain ⟨rfl, rfl⟩ := List.cons.inj hm
      exact h l t r (by simp) hl (hb hu)
    | cons v m =>
      obtain ⟨rfl, rfl⟩ := List.cons.inj hm
      exact h l u (m ++ t :: rs) (by simp) hl hu

end Tree

namespace Cursor

variable {c slot d : Cursor} {x : Tree}

/-- What holds of all trees in a document still does when a tree in it is replaced, if the new
tree may stand for the old one under every node. -/
theorem every_replace {P : Tree → Prop} {R : Tree → Tree → Prop}
    (hR : ∀ (b : Crumb) (t x : Tree), R t x → P (b.fill t) → P (b.fill x) ∧ R (b.fill t) (b.fill x))
    (h : c.rebuild.Every P) (hx : x.Every P) (hc : R c.focus x) :
    (c.replace x).rebuild.Every P := by
  obtain ⟨t, bs⟩ := c
  induction bs generalizing t x with
  | nil => exact hx
  | cons b bs ih =>
    obtain ⟨hself, hts⟩ := every_node.mp (every_focus (c := ⟨b.fill t, bs⟩) h)
    obtain ⟨hfill, hrole⟩ := hR b t x hc hself
    have hts := everyOf_append.mp hts
    refine ih (x := b.fill x) (t := b.fill t) ?_ h hrole
    exact every_node.mpr ⟨hfill,
      everyOf_append.mpr ⟨hts.1, everyOf_cons.mpr ⟨hx, (everyOf_cons.mp hts.2).2⟩⟩⟩

/-- With a tree of the same kind in a place of it a document is as tidy as before, unless the
tree is a block sequence and has come where there was none. -/
theorem tidy_replace (h : c.rebuild.Every (Tidy nl)) (hx : x.Every (Tidy nl)) {k : NodeKind}
    (hc : c.focus.kind? = some k) (hk : x.kind? = some k)
    (hb : x.isBlockSequence = true → c.focus.isBlockSequence = true) :
    (c.replace x).rebuild.Every (Tidy nl) := by
  refine every_replace (R := fun t x => ∃ k, t.kind? = some k ∧ x.kind? = some k ∧
    (x.isBlockSequence = true → t.isBlockSequence = true)) ?_ h hx ⟨k, hc, hk, hb⟩
  rintro ⟨n, ls, rs⟩ t x ⟨k, hc, hk, hb⟩ hself
  refine ⟨?_, n, rfl, rfl, ?_⟩
  · by_cases hn : n = .value
    · subst hn
      exact StandsBelow.replace hself hc hk hb
    · exact tidy_of_ne hn
  · -- what begins the node is the same, or no bracket
    have htoken {u : Tree} (hu : u.kind? = some k) : u.isToken leftBracket = false := by
      cases u with
      | token y => cases hu
      | node => rfl
    cases ls <;> simp [Crumb.fill, isBlockSequence, isNode, kind?, children, htoken hc, htoken hk]

/-- What holds of the trees around a place, and of the place with a tree put in it, holds of all
trees in it. -/
theorem every_insertBetween {P : Tree → Prop} {left right : List Tree} {new : Tree}
    (hself : P (slot.insertBetween left right new)) (hspace : P space)
    (hleft : ∀ t ∈ left, t.Every P) (hright : ∀ t ∈ right, t.Every P) (hnew : new.Every P) :
    (slot.insertBetween left right new).Every P := by
  obtain ⟨l, m, g, g', rfl, hg, hg', heq⟩ := slot.insertBetween_eq left right new
  have hgap {g : List Tree} (hg : IsGap g) : EveryOf P g := by
    rcases hg with rfl | rfl
    · exact everyOf_nil
    · exact everyOf_cons.mpr ⟨every_token.mpr hspace, everyOf_nil⟩
  obtain ⟨hl, hm⟩ := everyOf_append.mp (everyOf_iff.mpr hleft)
  rw [heq] at hself ⊢
  have hbehind := everyOf_append.mpr ⟨hgap hg', everyOf_append.mpr ⟨hm, everyOf_iff.mpr hright⟩⟩
  exact every_node.mpr ⟨hself,
    everyOf_append.mpr ⟨everyOf_append.mpr ⟨hl, hgap hg⟩, everyOf_cons.mpr ⟨hnew, hbehind⟩⟩⟩

/-- A place with something put in it is tidy if that is, and if it is the only content there. -/
theorem tidy_insertBetween {left right : List Tree} {new : Tree}
    (hleft : ∀ t ∈ left, t.Every (Tidy nl) ∧ t.isContent = false)
    (hright : ∀ t ∈ right, t.Every (Tidy nl)) (hnew : new.Every (Tidy nl))
    (hcontent : new.isContent = true) (hblock : new.isBlockSequence = false) :
    (slot.insertBetween left right new).Every (Tidy nl) := by
  have hspace : Tidy nl space := ⟨.spaces 1, nofun⟩
  refine every_insertBetween ?_ hspace (fun t ht => (hleft t ht).1) hright hnew
  obtain ⟨l, m, g, g', rfl, hg, -, heq⟩ := slot.insertBetween_eq left right new
  rw [heq]
  refine standsBelow_of_content
    (List.forall_mem_append.mpr ⟨fun t ht => (hleft t (by simp [ht])).2, ?_⟩) hcontent hblock
  rcases hg with rfl | rfl
  · simp
  · exact fun t ht => List.mem_singleton.mp ht ▸ rfl

end Cursor

/-- What is written has the line endings of the document, all of which it has. -/
theorem Atom.Made.tidy_tree {a : Atom} (ha : a.Made) (hl : IsNewline nl) :
    a.tree.Every (Tidy nl) := by
  refine every_node.mpr ⟨trivial,
    everyOf_iff.mpr (List.forall_mem_map.mpr fun x hx => every_token.mpr ?_)⟩
  exact brokenBy_of_mem_lex hl (.of_noControls ha.noControls) x hx

/-- A sequence on one line has no line breaks. -/
theorem Value.tidy_flowTree {vs : List Value} (hv : AllMade vs) (hl : IsNewline nl) :
    (sequence vs).flowTree.Every (Tidy nl) :=
  (tidy_of_readSequence hl (.of_noControls (noControls_flow (sequence vs) hv))
    (readSequence_flow hv)).2

namespace Cursor

variable {c slot d : Cursor}

/-- The line break before a block sequence tells which line breaks the document has. -/
theorem hasReturns_of_tidy (h : slot.rebuild.Every (Tidy nl))
    (hvalue : slot.focus.isNode .value = true) (hc : slot.content? = some d)
    (hd : d.focus.isBlockSequence = true) : d.rebuild.hasReturns = (nl == ['\r', '\n']) := by
  obtain ⟨k, l, r, hslot, -, -, hnone, -⟩ := step?_eq_some (content?_eq slot ▸ hc)
  obtain rfl : k = .value := by simpa [hslot, isNode, kind?] using hvalue
  have hbelow : StandsBelow (l ++ d.focus :: r) := (every_node.mp (hslot ▸ every_focus h)).1
  obtain ⟨u, hu, hbreak⟩ := hbelow l d.focus r rfl hnone hd
  rw [rebuild_content? hc]
  refine hasReturns_eq h.breaksAs ?_
  cases u with
  | node k us => cases hbreak
  | token y =>
    refine ⟨y, mem_leaves_rebuild ?_, by simpa [isToken, tokenKind?] using hbreak⟩
    rw [hslot]
    exact mem_leaves_node.mpr ⟨token y, by simp [hu], by simp [leaves]⟩

/-- A new sequence has the line endings of the document. -/
theorem tidy_newSequence (hl : IsNewline nl) (h : slot.rebuild.Every (Tidy nl))
    (hvalue : slot.focus.isNode .value = true) (hc : slot.content? = some d)
    (hk : d.focus.kind? = some .sequence) {vs : List Value} (hv : Value.AllMade vs)
    (hne : d.focus.isFlow = true ∨ vs ≠ []) {s : Tree}
    (hs : readSequence (d.newSequenceText vs) = .ok s) :
    s.kind? = some .sequence ∧ s.Every (Tidy nl) ∧
    (s.isBlockSequence = true → d.focus.isBlockSequence = true) := by
  have hnew : Value.AllMade (Value.styledLike d.focus.itemStyles vs) := hv.styledLike _
  cases hf : d.focus.isFlow with
  | true =>
    have hflow : readSequence (d.newSequence vs).flow = .ok s := by
      simpa [newSequenceText, hf] using hs
    obtain rfl := Except.ok.inj (hflow.symm.trans (Value.readSequence_flow hnew))
    exact ⟨rfl, Value.tidy_flowTree hnew hl, fun hb => absurd hb Bool.false_ne_true⟩
  | false =>
    have hblock := isBlockSequence_of_not_isFlow hk hf
    have hmade : (d.newSequence vs).Made := hnew
    obtain ⟨-, hlines⟩ := d.isBlock_newSequence (hne.resolve_left (by simp [hf]))
    have htext := blockText_eq hl (hasReturns_of_tidy h hvalue hc hblock) hmade hlines
    have hbroken : BrokenBy nl (d.newSequenceText vs) := by
      rw [newSequenceText, hf, if_neg Bool.false_ne_true, htext, Value.text_blockTree]
      exact .append (.spaces _) (.joinWith (.append (.newline nl) (.spaces _))
        fun l hmem => .of_noControls (Value.noControls_blockLines _ hmade l hmem))
    obtain ⟨hkind, htidy⟩ := tidy_of_readSequence hl hbroken hs
    exact ⟨hkind, htidy, fun _ => hblock⟩

/-- A document is as tidy after a write as it was before. -/
theorem Written.tidy {v : Value} {t : Tree} (hw : slot.Written v t) (hv : v.Made)
    (hl : IsNewline nl) (hvalue : slot.focus.isNode .value = true)
    (h : slot.rebuild.Every (Tidy nl)) : t.Every (Tidy nl) := by
  have hslot : slot.focus.kind? = some .value := by simpa [isNode] using hvalue
  have hfocus := every_focus h
  -- A value that is tidy may be put in place of the old one, whatever it holds.
  have hfilled {x : Tree} (hx : x.Every (Tidy nl)) (hk : x.kind? = some .value) :
      (slot.replace x).rebuild.Every (Tidy nl) :=
    tidy_replace h hx hslot hk fun hb => by simp [isBlockSequence, isNode, hk] at hb
  -- Where there was no content, what is put in is the only content, and no block sequence.
  have hlast {new : Tree} (hc : slot.content? = none) (hnew : new.Every (Tidy nl))
      (hcontent : new.isContent = true)
      (hblock : new.isBlockSequence = false) :
        (slot.replace (slot.insertLast new)).rebuild.Every (Tidy nl) := by
    have hchildren := isContent_of_content?_eq_none hc
    exact hfilled (tidy_insertBetween (fun u hu => ⟨hfocus.child hu, hchildren u hu⟩)
      (by simp) hnew hcontent hblock) rfl
  cases hw with
  | fillAtom hc a => exact hlast hc (Atom.Made.tidy_tree hv hl) rfl rfl
  | fillSequence hc hs =>
    obtain rfl := Except.ok.inj (hs.symm.trans (Value.readSequence_flow hv))
    exact hlast hc (Value.tidy_flowTree hv hl) rfl rfl
  | @scalar content hc hk a =>
    have hnew : (a.styledLike (Scalar.style content.focus)).Made :=
      (show a.Made from hv).styledLike _
    exact tidy_replace (rebuild_content? hc ▸ h) (hnew.tidy_tree hl) hk rfl fun hb =>
      absurd hb Bool.false_ne_true
  | sequence hc hk hne hs =>
    obtain ⟨hkind, htidy, hblock⟩ := tidy_newSequence hl h hvalue hc hk hv hne hs
    exact tidy_replace (rebuild_content? hc ▸ h) htidy hk hkind hblock
  | @emptied content hc hk hf s hs =>
    obtain rfl := Except.ok.inj (hs.symm.trans Value.readSequence_nil)
    obtain ⟨left, right, heq, hleft, hright⟩ := exists_insertEmptied hc (Value.sequence []).flowTree
    rw [heq]
    refine hfilled (tidy_insertBetween (fun u hu => ?_) (fun u hu => hfocus.child (hright u hu))
      (Value.tidy_flowTree trivial hl) rfl rfl) rfl
    exact ⟨hfocus.child (hleft u hu).1, (hleft u hu).2⟩

/-- What is set at a path is written into a place of the document, or nothing is changed. -/
theorem written_of_set {p : KeyPath} {v : Value} {m : MissingPolicy} {t : Tree}
    (h : c.set p v m = .ok t) :
    (∃ slot : Cursor, slot.rebuild = c.rebuild ∧ slot.focus.isNode .value = true ∧
      slot.Written v t) ∨ t = c.rebuild := by
  unfold set at h
  split at h
  · rename_i u _ hput
    cases h
    obtain ⟨slot, hslot, hvalue, hw⟩ := written_of_put hput
    exact .inl ⟨slot, rebuild_follow? (c.slot_eq p ▸ hslot), hvalue, hw⟩
  · cases h
  · cases h
    exact .inr rfl
  · cases h
  · cases h

/-- A write keeps a document tidy. -/
theorem tidy_of_set {p : KeyPath} {v : Value} {m : MissingPolicy} {t : Tree} (hv : v.Made)
    (hl : IsNewline nl) (h : c.rebuild.Every (Tidy nl)) (hset : c.set p v m = .ok t) :
    t.Every (Tidy nl) := by
  rcases written_of_set hset with ⟨slot, hrebuild, hvalue, hw⟩ | rfl
  · exact hw.tidy hv hl hvalue (hrebuild ▸ h)
  · exact h

end Cursor

/-! ## Runs of writes

By induction on the run. A write may begin at any place of the document that those before it
have left. -/

/-- The first document is made into the second by writes, at paths from anywhere in it or over
scalars. -/
inductive Tree.Rewrites : Tree → Tree → Prop where
  | refl (t : Tree) : Rewrites t t
  | set {t u w : Tree} (h : Rewrites t u) {c : Cursor} (hc : c.rebuild = u) {p : KeyPath}
      {v : Value} (hv : v.Made) {m : MissingPolicy} (hset : c.set p v m = .ok w) : Rewrites t w
  | setScalar {t u : Tree} (h : Rewrites t u) {c : Cursor} (hc : c.rebuild = u)
      (hk : c.focus.isNode .scalar = true) {a : Atom} (ha : a.Made) :
      Rewrites t (c.setScalar a).rebuild

/-- So does any run of writes. -/
theorem Tree.Rewrites.tidy {t u : Tree} (h : Rewrites t u) (hl : IsNewline nl)
    (ht : t.Every (Tidy nl)) : u.Every (Tidy nl) := by
  induction h with
  | refl => exact ht
  | set _ hc hv hset ih => exact Cursor.tidy_of_set hv hl (hc ▸ ih) hset
  | setScalar _ hc hk ha ih =>
    exact Cursor.tidy_replace (hc ▸ ih) (ha.tidy_tree hl) (by simpa [isNode] using hk) rfl
      fun hb => absurd hb Bool.false_ne_true

/-- So are the writes of a plan, up to the one that fails. -/
theorem Tree.Rewrites.applyUpdates {t u : Tree} (h : Rewrites t u) {us : List Release.Update}
    (hus : ∀ a ∈ us, a.value.Made) (m : MissingPolicy) :
    Rewrites t (Release.Plan.applyUpdates m us u).1 := by
  induction us generalizing u with
  | nil => exact h
  | cons a us ih =>
    obtain ⟨ha, hus⟩ := List.forall_mem_cons.mp hus
    rw [Release.Plan.applyUpdates]
    split
    · rename_i w hw
      exact ih (h.set rfl ha hw) hus
    · exact h

/-- However often a document is written to, its line endings stay as they were. -/
theorem lineEndings_of_rewrites {t : Text} {u : Tree} (h : (parse t).tree.Rewrites u) :
    (t.Paired → u.text.Paired) ∧ ('\r' ∉ t → '\r' ∉ u.text) := by
  have hkept {nl : Text} (hl : IsNewline nl) (ht : BrokenBy nl t) : BrokenBy nl u.text :=
    (h.tidy hl (tidy_parse hl ht)).brokenBy_text
  rw [← brokenBy_crlf_iff, ← brokenBy_crlf_iff, ← brokenBy_lf_iff, ← brokenBy_lf_iff]
  exact ⟨hkept .crlf, hkept .lf⟩

/-- A list with two items in place of one, and a value where there was none. -/
theorem lineEndings_of_rewrites_list :
    let t : Text := "a:\r\n  - x\r\nb: # c".toList
    t.Paired ∧ ∃ u, (parse t).tree.Rewrites u ∧ u.text = "a:\r\n  - u\r\n  - v\r\nb: w # c".toList ∧
      (t.Paired → u.text.Paired) ∧ ('\r' ∉ t → '\r' ∉ u.text) := by
  intro t
  let us : List Release.Update :=
    [⟨⟨[['a']], by simp⟩, .sequence [.ofText ['u'], .ofText ['v']]⟩,
      ⟨⟨[['b']], by simp⟩, .ofText ['w']⟩]
  have hpaired : t.Paired := by
    refine brokenBy_crlf_iff.mp ?_
    repeat first | exact .nil | refine .cons rfl ?_ | refine .lineBreak ?_
  have hus : ∀ a ∈ us, a.value.Made := by
    simp only [us, List.forall_mem_cons]
    exact ⟨⟨.ofText _, .ofText _, trivial⟩, .ofText _, by simp⟩
  have hrun : (parse t).tree.Rewrites (Release.Plan.applyUpdates .error us (parse t).tree).1 :=
    (Rewrites.refl _).applyUpdates hus .error
  exact ⟨hpaired, _, hrun, by decide +kernel, lineEndings_of_rewrites hrun⟩

end YamlPatch
