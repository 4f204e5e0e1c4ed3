import YamlPatch.Patch.Lookup

/-!
# The way down to a field

A field is found by a chain of choices : the first document of a stream, its root, the first
entry with a key, the place for its value, the content of that place. `Step` names one choice,
`Tree.follow?` makes a chain of them, and `Cursor.follow?` does so with the surroundings kept.
The lookups are such chains (`Cursor.entry?_eq`).

`Swapped x x' ss t t'` says that the chain `ss` leads from `t` to `x`, and that `t'` is `t` with
`x'` in that place. If `x'` plays the same role as `x` then the chain leads from `t'` to `x'`
(`Swapped.follow?_append`), and every chain that parts from it at a key leads to the same tree
as before (`Swapped.follow?_of_parts`).

A step looks at the children from left to right and takes the first that it looks for. With
another tree in the place of one child, an earlier child is not looked for by any step that
passed it before, and the tree itself is looked for if and only if the old one was : that is
what the role of a tree stands for. It is read from the kind of a node, and of an entry also
from its key.
-/

namespace YamlPatch

open YamlPatch.Tree

/-! ## Steps

A step goes from a node to the first child that it picks, if the node admits it. Which node it
is does not matter beyond its kind and, for entries, its key. -/

/-- One choice on the way down. -/
inductive Step where
  | document
  | entry (key : Text)
  | value
  | content
  deriving DecidableEq

namespace Step

/-- Only a mapping is searched for a key. -/
def admits : Step → Tree → Bool
  | entry _, t => t.isNode .mapping
  | _, _ => true

/-- What is looked for among the children. -/
def picks : Step → Tree → Bool
  | document => isNode .document
  | entry k => isEntryOf k
  | value => isNode .value
  | content => isContent

/-- No step leads to a key. -/
theorem not_key_of_picks {s : Step} {t : Tree} (h : s.picks t = true) : t.isNode .key = false := by
  cases s <;> simp only [picks, isEntryOf, isContent, isNode, Bool.and_eq_true, beq_iff_eq] at h ⊢
  · simp [h]
  · simp [h.1]
  · simp [h]
  · split at h
    · rename_i k hk
      rw [hk]
      cases k <;> first | exact absurd h Bool.false_ne_true | rfl
    · cases h

end Step

namespace Tree

/-- The first child that the step looks for. -/
def step? (t : Tree) (s : Step) : Option Tree :=
  if s.admits t then t.children.find? s.picks else none

/-- The tree that the steps lead to. -/
def follow? : List Step → Tree → Option Tree
  | [], t => some t
  | s :: ss, t => (t.step? s).bind (follow? ss)

end Tree

namespace Cursor

/-- The first child that the step looks for, with its surroundings. -/
def step? (c : Cursor) (s : Step) : Option Cursor :=
  if s.admits c.focus then c.child? s.picks 0 else none

/-- The place that the steps lead to. -/
def follow? : List Step → Cursor → Option Cursor
  | [], c => some c
  | s :: ss, c => (c.step? s).bind (follow? ss)

/-- Steps are followed one after the other. -/
theorem follow?_append (ss ts : List Step) (c : Cursor) :
    follow? (ss ++ ts) c = (follow? ss c).bind (follow? ts) := by
  induction ss generalizing c with
  | nil => rfl
  | cons s ss ih =>
    have ih : follow? (ss ++ ts) = fun u => (follow? ss u).bind (follow? ts) := funext ih
    simp [follow?, Option.bind_assoc, ih]

/-- The first child that is looked for does not depend on the surroundings. -/
theorem focus_child?_zero (c : Cursor) (p : Tree → Bool) :
    (c.child? p 0).map focus = c.focus.children.find? p := by
  unfold child?
  cases c.focus with
  | token => rfl
  | node k ts => simp [Tree.children, Function.comp_def, map_pick?_zero]

/-- So where a step leads does not depend on them either. -/
theorem focus_step? (c : Cursor) (s : Step) : (c.step? s).map focus = c.focus.step? s := by
  unfold step? Tree.step?
  split
  · exact c.focus_child?_zero s.picks
  · rfl

/-- Where the steps lead is decided by the focus. -/
theorem focus_follow? (ss : List Step) (c : Cursor) :
    (c.follow? ss).map focus = c.focus.follow? ss := by
  induction ss generalizing c with
  | nil => rfl
  | cons s ss ih =>
    rw [follow?, Tree.follow?, ← focus_step?]
    cases c.step? s with
    | none => rfl
    | some d => simpa using ih d

end Cursor

/-! ## Lookups

Each way of looking things up is a list of steps : to the root, to an entry and its value, along
a path. -/

/-- The steps to the tree in which the first key is looked up. -/
def rootSteps : Option NodeKind → List Step
  | some .stream => [.document, .content]
  | some .document => [.content]
  | _ => []

/-- The steps to the entry of the last key. -/
def entrySteps : List Text → List Step
  | [] => []
  | [k] => [.entry k]
  | k :: ks => .entry k :: .value :: .content :: entrySteps ks

/-- The steps to the place for the value at a path. -/
def KeyPath.steps (p : KeyPath) (k : Option NodeKind) : List Step :=
  rootSteps k ++ entrySteps p.keys ++ [.value]

namespace Cursor

/-- The place for the value of an entry is a step away. -/
theorem slot?_eq (c : Cursor) : c.slot? = c.step? .value := rfl

/-- So is the content of a place. -/
theorem content?_eq (c : Cursor) : c.content? = c.step? .content := rfl

/-- Following one step is that step. -/
theorem follow?_singleton (s : Step) : follow? [s] = fun c => c.step? s := by
  funext c
  simp [follow?]

/-- The root is found by the steps for the kind of tree that the search starts from. -/
theorem root?_eq (c : Cursor) : c.root? = c.follow? (rootSteps c.focus.kind?) := by
  have hstream : (c.document? 0).bind content? = c.follow? [.document, .content] := by
    rw [follow?, follow?_singleton]
    rfl
  have hdocument : c.content? = c.follow? [.content] := by
    rw [follow?_singleton]
    rfl
  unfold root?
  cases hk : c.focus.kind? with
  | none => rfl
  | some k =>
    cases k <;> first | exact hstream | exact hdocument | rfl

/-- The entry with a key is a step away from its mapping. -/
theorem member?_eq (c : Cursor) (k : Text) : c.member? k = c.step? (.entry k) := rfl

/-- The entry at a path of keys is found by the steps for these keys. -/
theorem entryAt?_eq {ks : List Text} (hne : ks ≠ []) (c : Cursor) :
    c.entryAt? ks = c.follow? (entrySteps ks) := by
  induction ks generalizing c with
  | nil => exact absurd rfl hne
  | cons k ks ih =>
    cases ks with
    | nil => simp [entryAt?, entrySteps, follow?, member?_eq]
    | cons l ls =>
      have ih := ih (by simp)
      simp only [entryAt?, entrySteps, follow?, member?_eq, value?, slot?_eq, content?_eq,
        Option.bind_assoc]
      congr 1
      funext d
      congr 1
      funext e
      congr 1
      funext f
      exact ih f

/-- Behind other keys the last ones are looked up in their value. -/
theorem entryAt?_append {ks ls : List Text} (hks : ks ≠ []) (hls : ls ≠ []) (c : Cursor) :
    c.entryAt? (ks ++ ls) = ((c.entryAt? ks).bind value?).bind fun d => d.entryAt? ls := by
  induction ks generalizing c with
  | nil => exact absurd rfl hks
  | cons k ks ih =>
    cases ks with
    | nil =>
      obtain ⟨l, ls, rfl⟩ := List.exists_cons_of_ne_nil hls
      rfl
    | cons m ms =>
      have ih := ih (by simp)
      simp only [List.cons_append] at ih
      simp only [List.cons_append, entryAt?, ih, Option.bind_assoc]

/-- The entry at a path, found by following steps. -/
theorem entry?_eq (c : Cursor) (p : KeyPath) :
    c.entry? p = c.follow? (rootSteps c.focus.kind? ++ entrySteps p.keys) := by
  have hentry : (fun d => entryAt? d p.keys) = follow? (entrySteps p.keys) :=
    funext fun d => entryAt?_eq p.keys_ne_nil d
  rw [follow?_append, ← root?_eq, entry?, hentry]

/-- The place for the value at a path, found by following its steps. -/
theorem slot_eq (c : Cursor) (p : KeyPath) :
    (c.entry? p).bind slot? = c.follow? (p.steps c.focus.kind?) := by
  rw [KeyPath.steps, follow?_append, ← entry?_eq, follow?_singleton]
  rfl

/-- The value at a path is the content of its place. -/
theorem find?_eq (c : Cursor) (p : KeyPath) :
    c.find? p = (c.follow? (p.steps c.focus.kind?)).bind content? := by
  rw [← slot_eq, find?, Option.bind_assoc]
  rfl

end Cursor

/-! ## Swapping a tree

A swap changes one tree below a node. The nodes on the way keep their role, so steps that lead
elsewhere find what they found. -/

/-- The trees are picked by the same steps and admit the same steps. -/
structure SameRole (t t' : Tree) : Prop where
  kind : t'.kind? = t.kind?
  key : t.isNode .entry = true → t'.keyText? = t.keyText?

namespace SameRole

variable {t t' : Tree}

/-- Trees of the same role are of the same kind. -/
theorem isNode (h : SameRole t t') (k : NodeKind) : t'.isNode k = t.isNode k := by
  simp [Tree.isNode, h.kind]

/-- They admit the same steps. -/
theorem admits (h : SameRole t t') (s : Step) : s.admits t' = s.admits t := by
  cases s <;> simp [Step.admits, h.isNode]

/-- They are picked by the same steps. -/
theorem picks (h : SameRole t t') (s : Step) : s.picks t' = s.picks t := by
  cases s with
  | entry k =>
    cases he : t.isNode .entry with
    | false => simp [Step.picks, isEntryOf, h.isNode, he]
    | true => simp [Step.picks, isEntryOf, h.isNode, he, h.key he]
  | content => simp [Step.picks, isContent, h.kind]
  | _ => simp [Step.picks, h.isNode]

/-- Nodes of one kind that is no entry play the same role. -/
theorem of_kind {k : NodeKind} (ht : t.kind? = some k) (ht' : t'.kind? = some k) (hk : k ≠ .entry) :
    SameRole t t' where
  kind := ht'.trans ht.symm
  key he := by simp [Tree.isNode, ht, hk] at he

/-- The role of a node does not change with a child that is no key. -/
theorem node (h : SameRole t t') (hkey : t.isNode .key = false) (k : NodeKind) (l r : List Tree) :
    SameRole (.node k (l ++ t :: r)) (.node k (l ++ t' :: r)) where
  kind := rfl
  key _ := by
    have hkey' : t'.isNode .key = false := by rw [h.isNode, hkey]
    simp [keyText?, children, List.find?_append, hkey, hkey']

end SameRole

/-- The steps lead from `t` to `x`, and `t'` is `t` with `x'` in that place. -/
inductive Swapped (x x' : Tree) : List Step → Tree → Tree → Prop where
  | here : Swapped x x' [] x x'
  | under {s : Step} {ss : List Step} {k : NodeKind} {l r : List Tree} {t t' : Tree}
      (hadmits : s.admits (.node k (l ++ t :: r)) = true) (hl : ∀ u ∈ l, s.picks u = false)
      (ht : s.picks t = true) (h : Swapped x x' ss t t') :
      Swapped x x' (s :: ss) (.node k (l ++ t :: r)) (.node k (l ++ t' :: r))

namespace Swapped

variable {x x' t t' : Tree} {ss : List Step}

/-- All trees on the way keep their roles. -/
theorem sameRole (h : Swapped x x' ss t t') (hx : SameRole x x') : SameRole t t' := by
  induction h with
  | here => exact hx
  | under _ _ ht _ ih => exact ih.node (Step.not_key_of_picks ht) _ _ _

/-- What the steps lead to in the second tree is the second of the trees swapped. -/
theorem follow?_append (h : Swapped x x' ss t t') (hx : SameRole x x') (ts : List Step) :
    follow? (ss ++ ts) t' = follow? ts x' := by
  induction h with
  | here => rfl
  | @under s ss k l r t t' hadmits hl ht h ih =>
    have hrole := h.sameRole hx
    have hadmits' : s.admits (.node k (l ++ t' :: r)) = true := by
      rwa [(hrole.node (Step.not_key_of_picks ht) k l r).admits s]
    have hfind : (l ++ t' :: r).find? s.picks = some t' := by
      rw [List.find?_append, List.find?_eq_none.mpr (by simpa using hl)]
      simp [hrole.picks s, ht]
    simp [Tree.follow?, Tree.step?, hadmits', children, hfind, ih]

end Swapped

/-- The chains part at a key. -/
def Parts (ss ts : List Step) : Prop :=
  ∃ us k l vs ws, k ≠ l ∧ ss = us ++ Step.entry k :: vs ∧ ts = us ++ Step.entry l :: ws

/-- A chain that parts from the one to the tree swapped leads where it led. -/
theorem Swapped.follow?_of_parts {x x' t t' : Tree} {ss ts : List Step} (h : Swapped x x' ss t t')
    (hx : SameRole x x') (hp : Parts ss ts) : follow? ts t' = follow? ts t := by
  obtain ⟨us, k, l, vs, ws, hkl, hss, rfl⟩ := hp
  -- By induction on the common steps. Where the steps part, the swap changes a child that the
  -- other step does not pick, and its new child is not picked either.
  induction us generalizing t t' ss with
  | nil =>
    cases h with
    | here => cases hss
    | @under s ss n a b t t' hadmits ha ht h =>
      obtain ⟨rfl, rfl⟩ := List.cons.inj hss
      have hrole := h.sameRole hx
      have hadmits' := (hrole.node (Step.not_key_of_picks ht) n a b).admits (.entry l)
      have hnot : (Step.entry l).picks t = false := by
        simp only [Step.picks, isEntryOf, Bool.and_eq_true, beq_iff_eq] at ht
        simp [Step.picks, isEntryOf, ht.2, hkl]
      have hfind : (a ++ t' :: b).find? (Step.entry l).picks =
          (a ++ t :: b).find? (Step.entry l).picks := by
        simp [List.find?_append, hrole.picks, hnot]
      simp [Tree.follow?, Tree.step?, hadmits', children, hfind]
  | cons u us ih =>
    cases h with
    | here => cases hss
    | @under s ss n a b t t' hadmits ha ht h =>
      obtain ⟨rfl, htail⟩ := List.cons.inj hss
      have hrole := h.sameRole hx
      have hadmits' : s.admits (.node n (a ++ t' :: b)) = true := by
        rwa [(hrole.node (Step.not_key_of_picks ht) n a b).admits s]
      have hnone : a.find? s.picks = none := List.find?_eq_none.mpr (by simpa using ha)
      have hfind : (a ++ t :: b).find? s.picks = some t := by
        simp [List.find?_append, hnone, ht]
      have hfind' : (a ++ t' :: b).find? s.picks = some t' := by
        simp [List.find?_append, hnone, hrole.picks s, ht]
      have ih := ih h htail
      simp [Tree.follow?, Tree.step?, hadmits, hadmits', children, hfind, hfind', ih]

/-! ## Swapping at a cursor

A cursor has gone some steps, and what it rebuilds with another focus is the swap at the end of
these. -/

namespace Cursor

/-- Before the first tree that is picked there is none that would be. -/
theorem not_of_pick?_zero {p : Tree → Bool} {ts : List Tree} {r : List Tree × Tree × List Tree}
    (h : pick? p 0 ts = some r) : ∀ u ∈ r.1, p u = false := by
  induction ts generalizing r with
  | nil => simp [pick?] at h
  | cons t ts ih =>
    unfold pick? at h
    split at h
    · cases h
      simp
    · rename_i ht
      obtain ⟨r', h', rfl⟩ := Option.map_eq_some_iff.mp h
      intro u hu
      rcases List.mem_cons.mp hu with rfl | hu
      · simpa using ht
      · exact ih h' u hu

/-- A step leads to the first child that it looks for. -/
theorem step?_eq_some {c d : Cursor} {s : Step} (h : c.step? s = some d) :
    ∃ k l r, c.focus = .node k (l ++ d.focus :: r) ∧ d.crumbs = ⟨k, l, r⟩ :: c.crumbs ∧
      s.admits c.focus = true ∧ (∀ u ∈ l, s.picks u = false) ∧ s.picks d.focus = true := by
  unfold step? at h
  split at h
  · rename_i hadmits
    have hpicks := focus_child? h
    unfold child? at h
    split at h
    · cases h
    · rename_i k ts hc
      obtain ⟨r, hr, rfl⟩ := Option.map_eq_some_iff.mp h
      exact ⟨k, r.1, r.2.2,
        by rw [hc, append_of_pick? hr], rfl, hadmits, not_of_pick?_zero hr, hpicks⟩
  · cases h

/-- The first tree that satisfies `p` is picked. -/
theorem pick?_zero_append {p : Tree → Bool} {l r : List Tree} {t : Tree} (hl : ∀ u ∈ l, p u = false)
    (ht : p t = true) : pick? p 0 (l ++ t :: r) = some (l, t, r) := by
  induction l with
  | nil => simp [pick?, ht]
  | cons u l ih => simp [pick?, hl u (by simp), ih fun v hv => hl v (by simp [hv])]

/-- With a tree of the same role in the place that the steps lead to, they lead there again. -/
theorem exists_follow?_replace {c d : Cursor} {ss : List Step} (h : c.follow? ss = some d)
    {x : Tree} (hx : SameRole d.focus x) :
    ∃ y, SameRole c.focus y ∧ (c.replace y).follow? ss = some (d.replace x) := by
  induction ss generalizing c with
  | nil =>
    cases h
    exact ⟨x, hx, rfl⟩
  | cons s ss ih =>
    obtain ⟨e, he, hd⟩ := Option.bind_eq_some_iff.mp h
    obtain ⟨k, l, r, hc, hcrumbs, hadmits, hl, hpicks⟩ := step?_eq_some he
    obtain ⟨y, hy, hfollow⟩ := ih hd
    have hrole : SameRole c.focus (.node k (l ++ y :: r)) := by
      rw [hc]
      exact hy.node (Step.not_key_of_picks hpicks) k l r
    have hstep : (c.replace (.node k (l ++ y :: r))).step? s = some (e.replace y) := by
      have hadmits' : s.admits (.node k (l ++ y :: r)) = true := (hrole.admits s).trans hadmits
      have hpick := pick?_zero_append (r := r) hl ((hy.picks s).trans hpicks)
      simp only [step?, replace, hadmits', if_true, child?, hpick, Option.map_some, hcrumbs]
    refine ⟨_, hrole, ?_⟩
    rw [follow?, hstep]
    exact hfollow

/-- Replacing what the steps lead to swaps it under the focus. -/
theorem exists_swapped {c d : Cursor} {ss : List Step} (h : c.follow? ss = some d) (x : Tree) :
    ∃ y, Swapped d.focus x ss c.focus y ∧ (d.replace x).rebuild = (c.replace y).rebuild := by
  induction ss generalizing c with
  | nil =>
    cases h
    exact ⟨x, .here, rfl⟩
  | cons s ss ih =>
    obtain ⟨e, he, hd⟩ := Option.bind_eq_some_iff.mp h
    obtain ⟨k, l, r, hc, hcrumbs, hadmits, hl, hpicks⟩ := step?_eq_some he
    obtain ⟨y, hy, hrebuild⟩ := ih hd
    refine ⟨.node k (l ++ y :: r), ?_, ?_⟩
    · rw [hc] at hadmits ⊢
      exact .under hadmits hl hpicks hy
    · rw [hrebuild]
      simp [replace, rebuild, hcrumbs, Crumb.fill]

/-- Going down changes nothing. -/
theorem rebuild_follow? {c d : Cursor} {ss : List Step} (h : c.follow? ss = some d) :
    d.rebuild = c.rebuild := by
  induction ss generalizing c with
  | nil =>
    cases h
    rfl
  | cons s ss ih =>
    obtain ⟨e, he, hd⟩ := Option.bind_eq_some_iff.mp h
    rw [ih hd]
    unfold step? at he
    split at he
    · exact rebuild_child? he
    · cases he

end Cursor

end YamlPatch
