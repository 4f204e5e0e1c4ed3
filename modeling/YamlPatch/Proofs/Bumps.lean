import YamlPatch.Proofs.Reparsing
import YamlPatch.Release.Plan

/-!
# What a bump leaves in the tree

A plan makes its writes one after the other. If they are made at paths that are apart then none
of them undoes another : all their values are found in the tree at the end
(`Plan.applyUpdates_shown`), and what stands at a path apart from all of theirs is what stood
there before (`Plan.applyUpdates_apart`). So a chart reads the next release at both of its
fields, and the same as before at all the others (`Plan.readField_of_chart`).

This is about the tree. The text of the tree may read differently : in a flow collection a `!`
directly before a mark is a tag, but with a version behind it a word. If every value goes in
place of another (`Plan.InPlace`) then the text reads like the tree (`Plan.reads_of_chart`).

The induction is on the writes of the plan. One write is found at its path, and changes nothing
at the paths apart from it; both were proved for documents of any shape, so nothing has to be
known of the documents in between.
-/

namespace YamlPatch

open YamlPatch.Tree

/-! ## Paths

Fields with different keys at the top have nothing in common on their way. -/

namespace KeyPath

/-- It does not matter which path is named first. -/
theorem Apart.symm {p q : KeyPath} (h : p.Apart q) : q.Apart p := ⟨h.2, h.1⟩

/-- Paths that begin with different keys are apart. -/
theorem Apart.of_head?_ne {p q : KeyPath} (h : p.keys.head? ≠ q.keys.head?) : p.Apart q := by
  obtain ⟨k, ks, hp⟩ := List.exists_cons_of_ne_nil p.keys_ne_nil
  obtain ⟨l, ls, hq⟩ := List.exists_cons_of_ne_nil q.keys_ne_nil
  rw [hp, hq] at h
  simp only [List.head?_cons, ne_eq, Option.some.injEq] at h
  unfold Apart
  rw [hp, hq]
  exact ⟨fun hpre => h (List.cons_prefix_cons.mp hpre).1,
    fun hpre => h (List.cons_prefix_cons.mp hpre).1.symm⟩

end KeyPath

/-! ## Strings

A reader gives the text of a scalar unless the scalar counts as null, which its first word
decides. Versions begin with a digit. -/

/-- Where an atom is shown its text is read, unless that starts with a word for null. -/
theorem Cursor.string?_of_shownBy {c : Cursor} {p : KeyPath} {a : Atom} {new : Tree}
    (hfind : (c.find? p).map focus = some new) (h : (Value.atom a).ShownBy new)
    (hnull : ¬StartsNull a.text) : c.string? p = some a.text := by
  have hscalar : new.isNode .scalar = true := h.reads.1
  have hnot : Scalar.isNull new = false := by
    cases hn : Scalar.isNull new with
    | false => rfl
    | true => exact absurd (h.startsNull a rfl hn) hnull
  have hvalue : Scalar.value new = a.text := h.reads.2
  rw [string?_eq, hfind]
  simp [hscalar, hnot, hvalue]

/-- The text of a version starts with a digit. -/
theorem Version.not_startsNull (v : Version) : ¬StartsNull v.text := by
  obtain ⟨d, ds, hd⟩ := List.exists_cons_of_ne_nil (naturalText_ne_nil v.major)
  have hdigit : d.isDigit = true := by
    refine Nat.isDigit_of_mem_toDigits (b := 10) (n := v.major) (by decide) (by decide) ?_
    have hmem : d ∈ naturalText v.major := by simp [hd]
    exact hmem
  have hblank : isBlank d = false := (isFreeChar_iff.mp (isFreeChar_of_isDigit hdigit)).2.1
  intro h
  simp only [StartsNull, text, hd, List.cons_append, List.takeWhile_cons, isWordChar, hblank,
    Bool.not_false, if_true, nullWords, List.mem_cons, List.not_mem_nil, or_false] at h
  rcases h with h | h | h | h <;> obtain ⟨rfl, -⟩ :=
    List.cons.inj h <;> exact absurd hdigit (by decide)

namespace Release.Plan

/-! ## Several writes

By induction on the writes : what the first one wrote is at a path apart from those of the
others, so these leave it as it is. -/

/-- What stands at a path apart from all that are written is left as it was. -/
theorem applyUpdates_apart {us : List Update} {t t' : Tree} (hv : ∀ u ∈ us, u.value.Made)
    (h : applyUpdates .error us t = (t', none)) {q : KeyPath} (hq : ∀ u ∈ us, u.path.Apart q) :
    ((Cursor.ofTree t').find? q).map Cursor.focus =
      ((Cursor.ofTree t).find? q).map Cursor.focus := by
  induction us generalizing t with
  | nil =>
    cases h
    rfl
  | cons u us ih =>
    obtain ⟨t₁, ht, h⟩ := exists_of_applyUpdates_cons h
    obtain ⟨y, new, rfl, -, -, hrest⟩ := Cursor.exists_of_set (hv u (by simp)) ht
    rw [ih (fun w hw => hv w (by simp [hw])) h fun w hw => hq w (by simp [hw])]
    exact hrest q (hq u (by simp))

/-- At paths that are apart all the values written are found. -/
theorem applyUpdates_shown {us : List Update} {t t' : Tree} (hv : ∀ u ∈ us, u.value.Made)
    (hp : us.Pairwise fun u w => u.path.Apart w.path) (h : applyUpdates .error us t = (t', none)) :
    ∀ u ∈ us, ∃ new, ((Cursor.ofTree t').find? u.path).map Cursor.focus = some new ∧
    u.value.ShownBy new := by
  induction us generalizing t with
  | nil => simp
  | cons u us ih =>
    obtain ⟨t₁, ht, hus⟩ := exists_of_applyUpdates_cons h
    obtain ⟨hu, hp⟩ := List.pairwise_cons.mp hp
    have hv' : ∀ w ∈ us, w.value.Made := fun w hw => hv w (by simp [hw])
    intro w hw
    rcases List.mem_cons.mp hw with rfl | hw
    · obtain ⟨y, new, rfl, hnew, hshown, -⟩ := Cursor.exists_of_set (hv w (by simp)) ht
      refine ⟨new, ?_, hshown⟩
      rw [applyUpdates_apart hv' hus fun z hz => (hu z hz).symm]
      exact hnew
    · exact ih hv' hp hus w hw

/-! ## Charts

The two fields of a chart are apart, and the plan writes the same version to both. -/

/-- The writes of a chart depend on the next release alone. -/
theorem updates_of_ofChart {x : Tree} {branch : Option Text} {plan : Plan}
    (h : ofChart x branch = .ok plan) : plan.updates = chartUpdates plan.next := by
  unfold ofChart at h
  cases hc : currentRelease x (field "version" []) branch with
  | error e => simp [hc, Except.map] at h
  | ok current =>
    simp only [hc, Except.map, Except.ok.injEq] at h
    rw [← h]

/-- They write texts, which are made in one of the usual ways. -/
theorem made_of_mem_chartUpdates {next : Version} {u : Update} (h : u ∈ chartUpdates next) :
    u.value.Made := by
  simp only [chartUpdates, List.mem_cons, List.not_mem_nil, or_false] at h
  rcases h with rfl | rfl <;> exact .ofText _

/-- A chart that has been bumped reads the next release at both of its fields, and at all others
what it read before. -/
theorem readField_of_chart {x t : Tree} {branch : Option Text} {plan : Plan}
    (hplan : ofChart x branch = .ok plan) (h : plan.apply .error x = (t, none)) :
    readField t (field "version" []) = some plan.next.text ∧
      readField t (field "appVersion" []) = some plan.next.text ∧
      ∀ q : KeyPath, q.keys.head? ≠ some "version".toList →
        q.keys.head? ≠ some "appVersion".toList → readField t q = readField x q := by
  rw [apply, updates_of_ofChart hplan] at h
  have hv : ∀ u ∈ chartUpdates plan.next, u.value.Made := fun u => made_of_mem_chartUpdates
  have hp : (chartUpdates plan.next).Pairwise fun u w => u.path.Apart w.path := by
    have happ : KeyPath.Apart (field "version" []) (field "appVersion" []) :=
      .of_head?_ne (by decide)
    simpa [chartUpdates] using happ
  have hshown := applyUpdates_shown hv hp h
  have hread (p : KeyPath) (hm : ⟨p, versionValue plan.next⟩ ∈ chartUpdates plan.next) :
      readField t p = some plan.next.text := by
    obtain ⟨new, hnew, hs⟩ := hshown _ hm
    exact Cursor.string?_of_shownBy hnew hs plan.next.not_startsNull
  refine ⟨hread _ (by simp [chartUpdates]), hread _ (by simp [chartUpdates]), fun q h₁ h₂ => ?_⟩
  have hq : ∀ u ∈ chartUpdates plan.next, u.path.Apart q := by
    simp only [chartUpdates, List.mem_cons, List.not_mem_nil, or_false]
    rintro u (rfl | rfl)
    · exact .of_head?_ne (Ne.symm h₁)
    · exact .of_head?_ne (Ne.symm h₂)
  rw [readField, readField, Cursor.string?_eq, Cursor.string?_eq, applyUpdates_apart hv h hq]

/-! ## The text

Where each value takes the place of another, each write is read back, so the text may be parsed
in between or not at all. -/

/-- The writes are made in place, one after the other. -/
def InPlace : List Update → Tree → Prop
  | [], _ => True
  | u :: us, x => (∃ d, (Cursor.ofTree x).InPlace u.path u.value d) ∧
      ∀ y, (Cursor.ofTree x).put u.path u.value = .ok y → InPlace us y

/-- Writes that are all made in place are read back : the text of the tree is parsed as the tree. -/
theorem parseStrict_of_applyUpdates {us : List Update} {T : Text} {x t : Tree}
    (hx : parseStrict T = .ok x) (hn : HasLineFeeds (lex T)) (hv : ∀ u ∈ us, u.value.Made)
    (hin : InPlace us x) (h : applyUpdates .error us x = (t, none)) :
    parseStrict t.text = .ok t ∧ HasLineFeeds (lex t.text) := by
  induction us generalizing T x with
  | nil =>
    obtain rfl := (Prod.mk.inj h).1
    have htext : T = x.text := by
      rw [← (parseStrict_eq_ok.mp hx).2]
      exact (text_parse T).symm
    exact htext ▸ ⟨hx, hn⟩
  | cons u us ih =>
    obtain ⟨y, hy, h⟩ := exists_of_applyUpdates_cons h
    obtain ⟨⟨d, hd⟩, hrest⟩ := hin
    have hput := Cursor.put_of_set_error hy
    obtain ⟨hy', hn'⟩ := Cursor.parseStrict_of_put hx hn (hv u (by simp)) hd hput
    exact ih hy' hn' (fun w hw => hv w (by simp [hw])) (hrest y hput) h

/-- If both writes are made in place, all this is read in the text of the chart. -/
theorem reads_of_chart {T : Text} {x t : Tree} {branch : Option Text} {plan : Plan}
    (hx : parseStrict T = .ok x) (hn : HasLineFeeds (lex T)) (hplan : ofChart x branch = .ok plan)
    (hin : InPlace plan.updates x) (h : plan.apply .error x = (t, none)) :
    ∃ y, parseStrict t.text = .ok y ∧ readField y (field "version" []) = some plan.next.text ∧
      readField y (field "appVersion" []) = some plan.next.text ∧
      ∀ q : KeyPath, q.keys.head? ≠ some "version".toList →
        q.keys.head? ≠ some "appVersion".toList → readField y q = readField x q := by
  have hv : ∀ u ∈ plan.updates, u.value.Made := fun u hu =>
    made_of_mem_chartUpdates (updates_of_ofChart hplan ▸ hu)
  exact ⟨t, (parseStrict_of_applyUpdates hx hn hv hin h).1, readField_of_chart hplan h⟩

end Release.Plan

end YamlPatch
