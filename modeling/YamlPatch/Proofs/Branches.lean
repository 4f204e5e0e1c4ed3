import YamlPatch.Proofs.VersionGrammar

/-!
# Branch names

The name of a branch, without the word `release-` and with a zero behind it, is read as a
version. The word is taken out where it first stands (`Text.eraseFirst_cases`). So two numbers
with a dot between them name their release, and the word may stand in front of them, behind them
or anywhere between their digits (`Version.ofBranch_eq_ofNumbers_iff`). The only other names are
the texts of versions that have a name of their own : then the zero is one more identifier
(`Version.ofBranch_eq_ok_iff`).

Both statements are read from right to left. A version that is read from a text has this text,
which ends in a dot and a zero, and a version has few ways to end so : the zero is its patch
number, or its last identifier (`Version.exists_last`).
-/

namespace YamlPatch

/-! ## Taking out a word

The word is looked for from the left and taken out once. -/

namespace Text

variable {c : Char} {t x : Text}

/-- A text that holds a word loses it at one place, and all others stay as they are. -/
theorem eraseFirst_cases (w t : Text) :
    ¬w <:+: t ∧ eraseFirst w t = t ∨ ∃ x y, t = x ++ w ++ y ∧ eraseFirst w t = x ++ y := by
  induction t with
  | nil =>
    by_cases hw : w = []
    · exact .inr ⟨[], [], by simp [hw], rfl⟩
    · exact .inl ⟨by simpa using hw, rfl⟩
  | cons c t ih =>
    by_cases hpre : w <+: c :: t
    · refine .inr ⟨[], (c :: t).drop w.length, (List.prefix_iff_eq_append.mp hpre).symm, ?_⟩
      rw [eraseFirst, if_pos (List.isPrefixOf_iff_prefix.mpr hpre)]
      rfl
    · have herase : eraseFirst w (c :: t) = c :: eraseFirst w t := by
        rw [eraseFirst, if_neg (mt List.isPrefixOf_iff_prefix.mp hpre)]
      rw [herase, List.infix_cons_iff]
      rcases ih with ⟨habsent, heq⟩ | ⟨x, y, rfl, heq⟩
      · exact .inl ⟨by simp [hpre, habsent], by rw [heq]⟩
      · exact .inr ⟨c :: x, y, by simp, by rw [heq]; rfl⟩

/-- The word stands where its first character does. -/
theorem eraseFirst_append (hx : c ∉ x) (w t : Text) :
    eraseFirst (c :: w) (x ++ t) = x ++ eraseFirst (c :: w) t := by
  induction x with
  | nil => rfl
  | cons d x ih =>
    simp only [List.mem_cons, not_or] at hx
    have hpre : ¬c :: w <+: d :: (x ++ t) := fun h => hx.1 (List.cons_prefix_cons.mp h).1
    rw [List.cons_append, eraseFirst, if_neg (mt List.isPrefixOf_iff_prefix.mp hpre), ih hx.2]
    rfl

/-- A text without the first character of a word has not the word. -/
theorem eraseFirst_of_not_mem (ht : c ∉ t) (w : Text) : eraseFirst (c :: w) t = t := by
  simpa [eraseFirst] using eraseFirst_append ht w []

/-- A word at the start of a text is taken away. -/
theorem eraseFirst_self (c : Char) (w y : Text) : eraseFirst (c :: w) (c :: w ++ y) = y := by
  rw [List.cons_append, eraseFirst, ← List.cons_append,
    if_pos (List.isPrefixOf_iff_prefix.mpr (List.prefix_append _ y)), List.drop_left]

end Text

namespace Version

variable {b s : Text} {v : Version}

/-! ## One more identifier

A zero behind the text of a version is a patch number if the version had only two numbers, and
an identifier of its last part if it has one. -/

/-- The version with another identifier at the end of its name. -/
def appendIdentifier (v : Version) (s : Text) : Version :=
  if v.build = [] then { v with pre := v.pre ++ [s] } else { v with build := v.build ++ [s] }

/-- With an identifier a version has a name. -/
theorem not_isBare_appendIdentifier (v : Version) (s : Text) : ¬(v.appendIdentifier s).IsBare := by
  unfold appendIdentifier IsBare
  split <;> simp_all

/-- Another identifier is written behind a dot. -/
theorem marked_append (mark : Char) {ids : List Text} (h : ids ≠ []) (s : Text) :
    marked mark (ids ++ [s]) = marked mark ids ++ '.' :: s := by
  rw [marked_eq mark (by simp), marked_eq mark h,
    Value.joinWith_append ['.'] h (List.cons_ne_nil s [])]
  simp [Text.joinWith]

/-- So it is in the text of a version that has a name. -/
theorem text_appendIdentifier (h : ¬v.IsBare) (s : Text) :
    (v.appendIdentifier s).text = v.text ++ '.' :: s := by
  unfold appendIdentifier
  split
  · rename_i hbuild
    have hpre : v.pre ≠ [] := fun hpre => h ⟨hpre, hbuild⟩
    simp [text, hbuild, marked_append '-' hpre]
  · rename_i hbuild
    simp [text, marked_append '+' hbuild]

/-- The version stays valid if the identifier is one in either part of a name. -/
theorem IsValid.appendIdentifier (h : v.IsValid) (hs : ∀ p, IsIdentifier p s) :
    (v.appendIdentifier s).IsValid := by
  have happend {p : VersionPart} {ids : List Text} (hids : ∀ s ∈ ids, IsIdentifier p s) :
      ∀ r ∈ ids ++ [s], IsIdentifier p r := fun r hr => by
    rcases List.mem_append.mp hr with hr | hr
    · exact hids r hr
    · rw [List.mem_singleton.mp hr]
      exact hs p
  unfold Version.appendIdentifier
  split
  · exact ⟨h.major, h.minor, h.patch, happend h.pre, h.build⟩
  · exact ⟨h.major, h.minor, h.patch, h.pre, happend h.build⟩

/-- The last identifier stands behind a dot, or behind the mark if it is the only one. -/
theorem exists_last_marked (mark : Char) {ids : List Text} (h : ids ≠ []) :
    ∃ init y, ids = init ++ [y] ∧
      (init = [] ∧ marked mark ids = mark :: y ∨
        init ≠ [] ∧ marked mark ids = marked mark init ++ '.' :: y) := by
  obtain ⟨init, y, rfl⟩ := (List.eq_nil_or_concat' ids).resolve_left h
  refine ⟨init, y, rfl, ?_⟩
  by_cases hinit : init = []
  · exact .inl ⟨hinit, by rw [hinit]; rfl⟩
  · exact .inr ⟨hinit, marked_append mark hinit y⟩

/-- A version ends in its last identifier, or in its patch number. A dot in front of that is the
end of a version without it. -/
theorem exists_last (hv : v.IsValid) : ∃ x c y, v.text = x ++ c :: y ∧ y ≠ [] ∧ '.' ∉ y ∧
    (c = '.' → v.IsBare ∧ x = naturalText v.major ++ '.' :: naturalText v.minor ∧
      y = naturalText v.patch ∨
      ∃ w : Version, w.IsValid ∧ ¬w.IsBare ∧ v = w.appendIdentifier y ∧ x = w.text) := by
  have hdot {p : VersionPart} {s : Text} (hs : IsIdentifier p s) : '.' ∉ s := fun h =>
    absurd (hs.chars '.' h) (by decide)
  obtain ⟨major, minor, patch, pre, build⟩ := v
  obtain ⟨hmajor, hminor, hpatch, hpre, hbuild⟩ := hv
  dsimp only at hmajor hminor hpatch hpre hbuild
  -- The last part that there is decides : the identifiers of the build, those of the pre-release,
  -- or the patch number.
  by_cases hb : build = []
  · by_cases hp : pre = []
    · refine ⟨naturalText major ++ '.' :: naturalText minor, '.', naturalText patch,
        by simp [text, hb, hp],
        naturalText_ne_nil patch, fun h => ?_, fun _ => .inl ⟨⟨hp, hb⟩, rfl, rfl⟩⟩
      exact absurd (isDigit_of_mem_naturalText h) (by decide)
    · obtain ⟨init, y, rfl, hlast⟩ := exists_last_marked '-' hp
      have hy := hpre y (by simp)
      have hinit : ∀ s ∈ init, IsIdentifier .pre s := fun s hs => hpre s (by simp [hs])
      rcases hlast with ⟨-, hlast⟩ | ⟨hne, hlast⟩
      · exact ⟨naturalText major ++ '.' :: naturalText minor ++ '.' :: naturalText patch, '-', y,
          by simp [text, hb, hlast], hy.ne_nil, hdot hy, fun h => absurd h (by decide)⟩
      · exact ⟨text ⟨major, minor, patch, init, build⟩, '.', y,
          by simp [text, hb, hlast], hy.ne_nil, hdot hy,
          fun _ =>
            .inr ⟨⟨major, minor, patch, init, build⟩, ⟨hmajor, hminor, hpatch, hinit, hbuild⟩,
            fun h => hne h.1, by simp [appendIdentifier, hb], rfl⟩⟩
  · obtain ⟨init, y, rfl, hlast⟩ := exists_last_marked '+' hb
    have hy := hbuild y (by simp)
    have hinit : ∀ s ∈ init, IsIdentifier .build s := fun s hs => hbuild s (by simp [hs])
    rcases hlast with ⟨-, hlast⟩ | ⟨hne, hlast⟩
    · exact ⟨naturalText major ++ '.' :: naturalText minor ++ '.' :: naturalText patch ++
        marked '-' pre, '+', y,
        by simp [text, hlast], hy.ne_nil, hdot hy, fun h => absurd h (by decide)⟩
    · exact ⟨text ⟨major, minor, patch, pre, init⟩, '.', y,
        by simp [text, hlast], hy.ne_nil, hdot hy,
        fun _ => .inr ⟨⟨major, minor, patch, pre, init⟩, ⟨hmajor, hminor, hpatch, hpre, hinit⟩,
          fun h => hne h.2, by simp [appendIdentifier, hne], rfl⟩⟩

/-- A text that ends in a dot and a zero has nothing else behind its last dot. -/
theorem eq_of_append_zero {x y : Text} {c : Char} (h : s ++ ['.', '0'] = x ++ c :: y) (hne : y ≠ [])
    (hy : '.' ∉ y) : s = x ∧ c = '.' ∧ y = ['0'] := by
  obtain ⟨z, d, rfl⟩ := (List.eq_nil_or_concat' y).resolve_left hne
  have hsplit : s ++ ['.'] ++ ['0'] = x ++ c :: z ++ [d] := by simpa using h
  obtain ⟨hfront, hd⟩ := List.append_inj' hsplit rfl
  obtain rfl := List.singleton_inj.mp hd
  rcases List.eq_nil_or_concat' z with rfl | ⟨z, e, rfl⟩
  · obtain ⟨hs, hc⟩ := List.append_inj' hfront rfl
    exact ⟨hs, (List.singleton_inj.mp hc).symm, rfl⟩
  · have hfront : s ++ ['.'] = x ++ c :: z ++ [e] := by simpa using hfront
    obtain ⟨-, he⟩ := List.append_inj' hfront rfl
    simp [← List.singleton_inj.mp he] at hy

/-! ## What a branch is named for

Both directions are read off the grammar of versions. No word stands in the text of a number, so
it is taken out where it was put in. -/

/-- The word that is taken out of the name of a branch. -/
def branchWord : Text := "release-".toList

/-- Without the word, a name that is taken is two numbers, or the text of a version that has a
name of its own. -/
theorem ofBranch_eq_ok_iff : ofBranch b = .ok v ↔
    (∃ major minor, major < UInt64.size ∧ minor < UInt64.size ∧ v = ofNumbers major minor 0 ∧
      Text.eraseFirst branchWord b = naturalText major ++ '.' :: naturalText minor) ∨
    ∃ w : Version, w.IsValid ∧ ¬w.IsBare ∧ v = w.appendIdentifier ['0'] ∧
      Text.eraseFirst branchWord b = w.text := by
  have hofBranch : ofBranch b = parse (Text.eraseFirst branchWord b ++ ['.', '0']) := rfl
  rw [hofBranch, parse_eq_ok_iff]
  generalize Text.eraseFirst branchWord b = s
  constructor
  -- The text that is read ends in a dot and a zero. It is a version with the patch number zero,
  -- or one whose last identifier is a zero.
  · rintro ⟨hv, hs⟩
    obtain ⟨x, c, y, htext, hne, hy, hlast⟩ := exists_last hv
    obtain ⟨rfl, rfl, rfl⟩ := eq_of_append_zero (hs.trans htext) hne hy
    rcases hlast rfl with ⟨hbare, hs, hpatch⟩ | ⟨w, hw, hname, hv, hs⟩
    · have hzero : v.patch = 0 := by
        rw [← appendDigits_naturalText v.patch, ← hpatch]
        rfl
      obtain ⟨major, minor, patch, pre, build⟩ := v
      obtain ⟨rfl, rfl⟩ := hbare
      exact .inl ⟨major, minor, hv.major, hv.minor, by rw [show patch = 0 from hzero]; rfl, hs⟩
    · exact .inr ⟨w, hw, hname, hv, hs⟩
  · rintro (⟨major, minor, hmajor, hminor, rfl, rfl⟩ | ⟨w, hw, hname, rfl, rfl⟩)
    · exact ⟨⟨hmajor, hminor, Nat.zero_lt_of_lt hmajor, nofun, nofun⟩,
        by simp [ofNumbers, text]; rfl⟩
    · have hzero (p : VersionPart) : IsIdentifier p ['0'] :=
        ⟨by simp, List.forall_mem_singleton.mpr (by decide), by simp⟩
      exact ⟨hw.appendIdentifier hzero, (text_appendIdentifier hname ['0']).symm⟩

/-- The release of two numbers is that of their own text, with the word anywhere in it or
nowhere. -/
theorem ofBranch_eq_ofNumbers_iff {major minor : Nat} : ofBranch b = .ok (ofNumbers major minor 0) ↔
    major < UInt64.size ∧ minor < UInt64.size ∧
    ∃ x y, x ++ y = naturalText major ++ '.' :: naturalText minor ∧
      (b = x ++ y ∨ b = x ++ branchWord ++ y) := by
  rw [ofBranch_eq_ok_iff]
  constructor
  · rintro (⟨m, n, hm, hn, hv, hs⟩ | ⟨w, hw, hname, hv, -⟩)
    · obtain ⟨rfl, rfl⟩ : major = m ∧ minor = n := by simpa [ofNumbers] using hv
      refine ⟨hm, hn, ?_⟩
      rcases Text.eraseFirst_cases branchWord b with ⟨-, hb⟩ | ⟨x, y, rfl, hb⟩
      · exact ⟨b, [], by simp [← hs, hb], .inl (by simp)⟩
      · exact ⟨x, y, by rw [← hs, hb], .inr rfl⟩
    · exact absurd (isBare_ofNumbers major minor 0) (hv ▸ not_isBare_appendIdentifier w ['0'])
  · rintro ⟨hm, hn, x, y, hxy, hb⟩
    -- The text of two numbers holds no letter, so the word that was put in is the first that is
    -- found.
    have hword : 'r' ∉ x ++ y := by
      have hdigits (n : Nat) : 'r' ∉ naturalText n :=
        fun h => absurd (isDigit_of_mem_naturalText h) (by decide)
      simp [hxy, hdigits]
    have herase : Text.eraseFirst branchWord b = x ++ y := by
      rcases hb with rfl | rfl
      · exact Text.eraseFirst_of_not_mem hword _
      · have hx : 'r' ∉ x := fun h => hword (by simp [h])
        rw [List.append_assoc]
        exact (Text.eraseFirst_append hx _ _).trans
          (congrArg (x ++ ·) (Text.eraseFirst_self 'r' _ y))
    exact .inl ⟨major, minor, hm, hn, rfl, herase.trans hxy⟩

/-- The word may stand between the digits, and a version with a name becomes another. -/
example : (ofBranch "1.release-30".toList).toOption = some (ofNumbers 1 30 0) ∧
    (ofBranch "1.2.3-rc".toList).toOption = some ⟨1, 2, 3, ["rc".toList, "0".toList], []⟩ := by
  decide +kernel

end Version

end YamlPatch
