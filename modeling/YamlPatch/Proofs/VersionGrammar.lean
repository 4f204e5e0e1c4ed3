import Mathlib.Data.List.Induction
import YamlPatch.Proofs.BlockValues
import YamlPatch.Proofs.Folded
import YamlPatch.Proofs.Versions

/-!
# The grammar of versions

A text is read as a version if it is the text of that version, and the version has numbers of 64
bits and identifiers that are well formed (`Version.IsValid`, `Version.parse_eq_ok_iff`). So
each version has one text, and all others are refused. Each reader of a part takes what the
part's writer writes, up to where it can go no further.

For each part there are two directions. What was read is what the writer writes, and is well
formed; and what the writer writes of something well formed is read, if the text behind it does
not go on with the part. The second needs to know with which character each part ends.
-/

namespace YamlPatch

/-! ## Digits

A number has no zero in front, unless it is zero. -/

/-- The digits of a version are those of the library. -/
theorem isDigit_iff {c : Char} : isDigit c = true ↔ c.isDigit = true := by
  refine ⟨fun h => ?_, fun h => by simp [isDigit, digitValue?_of_isDigit h]⟩
  unfold isDigit digitValue? at h
  split at h
  · simpa [Char.isDigit] using ‹_›
  · cases h

/-- A digit is the text of its value. -/
theorem naturalText_of_isDigit {c : Char} (h : c.isDigit = true) :
    naturalText (c.toNat - '0'.toNat) = [c] := by
  simp only [Char.isDigit, Bool.and_eq_true, decide_eq_true_eq] at h
  have hlow : 48 ≤ c.toNat := h.1
  have hhigh : c.toNat ≤ 57 := h.2
  have hchar : ∀ n < 10, n.digitChar = Char.ofNat (n + 48) := by decide
  obtain ⟨n, hn⟩ : ∃ n, c.toNat = n + 48 := ⟨c.toNat - 48, by omega⟩
  have hzero : '0'.toNat = 48 := rfl
  rw [naturalText, hn, hzero, Nat.add_sub_cancel, Nat.toDigits_of_lt_base (by omega),
    hchar n (by omega), ← hn, Char.ofNat_toNat]

/-- Digits are the text of their number, if there is no zero in front. -/
theorem naturalText_appendDigits {ds : Text} (hne : ds ≠ []) (hd : ∀ c ∈ ds, isDigit c = true)
    (hzero : ∀ es, ds = '0' :: es → es = []) : naturalText (appendDigits 0 ds) = ds := by
  induction ds using List.reverseRecOn with
  | nil => exact absurd rfl hne
  | append_singleton es d ih =>
    have hdigit : d.isDigit = true := isDigit_iff.mp (hd d (by simp))
    have hvalue : appendDigits 0 (es ++ [d]) = 10 * appendDigits 0 es + (d.toNat - '0'.toNat) := by
      simp [appendDigits, digitValue?_of_isDigit hdigit]
    by_cases hes : es = []
    · rw [hvalue, hes, List.nil_append, ← naturalText_of_isDigit hdigit]
      exact congrArg naturalText (Nat.zero_add _)
    · have hes' := ih hes (fun c hc => hd c (by simp [hc])) fun fs hfs =>
        absurd (hzero (fs ++ [d]) (by simp [hfs])) (by simp)
      have hpos : 0 < appendDigits 0 es := by
        refine Nat.pos_of_ne_zero fun h => ?_
        rw [h] at hes'
        exact absurd (hzero [d] (by rw [← hes']; rfl)) (by simp)
      have hlt : d.toNat - '0'.toNat < 10 := by
        simp only [Char.isDigit, Bool.and_eq_true, decide_eq_true_eq] at hdigit
        have hhigh : d.toNat ≤ 57 := hdigit.2
        have hzero : '0'.toNat = 48 := rfl
        omega
      rw [hvalue, naturalText, ← Nat.toDigits_append_toDigits (by decide) hpos hlt]
      exact congrArg₂ (· ++ ·) hes' (naturalText_of_isDigit hdigit)

namespace Version

variable {p : VersionPart} {t u : Text} {n : Nat}

/-- A number of 64 bits is read, and the text behind it does not go on with a digit. -/
theorem readNumber_eq_ok_iff : readNumber p t = .ok (n, u) ↔
    n < UInt64.size ∧ t = naturalText n ++ u ∧ StopsAt isDigit u := by
  refine ⟨fun h => ?_, fun ⟨hn, ht, hu⟩ => by rw [ht, readNumber_naturalText p n hu, if_pos hn]⟩
  have hdigits : ∀ c ∈ t.takeWhile isDigit, isDigit c = true := fun c => List.mem_takeWhile_imp
  have hrest : StopsAt isDigit (t.dropWhile isDigit) := fun _ _ => eq_false_of_dropWhile
  have happend := List.takeWhile_append_dropWhile (p := isDigit) (l := t)
  have hne : t.takeWhile isDigit ≠ [] := by
    intro htake
    cases t with
    | nil => simp [readNumber] at h
    | cons c w => simp [readNumber, htake] at h
  unfold readNumber at h
  split at h
  · cases h
  · cases h
  · cases h
  · rename_i hlong _ _
    split at h
    · rename_i hlt
      cases h
      refine ⟨hlt, ?_, hrest⟩
      rw [naturalText_appendDigits hne hdigits, happend]
      intro es hes
      cases es with
      | nil => rfl
      | cons d es => exact absurd hes (hlong d es)
    · cases h

/-- A dot is read where one stands. -/
theorem readDot_eq_ok_iff : readDot p t = .ok u ↔ t = '.' :: u := by
  constructor
  · intro h
    unfold readDot at h
    split at h <;> cases h
    rfl
  · rintro rfl
    rfl

/-! ## Identifiers

Identifiers are read as one run of characters, which is cut at its dots afterwards. -/

/-- A word of letters, digits and hyphens. A number that identifies a pre-release has no zero in
front. -/
structure IsIdentifier (p : VersionPart) (s : Text) : Prop where
  ne_nil : s ≠ []
  chars : ∀ c ∈ s, isIdentifierChar c = true
  noZero : p = .pre → (∀ c ∈ s, isDigit c = true) → ∀ u, s = '0' :: u → u = []

/-- An identifier is without fault if it is not empty, and has no zero in front where it is a
number that identifies a pre-release. -/
theorem segmentFault?_eq_none_iff {s : Text} : segmentFault? p s = none ↔
    s ≠ [] ∧ (p = .pre → (∀ c ∈ s, isDigit c = true) → ∀ u, s = '0' :: u → u = []) := by
  unfold segmentFault?
  cases s with
  | nil => simp
  | cons c u =>
    rw [if_neg (List.cons_ne_nil c u), ite_eq_right_iff]
    simp only [List.all_eq_true, List.length_cons, List.head?_cons, Option.some.injEq, reduceCtorEq,
      imp_false, ne_eq, not_false_eq_true, true_and, List.cons.injEq]
    constructor
    · rintro h hp hd w ⟨hc, rfl⟩
      exact List.length_eq_zero_iff.mp (by by_contra hne; exact h ⟨hp, hd, by omega, hc⟩)
    · rintro h ⟨hp, hd, hlen, hc⟩
      rw [h hp hd u ⟨hc, rfl⟩] at hlen
      simp at hlen

/-- The characters of a part are in the joined text. -/
theorem subset_joinWith {sep : Text} {qs : List Text} {q : Text} (hq : q ∈ qs) :
    q ⊆ Text.joinWith sep qs := by
  induction qs with
  | nil => cases hq
  | cons r rs ih =>
    by_cases hrs : rs = []
    · rw [hrs] at hq ⊢
      rw [List.mem_singleton.mp hq]
      exact List.Subset.refl r
    · rw [Value.joinWith_cons sep r hrs]
      rcases List.mem_cons.mp hq with rfl | hq
      · exact fun c hc => by simp [hc]
      · exact fun c hc => by simp [ih hq hc]

/-- A character of a joined text is in the separator or in a part. -/
theorem exists_of_mem_joinWith {sep : Text} {qs : List Text} {c : Char}
    (h : c ∈ Text.joinWith sep qs) : c ∈ sep ∨ ∃ q ∈ qs, c ∈ q := by
  induction qs with
  | nil => cases h
  | cons q qs ih =>
    by_cases hqs : qs = []
    · rw [hqs] at h
      exact .inr ⟨q, by simp, h⟩
    · rw [Value.joinWith_cons sep q hqs, List.mem_append, List.mem_append] at h
      rcases h with (h | h) | h
      · exact .inr ⟨q, by simp, h⟩
      · exact .inl h
      · exact (ih h).imp_right fun ⟨r, hr, hc⟩ => ⟨r, List.mem_cons_of_mem q hr, hc⟩

/-- Parts that do not hold the separator are found again. -/
theorem splitOn_joinWith {sep : Char} {qs : List Text} (hne : qs ≠ []) (h : ∀ q ∈ qs, sep ∉ q) :
    Text.splitOn sep (Text.joinWith [sep] qs) = qs := by
  induction qs with
  | nil => exact absurd rfl hne
  | cons q qs ih =>
    by_cases hqs : qs = []
    · rw [hqs]
      exact Atom.splitOn_of_not_mem (h q (by simp))
    · rw [Value.joinWith_cons [sep] q hqs, List.append_assoc, List.singleton_append,
        splitOn_break (h q (by simp)), ih hqs fun r hr => h r (List.mem_cons_of_mem q hr)]

/-- Without identifiers there is no mark. -/
@[simp] theorem marked_nil (mark : Char) : marked mark [] = [] := rfl

/-- Behind the mark the identifiers are joined by dots. -/
theorem marked_eq (mark : Char) {ids : List Text} (h : ids ≠ []) :
    marked mark ids = mark :: Text.joinWith ['.'] ids := by
  cases ids with
  | nil => exact absurd rfl h
  | cons s ids => rfl

/-- What is read behind a mark is what is written there. -/
theorem eq_of_readIdentifiers {mark : Char} {ids : List Text}
    (h : readIdentifiers mark p t = .ok (ids, u)) :
    t = marked mark ids ++ u ∧ ∀ s ∈ ids, IsIdentifier p s := by
  unfold readIdentifiers at h
  split at h
  · cases h
    exact ⟨rfl, by simp⟩
  · rename_i c r
    dsimp only at h
    split at h
    · rename_i hc
      split at h
      · cases h
      · rename_i hfault
        cases h
        -- The characters that were taken are cut at the dots, and joined they are the same again.
        have hjoin :=
          Text.joinWith_splitOn '.' (r.takeWhile fun d => isIdentifierChar d || d == '.')
        refine ⟨?_, fun s hs => ?_⟩
        · rw [marked_eq mark (Text.splitOn_ne_nil _ _), hjoin, List.cons_append,
            List.takeWhile_append_dropWhile, hc]
        · have hnone := segmentFault?_eq_none_iff.mp (List.findSome?_eq_none_iff.mp hfault s hs)
          refine ⟨hnone.1, fun d hd => ?_, hnone.2⟩
          have hchar := List.mem_takeWhile_imp (hjoin ▸ subset_joinWith hs hd)
          have hdot : d ≠ '.' := fun h => Text.not_mem_of_mem_splitOn hs (h ▸ hd)
          simpa [hdot] using hchar
    · cases h
      exact ⟨rfl, by simp⟩

/-- What is written behind a mark is read, if the text does not go on with another identifier or
its mark. -/
theorem readIdentifiers_marked {mark : Char} {ids : List Text} (hids : ∀ s ∈ ids, IsIdentifier p s)
    (hu : ∀ c w, u = c :: w → c ≠ mark ∧ c ≠ '.' ∧ isIdentifierChar c = false) :
    readIdentifiers mark p (marked mark ids ++ u) = .ok (ids, u) := by
  by_cases hne : ids = []
  · rw [hne]
    cases u with
    | nil => rfl
    | cons c w => exact if_neg (hu c w rfl).1
  · have hchars : ∀ d ∈ Text.joinWith ['.'] ids, (isIdentifierChar d || d == '.') = true := by
      intro d hd
      rcases exists_of_mem_joinWith hd with hd | ⟨s, hs, hd⟩
      · simp [List.mem_singleton.mp hd]
      · simp [(hids s hs).chars d hd]
    have hstop : StopsAt (fun d => isIdentifierChar d || d == '.') u := fun c w hc => by
      obtain ⟨-, hdot, hchar⟩ := hu c w hc
      simp [hdot, hchar]
    have hdots : ∀ s ∈ ids, '.' ∉ s := fun s hs hd => absurd ((hids s hs).chars '.' hd) (by decide)
    have hfault : ids.findSome? (segmentFault? p) = none :=
      List.findSome?_eq_none_iff.mpr fun s hs =>
        segmentFault?_eq_none_iff.mpr ⟨(hids s hs).ne_nil, (hids s hs).noZero⟩
    rw [marked_eq mark hne, List.cons_append, readIdentifiers]
    simp only [if_true]
    rw [List.takeWhile_append_of_pos hchars, List.dropWhile_append_of_pos hchars,
      hstop.takeWhile_eq, hstop.dropWhile_eq, List.append_nil, splitOn_joinWith hne hdots, hfault]

/-! ## Versions

The five parts are read one behind the other, and what each of them leaves is the text of those
that are still to come. -/

/-- The numbers have 64 bits, and the identifiers are well formed. -/
structure IsValid (v : Version) : Prop where
  major : v.major < UInt64.size
  minor : v.minor < UInt64.size
  patch : v.patch < UInt64.size
  pre : ∀ s ∈ v.pre, IsIdentifier .pre s
  build : ∀ s ∈ v.build, IsIdentifier .build s

/-- The numbers of a version and what stands behind them. -/
theorem text_eq (v : Version) :
    v.text = naturalText v.major ++ '.' :: (naturalText v.minor ++ '.' ::
    (naturalText v.patch ++ (marked '-' v.pre ++ marked '+' v.build))) := by
  simp [text]

/-- A chain of readers succeeds if each does, the next on what the one before has left. -/
theorem exists_of_bind {ε α β : Type} {x : Except ε α} {f : α → Except ε β} {b : β}
    (h : x >>= f = .ok b) : ∃ a, x = .ok a ∧ f a = .ok b := by
  cases x with
  | error e => cases h
  | ok a => exact ⟨a, rfl, h⟩

/-- Identifiers begin with their mark. -/
theorem eq_mark {mark c : Char} {ids : List Text} {w : Text} (h : marked mark ids = c :: w) :
    c = mark := by
  cases ids with
  | nil => cases h
  | cons s ids => exact (List.cons.inj h).1.symm

/-- What is read is valid, and is written as it was read. -/
theorem isValid_of_parse {v : Version} (h : parse t = .ok v) : v.IsValid ∧ t = v.text := by
  unfold parse at h
  split at h
  · cases h
  · obtain ⟨⟨major, t₁⟩, hmajor, h⟩ := exists_of_bind h
    obtain ⟨t₂, hdot, h⟩ := exists_of_bind h
    obtain ⟨⟨minor, t₃⟩, hminor, h⟩ := exists_of_bind h
    obtain ⟨t₄, hdot', h⟩ := exists_of_bind h
    obtain ⟨⟨patch, t₅⟩, hpatch, h⟩ := exists_of_bind h
    obtain ⟨⟨pre, t₆⟩, hpre, h⟩ := exists_of_bind h
    obtain ⟨⟨build, t₇⟩, hbuild, h⟩ := exists_of_bind h
    dsimp only at hdot hminor hdot' hpatch hpre hbuild h
    split at h
    · cases h
      obtain ⟨h₁, rfl, -⟩ := readNumber_eq_ok_iff.mp hmajor
      obtain rfl := readDot_eq_ok_iff.mp hdot
      obtain ⟨h₂, rfl, -⟩ := readNumber_eq_ok_iff.mp hminor
      obtain rfl := readDot_eq_ok_iff.mp hdot'
      obtain ⟨h₃, rfl, -⟩ := readNumber_eq_ok_iff.mp hpatch
      obtain ⟨rfl, h₄⟩ := eq_of_readIdentifiers hpre
      obtain ⟨rfl, h₅⟩ := eq_of_readIdentifiers hbuild
      exact ⟨⟨h₁, h₂, h₃, h₄, h₅⟩, by simp [text_eq]⟩
    · cases h

/-- What is valid is read from its text. -/
theorem parse_text {v : Version} (hv : v.IsValid) : parse v.text = .ok v := by
  have hne : v.text ≠ [] := by simp [text_eq, naturalText_ne_nil]
  -- Each part ends at a character that it cannot go on with : a number at a dot or a mark, the
  -- identifiers of a pre-release at a plus sign.
  have hdot (x : Text) : StopsAt isDigit ('.' :: x) := by
    rintro c w ⟨⟩
    rfl
  have hplus : ∀ c w, marked '+' v.build = c :: w → c ≠ '-' ∧ c ≠ '.' ∧
      isIdentifierChar c = false := fun c w h => by
    rw [eq_mark h]
    decide
  have hmark : StopsAt isDigit (marked '-' v.pre ++ marked '+' v.build) := fun c w h => by
    rcases List.append_eq_cons_iff.mp h with ⟨-, h⟩ | ⟨as, h, -⟩
    · rw [eq_mark h]
      rfl
    · rw [eq_mark h]
      rfl
  have hbuild : readIdentifiers '+' .build (marked '+' v.build ++ []) = .ok (v.build, []) :=
    readIdentifiers_marked hv.build (by simp)
  rw [List.append_nil] at hbuild
  rw [parse, if_neg hne, text_eq, readNumber_eq_ok_iff.mpr ⟨hv.major, rfl, hdot _⟩]
  simp only [bind, Except.bind, readDot]
  rw [readNumber_eq_ok_iff.mpr ⟨hv.minor, rfl, hdot _⟩]
  simp only
  rw [readNumber_eq_ok_iff.mpr ⟨hv.patch, rfl, hmark⟩]
  simp only
  rw [readIdentifiers_marked hv.pre hplus]
  simp only
  rw [hbuild]

/-- A text is read as a version if it is the text of a version that is valid, and as that
version. -/
theorem parse_eq_ok_iff {v : Version} : parse t = .ok v ↔ v.IsValid ∧ t = v.text :=
  ⟨isValid_of_parse, fun ⟨hv, ht⟩ => ht ▸ parse_text hv⟩

end Version

end YamlPatch
