import YamlPatch.Proofs.AtomTokens
import YamlPatch.Release.Arithmetic

/-!
# Versions come back from their text

The text of a number has no zero in front, so it is read as that number wherever no digit
follows it (`Version.readNumber_naturalText`). Hence a version that is nothing but its three
numbers, and that is read from its own text, is read as what it is
(`Version.IsBare.eq_of_parse`).

The text of such a version holds no space, so the two bounds of a range are known from its text
(`Version.bounds?_skipRange`).

The reader multiplies by ten as it goes through the digits, and so does `Nat.ofDigitChars`, which is
known to give a number back from its digits.
-/

namespace YamlPatch

/-! ## Digits

What the reader does digit by digit the library does, too, so its lemmas can be used. -/

/-- The digits of numbers are those of the library. -/
theorem digitValue?_of_isDigit {c : Char} (h : c.isDigit = true) :
    digitValue? c = some (c.toNat - '0'.toNat) := by
  simp only [Char.isDigit, Bool.and_eq_true, decide_eq_true_eq] at h
  exact if_pos ⟨h.1, h.2⟩

/-- The text of a number has digits only. -/
theorem isDigit_of_mem_naturalText {n : Nat} {c : Char} (h : c ∈ naturalText n) :
    c.isDigit = true :=
  Nat.isDigit_of_mem_toDigits (by decide) (by decide) h

/-- Digits are read as the library reads them. -/
theorem appendDigits_eq_ofDigitChars {ds : Text} (h : ∀ c ∈ ds, c.isDigit = true) (n : Nat) :
    appendDigits n ds = Nat.ofDigitChars 10 ds n := by
  induction ds generalizing n with
  | nil => rfl
  | cons c ds ih =>
    have hc := digitValue?_of_isDigit (h c (by simp))
    have ih := ih fun d hd => h d (List.mem_cons_of_mem c hd)
    rw [Nat.ofDigitChars_cons, ← ih]
    simp [appendDigits, hc]

/-- The digits of a number are read as the number. -/
theorem appendDigits_naturalText (n : Nat) : appendDigits 0 (naturalText n) = n := by
  rw [appendDigits_eq_ofDigitChars fun c hc => isDigit_of_mem_naturalText hc]
  exact Nat.ofDigitChars_ten_toDigits

/-- No number but zero begins with a zero. -/
theorem head?_naturalText {n : Nat} (hn : n ≠ 0) : (naturalText n).head? ≠ some '0' := by
  induction n using Nat.strongRecOn with
  | ind n ih =>
    unfold naturalText at ih ⊢
    have hsmall : ∀ m < 10, m ≠ 0 → [m.digitChar].head? ≠ some '0' := by decide
    by_cases hlt : n < 10
    · rw [Nat.toDigits_of_lt_base hlt]
      exact hsmall n hlt hn
    · have hlead := ih (n / 10) (by omega) (by omega)
      obtain ⟨d, ds, hd⟩ := List.exists_cons_of_ne_nil (Nat.toDigits_ne_nil (n := n / 10) (b := 10))
      rw [Nat.toDigits_of_base_le (by decide) (by omega), hd]
      rw [hd] at hlead
      exact hlead

namespace Version

/-! ## Numbers

The reader stops at the first character that is no digit. -/

/-- A number is read where no digit follows it, if it fits in 64 bits. -/
theorem readNumber_naturalText (p : VersionPart) (n : Nat) {t : Text}
    (ht : ∀ c u, t = c :: u → isDigit c = false) :
    readNumber p (naturalText n ++ t) = if n < UInt64.size then .ok (n, t)
      else .error (.tooLarge p) := by
  have hdigit : ∀ c ∈ naturalText n, isDigit c = true := fun c hc => by
    simp [isDigit, digitValue?_of_isDigit (isDigit_of_mem_naturalText hc)]
  have htake : t.takeWhile isDigit = [] := by
    cases t with
    | nil => rfl
    | cons c u => simp [ht c u rfl]
  have hdrop : t.dropWhile isDigit = t := by
    cases t with
    | nil => rfl
    | cons c u => simp [ht c u rfl]
  -- The digits of the number are taken, and no more.
  have hdigits : (naturalText n ++ t).takeWhile isDigit = naturalText n := by
    rw [List.takeWhile_append_of_pos hdigit, htake, List.append_nil]
  have hrest : (naturalText n ++ t).dropWhile isDigit = t := by
    rw [List.dropWhile_append_of_pos hdigit, hdrop]
  have hvalue := appendDigits_naturalText n
  unfold readNumber
  rw [hdigits]
  split
  · exact absurd ‹_› (naturalText_ne_nil n)
  · exact absurd ‹_› (naturalText_ne_nil n)
  · -- two digits of which the first is zero
    rename_i d ds _ hzero
    have hn : n = 0 := by_contra fun hn => head?_naturalText hn (by rw [hzero]; rfl)
    rw [hn] at hzero
    cases hzero
  · rw [hvalue, hrest]

/-! ## Versions without a name

Neither a pre-release nor a build follows the three numbers. -/

/-- A release or a version with a patch : no identifiers. -/
def IsBare (v : Version) : Prop := v.pre = [] ∧ v.build = []

/-- The text of such a version is its three numbers. -/
theorem IsBare.text_eq {v : Version} (h : v.IsBare) :
    v.text = naturalText v.major ++ '.' :: (naturalText v.minor ++ '.' :: naturalText v.patch) := by
  simp [text, h.1, h.2, marked]

/-- A version that is made of numbers has no name. -/
theorem isBare_ofNumbers (a b c : Nat) : (ofNumbers a b c).IsBare := ⟨rfl, rfl⟩

/-- Neither has the next minor release. -/
theorem isBare_nextMinor (v : Version) : v.nextMinor.IsBare := isBare_ofNumbers _ _ _

/-- Nor has the release of a version without one. -/
theorem IsBare.release {v : Version} (h : v.IsBare) : v.release.IsBare := h

/-- A version without a name that is read from its own text has been read right. -/
theorem IsBare.eq_of_parse {v w : Version} (hv : v.IsBare) (h : parse v.text = .ok w) : w = v := by
  have hne : v.text ≠ [] := by simp [hv.text_eq, naturalText_ne_nil]
  have hmajor :=
    readNumber_naturalText .major v.major
      (t := '.' :: (naturalText v.minor ++ '.' :: naturalText v.patch))
    (by rintro c u ⟨⟩; rfl)
  have hminor :=
    readNumber_naturalText .minor v.minor (t := '.' :: naturalText v.patch) (by rintro c u ⟨⟩; rfl)
  have hpatch := readNumber_naturalText .patch v.patch (t := []) nofun
  rw [List.append_nil] at hpatch
  rw [parse, if_neg hne, hv.text_eq, hmajor] at h
  -- Each number is too large, or it is read and the text behind it is left.
  by_cases h₁ : v.major < UInt64.size
  · rw [if_pos h₁] at h
    simp only [bind, Except.bind, readDot, hminor] at h
    by_cases h₂ : v.minor < UInt64.size
    · rw [if_pos h₂] at h
      simp only [hpatch] at h
      by_cases h₃ : v.patch < UInt64.size
      · rw [if_pos h₃] at h
        obtain ⟨major, minor, patch, pre, build⟩ := v
        obtain ⟨rfl, rfl⟩ := hv
        exact (Except.ok.inj h).symm
      · rw [if_neg h₃] at h
        cases h
    · rw [if_neg h₂] at h
      cases h
  · rw [if_neg h₁] at h
    cases h

/-- Its text holds neither spaces nor other white space. -/
theorem IsBare.not_isBlank {v : Version} (h : v.IsBare) : ∀ c ∈ v.text, isBlank c = false := by
  have hfree (n : Nat) : ∀ c ∈ naturalText n, isBlank c = false := fun c hc =>
    (isFreeChar_iff.mp (isFreeChar_of_mem_naturalText hc)).2.1
  rw [h.text_eq]
  simp only [List.mem_append, List.mem_cons]
  rintro c (hc | rfl | hc | rfl | hc)
  · exact hfree _ c hc
  · decide
  · exact hfree _ c hc
  · decide
  · exact hfree _ c hc

/-- So there is nothing to trim. -/
theorem IsBare.trim_text {v : Version} (h : v.IsBare) : Text.trim v.text = v.text := by
  have hstart {t : Text} (ht : ∀ c ∈ t, isBlank c = false) : t.dropWhile isBlank = t := by
    cases t with
    | nil => rfl
    | cons c u => simp [ht c (by simp)]
  have hrev : ∀ c ∈ v.text.reverse, isBlank c = false :=
    fun c hc => h.not_isBlank c (List.mem_reverse.mp hc)
  rw [Text.trim, Text.trimStart, hstart h.not_isBlank, Text.trimEnd, hstart hrev,
    List.reverse_reverse]

/-! ## Ranges

The two bounds are cut at the space, which no version holds. -/

/-- The bounds of a range of versions : the text from `>=` to the space, and the text behind `<`. -/
def bounds? : Text → Option (Text × Text)
  | '>' :: '=' :: t =>
    match t.dropWhile (· ≠ ' ') with
    | ' ' :: '<' :: u => some (t.takeWhile (· ≠ ' '), u)
    | _ => none
  | _ => none

/-- The bounds of a range are the texts of its versions. -/
theorem bounds?_skipRange {a : Version} (ha : a.IsBare) (b : Version) :
    bounds? (skipRange a b) = some (a.text, b.text) := by
  have hspace : ∀ c ∈ a.text, (decide (c ≠ ' ')) = true := fun c hc => by
    have := ha.not_isBlank c hc
    simp only [ne_eq, decide_eq_true_eq]
    rintro rfl
    exact absurd this (by decide)
  have heq : skipRange a b = '>' :: '=' :: (a.text ++ ' ' :: '<' :: b.text) := by
    simp [skipRange]
  rw [heq, bounds?, List.dropWhile_append_of_pos hspace, List.takeWhile_append_of_pos hspace]
  simp

end Version

end YamlPatch
