import Mathlib.Data.Nat.Digits.Defs
import YamlPatch.Proofs.Escapes

/-!
# Escapes with a number

Behind `\x`, `\u` and `\U` stand two, four and eight hexadecimal digits with the number of a
character. Each such escape is a piece of its own, and each piece is read by itself, wherever it
stands (`DoubleQuoted.decode_eq_flatMap`). It is read as a character if its digits give the
number of one, and else it is kept as it is. But the digits may be fewer if the text ends, and a
plus sign may take the place of the first (`DoubleQuoted.Numbered`,
`DoubleQuoted.text_numbered`).

The reader goes through the digits from the left and multiplies by 16. The specification is
`Nat.ofDigits`, which has the last digit first (`SpellsHex`); the two are compared with the
number read so far as an accumulator (`appendHex_eq_some_iff`).
-/

namespace YamlPatch

/-! ## Hexadecimal numbers

The reader of numbers takes a plus sign in front, so a number may be written in two ways. -/

/-- The text is the number in hexadecimal digits, at least one. -/
def SpellsHex (t : Text) (n : Nat) : Prop :=
  t ≠ [] ∧ ∃ ds : List Nat, t.map hexDigit? = ds.map some ∧ Nat.ofDigits 16 ds.reverse = n

/-- A digit in front may be counted with what was read before. -/
theorem ofDigits_reverse_cons (d : Nat) (ds : List Nat) (n : Nat) :
    Nat.ofDigits 16 (d :: ds).reverse + 16 ^ (d :: ds).length * n =
      Nat.ofDigits 16 ds.reverse + 16 ^ ds.length * (16 * n + d) := by
  rw [List.reverse_cons, Nat.ofDigits_append, Nat.ofDigits_singleton, List.length_reverse,
    List.length_cons]
  ring

/-- What is read behind a number `n` is `n` with the digits of the text behind it. -/
theorem appendHex_eq_some_iff {t : Text} {n m : Nat} : appendHex n t = some m ↔
    ∃ ds : List Nat, t.map hexDigit? = ds.map some ∧
      Nat.ofDigits 16 ds.reverse + 16 ^ ds.length * n = m := by
  induction t generalizing n with
  | nil => simp [appendHex]
  | cons c t ih =>
    rw [appendHex]
    cases hc : hexDigit? c with
    | none =>
      refine ⟨by simp, ?_⟩
      rintro ⟨ds, hds, -⟩
      cases ds <;> simp [hc] at hds
    | some d =>
      rw [ih]
      constructor
      · rintro ⟨ds, hds, hm⟩
        exact ⟨d :: ds, by simp [hc, hds], by rw [ofDigits_reverse_cons, hm]⟩
      · rintro ⟨ds, hds, hm⟩
        obtain ⟨e, es, rfl⟩ : ∃ e es, ds = e :: es := by
          cases ds with
          | nil => simp at hds
          | cons e es => exact ⟨e, es, rfl⟩
        obtain ⟨rfl, hes⟩ : d = e ∧ t.map hexDigit? = es.map some := by simpa [hc] using hds
        exact ⟨es, hes, by rw [← ofDigits_reverse_cons, hm]⟩

/-- A number is spelled if the reader reads it from a text that is not empty. -/
theorem spellsHex_iff {t : Text} {n : Nat} : SpellsHex t n ↔ t ≠ [] ∧ appendHex 0 t = some n := by
  simp [SpellsHex, appendHex_eq_some_iff]

/-- A plus sign is no digit. -/
theorem not_spellsHex_plus {u : Text} {n : Nat} : ¬SpellsHex ('+' :: u) n := by
  simp [spellsHex_iff, appendHex, show hexDigit? '+' = none by decide]

/-- A number is read from its digits, with a plus sign or without. -/
theorem readHex_eq_some_iff {t : Text} {n : Nat} :
    readHex t = some n ↔ SpellsHex t n ∨ ∃ u, t = '+' :: u ∧ SpellsHex u n := by
  unfold readHex
  split
  · rename_i d ds
    have hread : appendHex 0 (d :: ds) = some n ↔ SpellsHex (d :: ds) n := by simp [spellsHex_iff]
    simp [hread, not_spellsHex_plus]
  · simp [SpellsHex]
  · rename_i hplus hne
    have hunsigned : ¬∃ u, t = '+' :: u ∧ SpellsHex u n := by
      rintro ⟨u, rfl, hu, -⟩
      obtain ⟨d, ds, rfl⟩ := List.exists_cons_of_ne_nil hu
      exact hplus d ds rfl
    rw [or_iff_left hunsigned, spellsHex_iff, and_iff_right hne]

namespace DoubleQuoted

/-- A character is read if the number that is read is its own. -/
theorem numberedChar_eq_some_iff {t : Text} {c : Char} :
    numberedChar t = some c ↔ readHex t = some c.toNat := by
  rw [numberedChar, Option.bind_eq_some_iff]
  constructor
  · rintro ⟨n, hread, hn⟩
    split at hn
    · rename_i hvalid
      cases hn
      rw [hread, Char.ofNat, dif_pos hvalid]
      rfl
    · cases hn
  · intro hread
    exact ⟨c.toNat, hread, by rw [if_pos (show c.toNat.isValidChar from c.valid), Char.ofNat_toNat]⟩

/-! ## Each escape by itself

The pieces of a text have been cut before any of them is read. An escape is cut off with as many
characters as its letter asks for, whatever they are. -/

/-- An escape has no more characters than its letter asks for, and it has fewer only at the end
of the text. -/
theorem length_of_mem_pieces {t : Text} {c : Char} {ds : Text}
    (h : .escape ('\\' :: c :: ds) ∈ pieces t) :
    ds.length ≤ numberLength c ∧ (ds.length < numberLength c → '\\' :: c :: ds <:+ t) := by
  fun_induction pieces t with
  | case1 => simp at h
  | case2 => simp at h
  | case3 d t ih =>
    rcases List.mem_cons.mp h with h | h
    · obtain ⟨rfl, rfl⟩ : c = d ∧ ds = t.take (numberLength d) := by simpa using h
      refine ⟨List.length_take_le _ t, fun hlt => ?_⟩
      rw [List.length_take] at hlt
      simp [List.take_of_length_le (show t.length ≤ numberLength c by omega)]
    · refine ⟨(ih h).1, fun hlt => ((ih h).2 hlt).trans ?_⟩
      exact (List.drop_suffix _ t).trans ((List.suffix_cons d t).trans (List.suffix_cons _ _))
  | case4 d t _ _ ih =>
    have ih := ih (by simpa using h)
    exact ⟨ih.1, fun hlt => (ih.2 hlt).trans (List.suffix_cons d t)⟩

/-- The characters behind the letter `c` give the number of the character `d`. -/
inductive Numbered (c : Char) (ds : Text) (d : Char) : Prop
  /-- By as many digits as the letter asks for. -/
  | digits (hlength : ds.length = numberLength c) (hds : SpellsHex ds d.toNat)
  /-- By fewer, which is for the end of the text (`length_of_mem_pieces`). -/
  | short (hlength : ds.length < numberLength c) (hds : SpellsHex ds d.toNat)
  /-- By digits behind a plus sign. -/
  | signed {u : Text} (hplus : ds = '+' :: u) (hu : SpellsHex u d.toNat)

/-- Digits give a character if the reader reads it from them. It reads no more than the letter
asks for. -/
theorem numbered_iff {c d : Char} {ds : Text} (hlength : ds.length ≤ numberLength c) :
    Numbered c ds d ↔ numberedChar ds = some d := by
  rw [numberedChar_eq_some_iff, readHex_eq_some_iff]
  constructor
  · rintro (⟨-, hds⟩ | ⟨-, hds⟩ | ⟨hplus, hu⟩)
    · exact .inl hds
    · exact .inl hds
    · exact .inr ⟨_, hplus, hu⟩
  · rintro (hds | ⟨u, hplus, hu⟩)
    · rcases hlength.eq_or_lt with heq | hlt
      · exact .digits heq hds
      · exact .short hlt hds
    · exact .signed hplus hu

/-- An escape with a number stands for the character whose number it gives, and if it gives none
for itself. -/
theorem text_numbered {t : Text} {c : Char} {ds : Text} (hc : numberLength c ≠ 0)
    (h : .escape ('\\' :: c :: ds) ∈ pieces t) :
    (∀ d, Numbered c ds d → Piece.text (.escape ('\\' :: c :: ds)) = [d]) ∧
      ((∀ d, ¬Numbered c ds d) → Piece.text (.escape ('\\' :: c :: ds)) = '\\' :: c :: ds) := by
  have hle := (length_of_mem_pieces h).1
  rw [Piece.text, decode, if_neg hc, List.take_of_length_le hle, List.drop_eq_nil_of_le hle, decode,
    List.append_nil, decodeNumber]
  refine ⟨fun d hd => ?_, fun hnone => ?_⟩
  · rw [(numbered_iff hle).mp hd]
  · have hread : numberedChar ds = none :=
      Option.eq_none_iff_forall_ne_some.mpr fun d hd => hnone d ((numbered_iff hle).mpr hd)
    rw [hread]

/-- A sign or the end of the text takes the place of a digit, another letter does not. -/
example : decode "\\x+1".toList = ['\x01'] ∧ decode "\\x4".toList = ['\x04'] ∧
    decode "\\x4g".toList = "\\x4g".toList := by
  decide +kernel

end DoubleQuoted

end YamlPatch
