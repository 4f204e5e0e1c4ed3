import YamlPatch.Proofs.LineStarts

/-!
# Quotes found in bytes

Where a quoted scalar ends can be found in the bytes of its text, in UTF-8 : `closingSingle` and
`closingDouble` look at one byte after the other, and pass over two behind a backslash. The
bytes of a character that is not ASCII are none of ASCII, so no quote and no backslash is found
inside of one, and the byte that a backslash covers may be the first of several, of which the
others are passed over one by one. Hence the byte after the closing quote begins a character,
the one that is found in the characters of the text (`closingSingle_utf8`,
`closingDouble_utf8`).
-/

namespace YamlPatch

/-! ## Bytes

In UTF-8 the characters of ASCII are bytes below 128, and all bytes of the others are 128 or
more. -/

/-- The text in UTF-8. -/
def Text.utf8 (t : Text) : List UInt8 := t.flatMap String.utf8EncodeChar

namespace Text

/-- No characters are no bytes. -/
@[simp] theorem utf8_nil : utf8 [] = [] := rfl

/-- The bytes of the first character come first. -/
@[simp] theorem utf8_cons (c : Char) (t : Text) :
    utf8 (c :: t) = String.utf8EncodeChar c ++ utf8 t := rfl

/-- There are as many bytes as are counted. -/
@[simp] theorem length_utf8 (t : Text) : (utf8 t).length = byteLength t := by
  induction t with
  | nil => rfl
  | cons c t ih => simp [byteLength, ih]

end Text

open Text String

/-- A character that is written in ASCII is one byte, and the bytes of the others are none of
ASCII. -/
theorem utf8EncodeChar_cases (c : Char) :
    utf8EncodeChar c = [c.toUInt8] ∧ c.toNat < 128 ∨ 128 ≤ c.toNat ∧
    ∀ b ∈ utf8EncodeChar c, 128 ≤ b.toNat := by
  have hbyte {n m : Nat} (hm : 128 ≤ m) (hn : n + m < 256) : 128 ≤ (UInt8.ofNat (n + m)).toNat := by
    rw [UInt8.toNat_ofNat_of_lt' hn]
    omega
  have htrail (n : Nat) : 128 ≤ (UInt8.ofNat (n % 64 + 128)).toNat := hbyte (by omega) (by omega)
  have hlead (n : Nat) {k m : Nat} (hk : 0 < k) (hm : 128 ≤ m) (h : k + m ≤ 256) :
      128 ≤ (UInt8.ofNat (n % k + m)).toNat :=
    hbyte hm (by have := Nat.mod_lt n hk; omega)
  by_cases hc : c.toNat < 128
  · refine .inl ⟨utf8EncodeChar_eq_singleton ?_, hc⟩
    rw [Char.utf8Size_eq_one_iff, UInt32.le_iff_toNat_le]
    exact Nat.le_of_lt_succ hc
  · refine .inr ⟨by omega, fun b hb => ?_⟩
    unfold utf8EncodeChar at hb
    dsimp only at hb
    rw [if_neg (show ¬c.val.toNat ≤ 127 from fun h => hc (Nat.lt_succ_of_le h))] at hb
    repeat' split at hb
    all_goals
      simp only [List.mem_cons, List.not_mem_nil, or_false] at hb
      rcases hb with rfl | hb
      · exact hlead _ (by decide) (by decide) (by decide)
      · rcases hb with rfl | hb <;>
          first | exact htrail _ | (rcases hb with rfl | rfl <;> exact htrail _)

/-- A byte of ASCII is found in the bytes of its own character only. -/
theorem ne_of_mem_utf8EncodeChar {c q : Char} (hq : q.toNat < 128) (hc : c ≠ q) {b : UInt8}
    (hb : b ∈ utf8EncodeChar c) : b ≠ q.toUInt8 := by
  have hqn : q.toUInt8.toNat = q.toNat := Nat.mod_eq_of_lt (show q.toNat < 256 by omega)
  rintro rfl
  rcases utf8EncodeChar_cases c with ⟨heq, hlt⟩ | ⟨-, hlarge⟩
  · rw [heq, List.mem_singleton] at hb
    have hcn : c.toUInt8.toNat = c.toNat := Nat.mod_eq_of_lt (show c.toNat < 256 by omega)
    have : c.toNat = q.toNat := by rw [← hcn, ← hqn, hb]
    exact hc (Char.toNat_inj.mp this)
  · have := hlarge _ hb
    omega

/-- A scan that passes over single bytes passes over them all. -/
theorem append_of_passes {f : List UInt8 → Option Nat} {us : List UInt8}
    (h : ∀ b ∈ us, ∀ ds, f (b :: ds) = (f ds).map (· + 1)) (bs : List UInt8) :
    f (us ++ bs) = (f bs).map (· + us.length) := by
  induction us with
  | nil => simp
  | cons b us ih =>
    rw [List.cons_append, h b (by simp), ih fun d hd => h d (by simp [hd]), Option.map_map]
    rfl

/-! ## Single quotes

The scan stops at the first quote that is not followed by another. A quote is a byte of ASCII, so
none is found inside of a character. -/

/-- The bytes after an opening single quote through the closing one; a quote written twice does
not close. -/
def closingSingle : List UInt8 → Option Nat
  | [] => none
  | [b] => if b = '\''.toUInt8 then some 1 else none
  | b :: d :: bs =>
    if b = '\''.toUInt8 then if d = '\''.toUInt8 then (closingSingle bs).map (· + 2) else some 1
    else (closingSingle (d :: bs)).map (· + 1)

/-- Bytes that are no quotes are passed over. -/
theorem closingSingle_append {us : List UInt8} (h : ∀ b ∈ us, b ≠ '\''.toUInt8) (bs : List UInt8) :
    closingSingle (us ++ bs) = (closingSingle bs).map (· + us.length) :=
  append_of_passes (fun b hb ds => by cases ds <;> simp [closingSingle, h b hb]) bs

/-- A quote is found in the bytes where it is found in the characters. -/
theorem closingSingle_utf8 (t : Text) :
    closingSingle (utf8 t) = (singleQuotedLength t).map fun n => byteLength (t.take n) := by
  have hquote : utf8EncodeChar '\'' = ['\''.toUInt8] := rfl
  fun_induction singleQuotedLength t with
  | case1 => rfl
  | case2 t ih =>
    simp only [utf8_cons, hquote, List.cons_append, List.nil_append, closingSingle, if_true, ih,
      Option.map_map]
    congr 1
    funext n
    simp only [Function.comp_apply, List.take_succ_cons, byteLength,
      show '\''.utf8Size = 1 from rfl]
    omega
  -- The quote closes if no other follows, and the first byte behind it is a quote only if the
  -- first character is.
  | case3 t ht =>
    have hnext : ∀ b ∈ (utf8 t).head?, b ≠ '\''.toUInt8 := by
      cases t with
      | nil => simp
      | cons c t =>
        have hc : c ≠ '\'' := by
          rintro rfl
          exact ht t rfl
        intro b hb
        refine ne_of_mem_utf8EncodeChar (by decide) hc ?_
        obtain ⟨d, us, hd⟩ := List.exists_cons_of_ne_nil (utf8EncodeChar_ne_nil (c := c))
        obtain rfl : d = b := by simpa [hd] using hb
        simp [hd]
    rw [utf8_cons, hquote]
    cases hu : utf8 t with
    | nil => rfl
    | cons b bs =>
      simp [closingSingle, hnext b (by simp [hu]), byteLength, show '\''.utf8Size = 1 from rfl]
  -- No byte of another character is a quote.
  | case4 c t hc hc' ih =>
    have hc : c ≠ '\'' := by
      rintro rfl
      exact hc' rfl
    have hpass :=
      closingSingle_append (fun b hb => ne_of_mem_utf8EncodeChar (by decide) hc hb) (utf8 t)
    rw [utf8_cons, hpass, ih, Option.map_map, Option.map_map]
    congr 1
    funext n
    simp [byteLength, Nat.add_comm]

/-! ## Double quotes

Behind a backslash a single byte is passed over. If the character there has several bytes then
the others are no quotes. -/

/-- The bytes after an opening double quote through the closing one; a backslash covers the next
byte. -/
def closingDouble : List UInt8 → Option Nat
  | [] => none
  | [b] => if b = '"'.toUInt8 then some 1 else none
  | b :: d :: bs =>
    if b = '\\'.toUInt8 then (closingDouble bs).map (· + 2)
    else if b = '"'.toUInt8 then some 1 else (closingDouble (d :: bs)).map (· + 1)

/-- Bytes that are neither quotes nor backslashes are passed over. -/
theorem closingDouble_append {us : List UInt8} (h : ∀ b ∈ us, b ≠ '"'.toUInt8 ∧ b ≠ '\\'.toUInt8)
    (bs : List UInt8) :
    closingDouble (us ++ bs) = (closingDouble bs).map (· + us.length) :=
  append_of_passes (fun b hb ds => by cases ds <;> simp [closingDouble, h b hb]) bs

/-- The first byte of a character that a backslash covers is passed over with it, and the others
after it. -/
theorem closingDouble_escape (c : Char) (bs : List UInt8) :
    closingDouble ('\\'.toUInt8 :: (utf8EncodeChar c ++ bs)) =
      (closingDouble bs).map (· + (c.utf8Size + 1)) := by
  obtain ⟨b, us, hbus⟩ := List.exists_cons_of_ne_nil (utf8EncodeChar_ne_nil (c := c))
  have hlen : us.length + 1 = c.utf8Size := by rw [← length_utf8EncodeChar, hbus, List.length_cons]
  have hus : ∀ d ∈ us, d ≠ '"'.toUInt8 ∧ d ≠ '\\'.toUInt8 := by
    intro d hd
    rcases utf8EncodeChar_cases c with ⟨heq, -⟩ | ⟨-, hlarge⟩
    · rw [heq] at hbus
      obtain ⟨-, rfl⟩ := List.cons.inj hbus
      simp at hd
    · have := hlarge d (by simp [hbus, hd])
      constructor <;> rintro rfl <;> exact absurd this (by decide)
  rw [hbus, List.cons_append, closingDouble, if_pos rfl, closingDouble_append hus, Option.map_map]
  congr 1
  funext n
  simp only [Function.comp_apply]
  omega

/-- A quote is found in the bytes where it is found in the characters. -/
theorem closingDouble_utf8 (t : Text) :
    closingDouble (utf8 t) = (doubleQuotedLength t).map fun n => byteLength (t.take n) := by
  have hslash : utf8EncodeChar '\\' = ['\\'.toUInt8] := rfl
  have hquote : utf8EncodeChar '"' = ['"'.toUInt8] := rfl
  fun_induction doubleQuotedLength t with
  | case1 => rfl
  | case2 => rfl
  -- The backslash covers the first byte of the next character; the others are passed over one by
  -- one.
  | case3 c t ih =>
    rw [utf8_cons, utf8_cons, hslash, List.singleton_append, closingDouble_escape, ih,
      Option.map_map, Option.map_map]
    congr 1
    funext n
    simp only [Function.comp_apply, List.take_succ_cons, byteLength,
      show '\\'.utf8Size = 1 from rfl]
    omega
  | case4 t =>
    rw [utf8_cons, hquote]
    cases utf8 t <;> rfl
  | case5 c t hlast hescape hclose ih =>
    have hc : c ≠ '\\' := by
      rintro rfl
      cases t with
      | nil => exact hlast rfl rfl
      | cons d t => exact hescape d t rfl rfl
    have hpass (b : UInt8) (hb : b ∈ utf8EncodeChar c) : b ≠ '"'.toUInt8 ∧ b ≠ '\\'.toUInt8 :=
      ⟨ne_of_mem_utf8EncodeChar (by decide) hclose hb, ne_of_mem_utf8EncodeChar (by decide) hc hb⟩
    rw [utf8_cons, closingDouble_append hpass, ih, Option.map_map, Option.map_map]
    congr 1
    funext n
    simp [byteLength, Nat.add_comm]

end YamlPatch
