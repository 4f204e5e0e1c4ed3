import YamlPatch.Number.Decimal

/-!
# Quoted scalars

Between single quotes a quote is written twice and nothing else is special. Between double
quotes a backslash starts an escape : a letter for a common control character, or the
number of a character in hexadecimal. An escape that is not known, or whose number is not
one of a character, stands for itself.

Each style has a writer and a reader, and the reader undoes the writer
(`SingleQuoted.decode_encode`, `DoubleQuoted.decode_encode`). The writer of double quotes
leaves no control character in its result, so what it writes stays on one line.
-/

namespace YamlPatch

namespace SingleQuoted

/-- The text between the quotes : each quote twice. -/
def encode (t : Text) : Text := Text.replaceChar '\'' ['\'', '\''] t

/-- Each pair of quotes read as one. -/
def decode : Text → Text
  | [] => []
  | '\'' :: '\'' :: t => '\'' :: decode t
  | c :: t => c :: decode t

/-- The reader undoes the writer : each doubled quote is one again. -/
theorem decode_encode (t : Text) : decode (encode t) = t := by
  induction t with
  | nil => rfl
  | cons c t ih =>
    unfold encode at ih ⊢
    by_cases h : c = '\''
    · simp [Text.replaceChar, h, decode, ih]
    · simp only [Text.replaceChar, h, if_false, List.singleton_append]
      rw [decode]
      · rw [ih]
      · rintro _ rfl
        exact absurd rfl h

end SingleQuoted

/-! ## Hexadecimal numbers -/

/-- The value of a hexadecimal digit, in either case. -/
def hexDigit? (c : Char) : Option Nat :=
  if '0' ≤ c ∧ c ≤ '9' then some (c.toNat - '0'.toNat)
  else if 'a' ≤ c ∧ c ≤ 'f' then some (c.toNat - 'a'.toNat + 10)
  else if 'A' ≤ c ∧ c ≤ 'F' then some (c.toNat - 'A'.toNat + 10)
  else none

/-- The number that continues `n` by hexadecimal digits. -/
def appendHex (n : Nat) : Text → Option Nat
  | [] => some n
  | c :: t => match hexDigit? c with
    | some d => appendHex (16 * n + d) t
    | none => none

/-- The number written in hexadecimal digits; a plus sign may precede them. -/
def readHex (t : Text) : Option Nat :=
  match t with
  | '+' :: d :: ds => appendHex 0 (d :: ds)
  | [] => none
  | ds => appendHex 0 ds

/-- The digit of a number below 16, in lower case. -/
def hexDigit (n : Nat) : Char := Nat.digitChar n

namespace DoubleQuoted

/-! ## Writing -/

/-- How a character is written between double quotes. -/
def encodeChar (c : Char) : Text :=
  if c = '"' then ['\\', '"']
  else if c = '\\' then ['\\', '\\']
  else if c = '\n' then ['\\', 'n']
  else if c = '\r' then ['\\', 'r']
  else if c = '\t' then ['\\', 't']
  else if c = '\x08' then ['\\', 'b']
  else if c = '\x0c' then ['\\', 'f']
  else if isControl c then ['\\', 'x', hexDigit (c.toNat / 16), hexDigit (c.toNat % 16)]
  else [c]

/-- The text between the quotes. -/
def encode (t : Text) : Text := t.flatMap encodeChar

/-! ## Reading -/

/-- The escapes of one letter. -/
def escapes : List (Char × Char) :=
  [('n', '\n'), ('r', '\r'), ('t', '\t'), ('\t', '\t'), ('\\', '\\'), ('"', '"'), ('/', '/'),
   ('0', '\x00'), ('b', '\x08'), ('f', '\x0c'), ('a', '\x07'), ('v', '\x0b'), ('e', '\x1b'),
   (' ', ' '), ('N', '\u0085'), ('_', '\u00a0'), ('L', '\u2028'), ('P', '\u2029')]

/-- How many characters give the number of a character behind this letter. -/
def numberLength : Char → Nat
  | 'x' => 2
  | 'u' => 4
  | 'U' => 8
  | _ => 0

/-- The character with the number written by `digits`. -/
def numberedChar (digits : Text) : Option Char :=
  (readHex digits).bind fun n => if n.isValidChar then some (Char.ofNat n) else none

/-- What the letter of an escape stands for. -/
def decodeLetter (c : Char) : Text :=
  match escapes.lookup c with
  | some d => [d]
  | none => ['\\', c]

/-- What a letter with the number of a character stands for. -/
def decodeNumber (c : Char) (digits : Text) : Text :=
  match numberedChar digits with
  | some d => [d]
  | none => '\\' :: c :: digits

/-- The text with its escapes read. -/
def decode : Text → Text
  | [] => []
  | '\\' :: [] => ['\\']
  | '\\' :: c :: t =>
    if numberLength c = 0 then decodeLetter c ++ decode t
    else decodeNumber c (t.take (numberLength c)) ++ decode (t.drop (numberLength c))
  | c :: t => c :: decode t
termination_by t => t.length
decreasing_by all_goals simp only [List.length_drop, List.length_cons]; omega

/-! ## Reading undoes writing -/

/-- A character other than the backslash is read as itself. -/
theorem decode_cons {c : Char} (h : c ≠ '\\') (t : Text) : decode (c :: t) = c :: decode t := by
  rw [decode]
  · intro h' _
    exact h h'
  · intro _ _ h' _
    exact h h'

/-- A backslash with a letter that starts no number is read by that letter alone. -/
theorem decode_letter {c : Char} (h : numberLength c = 0) (t : Text) :
    decode ('\\' :: c :: t) = decodeLetter c ++ decode t := by
  rw [decode, if_pos h]

/-- A hexadecimal digit is read as the number that it was written for. -/
theorem hexDigit?_hexDigit {n : Nat} (h : n < 16) : hexDigit? (hexDigit n) = some n := by
  have : ∀ m : Fin 16, hexDigit? (hexDigit m) = some m.val := by decide
  exact this ⟨n, h⟩

/-- No digit is the plus sign, which a reader of numbers may take for a sign. -/
theorem hexDigit_ne_plus {n : Nat} (h : n < 16) : hexDigit n ≠ '+' := by
  have : ∀ m : Fin 16, hexDigit m ≠ '+' := by decide
  exact this ⟨n, h⟩

/-- A control character reads back from its two digits. -/
theorem numberedChar_of_isControl {c : Char} (h : isControl c = true) :
    numberedChar [hexDigit (c.toNat / 16), hexDigit (c.toNat % 16)] = some c := by
  have hc : c.toNat < 0xA0 := by
    simp only [isControl, Bool.or_eq_true, Bool.and_eq_true, decide_eq_true_eq] at h
    omega
  have hv : c.toNat.isValidChar := c.valid
  have h1 : c.toNat / 16 < 16 := by omega
  have h2 : c.toNat % 16 < 16 := by omega
  have hr : readHex [hexDigit (c.toNat / 16), hexDigit (c.toNat % 16)] = some c.toNat := by
    rw [readHex]
    · simp only [appendHex, hexDigit?_hexDigit h1, hexDigit?_hexDigit h2, Option.some.injEq]
      omega
    · intro d ds h'
      exact hexDigit_ne_plus h1 (List.cons.inj h').1
    · simp
  simp [numberedChar, hr, hv]

/-- What is written for a character, escaped or not, is read as that character, and the rest of
the text is read as if it stood alone. -/
theorem decode_encodeChar (c : Char) (t : Text) : decode (encodeChar c ++ t) = c :: decode t := by
  unfold encodeChar
  repeat' split
  all_goals try
    (subst c; simp only [List.cons_append, List.nil_append]; rw [decode_letter rfl]; rfl)
  · rename_i hc
    simp only [List.cons_append, List.nil_append]
    rw [decode, if_neg (by decide)]
    simp only [numberLength, List.take_succ_cons, List.take_zero, List.drop_succ_cons,
      List.drop_zero, decodeNumber, numberedChar_of_isControl hc]
    rfl
  · rename_i h2 _ _ _ _ _ _
    exact decode_cons h2 t

/-- The reader undoes the writer, whatever characters the text holds. -/
theorem decode_encode (t : Text) : decode (encode t) = t := by
  induction t with
  | nil => simp [encode, decode]
  | cons c t ih =>
    have h : encode (c :: t) = encodeChar c ++ encode t := rfl
    rw [h, decode_encodeChar, ih]

/-- What is written holds no control character. -/
theorem not_isControl_of_mem_encode {t : Text} {d : Char} (h : d ∈ encode t) :
    isControl d = false := by
  obtain ⟨c, -, hd⟩ := List.mem_flatMap.mp h
  unfold encodeChar at hd
  repeat' split at hd
  all_goals simp only [List.mem_cons, List.not_mem_nil, or_false] at hd
  all_goals try (rcases hd with rfl | rfl <;> rfl)
  · rename_i hc
    have hlt : c.toNat < 0xA0 := by
      simp only [isControl, Bool.or_eq_true, Bool.and_eq_true, decide_eq_true_eq] at hc
      omega
    have hex : ∀ m : Fin 16, isControl (hexDigit m) = false := by decide
    rcases hd with rfl | rfl | rfl | rfl
    · rfl
    · rfl
    · exact hex ⟨c.toNat / 16, by omega⟩
    · exact hex ⟨c.toNat % 16, by omega⟩
  · rename_i hc
    subst hd
    simpa using hc

end DoubleQuoted

end YamlPatch
