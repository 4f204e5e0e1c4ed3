import YamlPatch.Text

/-!
# Numbers written in decimal

What counts as a number decides how a plain scalar is classified and which strings have to
be quoted. An integer is an optional sign and at least one digit (`readInteger`), and
counts only within 64 bits (`isInteger64`). A real number is an optional sign and either
one of the words `inf`, `infinity` and `nan`, in any case, or digits with at most one
point, at least one digit, and an optional exponent (`readReal`); its value stays exact,
as `mantissa * 10 ^ exponent`.
-/

namespace YamlPatch

/-! ## Digits -/

/-- The value of a decimal digit. -/
def digitValue? (c : Char) : Option Nat :=
  if '0' ≤ c ∧ c ≤ '9' then some (c.toNat - '0'.toNat) else none

/-- A decimal digit. -/
def isDigit (c : Char) : Bool := (digitValue? c).isSome

/-- The number that continues `n` by the digits `ds`. -/
def appendDigits (n : Nat) (ds : Text) : Nat :=
  ds.foldl (fun m d => 10 * m + (digitValue? d).getD 0) n

/-- The number written by digits alone; at least one is needed. -/
def readNatural (t : Text) : Option Nat :=
  if t ≠ [] ∧ t.all isDigit then some (appendDigits 0 t) else none

/-- The decimal digits of `n`, the most significant first. -/
def naturalText (n : Nat) : Text := Nat.toDigits 10 n

/-! ## Signs and integers -/

/-- Whether the text starts with a minus sign, and the text after its sign. -/
def splitSign : Text → Bool × Text
  | '-' :: t => (true, t)
  | '+' :: t => (false, t)
  | t => (false, t)

/-- The integer written by an optional sign and digits. -/
def readInteger (t : Text) : Option Int :=
  (readNatural (splitSign t).2).map fun n => if (splitSign t).1 then -(n : Int) else n

/-- Whether the text writes an integer of 64 bits, sign included. -/
def isInteger64 (t : Text) : Bool :=
  match readInteger t with
  | some n => Int64.minValue.toInt ≤ n && n ≤ Int64.maxValue.toInt
  | none => false

/-- The digits of an integer behind its sign; a sign is written only for negative numbers. -/
def integerText (n : Int) : Text :=
  if n < 0 then '-' :: naturalText n.natAbs else naturalText n.natAbs

/-! ## Real numbers -/

/-- A real number as its text gives it. -/
inductive Decimal where
  | nan
  | infinite (negative : Bool)
  /-- The number `mantissa * 10 ^ exponent`, negated if `negative`. -/
  | finite (negative : Bool) (mantissa : Nat) (exponent : Int)
  deriving DecidableEq, Repr

/-- The power of ten after the digits : nothing, or `e` and an integer. -/
def readExponent : Text → Option Int
  | [] => some 0
  | c :: t => if c = 'e' ∨ c = 'E' then readInteger t else none

/-- An unsigned number with optional point and exponent. -/
def readMagnitude (t : Text) : Option (Nat × Int) :=
  let whole := t.takeWhile isDigit
  let rest := t.dropWhile isDigit
  let fraction := match rest with
    | '.' :: r => r.takeWhile isDigit
    | _ => []
  let tail := match rest with
    | '.' :: r => r.dropWhile isDigit
    | r => r
  if whole = [] ∧ fraction = [] then none
  else (readExponent tail).map fun e =>
    (appendDigits (appendDigits 0 whole) fraction, e - fraction.length)

/-- The real number written by the text. -/
def readReal (t : Text) : Option Decimal :=
  let (negative, rest) := splitSign t
  let word := Text.lower rest
  if word = "inf".toList ∨ word = "infinity".toList then some (.infinite negative)
  else if word = "nan".toList then some .nan
  else (readMagnitude rest).map fun (m, e) => .finite negative m e

/-- A text that is a real number, whatever its value. -/
def isReal (t : Text) : Bool := (readReal t).isSome

end YamlPatch
