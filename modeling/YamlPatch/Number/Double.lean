import YamlPatch.Number.Decimal

/-!
# Doubles and their shortest text

A `Double` is a number of the binary format with 53 significant bits and exponents from -1074
on, held exactly as `mantissa * 2 ^ exponent`. `Double.ofDecimal` is the double nearest to a
decimal, a tie going to the even mantissa.

`Double.text` writes a double with the fewest digits that read back as it; of two such
numbers the nearer one, and of two equally near the larger. The digits are found by search :
on the decimal grids from coarse to fine, the two neighbours of the number are tested against
the interval of numbers that round to it. The text is positional, without an exponent, and a
whole number has no point.
-/

namespace YamlPatch

/-! ## Fractions -/

/-- A fraction that is not negative. -/
structure Ratio where
  num : Nat
  den : Nat

namespace Ratio

/-- The fraction `n * b ^ e`. -/
def scaled (n b : Nat) (e : Int) : Ratio :=
  if 0 ≤ e then ⟨n * b.pow e.toNat, 1⟩ else ⟨n, b.pow (-e).toNat⟩

/-- The product of two fractions, not reduced. -/
def mul (r s : Ratio) : Ratio := ⟨r.num * s.num, r.den * s.den⟩

/-- The quotient of two fractions; the divisor is not zero where it is used. -/
def div (r s : Ratio) : Ratio := ⟨r.num * s.den, r.den * s.num⟩

/-- Whether one fraction is at most the other, by multiplying crosswise. -/
def le (r s : Ratio) : Bool := r.num * s.den ≤ s.num * r.den

/-- The largest `e` with `b ^ e` at most the fraction. -/
def floorLog (b : Nat) (r : Ratio) : Int :=
  let e : Int := (Nat.toDigits b r.num).length - (Nat.toDigits b r.den).length
  if le (scaled 1 b e) r then e else e - 1

/-- The whole part of a fraction. -/
def floor (r : Ratio) : Nat := r.num / r.den

/-- Twice the part behind the floor, compared with one. -/
def compareHalf (r : Ratio) : Ordering := compare (2 * (r.num % r.den)) r.den

/-- The nearest whole number; of two the even one. -/
def roundEven (r : Ratio) : Nat :=
  match r.compareHalf with
  | .lt => r.floor
  | .gt => r.floor + 1
  | .eq => if r.floor % 2 = 0 then r.floor else r.floor + 1

end Ratio

/-- A double : no number, an infinity, or a finite number held exactly. Zero has a sign as well.
-/
inductive Double where
  | nan
  | infinite (negative : Bool)
  /-- The number `mantissa * 2 ^ exponent`, negated if `negative`. -/
  | finite (negative : Bool) (mantissa : Nat) (exponent : Int)
  deriving DecidableEq, Repr

namespace Double

/-- The exponent of the smallest doubles. -/
def minExponent : Int := -1074

/-- The exponent of the largest doubles. -/
def maxExponent : Int := 971

/-- The least mantissa of a double whose exponent is not the smallest. -/
def leastNormal : Nat := Nat.pow 2 52

/-! ## The nearest double -/

/-- The double with a mantissa of at most 53 bits, or the next after them. -/
def ofMantissa (negative : Bool) (m : Nat) (q : Int) : Double :=
  let (m, q) := if m = 2 * leastNormal then (leastNormal, q + 1) else (m, q)
  if q > maxExponent then .infinite negative else .finite negative m q

/-- The double nearest to a fraction above zero. -/
def ofRatio (negative : Bool) (r : Ratio) : Double :=
  let q := max minExponent (r.floorLog 2 - 52)
  ofMantissa negative (r.div (Ratio.scaled 1 2 q)).roundEven q

/-- The double nearest to a decimal. Decimals of 10 ^ 310 and more, or less than 10 ^ -330,
are decided without computing their digits. -/
def ofDecimal : Decimal → Double
  | .nan => .nan
  | .infinite negative => .infinite negative
  | .finite negative m e =>
    let magnitude := (naturalText m).length + e
    if m = 0 ∨ magnitude < -330 then .finite negative 0 minExponent
    else if magnitude > 310 then .infinite negative
    else ofRatio negative (Ratio.scaled m 10 e)

/-! ## The shortest decimal -/

/-- The quarter of the last place, in which the rounding interval is measured. -/
def quarter (q : Int) : Ratio := Ratio.scaled 1 2 (q - 2)

/-- The ends of the interval of numbers that round to `m * 2 ^ q`, in quarters of the last
place. The doubles below a power of two are half as far apart. -/
def roundingBounds (m : Nat) (q : Int) : Nat × Nat :=
  (if m = leastNormal ∧ q > minExponent then 4 * m - 1 else 4 * m - 2, 4 * m + 2)

/-- Whether a fraction rounds to `m * 2 ^ q`; the ends do for an even mantissa. -/
def roundsTo (m : Nat) (q : Int) (r : Ratio) : Bool :=
  let (low, high) := roundingBounds m q
  let low := (quarter q).mul ⟨low, 1⟩
  let high := (quarter q).mul ⟨high, 1⟩
  if m % 2 = 0 then low.le r && r.le high else !r.le low && !high.le r

/-- The multiple of `10 ^ g` nearest to `m * 2 ^ q` among those that round to it, as its
factor. -/
def nearestOnGrid? (m : Nat) (q g : Int) : Option Nat :=
  let quotient := (Ratio.scaled m 2 q).div (Ratio.scaled 1 10 g)
  let down := quotient.floor
  let up := if quotient.num % quotient.den = 0 then down else down + 1
  match roundsTo m q (Ratio.scaled down 10 g), roundsTo m q (Ratio.scaled up 10 g) with
  | true, true => some (if quotient.compareHalf = .lt then down else up)
  | true, false => some down
  | false, true => some up
  | false, false => none

/-- The exact decimal equal to `m * 2 ^ q`. -/
def exactDecimal (m : Nat) (q : Int) : Nat × Int :=
  if 0 ≤ q then (m * Nat.pow 2 q.toNat, 0) else (m * Nat.pow 5 (-q).toNat, q)

/-- The decimal `d * 10 ^ g`; rounding up to a power of ten leaves a zero that is no digit. -/
def carried (d : Nat) (g : Int) : Nat × Int :=
  if d % 10 = 0 then (d / 10, g + 1) else (d, g)

/-- The decimal `d * 10 ^ g` with the fewest digits that rounds to `m * 2 ^ q`, nearest to it
among those. Seventeen digits are always enough. -/
def shortest (m : Nat) (q : Int) : Nat × Int :=
  let top := (Ratio.scaled m 2 q).floorLog 10
  ((List.range 17).findSome? fun (n : Nat) =>
    (nearestOnGrid? m q (top - n)).map fun d => carried d (top - n)).getD (exactDecimal m q)

/-! ## The text -/

/-- The number `d * 10 ^ g` without an exponent. -/
def positional (d : Nat) (g : Int) : Text :=
  let digits := naturalText d
  let places := (-g).toNat
  if 0 ≤ g then digits ++ List.replicate g.toNat '0'
  else if places < digits.length then
    digits.take (digits.length - places) ++ '.' :: digits.drop (digits.length - places)
  else '0' :: '.' :: List.replicate (places - digits.length) '0' ++ digits

/-- The text that reads back as the double. -/
def text : Double → Text
  | .nan => "NaN".toList
  | .infinite negative => (if negative then ['-'] else []) ++ "inf".toList
  | .finite negative m q =>
    (if negative then ['-'] else []) ++
      if m = 0 then ['0'] else positional (shortest m q).1 (shortest m q).2

end Double

end YamlPatch
