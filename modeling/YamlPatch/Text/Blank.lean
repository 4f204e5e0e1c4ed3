/-!
# White space and control characters

Two classes of characters decide how a text is cut into words and when a value has to be
quoted. `isBlank` is the Unicode property White_Space : 25 characters, of which the line
feed, the space and the tab are the usual ones. `isControl` is the general category Cc.

The two overlap : line breaks and tabs are both, but the space is no control character.
-/

namespace YamlPatch

/-- The ranges of the Unicode property White_Space, ends included. -/
def blankRanges : List (Nat × Nat) :=
  [(0x0009, 0x000D), (0x0020, 0x0020), (0x0085, 0x0085), (0x00A0, 0x00A0), (0x1680, 0x1680),
   (0x2000, 0x200A), (0x2028, 0x2029), (0x202F, 0x202F), (0x205F, 0x205F), (0x3000, 0x3000)]

/-- Whether one of `ranges` holds the code point `n`. -/
def inRanges (ranges : List (Nat × Nat)) (n : Nat) : Bool :=
  ranges.any fun r => r.1 ≤ n && n ≤ r.2

/-- A white space character : spaces, tabs, line breaks and their wider relatives. -/
def isBlank (c : Char) : Bool :=
  inRanges blankRanges c.toNat

/-- A control character : the C0 block, DEL and the C1 block. -/
def isControl (c : Char) : Bool :=
  c.toNat ≤ 0x1F || (0x7F ≤ c.toNat && c.toNat ≤ 0x9F)

/-- A code point is in the table if one of the ranges holds it, its ends included. -/
theorem inRanges_iff {ranges : List (Nat × Nat)} {n : Nat} :
    inRanges ranges n = true ↔ ∃ r ∈ ranges, r.1 ≤ n ∧ n ≤ r.2 := by
  simp [inRanges]

theorem isBlank_iff {c : Char} :
    isBlank c = true ↔ ∃ r ∈ blankRanges, r.1 ≤ c.toNat ∧ c.toNat ≤ r.2 :=
  inRanges_iff

/-- The property has 25 characters. -/
example : blankRanges.foldl (fun n r => n + (r.2 + 1 - r.1)) 0 = 25 := rfl

end YamlPatch
