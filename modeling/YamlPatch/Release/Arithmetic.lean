import YamlPatch.Version

/-!
# Releases

A release is a version whose patch number is zero. `releaseVersion` is the one that is being
cut : the release a branch is named for, or the release of the current version. From it
follow the releases after and before it, and the range of versions that an upgrade may skip.
-/

namespace YamlPatch

namespace Version

/-- The minor release after a version. Its number is counted in 64 bits : after the largest
minor number comes zero. -/
def nextMinor (v : Version) : Version := ofNumbers v.major ((v.minor + 1) % UInt64.size) 0

/-- The minor release before a version; the first of a major version has none. -/
def previousMinor? (v : Version) : Option Version :=
  if v.minor = 0 then none else some (ofNumbers v.major (v.minor - 1) 0)

/-- The release that a version belongs to. -/
def release (v : Version) : Version := { v with patch := 0 }

/-- The release that a branch is named for : `release-1.31` is 1.31.0. The word may be
missing, and stands anywhere in the name. -/
def ofBranch (branch : Text) : Except VersionFault Version :=
  parse (Text.eraseFirst "release-".toList branch ++ ".0".toList)

/-- The versions from `a` on that come before `b`. -/
def skipRange (a b : Version) : Text := ">=".toList ++ a.text ++ " <".toList ++ b.text

/-- Below the largest minor number the next one is the successor. -/
theorem nextMinor_eq {v : Version} (h : v.minor + 1 < UInt64.size) :
    v.nextMinor = ofNumbers v.major (v.minor + 1) 0 := by
  rw [nextMinor, Nat.mod_eq_of_lt h]

/-- The release before the next one is that of the version itself, as long as the minor number
does not overflow : no release comes before minor number zero. -/
theorem previousMinor?_nextMinor {v : Version} (h : v.minor + 1 < UInt64.size) :
    v.nextMinor.previousMinor? = some (ofNumbers v.major v.minor 0) := by
  rw [nextMinor_eq h]
  simp [previousMinor?, ofNumbers]

end Version

end YamlPatch
