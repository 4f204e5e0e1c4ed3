import YamlPatch.Text.Quoted

/-!
# Paths of keys

A `KeyPath` names a field of a document by the keys on the way to it, the outermost first; there
is at least one. `KeyPath.ofText` reads the dotted form, in which no key is empty or holds a
dot, and `KeyPath.text` writes it (`KeyPath.text_ofText`). `KeyPath.ofKeys` takes any keys.
-/

namespace YamlPatch

/-- The keys on the way to a field. -/
structure KeyPath where
  keys : List Text
  keys_ne_nil : keys ≠ []
  deriving DecidableEq, Repr

/-- The text that was refused as a path. -/
structure KeyPath.Invalid where
  text : Text
  deriving DecidableEq, Repr

/-- The message quotes the text that was meant to be a path. -/
def KeyPath.Invalid.message (e : KeyPath.Invalid) : Text :=
  "Invalid field path: ".toList ++ Text.quoted e.text

namespace KeyPath

/-- The path of these keys. -/
def ofKeys (ks : List Text) : Except Invalid KeyPath :=
  if h : ks = [] then .error ⟨[]⟩ else .ok ⟨ks, h⟩

/-- The path written with dots between its keys. -/
def ofText (t : Text) : Except Invalid KeyPath :=
  if (Text.splitOn '.' t).any List.isEmpty then .error ⟨t⟩
  else .ok ⟨Text.splitOn '.' t, Text.splitOn_ne_nil '.' t⟩

/-- The path with dots between its keys. -/
def text (p : KeyPath) : Text := Text.joinWith ['.'] p.keys

/-- A path that was read from its dotted form is written in the same way. -/
theorem text_ofText {t : Text} {p : KeyPath} (h : ofText t = .ok p) : p.text = t := by
  unfold ofText at h
  split at h
  · cases h
  · cases h
    exact Text.joinWith_splitOn '.' t

/-- A text is refused if two dots have nothing between them, or a dot has nothing on one
side, or there is nothing at all. -/
theorem ofText_eq_error_iff {t : Text} {e : Invalid} :
    ofText t = .error e ↔ e = ⟨t⟩ ∧ [] ∈ Text.splitOn '.' t := by
  unfold ofText
  split
  · rename_i h
    obtain ⟨k, hk, hk'⟩ := List.any_eq_true.mp h
    have hk' : k = [] := List.isEmpty_iff.mp hk'
    subst hk'
    constructor
    · rintro ⟨⟩
      exact ⟨rfl, hk⟩
    · rintro ⟨rfl, -⟩
      rfl
  · rename_i h
    constructor
    · rintro ⟨⟩
    · rintro ⟨-, hk⟩
      exact absurd (List.any_eq_true.mpr ⟨[], hk, rfl⟩) h

end KeyPath

end YamlPatch
