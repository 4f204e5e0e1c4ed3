import YamlPatch.KeyPath
import YamlPatch.Tree.Cursor

/-!
# Finding a field

A path is followed from a stream, a document or a mapping. A stream stands for its first
document and a document for its root (`Cursor.root?`); from there each key leads to the first
entry that has it, and to the value of that entry. `Cursor.entry?` gives the entry of the
last key, `Cursor.find?` its value, and `Cursor.string?` the text of the value if it is a
scalar other than null.
-/

namespace YamlPatch

/-- Whether a tree is a mapping entry with this key. -/
def Tree.isEntryOf (key : Text) (t : Tree) : Bool := t.isNode .entry && t.keyText? == some key

namespace Cursor

/-- The entry of a mapping with this key; of several the first. -/
def member? (c : Cursor) (key : Text) : Option Cursor :=
  if c.focus.isNode .mapping then c.child? (Tree.isEntryOf key) 0 else none

/-- The place for the value of an entry, which may hold nothing. -/
def slot? (entry : Cursor) : Option Cursor := entry.child? (Tree.isNode .value) 0

/-- The value of an entry. -/
def value? (entry : Cursor) : Option Cursor := entry.slot?.bind content?

/-- The document of a stream with `n` documents before it. -/
def document? (c : Cursor) (n : Nat) : Option Cursor := c.child? (Tree.isNode .document) n

/-- Where the first key of a path is looked up. -/
def root? (c : Cursor) : Option Cursor :=
  match c.focus.kind? with
  | some .stream => (c.document? 0).bind content?
  | some .document => c.content?
  | _ => some c

/-- The entry at the end of a path that starts in a mapping. -/
def entryAt? (c : Cursor) : List Text → Option Cursor
  | [] => none
  | [k] => c.member? k
  | k :: ks => ((c.member? k).bind value?).bind fun d => d.entryAt? ks

/-- The entry at the end of a path. -/
def entry? (c : Cursor) (p : KeyPath) : Option Cursor := c.root?.bind fun d => d.entryAt? p.keys

/-- The value at the end of a path. -/
def find? (c : Cursor) (p : KeyPath) : Option Cursor := (c.entry? p).bind value?

/-- The text of the scalar at the end of a path; none if it is null. -/
def string? (c : Cursor) (p : KeyPath) : Option Text :=
  (c.find? p).bind fun d =>
    if d.focus.isNode .scalar && !Scalar.isNull d.focus then some (Scalar.value d.focus) else none

/-- The mapping that keys lead to from a mapping. -/
def mappingAt? (c : Cursor) : List Text → Option Cursor
  | [] => some c
  | k :: ks =>
    (((c.member? k).bind value?).filter fun d => d.focus.isNode .mapping).bind fun d =>
      d.mappingAt? ks

/-- The item of a sequence with `n` items that are not empty before it. -/
def item? (c : Cursor) (n : Nat) : Option Cursor :=
  (c.child? (fun t => t.isNode .item && t.content?.isSome) n).bind content?

/-- Content is looked for below the focus, so the whole tree is the same as before. -/
theorem rebuild_content? {c d : Cursor} (h : c.content? = some d) : d.rebuild = c.rebuild :=
  rebuild_child? h

/-- The entry with a key is a place in the same tree. -/
theorem rebuild_member? {c d : Cursor} {k : Text} (h : c.member? k = some d) :
    d.rebuild = c.rebuild := by
  unfold member? at h
  split at h
  · exact rebuild_child? h
  · cases h

theorem rebuild_slot? {c d : Cursor} (h : c.slot? = some d) : d.rebuild = c.rebuild :=
  rebuild_child? h

/-- So is the value of an entry. -/
theorem rebuild_value? {c d : Cursor} (h : c.value? = some d) : d.rebuild = c.rebuild := by
  obtain ⟨s, hs, hd⟩ := Option.bind_eq_some_iff.mp h
  rw [rebuild_content? hd, rebuild_slot? hs]

theorem rebuild_root? {c d : Cursor} (h : c.root? = some d) : d.rebuild = c.rebuild := by
  unfold root? at h
  split at h
  · obtain ⟨e, he, hd⟩ := Option.bind_eq_some_iff.mp h
    rw [rebuild_content? hd, rebuild_child? he]
  · exact rebuild_content? h
  · cases h
    rfl

/-- So is what a whole path leads to, key by key. -/
theorem rebuild_entryAt? {c d : Cursor} {ks : List Text} (h : c.entryAt? ks = some d) :
    d.rebuild = c.rebuild := by
  induction ks generalizing c with
  | nil => cases h
  | cons k ks ih =>
    cases ks with
    | nil => exact rebuild_member? h
    | cons l ls =>
      obtain ⟨v, hv, hd⟩ := Option.bind_eq_some_iff.mp h
      obtain ⟨e, he, hv⟩ := Option.bind_eq_some_iff.mp hv
      rw [ih hd, rebuild_value? hv, rebuild_member? he]

/-- Finding a field changes nothing. -/
theorem rebuild_find? {c d : Cursor} {p : KeyPath} (h : c.find? p = some d) :
    d.rebuild = c.rebuild := by
  obtain ⟨e, he, hd⟩ := Option.bind_eq_some_iff.mp h
  obtain ⟨r, hr, he⟩ := Option.bind_eq_some_iff.mp he
  rw [rebuild_value? hd, rebuild_entryAt? he, rebuild_root? hr]

end Cursor

end YamlPatch
