import YamlPatch.Proofs.Writes
import YamlPatch.Release.Plan

/-!
# When a write is refused

A reader finds the mapping that a path leads to without its last key, and in it the entry with
that key (`Cursor.holder?`). A write comes to the same entry (`Cursor.entry?_eq_holder?`). It is
refused if there is none, or if the entry does not take the value (`Cursor.Takes`) : the text of
a sequence to be written is always read back, so nothing else can go wrong
(`Cursor.outcome_put`). So the outcome of a write is known from what a reader sees, and a write
that fails leaves the document as it was (`Cursor.set_outcome`).

Reader and writer go down a path in their own ways : the reader key by key from one value to the
next, the writer from one entry to the next. That they agree is an induction on the keys.
-/

namespace YamlPatch

open YamlPatch.Tree

namespace Cursor

/-! ## The entry that a reader finds

The writer and the reader go down through the same mappings, and both take the first entry with
the key. -/

/-- The place that a path leads to without its last key : the root if there is only one. -/
def parent? (c : Cursor) (p : KeyPath) : Option Cursor :=
  if h : p.keys.dropLast = [] then c.root? else c.find? ⟨p.keys.dropLast, h⟩

/-- The first entry with the last key in the mapping at that place. -/
def holder? (c : Cursor) (p : KeyPath) : Option Cursor :=
  (c.parent? p).bind fun d => d.member? (p.keys.getLast p.keys_ne_nil)

/-- A write comes to the entry that a reader finds. -/
theorem entry?_eq_holder? (c : Cursor) (p : KeyPath) : c.entry? p = c.holder? p := by
  have hkeys : p.keys = p.keys.dropLast ++ [p.keys.getLast p.keys_ne_nil] :=
    (List.dropLast_concat_getLast p.keys_ne_nil).symm
  unfold entry? holder? parent?
  split
  · rename_i h
    rw [h, List.nil_append] at hkeys
    generalize p.keys.getLast p.keys_ne_nil = k at hkeys
    rw [hkeys]
    rfl
  · rename_i h
    generalize p.keys.getLast p.keys_ne_nil = k at hkeys
    have hentry : (fun d => entryAt? d p.keys) =
        fun d => ((d.entryAt? p.keys.dropLast).bind value?).bind fun e => e.member? k := by
      rw [hkeys, List.dropLast_concat]
      exact funext fun d => entryAt?_append h (List.cons_ne_nil k []) d
    rw [hentry]
    simp only [find?, entry?, Option.bind_assoc]

/-! ## What an entry takes

A mapping is never written or written over. A scalar takes a scalar and a sequence a sequence,
and an empty place takes both. -/

/-- The value can be written into the place : it is no mapping, and what stands there, if anything
does, is of its kind. -/
def Accepts (slot : Cursor) (v : Value) : Prop :=
  v.kind ≠ .mapping ∧ ∀ d, slot.content? = some d → d.focus.kind? = some v.kind

/-- The entry has a place for a value, into which the value can be written. -/
def Takes (entry : Cursor) (v : Value) : Prop := ∃ slot, entry.slot? = some slot ∧ slot.Accepts v

/-- An empty place is filled by every value but a mapping. -/
theorem exists_fill {slot : Cursor} {v : Value} (hv : v.Made) (hk : v.kind ≠ .mapping) :
    ∃ t, slot.fill v = .ok t := by
  cases v with
  | atom a => exact ⟨_, rfl⟩
  | sequence vs => exact ⟨_, by rw [fill, Value.readSequence_flow hv]⟩
  | mapping es => exact absurd rfl hk

/-- A sequence is written over any other : its text reads back in every layout. -/
theorem exists_replaceSequence (slot content : Cursor) {vs : List Value} (hv : Value.AllMade vs) :
    ∃ t, slot.replaceSequence content vs = .ok t := by
  have hread : ∃ s, readSequence (if content.focus.isFlow then (content.newSequence vs).flow
      else if vs.isEmpty then "[]".toList else content.blockText (content.newSequence vs)) =
          .ok s := by
    cases hf : content.focus.isFlow with
    | true =>
      obtain ⟨s, hs, -⟩ := content.exists_newSequence hv (.inl hf)
      exact ⟨s, by simpa [newSequenceText, hf] using hs⟩
    | false =>
      cases vs with
      | nil => exact ⟨_, Value.readSequence_flow (show Value.AllMade [] from trivial)⟩
      | cons v vs =>
        obtain ⟨s, hs, -⟩ := content.exists_newSequence hv (.inr (by simp))
        exact ⟨s, by simpa [newSequenceText, hf] using hs⟩
  obtain ⟨s, hs⟩ := hread
  simp only [newSequence] at hs
  simp only [replaceSequence, hs]
  split
  · exact ⟨_, rfl⟩
  · exact ⟨_, rfl⟩

/-- A place that accepts the value gets it. -/
theorem Accepts.exists_write {slot : Cursor} {v : Value} (h : slot.Accepts v) (hv : v.Made) :
    ∃ t, slot.write v = .ok t := by
  unfold write
  cases hc : slot.content? with
  | none => exact exists_fill hv h.1
  | some content =>
    have hk := h.2 content hc
    dsimp only
    cases v with
    | atom a =>
      rw [show content.focus.kind? = some .scalar from hk]
      exact ⟨_, rfl⟩
    | sequence vs =>
      rw [show content.focus.kind? = some .sequence from hk]
      exact slot.exists_replaceSequence content hv
    | mapping es => exact absurd rfl h.1

/-- A place that does not accept the value is no match for it. -/
theorem exists_mismatch_of_not_accepts {slot : Cursor} {v : Value} (h : ¬slot.Accepts v) :
    ∃ m, slot.write v = .error (.mismatch m) := by
  unfold write
  cases hc : slot.content? with
  | none =>
    cases v with
    | mapping es => exact ⟨_, rfl⟩
    | atom a => exact absurd ⟨by simp [Value.kind], by simp [hc]⟩ h
    | sequence vs => exact absurd ⟨by simp [Value.kind], by simp [hc]⟩ h
  | some content =>
    dsimp only
    split
    · rename_i a hk
      exact absurd ⟨by simp [Value.kind], by simpa [hc, Value.kind] using hk⟩ h
    · rename_i vs hk
      exact absurd ⟨by simp [Value.kind], by simpa [hc, Value.kind] using hk⟩ h
    · exact ⟨_, rfl⟩

/-! ## Outcomes

The policy for missing fields is looked at last. It decides what becomes of an error and not
whether there is one. -/

/-- A write comes to no entry, to one that does not take the value, or to one that takes it. -/
inductive Outcome (c : Cursor) (p : KeyPath) (v : Value) : Except Refusal Tree → Prop where
  | missing (h : c.holder? p = none) : Outcome c p v (.error .missing)
  | mismatch {e : Cursor} (h : c.holder? p = some e) (hv : ¬e.Takes v) (m : Mismatch) :
      Outcome c p v (.error (.mismatch m))
  | written {e : Cursor} (h : c.holder? p = some e) (hv : e.Takes v) (t : Tree) :
      Outcome c p v (.ok t)

/-- Whatever a write returns is one of the three, with the error that belongs to it. -/
theorem outcome_put (c : Cursor) (p : KeyPath) {v : Value} (hv : v.Made) :
    c.Outcome p v (c.put p v) := by
  unfold put
  rw [entry?_eq_holder?]
  cases he : c.holder? p with
  | none => exact .missing he
  | some e =>
    dsimp only
    cases hs : e.slot? with
    | none => exact .mismatch he (by simp [Takes, hs]) _
    | some slot =>
      dsimp only
      by_cases h : slot.Accepts v
      · obtain ⟨t, ht⟩ := h.exists_write hv
        rw [ht]
        exact .written he ⟨slot, hs, h⟩ t
      · obtain ⟨m, hm⟩ := exists_mismatch_of_not_accepts h
        rw [hm]
        refine .mismatch he ?_ m
        rintro ⟨slot', hs', h'⟩
        rw [hs] at hs'
        cases hs'
        exact h h'

/-- The outcome of a write is known from what a reader sees. With the policy to fail, a field is not
found if a reader finds no entry for it, it is a mismatch if the entry does not take the value, and
otherwise the write succeeds. The text of a value never fails to be read back. With the policy to
ignore, a write never fails : it gives the same document if it can be made and the one that was
there if not. And a write that fails leaves the document behind as it was. -/
theorem set_outcome (c : Cursor) (p : KeyPath) {v : Value} (hv : v.Made) :
    (c.set p v .error = .error (.keyNotFound p) ↔ c.holder? p = none) ∧
      ((∃ m, c.set p v .error = .error (.typeMismatch p m)) ↔
        ∃ e, c.holder? p = some e ∧ ¬e.Takes v) ∧
      ((∃ t, c.set p v .error = .ok t) ↔ ∃ e, c.holder? p = some e ∧ e.Takes v) ∧
      (∀ m u, c.set p v m ≠ .error (.unreadable u)) ∧
      (∃ t, c.set p v .ignore = .ok t ∧ (∀ u, c.set p v .error = .ok u → t = u) ∧
        ∀ e, c.set p v .error = .error e → t = c.rebuild) ∧
      ∀ m t t' e, Release.Plan.applyUpdates m [⟨p, v⟩] t = (t', some e) → t' = t := by
  have hfailed : ∀ m t t' e, Release.Plan.applyUpdates m [⟨p, v⟩] t = (t', some e) → t' = t :=
    fun _ _ _ _ => Release.Plan.eq_of_applyUpdates_singleton
  have h := c.outcome_put p hv
  unfold set
  generalize c.put p v = r at h
  cases h with
  | missing h =>
    exact ⟨by simp [h], by simp [h], by simp [h], by rintro (_ | _) u <;> simp, by simp, hfailed⟩
  | mismatch h hv m =>
    exact ⟨by
      simp [h], by simp [h, hv], by simp [h, hv], by rintro (_ | _) u <;> simp, by simp, hfailed⟩
  | written h hv t =>
    exact ⟨by
      simp [h], by simp [h, hv], by simp [h, hv], by rintro (_ | _) u <;> simp, by simp, hfailed⟩

/-- In `{a, b: 1}` there is no `c`, the key `a` has no place for a value, and `b` takes an atom but
no sequence. -/
theorem set_outcome_flow :
    let x : Tree := .node .mapping [mark .leftBrace '\x7b',
      .node .entry [.node .key [.node .scalar [mark .string 'a']]], mark .comma ',',
      mark .space ' ',
      .node .entry [.node .key [.node .scalar [mark .string 'b']], mark .colon ':', mark .space ' ',
        .node .value [.node .scalar [mark .integer '1']]], mark .rightBrace '\x7d']
    let p (k : Char) : KeyPath := ⟨[[k]], by simp⟩
    (Value.atom (.ofInt 2)).Made ∧ (Value.sequence []).Made ∧
      (ofTree x).set (p 'c') (.atom (.ofInt 2)) .error = .error (.keyNotFound (p 'c')) ∧
      (∃ m, (ofTree x).set (p 'a') (.atom (.ofInt 2)) .error = .error (.typeMismatch (p 'a') m)) ∧
      (∃ m, (ofTree x).set (p 'b') (.sequence []) .error = .error (.typeMismatch (p 'b') m)) ∧
      ∃ t, (ofTree x).set (p 'b') (.atom (.ofInt 2)) .error = .ok t := by
  intro x p
  have hatom : (Value.atom (.ofInt 2)).Made := .ofInt 2
  have hsequence : (Value.sequence []).Made := trivial
  refine ⟨hatom, hsequence, (set_outcome _ _ hatom).1.mpr rfl,
    (set_outcome _ _ hatom).2.1.mpr ⟨_, rfl, ?_⟩, (set_outcome _ _ hsequence).2.1.mpr ⟨_, rfl, ?_⟩,
    (set_outcome _ _ hatom).2.2.1.mpr ⟨_, rfl, _, rfl, by decide, ?_⟩⟩
  · rintro ⟨slot, hslot, -⟩
    cases hslot
  · rintro ⟨slot, hslot, -, h⟩
    cases hslot
    cases h _ rfl
  · rintro d hd
    cases hd
    rfl

end Cursor

end YamlPatch
