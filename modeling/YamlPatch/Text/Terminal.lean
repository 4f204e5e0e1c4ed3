import YamlPatch.Text

/-!
# Text for a terminal

Logged text may reach a terminal, which does not show some controls but obeys them : the bell,
backspace, form feed, escape, DEL and the C1 block. `Text.forTerminal` writes these by their
numbers and keeps everything else, line breaks and the other controls included.

No control that a terminal obeys is left (`isTerminalControl_of_mem_forTerminal`), and text
without one stays as it is (`forTerminal_eq_self`).
-/

namespace YamlPatch

/-- A control that a terminal obeys. -/
def isTerminalControl (c : Char) : Bool :=
  c = '\x07' || c = '\x08' || c = '\x0c' || c = '\x1b' || (0x7F ≤ c.toNat && c.toNat ≤ 0x9F)

namespace Text

/-- The number of a control in two digits. -/
def controlNumber (c : Char) : Text :=
  [Nat.digitChar (c.toNat / 16), Nat.digitChar (c.toNat % 16)]

/-- A character on a terminal : a control that would be obeyed is its number instead. -/
def terminalChar (c : Char) : Text :=
  if isTerminalControl c then
    if c.toNat < 0x80 then '\\' :: 'x' :: controlNumber c
    else '\\' :: 'u' :: '\x7b' :: controlNumber c ++ ['\x7d']
  else [c]

/-- The text with nothing in it that a terminal would obey. -/
def forTerminal (t : Text) : Text := t.flatMap terminalChar

end Text

/-- What a terminal obeys is a control character in the sense of Unicode. -/
theorem isControl_of_isTerminalControl {c : Char} (h : isTerminalControl c = true) :
    isControl c = true := by
  simp only [isTerminalControl, Bool.or_eq_true, Bool.and_eq_true, decide_eq_true_eq] at h
  simp only [isControl, Bool.or_eq_true, Bool.and_eq_true, decide_eq_true_eq]
  rcases h with (((rfl | rfl) | rfl) | rfl) | h
  · exact Or.inl (by decide)
  · exact Or.inl (by decide)
  · exact Or.inl (by decide)
  · exact Or.inl (by decide)
  · exact Or.inr h

namespace Text

/-- The number that stands for a control is written in characters that a terminal shows. -/
theorem isTerminalControl_of_mem_controlNumber {c d : Char} (hc : isControl c = true)
    (hd : d ∈ controlNumber c) : isTerminalControl d = false := by
  have hn : c.toNat < 0xA0 := by
    simp only [isControl, Bool.or_eq_true, Bool.and_eq_true, decide_eq_true_eq] at hc
    omega
  have digit : ∀ m : Fin 16, isTerminalControl (Nat.digitChar m) = false := by decide
  simp only [controlNumber, List.mem_cons, List.not_mem_nil, or_false] at hd
  rcases hd with rfl | rfl
  · exact digit ⟨c.toNat / 16, by omega⟩
  · exact digit ⟨c.toNat % 16, by omega⟩

/-- Nothing is left that a terminal would obey. -/
theorem isTerminalControl_of_mem_forTerminal {t : Text} {d : Char} (hd : d ∈ forTerminal t) :
    isTerminalControl d = false := by
  obtain ⟨c, -, hd⟩ := List.mem_flatMap.1 hd
  unfold terminalChar at hd
  split at hd
  · rename_i hc
    have number := @isTerminalControl_of_mem_controlNumber c d (isControl_of_isTerminalControl hc)
    split at hd
    · simp only [List.mem_cons] at hd
      rcases hd with rfl | rfl | hd
      · decide
      · decide
      · exact number hd
    · simp only [List.cons_append, List.mem_cons, List.mem_append, List.not_mem_nil,
        or_false] at hd
      rcases hd with rfl | rfl | rfl | hd | rfl
      · decide
      · decide
      · decide
      · exact number hd
      · decide
  · rename_i hc
    rw [List.mem_singleton.1 hd]
    exact Bool.eq_false_iff.2 hc

/-- Text that a terminal only shows stays as it is. -/
theorem forTerminal_eq_self {t : Text} (h : ∀ c ∈ t, isTerminalControl c = false) :
    forTerminal t = t := by
  induction t with
  | nil => rfl
  | cons c t ih =>
    have hc : terminalChar c = [c] := by
      rw [terminalChar, if_neg (Bool.eq_false_iff.1 (h c List.mem_cons_self))]
    rw [forTerminal, List.flatMap_cons, hc, ← forTerminal,
      ih fun d hd => h d (List.mem_cons_of_mem c hd)]
    rfl

end Text

end YamlPatch
