import Mathlib.Data.List.Basic
import YamlPatch.Proofs.Lookbehind
import YamlPatch.Scalar

/-!
# Folded block scalars

The reader of a folded block scalar goes through its lines once and keeps one flag, whether it
has just read a line of text (`BlockScalar.fold`). What comes of that for two lines and the
empty lines between them is `FoldedLine.gap`, and for the whole scalar `Scalar.value_folded`.
Between lines of text a break is a space, or as many line feeds as there are empty lines. A line
that is indented further keeps its own break, so behind it there is one line feed more. Before
it there is one more only if it follows the line of text directly : an empty line in between
clears the flag, and the break of the text is lost.

The lines of a scalar are grouped, each line that holds something with the empty lines before it
(`FoldedLine`), and the induction is on the groups. What has been read when one of them begins
is the flag and, behind a line that is indented further, its break. So the statement to carry is
about what is read behind a line (`BlockScalar.foldBehind`), and the flag is gone from it.
-/

namespace YamlPatch

/-- A line of a folded scalar, and the number of empty lines before it. -/
structure FoldedLine where
  empties : Nat
  text : Text

namespace FoldedLine

/-- The line is indented further than the scalar. -/
def isIndented (l : FoldedLine) : Bool := l.text.head? == some ' '

/-- The empty lines and the line. -/
def lines (l : FoldedLine) : List Text := List.replicate l.empties [] ++ [l.text]

/-- What stands for the breaks between a line and the next. -/
def gap (l m : FoldedLine) : Text :=
  if l.isIndented then List.replicate (m.empties + 1) '\n'
  else if m.isIndented then List.replicate (max 1 m.empties) '\n'
  else if m.empties = 0 then [' '] else List.replicate m.empties '\n'

/-- The lines behind `l`, joined. -/
def joined (l : FoldedLine) : List FoldedLine → Text
  | [] => []
  | m :: ms => gap l m ++ m.text ++ joined m ms

end FoldedLine

namespace BlockScalar

/-- Empty lines are line feeds, and behind them no line of text has just been read. -/
theorem fold_empties (b : Bool) (n : Nat) (ls : List Text) :
    fold b (List.replicate n [] ++ ls) = List.replicate n '\n' ++ fold (b && n == 0) ls := by
  induction n generalizing b with
  | zero => simp
  | succ n ih => simp [List.replicate_succ, fold, ih]

/-- A line of text stands behind a space if there was text before it. -/
theorem fold_text (b : Bool) {l : Text} (hne : l ≠ []) (hl : l.head? ≠ some ' ') (ls : List Text) :
    fold b (l :: ls) = (if b then [' '] else []) ++ l ++ fold true ls := by
  obtain ⟨c, u, rfl⟩ := List.exists_cons_of_ne_nil hne
  have hc : c ≠ ' ' := by simpa using hl
  rw [fold]
  simp [hc]

/-- A line that is indented further stands on a line of its own, and keeps its break. -/
theorem fold_indented (b : Bool) {l : Text} (hl : l.head? = some ' ') (ls : List Text) :
    fold b (l :: ls) = (if b then ['\n'] else []) ++ l ++ '\n' :: fold false ls := by
  obtain ⟨u, rfl⟩ := List.head?_eq_some_iff.mp hl
  rw [fold]

/-- What is read behind the text of a line : its own break if it is indented further, and the
lines below. -/
def foldBehind (l : FoldedLine) (ms : List FoldedLine) : Text :=
  if l.isIndented then '\n' :: fold false (ms.flatMap FoldedLine.lines)
    else fold true (ms.flatMap FoldedLine.lines)

/-- The empty lines are read, then the line, and then what comes behind it. -/
theorem fold_line (b : Bool) {m : FoldedLine} (hm : m.text ≠ []) (ms : List FoldedLine) :
    fold b ((m :: ms).flatMap FoldedLine.lines) = List.replicate m.empties '\n' ++
      ((if b && m.empties == 0 then (if m.isIndented then ['\n'] else [' ']) else []) ++ m.text ++
        foldBehind m ms) := by
  have hlines : (m :: ms).flatMap FoldedLine.lines =
      List.replicate m.empties [] ++ m.text :: ms.flatMap FoldedLine.lines := by
        simp [FoldedLine.lines]
  rw [hlines, fold_empties]
  by_cases hi : m.text.head? = some ' '
  · simp [fold_indented _ hi, foldBehind, FoldedLine.isIndented, hi]
  · simp [fold_text _ hm hi, foldBehind, FoldedLine.isIndented, hi]

/-- Between a line and the next there is the gap. -/
theorem foldBehind_cons (l : FoldedLine) {m : FoldedLine} (hm : m.text ≠ [])
    (ms : List FoldedLine) : foldBehind l (m :: ms) = l.gap m ++ m.text ++ foldBehind m ms := by
  rw [foldBehind, fold_line false hm, fold_line true hm, FoldedLine.gap]
  cases l.isIndented with
  | true => simp [List.replicate_succ]
  | false =>
    cases hn : m.empties with
    | zero => cases m.isIndented <;> simp
    | succ n => cases m.isIndented <;> simp

/-- Behind a line come the others, and the break of the last if that is indented further. -/
theorem exists_foldBehind (l : FoldedLine) {ms : List FoldedLine} (hms : ∀ m ∈ ms, m.text ≠ []) :
    ∃ e, (e = [] ∨ e = ['\n']) ∧ foldBehind l ms = l.joined ms ++ e := by
  induction ms generalizing l with
  | nil =>
    cases h : l.isIndented with
    | true => exact ⟨['\n'], .inr rfl, by simp [foldBehind, FoldedLine.joined, fold, h]⟩
    | false => exact ⟨[], .inl rfl, by simp [foldBehind, FoldedLine.joined, fold, h]⟩
  | cons m ms ih =>
    obtain ⟨e, he, hm⟩ := ih m fun n hn => hms n (List.mem_cons_of_mem m hn)
    exact ⟨e, he, by rw [foldBehind_cons l (hms m (by simp)), hm, FoldedLine.joined]; simp⟩

end BlockScalar

/-- Lines without line feeds end with none. -/
theorem FoldedLine.getLast?_joined {l : FoldedLine} {ms : List FoldedLine}
    (h : ∀ m ∈ l :: ms, m.text ≠ [] ∧ '\n' ∉ m.text) :
    (l.text ++ l.joined ms).getLast? ≠ some '\n' := by
  induction ms generalizing l with
  | nil =>
    rw [joined, List.append_nil]
    exact fun hlast => (h l (by simp)).2 (List.mem_of_getLast? hlast)
  | cons m ms ih =>
    have hm : m.text ++ m.joined ms ≠ [] := by simp [(h m (by simp)).1]
    rw [joined, List.append_assoc, ← List.append_assoc, List.getLast?_append_of_ne_nil _ hm]
    exact ih fun n hn => h n (List.mem_cons_of_mem l hn)

namespace BlockScalar

/-- A single line feed at the end is dropped. -/
theorem dropFinalBreak_append {t e : Text} (ht : t.getLast? ≠ some '\n')
    (he : e = [] ∨ e = ['\n']) : dropFinalBreak (t ++ e) = t := by
  rcases he with rfl | rfl
  · rw [List.append_nil, dropFinalBreak, if_neg ht]
  · simp [dropFinalBreak]

/-- The lines are folded, and the break of the last is dropped. -/
theorem dropFinalBreak_fold {l : FoldedLine} {ms : List FoldedLine}
    (h : ∀ m ∈ l :: ms, m.text ≠ [] ∧ '\n' ∉ m.text) :
    dropFinalBreak (fold false ((l :: ms).flatMap FoldedLine.lines)) =
      List.replicate l.empties '\n' ++ (l.text ++ l.joined ms) := by
  obtain ⟨e, he, hbehind⟩ := exists_foldBehind l fun m hm => (h m (List.mem_cons_of_mem l hm)).1
  have hne : l.text ++ l.joined ms ≠ [] := by simp [(h l (by simp)).1]
  have hlast : (List.replicate l.empties '\n' ++ (l.text ++ l.joined ms)).getLast? ≠ some '\n' := by
    rw [List.getLast?_append_of_ne_nil _ hne]
    exact FoldedLine.getLast?_joined h
  rw [← dropFinalBreak_append hlast he, fold_line false (h l (by simp)).1, hbehind]
  simp

end BlockScalar

/-! ## The lines of a scalar

The scalar is known by its text and its header. The lines that are folded are those of its body,
without the indentation that all of them have. -/

namespace Text

/-- Parts do not hold the separator. -/
theorem not_mem_of_mem_splitOn {sep : Char} {t p : Text} (h : p ∈ splitOn sep t) : sep ∉ p := by
  induction t generalizing p with
  | nil =>
    obtain rfl : p = [] := by simpa [splitOn] using h
    exact List.not_mem_nil
  | cons c t ih =>
    obtain ⟨q, qs, hsplit⟩ := List.exists_cons_of_ne_nil (splitOn_ne_nil sep t)
    rw [hsplit] at ih
    by_cases hc : c = sep
    · rw [splitOn, if_pos hc, hsplit] at h
      rcases List.mem_cons.mp h with rfl | h
      · exact List.not_mem_nil
      · exact ih h
    · simp only [splitOn, if_neg hc, hsplit] at h
      rcases List.mem_cons.mp h with rfl | h
      · simpa [Ne.symm hc] using ih List.mem_cons_self
      · exact ih (List.mem_cons_of_mem q h)

/-- A text that begins with no white space begins with the same character when it is trimmed. -/
theorem exists_trim_cons {c : Char} (hc : isBlank c = false) (t : Text) :
    ∃ u, trim (c :: t) = c :: u := by
  have hstart : trimStart (c :: t) = c :: t := by simp [trimStart, hc]
  rw [trim, hstart, trimEnd, List.reverse_cons, List.dropWhile_append]
  split
  · exact ⟨[], by simp [hc]⟩
  · exact ⟨(t.reverse.dropWhile isBlank).reverse, by simp⟩

/-- Without some bytes a text is an end of it. -/
theorem isSuffix_of_dropBytes {t u : Text} {n : Nat} (h : dropBytes t n = some u) : u <:+ t := by
  fun_induction dropBytes t n with
  | case1 =>
    cases h
    exact List.suffix_rfl
  | case2 => cases h
  | case3 c t n hc ih => exact (ih h).trans (List.suffix_cons c t)
  | case4 => cases h

end Text

namespace BlockScalar

/-- No line of a scalar holds a line feed. -/
theorem newline_not_mem_of_mem_contentLines {t l : Text} (h : l ∈ contentLines t) : '\n' ∉ l := by
  obtain ⟨w, hw, rfl⟩ := List.mem_map.mp h
  obtain ⟨v, hv, rfl⟩ := List.mem_map.mp hw
  cases hdrop :
      Text.dropBytes (Text.dropReturns v)
        (indentation ((Text.lines (body t)).map Text.dropReturns)) with
  | none => simp
  | some u =>
    have hsub : u.Sublist v :=
      (Text.isSuffix_of_dropBytes hdrop).sublist.trans (isPrefix_dropReturns v).sublist
    simpa using fun hn => Text.not_mem_of_mem_splitOn hv (hsub.subset hn)

/-- Text that begins with `>` is no literal scalar. -/
theorem isLiteral_of_head? {t : Text} (h : t.head? = some '>') : isLiteral t = false := by
  obtain ⟨u, rfl⟩ := List.head?_eq_some_iff.mp h
  obtain ⟨v, hv⟩ :=
    Text.exists_trim_cons (c := '>') (by decide) ((u.takeWhile (· != '\n')).takeWhile (· != '#'))
  have hheader : header ('>' :: u) = '>' :: v := by
    rw [← hv, header, List.takeWhile_cons_of_pos (by decide),
      List.takeWhile_cons_of_pos (by decide)]
  rw [isLiteral, hheader]
  rfl

/-- A header alone has one empty line. -/
theorem contentLines_of_body {t : Text} (h : body t = []) : contentLines t = [[]] := by
  rw [contentLines, h]
  decide

/-- A scalar with a line that is not empty has something below its header. -/
theorem body_ne_nil {t l : Text} (h : l ∈ contentLines t) (hne : l ≠ []) : body t ≠ [] := by
  intro hnil
  rw [contentLines_of_body hnil] at h
  exact hne (List.mem_singleton.mp h)

end BlockScalar

namespace Scalar

/-- A folded scalar is a block scalar that begins with its indicator. -/
theorem firstKind?_of_style {s : Tree} (hs : style s = .folded) :
    firstKind? s = some .blockScalar ∧ s.text.head? = some '>' := by
  unfold style at hs
  split at hs
  · cases hs
  · cases hs
  · rename_i hfirst
    split at hs
    · rename_i hhead
      exact ⟨hfirst, hhead⟩
    · cases hs
  · cases hs

/-- A folded block scalar stands for its lines, with the breaks between them folded, and for the
break of the last unless its header has a minus sign. -/
theorem value_folded {s : Tree} (hs : style s = .folded) {l : FoldedLine} {ms : List FoldedLine}
    (hlines : BlockScalar.contentLines s.text = (l :: ms).flatMap FoldedLine.lines)
    (hne : ∀ m ∈ l :: ms, m.text ≠ []) :
    value s = List.replicate l.empties '\n' ++ (l.text ++ l.joined ms) ++
      if BlockScalar.isStripped s.text then [] else ['\n'] := by
  have hmem : ∀ m ∈ l :: ms, m.text ∈ BlockScalar.contentLines s.text := fun m hm => by
    rw [hlines]
    exact List.mem_flatMap.mpr ⟨m, hm, by simp [FoldedLine.lines]⟩
  have hfold := BlockScalar.dropFinalBreak_fold fun m hm =>
    ⟨hne m hm, BlockScalar.newline_not_mem_of_mem_contentLines (hmem m hm)⟩
  have hbody := BlockScalar.body_ne_nil (hmem l (by simp)) (hne l (by simp))
  obtain ⟨hfirst, hhead⟩ := firstKind?_of_style hs
  simp only [value, hfirst, BlockScalar.decode, BlockScalar.isLiteral_of_head? hhead, hlines, hfold,
    hbody, or_false, Bool.false_eq_true, if_false]
  split
  · rw [List.append_nil]
  · rfl

/-- The break of the line of text before the line that is indented further is lost. -/
example : value (.node .scalar [.token ⟨.blockScalar, ">\n  a\n\n   b\n  c".toList⟩]) =
    "a\n b\nc\n".toList := by
  decide +kernel

end Scalar

end YamlPatch
