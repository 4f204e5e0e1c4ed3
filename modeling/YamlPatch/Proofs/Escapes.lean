import Mathlib.Data.List.DropRight
import YamlPatch.Proofs.LineStarts
import YamlPatch.Proofs.PlainLines
import YamlPatch.Scalar

/-!
# Escapes over several lines

Between double quotes the lines are folded first and the escapes are read in what is left. The
other order is to cut the text into characters and escapes (`pieces`) and to fold the white
space and the line breaks that stand for themselves (`Piece.fold`), so that nothing that belongs
to an escape goes away. The two agree if no escape holds a line break and if behind an escape
that ends in white space the line goes on (`Piece.StayInLine`, `Scalar.value_doubleQuoted`).
Else the white space at the end of an escape is cut off with the white space of the line, and
its backslash takes the space that stands for the line break.

Folding cuts a text into lines, trims each and joins them again. For each of the three there is
a lemma that it may be done to the pieces and then be written out (`raw_trim`, `lines_raw`,
`decode_foldRest`). What remains is that a text may be read piece by piece : this holds of
pieces that are complete, and an escape that is too short stands only at the end (`Cut`).
-/

namespace YamlPatch

namespace DoubleQuoted

/-- A character that stands for itself, or an escape as it is written. -/
inductive Piece where
  | literal (c : Char)
  | escape (raw : Text)
  deriving DecidableEq

/-- The text cut into its pieces. An escape takes the characters that its letter asks for, and
at the end of the text those that are left. -/
def pieces : Text → List Piece
  | [] => []
  | '\\' :: [] => [.escape ['\\']]
  | '\\' :: c :: t =>
    .escape ('\\' :: c :: t.take (numberLength c)) :: pieces (t.drop (numberLength c))
  | c :: t => .literal c :: pieces t
termination_by t => t.length
decreasing_by all_goals simp only [List.length_drop, List.length_cons]; omega

namespace Piece

/-- The piece as it is written. -/
def raw : Piece → Text
  | literal c => [c]
  | escape r => r

/-- What the piece stands for. -/
def text : Piece → Text
  | literal c => [c]
  | escape r => decode r

/-- The piece is a character that stands for itself, one of those. -/
def is (p : Char → Bool) : Piece → Bool
  | literal c => p c
  | escape _ => false

/-! ## Folding pieces

These are the functions that fold text, with pieces in place of characters. An escape is never
white space and never a line break here. -/

/-- The pieces between the line feeds. -/
def lines (ps : List Piece) : List (List Piece) := ps.splitOnP (is (· == '\n'))

/-- The line without the white space before it that stands for itself. -/
def trimStart (l : List Piece) : List Piece := l.dropWhile (is isBlank)

/-- The line without the white space behind it that stands for itself. -/
def trimEnd (l : List Piece) : List Piece := l.rdropWhile (is isBlank)

/-- The line without both. -/
def trim (l : List Piece) : List Piece := trimEnd (trimStart l)

/-- The lines after the first, `empties` empty lines having been read. -/
def foldRest (empties : Nat) : List (List Piece) → List Piece
  | [] => []
  | [l] => (foldedBreak empties).map literal ++ trimStart (l.rdropWhile (is (· = '\r')))
  | l :: ls =>
    if trim l = [] then foldRest (empties + 1) ls
    else (foldedBreak empties).map literal ++ trim l ++ foldRest 0 ls

/-- The pieces with the line breaks that stand for themselves folded. -/
def fold (ps : List Piece) : List Piece :=
  match lines ps with
  | l :: m :: ls => trimEnd l ++ foldRest 0 (m :: ls)
  | _ => ps

/-- The last escape of the line does not end in such a character, unless another piece comes
behind it. -/
def EndsApart (p : Char → Bool) (l : List Piece) : Prop :=
  ∀ xs r ys, l = xs ++ escape r :: ys → (∀ y ∈ ys, y.is p = true) →
    ∃ c, r.getLast? = some c ∧ p c = false

/-- No escape holds a line break, and behind one that ends in white space the line goes on. -/
structure StayInLine (ps : List Piece) : Prop where
  noBreak : ∀ r, escape r ∈ ps → ∀ c ∈ r, isBreakChar c = false
  goesOn : ∀ l ∈ (lines ps).dropLast, EndsApart isBlank l

end Piece

/-! ## Cutting and reading

A text is cut from the left, and so is what it stands for read. Only at the end of a text may an
escape be shorter than it should be. -/

/-- The pieces make up the text. -/
theorem raw_pieces (t : Text) : (pieces t).flatMap Piece.raw = t := by
  fun_induction pieces t with
  | case1 => rfl
  | case2 => rfl
  | case3 c t ih => simp [Piece.raw, ih, List.take_append_drop]
  | case4 c t _ _ ih => simp [Piece.raw, ih]

/-- An escape begins with its backslash. -/
theorem head?_of_mem_pieces {t r : Text} (h : .escape r ∈ pieces t) : r.head? = some '\\' := by
  fun_induction pieces t with
  | case1 => simp at h
  | case2 => simp_all
  | case3 c t ih =>
    rcases List.mem_cons.mp h with h | h
    · cases h
      rfl
    · exact ih h
  | case4 c t _ _ ih => exact ih (by simpa using h)

namespace Piece

/-- A piece that is read the same whatever comes behind it. -/
inductive IsComplete : Piece → Prop
  | literal {c : Char} (hc : c ≠ '\\') : IsComplete (literal c)
  | escape {c : Char} {ds : Text} (hds : ds.length = numberLength c) :
      IsComplete (escape ('\\' :: c :: ds))

/-- What a complete piece stands for comes before what the rest does. -/
theorem IsComplete.decode_append {p : Piece} (hp : p.IsComplete) (t : Text) :
    decode (p.raw ++ t) = p.text ++ decode t := by
  cases hp with
  | literal hc => exact decode_cons hc t
  | @escape c ds hds =>
    have hescape (u : Text) : decode ('\\' :: c :: (ds ++ u)) =
        (if numberLength c = 0 then decodeLetter c else decodeNumber c ds) ++ decode u := by
      rw [decode]
      split
      · rename_i hzero
        obtain rfl : ds = [] := by simpa [hzero] using hds
        rfl
      · rw [← hds, List.take_left, List.drop_left]
    have hnil := hescape []
    rw [List.append_nil, decode, List.append_nil] at hnil
    rw [raw, text, hnil]
    exact hescape t

/-- So it is with several of them. -/
theorem decode_append_of_complete {ps : List Piece} (h : ∀ p ∈ ps, p.IsComplete) (t : Text) :
    decode (ps.flatMap raw ++ t) = ps.flatMap text ++ decode t := by
  induction ps with
  | nil => rfl
  | cons p ps ih =>
    rw [List.flatMap_cons, List.append_assoc, (h p (by simp)).decode_append,
      ih fun q hq => h q (List.mem_cons_of_mem p hq), List.flatMap_cons, List.append_assoc]

/-- Pieces that are cut as they are : only at the end an escape may be too short. -/
inductive Cut : List Piece → Prop
  | nil : Cut []
  | last {p : Piece} (hp : p ≠ .literal '\\') : Cut [p]
  | cons {p : Piece} {ps : List Piece} (hp : p.IsComplete) (h : Cut ps) : Cut (p :: ps)

/-- The pieces of a text are cut so. -/
theorem cut_pieces (t : Text) : Cut (pieces t) := by
  fun_induction pieces t with
  | case1 => exact .nil
  | case2 => exact .last (by simp)
  | case3 c t ih =>
    by_cases hle : numberLength c ≤ t.length
    · exact .cons (.escape (List.length_take_of_le hle)) ih
    · rw [List.drop_eq_nil_of_le (by omega), pieces]
      exact .last (by simp)
  | case4 c t hlone hescape ih =>
    refine .cons (.literal fun hc => ?_) ih
    cases t with
    | nil => exact hlone hc rfl
    | cons d t => exact hescape d t hc rfl

/-- Pieces are read one by one. -/
theorem Cut.decode_raw {ps : List Piece} (h : Cut ps) :
    decode (ps.flatMap raw) = ps.flatMap text := by
  induction h with
  | nil => simp [decode]
  | @last p hp =>
    cases p with
    | literal c => simpa [raw, text, decode] using decode_cons (c := c) (by simpa using hp) []
    | escape r => simp [raw, text]
  | cons hp h ih => rw [List.flatMap_cons, hp.decode_append, ih, List.flatMap_cons]

/-- Pieces at the end are cut as they were. -/
theorem Cut.of_isSuffix {ps qs : List Piece} (h : Cut ps) (hs : qs <:+ ps) : Cut qs := by
  induction h with
  | nil => rw [List.suffix_nil.mp hs]; exact .nil
  | last hp =>
    rcases List.suffix_cons_iff.mp hs with rfl | hs
    · exact .last hp
    · rw [List.suffix_nil.mp hs]; exact .nil
  | cons hp h ih =>
    rcases List.suffix_cons_iff.mp hs with rfl | hs
    · exact .cons hp h
    · exact ih hs

/-- So are pieces at the start. -/
theorem Cut.of_isPrefix {ps qs : List Piece} (h : Cut ps) (hs : qs <+: ps) : Cut qs := by
  induction h generalizing qs with
  | nil => rw [List.prefix_nil.mp hs]; exact .nil
  | last hp =>
    rcases List.prefix_cons_iff.mp hs with rfl | ⟨us, rfl, hus⟩
    · exact .nil
    · rw [List.prefix_nil.mp hus]; exact .last hp
  | cons hp h ih =>
    rcases List.prefix_cons_iff.mp hs with rfl | ⟨us, rfl, hus⟩
    · exact .nil
    · exact .cons hp (ih hus)

/-! ## White space at the ends of a line

Trimming stops at an escape, which begins with a backslash. From behind it stops there only if
the escape does not end in white space, or if it is not the last piece. -/

variable {l : List Piece}

/-- White space may be cut off the front of the pieces or of what is written. -/
theorem raw_trimStart (hhead : ∀ r, escape r ∈ l → r.head? = some '\\') :
    (trimStart l).flatMap raw = Text.trimStart (l.flatMap raw) := by
  induction l with
  | nil => rfl
  | cons p l ih =>
    cases p with
    | literal c =>
      by_cases hc : isBlank c = true
      · simpa [trimStart, Text.trimStart, is, raw, hc] using ih fun r hr =>
          hhead r (List.mem_cons_of_mem _ hr)
      · simp [trimStart, Text.trimStart, is, raw, hc]
    | escape r =>
      obtain ⟨u, rfl⟩ := List.head?_eq_some_iff.mp (hhead r (by simp))
      simp [trimStart, Text.trimStart, is, raw, show isBlank '\\' = false by decide]

/-- The end of a line has the same last piece. -/
theorem EndsApart.of_isSuffix {p : Char → Bool} {k : List Piece} (h : EndsApart p l)
    (hk : k <:+ l) : EndsApart p k := by
  obtain ⟨us, rfl⟩ := hk
  exact fun xs r ys hxs => h (us ++ xs) r ys (by simp [hxs])

/-- Characters may be cut off the end of the pieces if no escape ends in one. -/
theorem raw_rdropWhile {p : Char → Bool} (h : EndsApart p l) :
    (l.rdropWhile (is p)).flatMap raw = (l.flatMap raw).rdropWhile p := by
  induction l using List.reverseRecOn with
  | nil => rfl
  | append_singleton l q ih =>
    rw [List.flatMap_append, List.flatMap_singleton]
    cases q with
    | literal c =>
      rw [raw]
      by_cases hc : p c = true
      · rw [List.rdropWhile_concat_pos (is p) l (literal c) hc, List.rdropWhile_concat_pos p _ c hc]
        refine ih fun xs r ys hl hys => h xs r (ys ++ [literal c]) (by simp [hl]) fun y hy => ?_
        rcases List.mem_append.mp hy with hy | hy
        · exact hys y hy
        · rwa [List.mem_singleton.mp hy]
      · rw [List.rdropWhile_concat_neg (is p) l (literal c) hc, List.rdropWhile_concat_neg p _ c hc]
        simp [raw]
    | escape r =>
      obtain ⟨c, hc, hp⟩ := h l r [] rfl (by simp)
      obtain ⟨u, rfl⟩ := List.getLast?_eq_some_iff.mp hc
      rw [List.rdropWhile_concat_neg _ _ _ (by simp [is])]
      rw [raw, ← List.append_assoc, List.rdropWhile_concat_neg _ _ _ (by simp [hp])]
      simp [raw]

/-- So may white space at both ends. -/
theorem raw_trim (hhead : ∀ r, escape r ∈ l → r.head? = some '\\') (h : EndsApart isBlank l) :
    (trim l).flatMap raw = Text.trim (l.flatMap raw) := by
  have hsuffix : trimStart l <:+ l := List.dropWhile_suffix _
  rw [trim, trimEnd, raw_rdropWhile (h.of_isSuffix hsuffix), raw_trimStart hhead]
  rfl

/-! ## Lines

Line feeds inside escapes would cut a line that the pieces do not. Without them both have the
same lines. -/

/-- There is always a line. -/
theorem lines_ne_nil (ps : List Piece) : lines ps ≠ [] := List.splitOnP_ne_nil _ ps

/-- A line feed that stands for itself ends a line. -/
theorem lines_feed (ps : List Piece) : lines (literal '\n' :: ps) = [] :: lines ps := by
  rw [lines, List.splitOnP_cons_eq_if_modifyHead]
  rfl

/-- Any other piece stands in the first line. -/
theorem lines_cons {p : Piece} (hp : p ≠ literal '\n') (ps : List Piece) :
    lines (p :: ps) = (lines ps).modifyHead (p :: ·) := by
  have his : p.is (· == '\n') = false := by
    cases p with
    | literal c => simpa [is] using hp
    | escape => rfl
  simp [lines, List.splitOnP_cons_eq_if_modifyHead, his]

/-- Without line feeds in escapes, the lines of the pieces are written as the lines of the text.
-/
theorem lines_raw {ps : List Piece} (h : ∀ r, escape r ∈ ps → '\n' ∉ r) :
    Text.lines (ps.flatMap raw) = (lines ps).map (·.flatMap raw) := by
  induction ps with
  | nil => rfl
  | cons p ps ih =>
    have ih := ih fun r hr => h r (List.mem_cons_of_mem p hr)
    by_cases hp : p = literal '\n'
    · rw [hp, lines_feed, List.map_cons, ← ih]
      exact lines_break [] (ps.flatMap raw) List.not_mem_nil
    · have hraw : '\n' ∉ p.raw := by
        cases p with
        | literal c => simpa [raw, eq_comm] using hp
        | escape r => exact h r List.mem_cons_self
      obtain ⟨l, ls, hl⟩ := List.exists_cons_of_ne_nil (lines_ne_nil ps)
      rw [hl, List.map_cons] at ih
      rw [lines_cons hp, hl, List.flatMap_cons, lines_append _ hraw ih]
      simp

/-- The pieces in a line are pieces of the text. -/
theorem subset_of_mem_lines {ps : List Piece} (hl : l ∈ lines ps) : l ⊆ ps := by
  induction ps generalizing l with
  | nil =>
    obtain rfl : l = [] := by simpa [lines] using hl
    exact List.Subset.refl []
  | cons p ps ih =>
    by_cases hp : p = literal '\n'
    · rw [hp, lines_feed] at hl
      rcases List.mem_cons.mp hl with rfl | hl
      · exact List.nil_subset _
      · exact List.subset_cons_of_subset p (ih hl)
    · obtain ⟨k, ks, hk⟩ := List.exists_cons_of_ne_nil (lines_ne_nil ps)
      rw [lines_cons hp, hk, List.modifyHead_cons] at hl
      rcases List.mem_cons.mp hl with rfl | hl
      · exact List.cons_subset_cons p (ih (by simp [hk]))
      · exact List.subset_cons_of_subset p (ih (by simp [hk, hl]))

/-- In all lines but the last the escapes are as long as they should be. -/
inductive CutLines : List (List Piece) → Prop
  | last {l : List Piece} (hl : Cut l) : CutLines [l]
  | cons {l : List Piece} {ls : List (List Piece)} (hl : ∀ p ∈ l, p.IsComplete) (h : CutLines ls) :
      CutLines (l :: ls)

/-- The lines of pieces are cut as the pieces are. -/
theorem Cut.lines {ps : List Piece} (h : Cut ps) : CutLines (lines ps) := by
  induction h with
  | nil => exact .last .nil
  | @last p hp =>
    by_cases hfeed : p = literal '\n'
    · rw [hfeed]
      exact .cons (by simp) (.last .nil)
    · rw [lines_cons hfeed]
      exact .last (.last hp)
  | @cons p ps hp h ih =>
    by_cases hfeed : p = literal '\n'
    · rw [hfeed, lines_feed]
      exact .cons (by simp) ih
    · rw [lines_cons hfeed]
      obtain ⟨ls, hls⟩ : ∃ ls, ls = Piece.lines ps := ⟨_, rfl⟩
      rw [← hls] at ih ⊢
      cases ih with
      | last hl => exact .last (.cons hp hl)
      | cons hl h' => exact .cons (by simpa using ⟨hp, hl⟩) h'

/-! ## Folding

The first line keeps its start, the last one its end, and those between are trimmed at both. So
the first line and the others are treated apart. -/

/-- What stands for a line break is no escape. -/
theorem decode_foldedBreak (n : Nat) (t : Text) :
    decode (foldedBreak n ++ t) = foldedBreak n ++ decode t := by
  have hcomplete : ∀ p ∈ (foldedBreak n).map literal, p.IsComplete := by
    intro p hp
    obtain ⟨c, hc, rfl⟩ := List.mem_map.mp hp
    refine .literal ?_
    rintro rfl
    unfold foldedBreak at hc
    split at hc <;> simp at hc
  simpa [List.flatMap_map, raw, text] using decode_append_of_complete hcomplete t

/-- A line before another is counted if it is empty, or else stands behind the break before it.
-/
theorem foldRest_cons (n : Nat) (l : List Piece) {ls : List (List Piece)} (h : ls ≠ []) :
    foldRest n (l :: ls) =
    if trim l = [] then foldRest (n + 1) ls
    else (foldedBreak n).map literal ++ trim l ++ foldRest 0 ls := by
  obtain ⟨m, ls, rfl⟩ := List.exists_cons_of_ne_nil h
  rw [foldRest]
  simp

/-- The escapes of a list of pieces begin with a backslash and stay in their line. -/
def EscapesInLine (l : List Piece) : Prop :=
  ∀ r, escape r ∈ l → r.head? = some '\\' ∧ ∀ c ∈ r, isBreakChar c = false

/-- So do those of some of the pieces. -/
theorem EscapesInLine.of_sublist {k : List Piece} (h : EscapesInLine l) (hk : k ⊆ l) :
    EscapesInLine k :=
  fun r hr => h r (hk hr)

/-- No escape ends in a carriage return then. -/
theorem EscapesInLine.endsApart_return (h : EscapesInLine l) : EndsApart (· = '\r') l := by
  rintro xs r ys rfl -
  obtain ⟨hhead, hbreak⟩ := h r (by simp)
  obtain ⟨u, rfl⟩ := List.head?_eq_some_iff.mp hhead
  refine ⟨_, List.getLast?_eq_some_getLast (by simp), ?_⟩
  have hlast := hbreak _ (List.getLast_mem (List.cons_ne_nil '\\' u))
  simp only [isBreakChar, Bool.or_eq_false_iff] at hlast
  simpa using hlast.2

/-- Only no pieces are written as nothing. -/
theorem EscapesInLine.raw_eq_nil (h : EscapesInLine l) : l.flatMap raw = [] ↔ l = [] := by
  refine ⟨fun hraw => List.eq_nil_iff_forall_not_mem.mpr fun p hp => ?_, fun hl => by rw [hl]; rfl⟩
  have hnil := List.flatMap_eq_nil_iff.mp hraw p hp
  cases p with
  | literal c => cases hnil
  | escape r =>
    rw [raw] at hnil
    have := (h r hp).1
    rw [hnil] at this
    cases this

/-- The lines after the first are read after folding as they are before. -/
theorem decode_foldRest {ls : List (List Piece)} (h : CutLines ls)
    (hesc : ∀ l ∈ ls, EscapesInLine l) (hend : ∀ l ∈ ls.dropLast, EndsApart isBlank l) (n : Nat) :
    decode (YamlPatch.foldRest n (ls.map (·.flatMap raw))) = (foldRest n ls).flatMap text := by
  -- By induction on the lines; the empty lines that have been counted are generalized. In the
  -- last line white space at the end stays, and an escape may be too short.
  induction h generalizing n with
  | @last l hl =>
    have hl' := hesc l (by simp)
    have hkept : l.rdropWhile (is (· = '\r')) <+: l := List.rdropWhile_prefix _ _
    have hraw : (trimStart (l.rdropWhile (is (· = '\r')))).flatMap raw =
        Text.trimStart (Text.dropReturns (l.flatMap raw)) := by
      rw [raw_trimStart fun r hr => (hl' r (hkept.subset hr)).1,
        raw_rdropWhile hl'.endsApart_return]
      rfl
    have hcut : Cut (trimStart (l.rdropWhile (is (· = '\r')))) :=
      (hl.of_isPrefix hkept).of_isSuffix (List.dropWhile_suffix _)
    rw [List.map_singleton, YamlPatch.foldRest, ← hraw, decode_foldedBreak, hcut.decode_raw,
      foldRest]
    simp [List.flatMap_map, text]
  | @cons l ls hl h ih =>
    have hne : ls ≠ [] := by cases h <;> simp
    rw [List.dropLast_cons_of_ne_nil hne] at hend
    have ih := ih (fun k hk => hesc k (List.mem_cons_of_mem l hk)) fun k hk =>
      hend k (List.mem_cons_of_mem l hk)
    have hl' := hesc l (by simp)
    have htrim := raw_trim (fun r hr => (hl' r hr).1) (hend l (by simp))
    have hsub : trim l ⊆ l := fun p hp =>
      (List.dropWhile_suffix _).subset ((List.rdropWhile_prefix _ _).subset hp)
    have hnil : Text.trim (l.flatMap raw) = [] ↔ trim l = [] := by
      rw [← htrim]
      exact (hl'.of_sublist hsub).raw_eq_nil
    rw [List.map_cons, YamlPatch.foldRest_cons n _ (by simpa using hne), foldRest_cons n l hne]
    by_cases ht : trim l = []
    · rw [if_pos (hnil.mpr ht), if_pos ht, ih]
    · rw [if_neg (mt hnil.mp ht), if_neg ht, ← htrim, List.append_assoc, decode_foldedBreak,
        decode_append_of_complete fun p hp => hl p (hsub hp), ih]
      simp [List.flatMap_map, text]

end Piece

/-- A text stands for what its pieces stand for. -/
theorem decode_eq_flatMap (t : Text) : decode t = (pieces t).flatMap Piece.text := by
  have hread := (Piece.cut_pieces t).decode_raw
  rwa [raw_pieces] at hread

/-- Escapes that stay in their lines are read after folding as before. -/
theorem decode_foldLines {t : Text} (h : Piece.StayInLine (pieces t)) :
    decode (foldLines t) = (Piece.fold (pieces t)).flatMap Piece.text := by
  have hescapes : Piece.EscapesInLine (pieces t) :=
    fun r hr => ⟨head?_of_mem_pieces hr, h.noBreak r hr⟩
  have hcut := (Piece.cut_pieces t).lines
  -- The lines of the text are those of its pieces, so both ways to read it go through the same
  -- lines.
  have hlines : Text.lines t = (Piece.lines (pieces t)).map (·.flatMap Piece.raw) := by
    rw [← Piece.lines_raw fun r hr hn => absurd (h.noBreak r hr _ hn) (by decide), raw_pieces]
  have hends := h.goesOn
  have hsub : ∀ l ∈ Piece.lines (pieces t), Piece.EscapesInLine l := fun l hl =>
    hescapes.of_sublist (Piece.subset_of_mem_lines hl)
  unfold foldLines Piece.fold
  rw [hlines]
  generalize Piece.lines (pieces t) = ls at hcut hends hsub
  cases hcut with
  | last hl => exact decode_eq_flatMap t
  | @cons l ls hl hcut =>
    have hne : ls ≠ [] := by cases hcut <;> simp
    rw [List.dropLast_cons_of_ne_nil hne] at hends
    have hrest := Piece.decode_foldRest hcut (fun k hk => hsub k (List.mem_cons_of_mem l hk))
      (fun k hk => hends k (List.mem_cons_of_mem l hk)) 0
    have htrim : (Piece.trimEnd l).flatMap Piece.raw = Text.trimEnd (l.flatMap Piece.raw) :=
      Piece.raw_rdropWhile (hends l (by simp))
    have hcomplete : ∀ p ∈ Piece.trimEnd l, p.IsComplete :=
      fun p hp => hl p ((List.rdropWhile_prefix _ _).subset hp)
    obtain ⟨m, ls, rfl⟩ := List.exists_cons_of_ne_nil hne
    simp only [List.map_cons] at hrest ⊢
    rw [← htrim, Piece.decode_append_of_complete hcomplete, hrest, List.flatMap_append]

end DoubleQuoted

namespace Scalar

open DoubleQuoted

/-- Between double quotes nothing that an escape stands for goes away, and only the white space
and the breaks that stand for themselves are folded, if the escapes stay in their lines. -/
theorem value_doubleQuoted {s : Tree} (hs : firstKind? s = some .doubleQuoted)
    (h : Piece.StayInLine (pieces (inner s.text))) :
    value s = (Piece.fold (pieces (inner s.text))).flatMap Piece.text := by
  rw [value, hs]
  exact decode_foldLines h

/-- Else the space of an escape is lost at the end of a line. -/
example : value (.node .scalar [.token ⟨.doubleQuoted, "\"a\\ \n  b\"".toList⟩]) = "a b".toList ∧
    (Piece.fold (pieces "a\\ \n  b".toList)).flatMap Piece.text = "a  b".toList := by
  decide +kernel

end Scalar

end YamlPatch
