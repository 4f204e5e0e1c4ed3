import YamlPatch.Proofs.BlockValues
import YamlPatch.Proofs.Lookbehind
import YamlPatch.Scalar

/-!
# Literal block scalars

A literal block scalar is a header and lines that are all moved to the right (`literal`). The
lexer and the reader count the spaces before its lines on their own. The lexer ends the scalar
at the first line with text that is indented no further than the key (`blockLength_literal`),
and the reader cuts off the least indentation, the one that was put before the lines
(`decode_literal`). Whatever the lines hold besides, both agree on them.

The column of the key is what the lexer finds before the header, if there are only spaces and
item indicators before the key (`headerColumn_of_isLead`).

Lines are cut at line feeds, and then lose carriage returns at their end. A line between others may
be blank, but the last one has text : without that the lexer would end the scalar before it.
-/

namespace YamlPatch

/-- The header `|`, or `|-` if there is to be no line feed at the end, and the lines, each
behind a line break and `n` spaces. -/
def literal (nl : Text) (strip : Bool) (n : Nat) (ls : List Text) : Text :=
  '|' :: ((if strip then ['-'] else []) ++ ls.flatMap fun l => nl ++ (List.replicate n ' ' ++ l))

/-- Lines that a literal block scalar can stand for : a line between others may be blank, and
some line with text is not indented. -/
structure LiteralLines (ls : List Text) : Prop where
  noNewline : ∀ l ∈ ls, '\n' ∉ l
  noReturn : ∀ l ∈ ls, l.getLast? ≠ some '\r'
  last : ∃ l, ls.getLast? = some l ∧ Text.allBlank l = false
  flush : ∃ l ∈ ls, Text.allBlank l = false ∧ l.head? ≠ some ' '

namespace Text

/-! ## Lines

The lexer and the reader cut lines at line feeds and drop the carriage returns before them. Both
count spaces in front. -/

/-- A line that does not end in a carriage return loses nothing. -/
theorem dropReturns_of_getLast? {l : Text} (h : l.getLast? ≠ some '\r') : dropReturns l = l := by
  have hstop : ∀ c u, l.reverse = c :: u → c ≠ '\r' := by
    rintro c u hc rfl
    exact h (by rw [← List.head?_reverse, hc]; rfl)
  unfold dropReturns
  cases hr : l.reverse with
  | nil => simp [List.reverse_eq_nil_iff.mp hr]
  | cons c u =>
    rw [List.dropWhile_cons_of_neg (by simpa using hstop c u hr), ← hr, List.reverse_reverse]

/-- Neither does it behind spaces. -/
theorem dropReturns_indented {l : Text} (n : Nat) (h : l.getLast? ≠ some '\r') :
    dropReturns (List.replicate n ' ' ++ l) = List.replicate n ' ' ++ l := by
  refine dropReturns_of_getLast? ?_
  rw [List.getLast?_append]
  cases hl : l.getLast? with
  | none => simp [List.getLast?_replicate]
  | some c => simpa [hl] using h

/-- Spaces in front do not change whether a line is blank. -/
theorem allBlank_indented (n : Nat) (l : Text) :
    allBlank (List.replicate n ' ' ++ l) = allBlank l := by
  simp [allBlank, show isBlank ' ' = true by decide]

/-- They are counted with those of the line. -/
theorem leadingSpaces_indented (n : Nat) (l : Text) :
    leadingSpaces (List.replicate n ' ' ++ l) = n + leadingSpaces l := by
  simp [leadingSpaces, List.takeWhile_append_of_pos]

/-- A line that does not begin with a space has none in front. -/
theorem leadingSpaces_eq_zero {l : Text} (h : l.head? ≠ some ' ') : leadingSpaces l = 0 := by
  cases l with
  | nil => rfl
  | cons c l =>
    have hc : c ≠ ' ' := by simpa using h
    simp [leadingSpaces, hc]

/-- Spaces are as many bytes as they are. -/
theorem byteLength_replicate (n : Nat) : byteLength (List.replicate n ' ') = n := by
  induction n with
  | zero => rfl
  | succ n ih =>
    rw [List.replicate_succ, byteLength, ih, show Char.utf8Size ' ' = 1 by decide, Nat.add_comm]

/-- They may be cut off by their number. -/
theorem dropBytes_replicate (n : Nat) (l : Text) :
    dropBytes (List.replicate n ' ' ++ l) n = some l := by
  have h := dropBytes_append (List.replicate n ' ') l
  rwa [byteLength_replicate] at h

/-- The line of a blank text stays blank without its carriage returns, and one with text keeps
it. -/
theorem allBlank_dropReturns (l : Text) : allBlank (dropReturns l) = allBlank l := by
  have hr : isBlank '\r' = true := by decide
  have hall (u : Text) : (u.dropWhile (· = '\r')).all isBlank = u.all isBlank := by
    induction u with
    | nil => rfl
    | cons c u ih =>
      by_cases hc : c = '\r'
      · simp [hc, hr, ih]
      · simp [hc]
  simp [allBlank, dropReturns, hall]

/-- Without carriage returns a line has no more spaces in front. -/
theorem leadingSpaces_dropReturns_le (l : Text) :
    leadingSpaces (dropReturns l) ≤ leadingSpaces l := by
  obtain ⟨u, hu⟩ := isPrefix_dropReturns l
  unfold leadingSpaces
  rw [← hu, List.takeWhile_append, hu]
  split
  · rename_i hlen
    simp [hlen]
  · exact Nat.le_refl _

/-- The first of the lines of a text is what stands before its first line break, up to a
carriage return. -/
theorem exists_lines_newline {nl l : Text} (hl : IsNewline nl) (h : '\n' ∉ l) (t : Text) :
    ∃ r, lines (l ++ (nl ++ t)) = r :: lines t ∧ dropReturns r = dropReturns l ∧
      r.length + 1 = l.length + nl.length := by
  cases hl with
  | lf => exact ⟨l, lines_break l t h, rfl, rfl⟩
  | crlf =>
    refine ⟨l ++ ['\r'], ?_, by simp [dropReturns], by simp⟩
    have hbreak := lines_break (l ++ ['\r']) t (by simp [h])
    rwa [List.append_assoc] at hbreak

/-- Lines that were put together are cut again. -/
theorem map_dropReturns_lines {nl w : Text} {ws : List Text} (hl : IsNewline nl)
    (hnewline : ∀ v ∈ w :: ws, '\n' ∉ v) :
    (lines (w ++ ws.flatMap fun v => nl ++ v)).map dropReturns = (w :: ws).map dropReturns := by
  induction ws generalizing w with
  | nil =>
    obtain ⟨l, ls, hlines, hone⟩ := lines_cons w
    obtain ⟨rfl, rfl⟩ := hone (hnewline w (by simp))
    rw [List.flatMap_nil, List.append_nil, hlines]
  | cons v ws ih =>
    obtain ⟨r, hlines, hr, -⟩ :=
      exists_lines_newline hl (hnewline w (by simp)) (v ++ ws.flatMap fun v => nl ++ v)
    rw [List.flatMap_cons, List.append_assoc, hlines, List.map_cons, hr, ih fun u hu =>
      hnewline u (by simp [hu])]
    rfl

end Text

open Text

/-! ## How far the scalar reaches

The lines of the scalar are indented further than its owner, and the line behind it is not. -/

/-- Lines behind more spaces than the owner's column, the last of them with text. -/
structure IndentedLines (owner : Nat) (ws : List Text) : Prop where
  noNewline : ∀ w ∈ ws, '\n' ∉ w
  noReturn : ∀ w ∈ ws, dropReturns w = w
  indented : ∀ w ∈ ws, owner < leadingSpaces w
  last : ∃ w, ws.getLast? = some w ∧ allBlank w = false

/-- So are the lines behind the first. -/
theorem IndentedLines.tail {owner : Nat} {w v : Text} {ws : List Text}
    (h : IndentedLines owner (w :: v :: ws)) : IndentedLines owner (v :: ws) where
  noNewline u hu := h.noNewline u (List.mem_cons_of_mem w hu)
  noReturn u hu := h.noReturn u (List.mem_cons_of_mem w hu)
  indented u hu := h.indented u (List.mem_cons_of_mem w hu)
  last := by simpa [List.getLast?_cons_cons] using h.last

/-- Lines that are moved to the right beyond the owner are such lines. -/
theorem LiteralLines.indented {owner n : Nat} {ls : List Text} (h : LiteralLines ls)
    (hn : owner < n) : IndentedLines owner (ls.map fun l => List.replicate n ' ' ++ l) where
  noNewline w hw := by
    obtain ⟨l, hl, rfl⟩ := List.mem_map.mp hw
    simp [h.noNewline l hl]
  noReturn w hw := by
    obtain ⟨l, hl, rfl⟩ := List.mem_map.mp hw
    exact dropReturns_indented n (h.noReturn l hl)
  indented w hw := by
    obtain ⟨l, hl, rfl⟩ := List.mem_map.mp hw
    rw [leadingSpaces_indented]
    omega
  last := by
    obtain ⟨l, hl, hb⟩ := h.last
    exact ⟨List.replicate n ' ' ++ l,
      by rw [List.getLast?_map, hl]; rfl, by rw [allBlank_indented, hb]⟩

/-- A line with text comes first that is indented no further than the owner. -/
def StopsBlock (owner : Nat) (t : Text) : Prop :=
  ∃ l ls, lines t = l :: ls ∧ allBlank l = false ∧ leadingSpaces l ≤ owner

section

variable {owner : Nat} {nl w : Text} {ws : List Text} {t : Text}

/-- Indented lines belong to the scalar, up to the line that stops it. -/
theorem blockExtent_lines (kept start : Nat) (hl : IsNewline nl)
    (hws : IndentedLines owner (w :: ws)) (ht : StopsBlock owner t) :
    blockExtent owner kept start (lines (w ++ ((ws.flatMap fun v => nl ++ v) ++ (nl ++ t)))) =
      start + (w ++ ws.flatMap fun v => nl ++ v).length := by
  induction ws generalizing w kept start with
  | nil =>
    obtain ⟨l, ls, hlines, hblank, hle⟩ := ht
    obtain ⟨r, hfirst, hr, -⟩ := exists_lines_newline hl (hws.noNewline w (by simp)) t
    have hw := hws.noReturn w (by simp)
    have hin := Nat.not_le.mpr (hws.indented w (by simp))
    have hlast : allBlank w = false := by simpa using hws.last
    have hend : leadingSpaces (dropReturns l) ≤ owner :=
      Nat.le_trans (leadingSpaces_dropReturns_le l) hle
    rw [List.flatMap_nil, List.nil_append, hfirst, hlines, List.append_nil]
    simp [blockExtent, hr, hw, hlast, hin, allBlank_dropReturns, hblank, hend]
  | cons v ws ih =>
    obtain ⟨r, hfirst, hr, hlen⟩ := exists_lines_newline hl (hws.noNewline w (by simp))
      (v ++ ((ws.flatMap fun v => nl ++ v) ++ (nl ++ t)))
    have hw := hws.noReturn w (by simp)
    have hin := Nat.not_le.mpr (hws.indented w (by simp))
    have htotal : start + (w ++ (v :: ws).flatMap fun v => nl ++ v).length =
        start + r.length + 1 + (v ++ ws.flatMap fun v => nl ++ v).length := by
      simp only [List.flatMap_cons, List.length_append]
      omega
    rw [htotal, List.flatMap_cons, List.append_assoc, List.append_assoc, hfirst]
    -- blank or not, the line is passed, and a line with text is still to come
    simp only [blockExtent, hr, hw, if_neg hin, ih _ _ hws.tail, ite_self]

/-- Indented lines under a header are what a block scalar takes. -/
theorem blockLength_lines (h : Text) (hh : ∀ c ∈ h, (c != '\n' && c != '\r') = true)
    (hl : IsNewline nl) (hws : IndentedLines owner ws) (ht : StopsBlock owner t) :
    blockLength owner (h ++ ((ws.flatMap fun v => nl ++ v) ++ (nl ++ t))) =
      h.length + (ws.flatMap fun v => nl ++ v).length := by
  obtain ⟨w, ws, rfl⟩ : ∃ v vs, ws = v :: vs := by
    obtain ⟨w, hw, -⟩ := hws.last
    cases ws with
    | nil => cases hw
    | cons v vs => exact ⟨v, vs, rfl⟩
  have hextent := blockExtent_lines h.length (h.length + nl.length) hl hws ht
  obtain ⟨r, hr⟩ : ∃ r, r = w ++ ((ws.flatMap fun v => nl ++ v) ++ (nl ++ t)) := ⟨_, rfl⟩
  have htext : ((w :: ws).flatMap fun v => nl ++ v) ++ (nl ++ t) = nl ++ r := by simp [hr]
  have hheader : lineLength (h ++ (nl ++ r)) = h.length := by
    refine runLength_append hh fun c u hc => ?_
    cases hl <;> obtain ⟨rfl, -⟩ := List.cons.inj hc <;> rfl
  have hbreak : breakLength ((h ++ (nl ++ r)).drop h.length) = nl.length := by
    rw [List.drop_left]
    cases hl <;> rfl
  have hbody : (h ++ (nl ++ r)).drop (h.length + nl.length) = r := by
    rw [← List.drop_drop, List.drop_left, List.drop_left]
  rw [← hr] at hextent
  simp only [htext, blockLength, hheader, hbreak, hbody, hextent]
  simp only [List.flatMap_cons, List.length_append]
  omega

/-- The text of the scalar, line by line. -/
theorem literal_eq (nl : Text) (strip : Bool) (n : Nat) (ls : List Text) :
    literal nl strip n ls = '|' :: ((if strip then ['-'] else []) ++
      (ls.map fun l => List.replicate n ' ' ++ l).flatMap fun w => nl ++ w) := by
  simp [literal, List.flatMap_map]

/-- Behind its first character a literal scalar reaches to the end of its last line. -/
theorem blockLength_literal (hl : IsNewline nl) (strip : Bool) {n : Nat} {ls : List Text}
    (hls : LiteralLines ls) (hn : owner < n) (ht : StopsBlock owner t) :
    blockLength owner ((literal nl strip n ls).tail ++ (nl ++ t)) =
      (literal nl strip n ls).tail.length := by
  have hheader : ∀ c ∈ if strip then ['-'] else [], (c != '\n' && c != '\r') = true := by
    cases strip <;> simp
  rw [literal_eq, List.tail_cons, List.append_assoc,
    blockLength_lines _ hheader hl (hls.indented hn) ht, List.length_append]

end

/-! ## The column of the owner

Before the key there may be spaces and indicators of items. The lexer passes over them to find
the column that the lines of the scalar are compared with. -/

/-- Nothing but spaces and item indicators, each with a space behind it. -/
def isLead : Text → Bool
  | [] => true
  | ' ' :: t => isLead t
  | '-' :: ' ' :: t => isLead t
  | _ => false

/-- The owner of a line is looked for behind its spaces. -/
theorem ownerColumn_leadingSpaces (i j : Nat) (t : Text) :
    ownerColumn i (j + leadingSpaces t) (t.drop (leadingSpaces t)) = ownerColumn i j t := by
  induction t generalizing j with
  | nil => rfl
  | cons c t ih =>
    by_cases hc : c = ' '
    · subst hc
      have hlen : leadingSpaces (' ' :: t) = leadingSpaces t + 1 := by simp [leadingSpaces]
      rw [hlen, List.drop_succ_cons, ownerColumn, ← ih (j + 1)]
      congr 1
      omega
    · simp [leadingSpaces_eq_zero (l := c :: t) (by simpa using hc)]

/-- Behind spaces and item indicators the owner is what begins there. -/
theorem ownerColumn_of_isLead {lead u : Text} (h : isLead lead = true) {c : Char} (hc : c ≠ ' ')
    (hu : ¬['-', ' '] <+: c :: u) (i j : Nat) :
    ownerColumn i j (lead ++ c :: u) = j + lead.length := by
  fun_induction isLead lead generalizing i j with
  | case1 =>
    rw [List.nil_append]
    unfold ownerColumn
    split
    · simp_all
    · simp_all
    · rename_i v hv
      exact absurd ⟨v, hv.symm⟩ hu
    · rfl
  | case2 t ih =>
    rw [List.cons_append, ownerColumn, ih h, List.length_cons]
    omega
  | case3 t ih =>
    rw [List.cons_append, List.cons_append, ownerColumn, ih h, List.length_cons, List.length_cons]
    omega
  | case4 => cases h

/-- Behind a key before which there are only spaces and item indicators, the owner stands where
the key does. -/
theorem headerColumn_of_isLead {lead u : Text} (h : isLead lead = true) {c : Char} (hc : c ≠ ' ')
    (hu : ¬['-', ' '] <+: c :: u) : headerColumn (lead ++ c :: u) = lead.length := by
  have hskip := ownerColumn_leadingSpaces (leadingSpaces (lead ++ c :: u)) 0 (lead ++ c :: u)
  rw [Nat.zero_add] at hskip
  rw [headerColumn, hskip, ownerColumn_of_isLead h hc hu, Nat.zero_add]

/-! ## What the scalar stands for

Since some line with text is not indented itself, the least indentation is the one that was put
in front of all. -/

namespace BlockScalar

/-- The indentation that is put before lines is what is found. -/
theorem indentation_map {ls : List Text} (n : Nat)
    (h : ∃ l ∈ ls, allBlank l = false ∧ l.head? ≠ some ' ') :
    indentation (ls.map fun l => List.replicate n ' ' ++ l) = n := by
  obtain ⟨l, hl, hb, hs⟩ := h
  have hmin :
      (((ls.map fun l => List.replicate n ' ' ++ l).filter fun l =>
        !allBlank l).map leadingSpaces).min? =
      some n := by
    rw [List.min?_eq_some_iff]
    constructor
    · refine List.mem_map.mpr ⟨List.replicate n ' ' ++ l, ?_, ?_⟩
      · simp only [List.mem_filter, allBlank_indented, hb, Bool.not_false, and_true]
        exact List.mem_map_of_mem hl
      · rw [leadingSpaces_indented, leadingSpaces_eq_zero hs, Nat.add_zero]
    · intro m hm
      obtain ⟨w, hw, rfl⟩ := List.mem_map.mp hm
      obtain ⟨l', -, rfl⟩ := List.mem_map.mp (List.mem_filter.mp hw).1
      rw [leadingSpaces_indented]
      exact Nat.le_add_right n _
  rw [indentation, hmin, Option.getD_some]

/-- A literal scalar stands for its lines. -/
theorem decode_literal {nl : Text} (hl : IsNewline nl) (strip : Bool) {n : Nat} (hn : 0 < n)
    {ls : List Text} (hls : LiteralLines ls) :
    decode (literal nl strip n ls) = joinWith ['\n'] ls ++ if strip then [] else ['\n'] := by
  have hne : ls ≠ [] := by
    rintro rfl
    obtain ⟨l, hl, -⟩ := hls.last
    cases hl
  obtain ⟨l, ls, rfl⟩ := List.exists_cons_of_ne_nil hne
  have hbody : body (literal nl strip n (l :: ls)) = (List.replicate n ' ' ++ l) ++
      (ls.map fun l => List.replicate n ' ' ++ l).flatMap fun w => nl ++ w := by
    cases hl <;> cases strip <;> simp [body, literal_eq]
  have hlines : (lines (body (literal nl strip n (l :: ls)))).map dropReturns =
      (l :: ls).map fun l => List.replicate n ' ' ++ l := by
    rw [hbody, map_dropReturns_lines hl (hls.indented hn).noNewline]
    exact (List.map_congr_left (hls.indented hn).noReturn).trans (List.map_id _)
  have hcontent : contentLines (literal nl strip n (l :: ls)) = l :: ls := by
    have hdrop (m : Text) : (dropBytes (List.replicate n ' ' ++ m) n).getD [] = m := by
      rw [dropBytes_replicate, Option.getD_some]
    simp only [contentLines, hlines, indentation_map n hls.flush, List.map_map]
    exact List.map_id'' (f := _) (fun m => hdrop m) _
  have hheader : header (literal nl strip n (l :: ls)) = if strip then ['|', '-'] else ['|'] := by
    cases hl <;> cases strip <;> simp [header, literal_eq] <;> decide
  have hempty : body (literal nl strip n (l :: ls)) ≠ [] := by
    rw [hbody]
    simp [Nat.ne_of_gt hn]
  simp only [decode, isLiteral, isStripped, hheader, hcontent, hempty, or_false]
  cases strip <;> simp

end BlockScalar

end YamlPatch
