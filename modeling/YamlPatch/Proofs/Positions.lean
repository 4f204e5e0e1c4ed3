import YamlPatch.Proofs.Endings

/-!
# Where the faults are

A fault stands at a token of the text and covers it, or it stands at the end of the text and
covers nothing (`Fault.Stands`). The parser reports where it is. It holds the tokens behind that
place, with the lines and columns they begin at (`Config.Located`), and as it never goes back
its faults are in the order of the text.

What is handed out says so in numbers (`parse_notes`) : the bytes, counted in 32 bits, and in
the message the line and the column, which are the line feeds before the fault and the
characters behind the last of them, counted from 1.
-/

namespace YamlPatch

open Lexeme

/-! ## Lines and columns

The parser counts both as it goes along, and the statement is about the text before a place. -/

namespace Position

/-- Lines are counted by their line feeds. -/
theorem line_advance (p : Position) (t : Text) : (p.advance t).line = p.line + t.count '\n' := by
  induction t generalizing p with
  | nil => rfl
  | cons c t ih =>
    have hp : p.advance (c :: t) = (p.step c).advance t := rfl
    rw [hp, ih, List.count_cons]
    by_cases hc : c = '\n'
    · simp [step, hc]
      omega
    · simp [step, hc]

/-- Columns are counted from the last line feed. -/
theorem column_advance_start (t : Text) :
    (advance {} t).column = (t.reverse.takeWhile (· != '\n')).length := by
  suffices h : ∀ u : Text, (advance {} u.reverse).column = (u.takeWhile (· != '\n')).length by
    simpa using h t.reverse
  intro u
  induction u with
  | nil => rfl
  | cons c u ih =>
    have hp (p : Position) : p.advance [c] = p.step c := rfl
    rw [List.reverse_cons, advance_append, hp]
    by_cases hc : c = '\n'
    · simp [step, hc]
    · simp [step, hc, ih]

end Position

/-! ## The place of a fault

A fault is reported at the next token or at the end, and tokens are taken in their order. -/

/-- The fault covers a token of the text, or nothing at its end. -/
inductive Fault.Stands (t : Text) (f : Fault) : Prop where
  | token {xs ys : List Token} {x : Token} (h : lex t = xs ++ x :: ys)
      (hstart : f.start = Position.advance {} (Token.join xs))
      (hwidth : f.width = Text.byteLength x.text)
  | finish (hstart : f.start = Position.advance {} t) (hwidth : f.width = 0)

/-- A fault covers a part of the text. -/
theorem Fault.Stands.stop_le {t : Text} {f : Fault} (h : f.Stands t) :
    f.stop ≤ Text.byteLength t := by
  cases h with
  | token h hstart hwidth =>
    have hjoin := congrArg Text.byteLength (join_lex t)
    simp only [h, Token.join_append, Token.join_cons, Text.byteLength_append] at hjoin
    simp only [stop, hstart, hwidth, Position.offset_advance]
    omega
  | finish hstart hwidth => simp [stop, hstart, hwidth, Position.offset_advance]

namespace Config

/-- Before the place of the configuration are the tokens `xs`, and behind it `ys`; the faults
are in order, and none is farther. -/
structure Located (t : Text) (xs ys : List Token) (c : Config) : Prop where
  lex_eq : lex t = xs ++ ys
  rest_eq : c.rest = locate (Position.advance {} (Token.join xs)) ys
  finish_eq : c.finish = Position.advance {} t
  stands : ∀ f ∈ c.faults, f.Stands t
  offset_le : ∀ f ∈ c.faults, f.start.offset ≤ Text.byteLength (Token.join xs)
  sorted : c.faults.Pairwise fun f g => f.start.offset ≤ g.start.offset

namespace Located

variable {t : Text} {xs ys : List Token} {c d : Config}

/-- At the start no token has been taken. -/
theorem start (t : Text) : Located t [] (lex t) (Config.start t) :=
  ⟨rfl, rfl, rfl, by simp [Config.start], by simp [Config.start], .nil⟩

/-- What keeps the tokens, the faults and the end of the text keeps the place. -/
theorem of_eq (h : Located t xs ys c) (hr : d.rest = c.rest) (hf : d.faults = c.faults)
    (he : d.finish = c.finish) : Located t xs ys d :=
  ⟨h.lex_eq, hr ▸ h.rest_eq, he ▸ h.finish_eq, hf ▸ h.stands, hf ▸ h.offset_le, hf ▸ h.sorted⟩

/-- The place goes forward by the tokens that are taken. -/
theorem drop (h : Located t xs ys c) {n : Nat} (hr : d.rest = c.rest.drop n)
    (hf : d.faults = c.faults) (he : d.finish = c.finish) :
    Located t (xs ++ ys.take n) (ys.drop n) d := by
  refine ⟨by simp [h.lex_eq], ?_, he ▸ h.finish_eq, hf ▸ h.stands, ?_, hf ▸ h.sorted⟩
  · rw [hr, h.rest_eq, drop_locate, Token.join_append, Position.advance_append]
  · intro f hmem
    have := h.offset_le f (hf ▸ hmem)
    simp only [Token.join_append, Text.byteLength_append]
    omega

/-- A problem is reported at the place. -/
theorem report (h : Located t xs ys c) (p : Problem) : Located t xs ys (c.report p) := by
  obtain ⟨f, hfaults, hstands, hoffset⟩ : ∃ f, (c.report p).faults = c.faults ++ [f] ∧ f.Stands t ∧
      f.start.offset = Text.byteLength (Token.join xs) := by
    refine ⟨_, rfl, ?_⟩
    have hrest := h.rest_eq
    cases ys with
    | nil =>
      obtain rfl : xs = lex t := by simpa using h.lex_eq.symm
      simp only [hrest, locate, h.finish_eq, join_lex]
      exact ⟨.finish rfl rfl, by simp [Position.offset_advance]⟩
    | cons y ys =>
      simp only [hrest, locate]
      exact ⟨.token h.lex_eq rfl rfl, by simp [Position.offset_advance]⟩
  refine ⟨h.lex_eq, h.rest_eq, h.finish_eq, ?_, ?_, ?_⟩
  all_goals rw [hfaults]
  · exact List.forall_mem_append.mpr ⟨h.stands, by simpa using hstands⟩
  · exact List.forall_mem_append.mpr ⟨h.offset_le, by simp [hoffset]⟩
  · refine List.pairwise_append.mpr ⟨h.sorted, List.pairwise_singleton .., fun g hg f' hf' => ?_⟩
    obtain rfl := List.mem_singleton.mp hf'
    exact (h.offset_le g hg).trans_eq hoffset.symm

end Located

/-- Wherever the parser comes to, it knows where it is. -/
theorem Grows.exists_located {t : Text} {c d : Config} (h : Grows c d) {xs ys : List Token}
    (hc : Located t xs ys c) : ∃ xs ys, Located t xs ys d := by
  induction h with
  | refl => exact ⟨xs, ys, hc⟩
  | take _ n ih =>
    obtain ⟨xs, ys, hd⟩ := ih
    exact ⟨_, _, hd.drop (rest_take _ n) (faults_take _ n) (finish_add _ _)⟩
  | wrap _ k n ih =>
    obtain ⟨xs, ys, hd⟩ := ih
    exact ⟨_, _, hd.drop (rest_wrap _ k n) (faults_wrap _ k n) (finish_add _ _)⟩
  | push _ u ih =>
    obtain ⟨xs, ys, hd⟩ := ih
    exact ⟨xs, ys, hd.of_eq rfl rfl rfl⟩
  | close _ ih =>
    obtain ⟨xs, ys, hd⟩ := ih
    exact ⟨xs, ys, hd.of_eq (rest_close _) (faults_close _) (finish_close _)⟩
  | await _ s ih =>
    obtain ⟨xs, ys, hd⟩ := ih
    exact ⟨xs, ys, hd.of_eq rfl rfl rfl⟩
  | unslot _ ih =>
    obtain ⟨xs, ys, hd⟩ := ih
    exact ⟨xs, ys, hd.of_eq rfl rfl rfl⟩
  | report _ p ih =>
    obtain ⟨xs, ys, hd⟩ := ih
    exact ⟨xs, ys, hd.report p⟩

end Config

/-- The faults of a text stand at its tokens or its end, in their order. -/
theorem stands_of_parse (t : Text) :
    (∀ f ∈ (parse t).faults, f.Stands t) ∧ (parse t).faults.Pairwise fun f g =>
      f.start.offset ≤ g.start.offset := by
  obtain ⟨xs, ys, h⟩ := (Config.Leads.to_run (Config.start t)).grows.exists_located (.start t)
  exact ⟨h.stands, h.sorted⟩

/-! ## What is handed out

Places are counted in bytes and cut to 32 bits, which changes nothing for texts that are shorter
than that. -/

/-- The note covers the bytes of a token of the text, or nothing at its end, and begins with the
line and the column. -/
def Fault.Note.Stands (t : Text) (n : Note) : Prop :=
  ∃ before behind : Text, t = before ++ behind ∧ n.start.toNat = Text.byteLength before ∧
    ((∃ xs x ys, lex t = xs ++ x :: ys ∧ before = Token.join xs ∧
        n.stop.toNat = Text.byteLength (before ++ x.text)) ∨
      behind = [] ∧ n.stop = n.start) ∧
    ∃ p : Problem, n.message = toString (1 + before.count '\n') ++ ":" ++
      toString (1 + (before.reverse.takeWhile (· != '\n')).length) ++ ": " ++ p.message

/-- The bytes that a note covers are those of its fault, if 32 bits are enough for the text. -/
theorem Fault.Stands.note {t : Text} (ht : Text.byteLength t < UInt32.size) {f : Fault}
    (h : f.Stands t) :
    f.note.start.toNat = f.start.offset ∧ f.note.stop.toNat = f.stop ∧ f.note.Stands t := by
  -- No number is cut to 32 bits, as no fault reaches beyond the end of the text.
  have hlt : f.stop < UInt32.size := h.stop_le.trans_lt ht
  have hstart : f.note.start.toNat = f.start.offset :=
    UInt32.toNat_ofNat_of_lt' ((Nat.le_add_right _ _).trans_lt hlt)
  have hstop : f.note.stop.toNat = f.stop := by
    have hsum : f.note.stop = .ofNat f.stop := (UInt32.ofNat_add _ _).symm
    rw [hsum]
    exact UInt32.toNat_ofNat_of_lt' hlt
  refine ⟨hstart, hstop, ?_⟩
  have hmessage {before : Text} (hf : f.start = Position.advance {} before) :
      f.note.message = toString (1 + before.count '\n') ++ ":" ++
        toString (1 + (before.reverse.takeWhile (· != '\n')).length) ++ ": " ++
          f.problem.message := by
    simp [Fault.note, message, hf, Position.line_advance, Position.column_advance_start,
      Nat.add_comm]
  cases h with
  | @token xs ys x h hf hwidth =>
    refine ⟨Token.join xs, x.text ++ Token.join ys, ?_, ?_, .inl ⟨xs, x, ys, h, rfl, ?_⟩, _,
      hmessage hf⟩
    · rw [← join_lex t, h, Token.join_append, Token.join_cons]
    · simp [hstart, hf, Position.offset_advance]
    · simp [hstop, stop, hf, hwidth, Position.offset_advance, Text.byteLength_append]
  | finish hf hwidth =>
    refine ⟨t, [], by simp, ?_, .inr ⟨rfl, ?_⟩, _, hmessage hf⟩
    · simp [hstart, hf, Position.offset_advance]
    · simp [Fault.note, hwidth]

/-- What is wrong with a text is told twice and in the same order, which is that of the text,
and each note says exactly where. -/
theorem parse_notes {t : Text} (ht : Text.byteLength t < UInt32.size) :
    (parse t).errors = (parse t).notes.map Fault.Note.message ∧
      (parse t).notes.Pairwise (fun m n => m.start ≤ n.start) ∧
      ∀ n ∈ (parse t).notes, n.Stands t := by
  obtain ⟨hstands, hsorted⟩ := stands_of_parse t
  refine ⟨by simp [Parse.errors, Parse.notes, Fault.note], ?_, ?_⟩
  · refine List.pairwise_map.mpr (hsorted.imp_of_mem fun {f g} hf hg hle => ?_)
    rw [UInt32.le_iff_toNat_le, ((hstands f hf).note ht).1, ((hstands g hg).note ht).1]
    exact hle
  · exact List.forall_mem_map.mpr fun f hf => ((hstands f hf).note ht).2.2

/-- A line that is indented too far, behind a character of two bytes, and a sequence that is not
closed. -/
theorem parse_notes_of_indented :
    let t := "é: ä\n  c: 1\nd: [1".toList
    Text.byteLength t < UInt32.size ∧
      (parse t).notes = [⟨"2:3: unexpected indentation", 9, 10⟩,
        ⟨"3:6: unclosed flow sequence, expected ']'", 19, 19⟩] ∧
      ((parse t).errors = (parse t).notes.map Fault.Note.message ∧
        (parse t).notes.Pairwise (fun m n => m.start ≤ n.start) ∧
        ∀ n ∈ (parse t).notes, n.Stands t) :=
  ⟨by decide, by decide +kernel, parse_notes (by decide)⟩

end YamlPatch
