import YamlPatch.Patch.Write
import YamlPatch.Proofs.BlockParsing

/-!
# The text of a value

The text of a value is parsed on its own. It is a document with the tree that was rendered, on
one line (`Value.parse_flow`) or on several from any column and with either kind of line break
(`Value.parse_block`). So a sequence to be written, which is rendered and read again, is read as
that tree (`Value.readSequence_flow`, `Value.readSequence_block`).

Two things are put together. The text is cut into the leaves of the tree, which is known for
every state of the lexer in which a node may start, and the state at the start of a text is one.
And the parser makes the tree of these leaves, as the root of a document
(`Config.reaches_document`).
-/

namespace YamlPatch

open TokenKind Lexeme YamlPatch.Tree LexState

namespace Config

/-- Trivia between documents belong to the stream. -/
theorem takeTrivia_between (c : Config) (p : Position) {zs ys : List Token}
    (hzs : ∀ z ∈ zs, z.kind.isTrivia = true)
    (hys : ∀ y ws, ys = y :: ws → y.kind.isTrivia = false) : (c.facing [] p (zs ++ ys)).takeTrivia =
      { c with finished := c.finished ++ zs.map Tree.token }.facing []
        (p.advance (Token.join zs)) ys := by
  have hlen : triviaLength (locate p (zs ++ ys)) = zs.length := kindRun_locate p hzs hys
  unfold takeTrivia take
  rw [rest_facing, hlen, ahead_facing, drop_locate_append]
  rfl

/-- The parser opens a document at the first token that is not trivia. -/
theorem step_between (c : Config) (p : Position) {zs : List Token} (ys : List Token) {y : Token}
    (hzs : ∀ z ∈ zs, z.kind.isTrivia = true)
    (hy : y.kind.isTrivia = false ∧ y.kind.isMarker = false) :
    (c.facing [] p (zs ++ y :: ys)).step =
      some (({ c with finished := c.finished ++ zs.map Tree.token }.facing [⟨.document, []⟩]
        (p.advance (Token.join zs)) (y :: ys)).fill ⟨0, none, true⟩) := by
  have hstop : ∀ w ws, y :: ys = w :: ws → w.kind.isTrivia = false := forall_first hy.1
  have hk : y.kind ≠ directive ∧ y.kind ≠ documentEnd ∧ y.kind ≠ documentStart := by
    refine ⟨?_, ?_, ?_⟩ <;> rintro h <;> rw [h] at hy <;> exact absurd hy.2 (by simp [isMarker])
  have hstep : (c.facing [] p (zs ++ y :: ys)).step = (c.facing [] p (zs ++ y :: ys)).stepStream :=
    rfl
  rw [hstep, stepStream, rest_facing, significant_locate p hzs hstop,
    takeTrivia_between c p hzs hstop]
  simp only [locate, Lexeme.kind]
  split
  · exact absurd ‹_› hk.1
  · exact absurd ‹_› hk.2.1
  · exact absurd ‹_› hk.2.2
  · rfl

/-- The first node of a text, which the parser makes of its first tokens, is the root of a
document. -/
theorem reaches_document {t : Text} {zs ys xs : List Token} {y : Token} {x : Tree}
    (hlex : lex t = zs ++ (x.leaves ++ ys)) (hzs : ∀ z ∈ zs, z.kind.isTrivia = true)
    (hx : x.leaves = y :: xs)
    (hy : y.kind.isTrivia = false ∧ y.kind.isMarker = false ∧ y.kind.isProperty = false)
    (h : ∀ c, Reaches ((c.facing [⟨.document, []⟩] (Position.advance {} (Token.join zs))
      (x.leaves ++ ys)).fillContent ⟨0, none, true⟩) c [⟨.document, [x]⟩] ys) :
    Reaches (start t) { start t with finished := zs.map .token } [⟨.document, [x]⟩] ys := by
  have hstart : start t = (start t).facing [] {} (zs ++ (x.leaves ++ ys)) := by rw [← hlex]; rfl
  have hprops (q : Position) : propertiesLength (locate q (y :: (xs ++ ys))) = 0 :=
    propertiesLength_locate q (forall_first hy.2.2)
  rw [hx, List.cons_append] at hstart h
  have hstep := step_between (start t) {} (xs ++ ys) hzs ⟨hy.1, hy.2.1⟩
  rw [← hstart, fill_facing _ _ _ _ _ _ hprops] at hstep
  exact .head hstep (h _)

/-- If no token is left behind the root then the text is a document with that node. -/
theorem parse_of_reaches {t : Text} {zs : List Token} {x : Tree}
    (h : Reaches (start t) { start t with finished := zs.map .token } [⟨.document, [x]⟩] []) :
    parse t = ⟨.node .stream (zs.map .token ++ [.node .document [x]]), []⟩ := by
  let c : Config := { start t with finished := zs.map .token }
  obtain ⟨p, hp⟩ := h
  have hclose : (c.facing [⟨.document, [x]⟩] p []).step =
      some { c with finished := zs.map .token ++ [.node .document [x]], rest := [] } := by
    rw [step_facing]
    rfl
  have hend : Config.step
      { c with finished := zs.map .token ++ [.node .document [x]], rest := [] } = none := rfl
  have hrun : (start t).run =
      { c with finished := zs.map .token ++ [.node .document [x]], rest := [] } := by
    rw [← (hp.trans (.of_step hclose)).run_eq]
    exact (Leads.to_run _).cases_head.resolve_right (by simp [hend]) |>.symm
  unfold parse
  simp only [hrun, stream]
  simp [c, start]

end Config

open Config

/-- A text whose only node is a sequence is read as that sequence. -/
theorem readSequence_of_parse {t : Text} {zs : List Token} {x : Tree}
    (hx : x.isNode .sequence = true)
    (h : parse t = ⟨.node .stream (zs.map .token ++ [.node .document [x]]), []⟩) :
    readSequence t = .ok x := by
  have hcontent : x.isContent = true := by
    simp only [isNode, beq_iff_eq] at hx
    simp [isContent, hx, NodeKind.isContent]
  have hfind : (zs.map Tree.token ++ [Tree.node .document [x]]).find? (isNode .document) =
      some (.node .document [x]) := by
    rw [List.find?_append, List.find?_eq_none.mpr]
    · rfl
    · simp [isNode, Tree.kind?]
  simp only [readSequence, parseStrict, h, children, hfind, Option.bind_some,
    Value.content?_of_isContent _ hcontent, Option.filter_some, hx, if_true]

namespace Value

/-- A collection on one line is a document that holds its tree. -/
theorem parse_flow {v : Value} (hv : v.Made) (hc : v.kind ≠ .scalar) :
    parse v.flow = ⟨.node .stream [.node .document [v.flowTree]], []⟩ := by
  have hatom : ∀ a, v ≠ atom a := by
    rintro a rfl
    exact hc rfl
  obtain ⟨y, ys, hy, hk⟩ := starts_flowTree hv
  have hy' := TokenKind.ne_of_isStart hk
  have hcuts := (cuts_flow v hv {} [] rfl fun a ha => absurd ha (hatom a)).1
  have hlex : lex v.flow = [] ++ (v.flowTree.leaves ++ []) := by
    rw [← text_flowTree, List.nil_append, List.append_nil]
    exact hcuts.lexFrom_eq
  refine parse_of_reaches (reaches_document hlex (by simp) hy ⟨hy'.1, hy'.2.2.1, hy'.2.1⟩ fun c =>
    ?_)
  exact reaches_fillContent hv c .document [] [] {} [] ⟨0, none, true⟩ (fun a ha =>
    absurd ha (hatom a)) (startsKey_flowTree hv (by simp [NoColon, colonAfter, locate]) {})

/-- A sequence on one line is read as its tree. -/
theorem readSequence_flow {vs : List Value} (hv : AllMade vs) :
    readSequence (sequence vs).flow = .ok (sequence vs).flowTree :=
  have h : parse (sequence vs).flow = ⟨.node .stream (([] : List Token).map .token ++
      [.node .document [(sequence vs).flowTree]]), []⟩ :=
        parse_flow (v := sequence vs) hv (by simp [kind])
  readSequence_of_parse rfl h

/-- So is the empty list. -/
theorem readSequence_nil : readSequence "[]".toList = .ok (sequence []).flowTree :=
  readSequence_flow (show AllMade [] from trivial)

/-- The spaces before a text at column `n`. -/
def margin (n : Nat) : List Token := if n = 0 then [] else [⟨indent, List.replicate n ' '⟩]

/-- Behind a line break comes the margin of the next line. -/
theorem leavesOf_lineStart (nl : Text) (n : Nat) :
    leavesOf (lineStart nl n) = ⟨lineBreak, nl⟩ :: margin n := by
  unfold lineStart margin
  split <;> rfl

/-- The margin is as many spaces as its column says. -/
theorem join_margin (n : Nat) : Token.join (margin n) = List.replicate n ' ' := by
  unfold margin
  split <;> simp_all

/-- At the start of a text the margin is read, and a block may start behind it. -/
theorem cuts_margin (n : Nat) {t : Text} (ht : StopsAt isSpaceOrTab t) :
    Cuts {} (margin n) t ∧ BlockStart (LexState.afterAll {} (margin n)) n := by
  cases n with
  | zero => exact ⟨.nil _ t, rfl, rfl, rfl, by simp⟩
  | succ n =>
    exact ⟨.cons (reads_indent rfl n ht) (.nil _ t), rfl, rfl, rfl,
      fun _ => atLineStart_after _ (by simp) (by simp)⟩

/-- From column `n` on, the text of the tree is read as the root of a document, if the value may
stand there and what follows does not belong to it. -/
theorem reaches_block {v : Value} (hv : v.Made) {nl : Text} (hl : IsNewline nl) (n : Nat)
    (hn : n = 0 → v.BeginsLine) {t u : Text} {ys : List Token}
    (ht : t = List.replicate n ' ' ++ ((v.blockTree nl n).text ++ u)) (hu : AtLineEnd u)
    (hys : lexFrom (LexState.afterAll {} (margin n ++ (v.blockTree nl n).leaves)) u = ys)
    (hline : LineOver ys) (hout : ∀ q, Outside 0 (locate q ys)) :
    Reaches (start t) { start t with finished := (margin n).map .token }
      [⟨.document, [v.blockTree nl n]⟩] ys := by
  obtain ⟨y, xs, hy, hk⟩ := exists_first_blockTree hv nl n
  have hy' : y.kind.isTrivia = false ∧ y.kind.isMarker = false ∧ y.kind.isProperty = false := by
    rcases hk with hk | hk
    · have := TokenKind.ne_of_isStart hk
      exact ⟨this.1, this.2.2.1, this.2.1⟩
    · rw [hk]
      exact ⟨rfl, rfl, rfl⟩
  have hmargin := cuts_margin n (stopsAt_blockTree hv nl n u)
  have hread := ((cuts_block v n hv hl hn).2 _ u hmargin.2 hu).1
  -- The margin is read first, and behind it the state is one in which a block may start.
  have hlex : lex t = margin n ++ ((v.blockTree nl n).leaves ++ ys) := by
    have hcuts : Cuts {} (margin n ++ (v.blockTree nl n).leaves) u := .append hmargin.1 hread
    unfold Cuts at hcuts
    rw [Token.join_append, join_margin, List.append_assoc, List.append_assoc, hys] at hcuts
    rw [ht, lex, ← hcuts]
    rfl
  -- The margin is as wide as the indentation behind a line break.
  have hcolumn : (Position.advance {} (Token.join (margin n))).column = n := by
    have h := column_lineStart .lf n {}
    rw [textOf, leavesOf_lineStart, Token.join_cons, Position.advance_append] at h
    have hstart : (Position.advance {} ['\n']).column = ({} : Position).column := rfl
    exact (Position.column_advance_eq hstart _).symm.trans h
  refine reaches_document hlex ?_ hy hy' fun c => ?_
  · unfold margin
    split <;> simp [isTrivia]
  · exact leads_block v n hv hl c .document [] [] (Position.advance {} (Token.join (margin n))) ys
      ⟨0, none, true⟩ rfl (Nat.zero_le n) hcolumn hline hout

/-- From column `n` on, the text of the tree is a document that holds it, if the value may stand
there. -/
theorem parse_block {v : Value} (hv : v.Made) {nl : Text} (hl : IsNewline nl) (n : Nat)
    (hn : n = 0 → v.BeginsLine) : parse (List.replicate n ' ' ++ (v.blockTree nl n).text) =
      ⟨.node .stream ((margin n).map .token ++ [.node .document [v.blockTree nl n]]), []⟩ :=
  parse_of_reaches <| reaches_block hv hl n hn
    (u := []) (by simp) (.inl rfl) (by simp [lexFrom]) (by simp [LineOver])
    (by simp [Outside, locate, significant])

/-- A sequence on several lines is read as its tree. -/
theorem readSequence_block {vs : List Value} (hv : AllMade vs) (hne : vs ≠ []) {nl : Text}
    (hl : IsNewline nl) (n : Nat) :
    readSequence (List.replicate n ' ' ++ ((sequence vs).blockTree nl n).text) =
      .ok ((sequence vs).blockTree nl n) := by
  obtain ⟨v, vs, rfl⟩ := List.exists_cons_of_ne_nil hne
  exact readSequence_of_parse rfl (parse_block (v := sequence (v :: vs)) hv hl n fun _ => trivial)

end Value

end YamlPatch
