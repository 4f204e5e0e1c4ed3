import YamlPatch.Proofs.Endings
import YamlPatch.Proofs.Cuts

/-!
# Brackets and open collections

The lexer counts brackets and the parser holds a task for each collection in brackets, and
without faults the two agree : the tokens that a step takes lead from the depth of one
configuration to that of the other (`Config.Nested.levelled_step`, `Config.Leads.level_eq`). So
the context behind the tokens taken is as deep as the parser stands, which is 0 outside of flow
collections (`Config.level_of_nested`). Inside of them no block scalar is taken.

The two counts need not agree on a faulty text. A closing bracket without a collection is an
error to the parser and still counts for the lexer, and a mark between documents sets the count
of the lexer to zero while the collection is still open for the parser. So the relation between
two configurations (`Config.Levelled`) says nothing once a fault has been reported, and what is
proved about runs has the hypothesis that there are none at the end.
-/

namespace YamlPatch

open TokenKind

/-! ## Depths

The lexer changes its depth at brackets and at marks between documents. All other tokens are
quiet, block scalars being set apart because they are not taken in flow collections. -/

/-- A collection in brackets. -/
def Task.isBracketed : Task → Bool
  | .flowSequence | .flowMapping => true
  | _ => false

/-- The number of collections in brackets. -/
def level (ts : List Task) : Nat := ts.countP Task.isBracketed

/-- The depth behind tokens. -/
def depthAfterAll (n : Nat) (xs : List Token) : Nat :=
  xs.foldl (fun n x => LexState.depthAfter n x.kind) n

@[simp] theorem depthAfterAll_nil (n : Nat) : depthAfterAll n [] = n := rfl

@[simp] theorem depthAfterAll_cons (n : Nat) (x : Token) (xs : List Token) :
    depthAfterAll n (x :: xs) = depthAfterAll (LexState.depthAfter n x.kind) xs := rfl

/-- Depths are counted from one piece to the next. -/
@[simp] theorem depthAfterAll_append (n : Nat) (xs ys : List Token) :
    depthAfterAll n (xs ++ ys) = depthAfterAll (depthAfterAll n xs) ys := List.foldl_append

/-- The lexer counts in this way. -/
theorem LexState.depth_afterAll (s : LexState) (xs : List Token) :
    (s.afterAll xs).depth = depthAfterAll s.depth xs := by
  induction xs generalizing s with
  | nil => rfl
  | cons x xs ih => exact ih (s.after x)

/-- Tokens that do not change the depth, block scalars apart. -/
def TokenKind.isQuiet : TokenKind → Bool
  | leftBracket | rightBracket | leftBrace | rightBrace | documentStart | documentEnd |
    blockScalar => false
  | _ => true

/-- A quiet token leaves the depth as it is. -/
theorem depthAfter_of_isQuiet {k : TokenKind} (h : k.isQuiet = true) (n : Nat) :
    LexState.depthAfter n k = n := by
  cases k <;> first | rfl | cases h

/-- So do many of them. -/
theorem depthAfterAll_of_isQuiet {xs : List Token} (h : ∀ x ∈ xs, x.kind.isQuiet = true) (n : Nat) :
    depthAfterAll n xs = n := by
  induction xs with
  | nil => rfl
  | cons x xs ih =>
    rw [depthAfterAll_cons, depthAfter_of_isQuiet (h x (by simp)), ih fun y hy =>
      h y (by simp [hy])]

/-- The tokens that searches ahead count are quiet. -/
theorem isQuiet_of_isTrivia (k : TokenKind) (h : k.isTrivia = true) : k.isQuiet = true := by
  cases k <;> first | rfl | cases h

/-- Words are quiet. -/
theorem isQuiet_of_isPlain (k : TokenKind) (h : k.isPlain = true) : k.isQuiet = true := by
  cases k <;> first | rfl | cases h

/-- Anchors and tags are quiet. -/
theorem isQuiet_of_isProperty (k : TokenKind) (h : k.isProperty = true) : k.isQuiet = true := by
  cases k <;> first | rfl | cases h

/-- Quoted scalars are quiet. -/
theorem isQuiet_of_isQuoted (k : TokenKind) (h : k.isQuoted = true) : k.isQuiet = true := by
  cases k <;> first | rfl | cases h

/-- What is counted as a run of a kind has that kind. -/
theorem mem_take_kindRun {p : TokenKind → Bool} {ls : List Lexeme} :
    ∀ l ∈ ls.take (kindRun p ls), p l.kind = true := by
  induction ls with
  | nil => simp
  | cons l ls ih =>
    intro m hm
    by_cases hl : p l.kind = true
    · simp only [kindRun, hl, List.takeWhile_cons_of_pos, List.length_cons, List.take_succ_cons,
        List.mem_cons] at hm
      rcases hm with rfl | hm
      · exact hl
      · exact ih m hm
    · simp [kindRun, hl] at hm

/-- What is counted as properties are anchors and tags, with spaces between them. -/
theorem mem_take_propertiesLength {ls : List Lexeme} :
    ∀ l ∈ ls.take (propertiesLength ls), l.kind.isProperty = true ∨ l.kind = space := by
  cases ls with
  | nil => simp
  | cons l ls =>
    intro m hm
    by_cases hl : l.kind.isProperty = true
    · simp only [propertiesLength, hl, if_true, List.take_succ_cons, List.mem_cons] at hm
      rcases hm with rfl | hm
      · exact .inl hl
      · simpa using mem_take_kindRun m hm
    · simp [propertiesLength, hl] at hm

/-- What is counted as a plain scalar are words, with spaces between them. -/
theorem mem_take_plainLength {ls : List Lexeme} :
    ∀ l ∈ ls.take (plainLength ls), l.kind.isPlain = true ∨ l.kind = space := by
  induction ls with
  | nil => simp
  | cons l ls ih =>
    intro m hm
    by_cases hl : (l.kind.isPlain || (l.kind == space && plainAhead ls)) = true
    · simp only [plainLength, hl, if_true, List.take_succ_cons, List.mem_cons] at hm
      rcases hm with rfl | hm
      · simp only [Bool.or_eq_true, Bool.and_eq_true, beq_iff_eq] at hl
        exact hl.imp_right And.left
      · exact ih m hm
    · simp [plainLength, hl] at hm

theorem isQuiet_of_mem_take_plainLength {ls : List Lexeme} :
    ∀ l ∈ ls.take (plainLength ls), l.kind.isQuiet = true := by
  intro l hl
  rcases mem_take_plainLength l hl with h | h
  · exact isQuiet_of_isPlain _ h
  · rw [h]
    rfl

/-- What is counted as a key are words, or a quoted scalar. -/
theorem kind_of_mem_take_keyLength {ls : List Lexeme} : ∀ l ∈ ls.take (keyLength ls),
    l.kind.isQuoted = true ∨ l.kind.isPlain = true ∨ l.kind = space := by
  cases ls with
  | nil => simp
  | cons l ls =>
    intro m hm
    by_cases hq : l.kind.isQuoted = true
    · obtain rfl : m = l := by simpa [keyLength, hq] using hm
      exact .inl hq
    · by_cases hp : l.kind.isPlain = true
      · simp only [keyLength, hq, hp, Bool.false_eq_true, if_false, if_true] at hm
        exact .inr (mem_take_plainLength m hm)
      · simp [keyLength, hq, hp] at hm

/-- So the tokens of a key are quiet. -/
theorem mem_take_keyLength {ls : List Lexeme} :
    ∀ l ∈ ls.take (keyLength ls), l.kind.isQuiet = true := by
  intro l hl
  rcases kind_of_mem_take_keyLength l hl with h | h | h
  · exact isQuiet_of_isQuoted _ h
  · exact isQuiet_of_isPlain _ h
  · rw [h]
    rfl

open YamlPatch.Task

namespace Config

/-- Outside of flow collections the level is 0. -/
theorem level_of_nested {t : Task} {ts : List Task} (h : nested (t :: ts) = true)
    (ht : t.isFlow = false) : level (t :: ts) = 0 := by
  induction ts generalizing t with
  | nil =>
    obtain rfl : t = .document := by simpa [nested] using h
    rfl
  | cons u ts ih =>
    have hn : t.isBracketed = false := by
      cases t <;> first | rfl | exact absurd ht.symm Bool.false_ne_true
    have hu : u.holds t = true ∧ nested (u :: ts) = true := by simpa [nested] using h
    have hf : u.isFlow = false := by
      cases t <;> cases u <;> first
        | rfl
        | exact absurd ht.symm Bool.false_ne_true
        | exact absurd hu.1 Bool.false_ne_true
    have := ih hu.2 hf
    simpa [level, hn] using this

/-! ## Moves

A move that takes quiet tokens keeps the depth, and with it the level as long as no bracketed
task is opened or closed. -/

/-- The tokens taken from one configuration to the other lead from level to level. If `flow` holds
there is no block scalar among them. -/
def Levelled (flow : Prop) (c d : Config) : Prop :=
  d.faults ≠ [] ∨ ∃ xs, c.rest.map Lexeme.token = xs ++ d.rest.map Lexeme.token ∧
    depthAfterAll (level c.tasks) xs = level d.tasks ∧ (flow → ∀ x ∈ xs, x.kind ≠ blockScalar)

namespace Levelled

variable {flow : Prop} {c d e : Config} {n : Nat} {t : Task} {ts : List Task}

/-- No tokens lead from a level to itself. -/
theorem refl (flow : Prop) (c : Config) : Levelled flow c c := .inr ⟨[], rfl, rfl, by simp⟩

/-- Where a problem is reported nothing more is claimed. -/
theorem of_report (p : Problem) : Levelled flow c (d.report p) := .inl (by simp [Config.report])

/-- A move that takes no token and leaves the level as it is. -/
theorem same (h : Levelled flow c d) (hf : d.faults <+: e.faults) (hr : e.rest = d.rest)
    (hl : level e.tasks = level d.tasks) : Levelled flow c e := by
  rcases h with h | ⟨xs, hxs, hd, hb⟩
  · exact .inl fun h0 => h (List.prefix_nil.mp (h0 ▸ hf))
  · exact .inr ⟨xs, by rw [hr, hxs], by rw [hl, hd], hb⟩

/-- A move that takes `n` tokens. -/
theorem taken (h : Levelled flow c d) (hf : d.faults <+: e.faults) (hr : e.rest = d.rest.drop n)
    (hl : depthAfterAll (level d.tasks) ((d.rest.take n).map Lexeme.token) = level e.tasks)
    (hb : flow → ∀ l ∈ d.rest.take n, l.kind ≠ blockScalar) : Levelled flow c e := by
  rcases h with h | ⟨xs, hxs, hd, hb'⟩
  · exact .inl fun h0 => h (List.prefix_nil.mp (h0 ▸ hf))
  · refine .inr ⟨xs ++ (d.rest.take n).map Lexeme.token, ?_, ?_, fun hf x hx => ?_⟩
    · rw [hr, List.append_assoc, ← List.map_append, List.take_append_drop, hxs]
    · rw [depthAfterAll_append, hd, hl]
    · rcases List.mem_append.mp hx with hx | hx
      · exact hb' hf x hx
      · obtain ⟨l, hl, rfl⟩ := List.mem_map.mp hx
        exact hb hf l hl

/-- A block scalar is not counted as quiet, though it leaves the depth as it is. -/
theorem ne_blockScalar_of_isQuiet {k : TokenKind} (h : k.isQuiet = true) : k ≠ blockScalar := by
  rintro rfl
  cases h

/-- Quiet tokens ahead leave the depth as it is. -/
theorem quiet {ls : List Lexeme} (hq : ∀ l ∈ ls, l.kind.isQuiet = true) (n : Nat) :
    depthAfterAll n (ls.map Lexeme.token) = n :=
  depthAfterAll_of_isQuiet (by
    intro x hx
    obtain ⟨l, hl, rfl⟩ := List.mem_map.mp hx
    exact hq l hl) n

/-- Quiet tokens may be taken. -/
theorem take (h : Levelled flow c d) (hq : ∀ l ∈ d.rest.take n, l.kind.isQuiet = true) :
    Levelled flow c (d.take n) :=
  h.taken (n := n) (by simp) (by simp) (by rw [quiet hq, tasks_take])
    fun _ l hl => ne_blockScalar_of_isQuiet (hq l hl)

/-- They may also be put into a node. -/
theorem wrap (h : Levelled flow c d) {k : NodeKind}
    (hq : ∀ l ∈ d.rest.take n, l.kind.isQuiet = true) : Levelled flow c (d.wrap k n) :=
  h.taken (n := n) (by simp) (by simp) (by rw [quiet hq, tasks_wrap])
    fun _ l hl => ne_blockScalar_of_isQuiet (hq l hl)

/-- A run of a quiet kind may be taken. -/
theorem takeRun (h : Levelled flow c d) {p : TokenKind → Bool}
    (hp : ∀ k, p k = true → k.isQuiet = true) : Levelled flow c (d.take (kindRun p d.rest)) :=
  h.take fun l hl => hp _ (mem_take_kindRun l hl)

theorem takeTrivia (h : Levelled flow c d) : Levelled flow c d.takeTrivia :=
  h.takeRun isQuiet_of_isTrivia

theorem takeSpaces (h : Levelled flow c d) : Levelled flow c d.takeSpaces :=
  h.takeRun fun k hk => by
    obtain rfl : k = space := by simpa using hk
    rfl

theorem takeProperties (h : Levelled flow c d) :
    Levelled flow c (d.take (propertiesLength d.rest)) :=
  h.take fun l hl => by
    rcases mem_take_propertiesLength l hl with h | h
    · exact isQuiet_of_isProperty _ h
    · rw [h]
      rfl

theorem takePlain (h : Levelled flow c d) : Levelled flow c (d.take (plainLength d.rest)) :=
  h.take isQuiet_of_mem_take_plainLength

/-- A node without brackets may be opened. -/
theorem push (h : Levelled flow c d) (ht : t.isBracketed = false) : Levelled flow c (d.push t) :=
  h.same (List.prefix_refl _) rfl (by simp [level, ht])

/-- A node without brackets may be closed. -/
theorem close (h : Levelled flow c d) (hd : d.tasks = t :: ts) (ht : t.isBracketed = false) :
    Levelled flow c d.close :=
  h.same (by simp) (by simp) (by simp [level, hd, ht])

/-- A place may be left to be filled. -/
theorem await (h : Levelled flow c d) (s : Slot) : Levelled flow c (d.await s) :=
  h.same (List.prefix_refl _) rfl rfl

/-- A quiet token may be taken. -/
theorem takeOne (h : Levelled flow c d) {k : TokenKind} (hk : d.kind? = some k)
    (hq : k.isQuiet = true) : Levelled flow c (d.take 1) := by
  obtain ⟨l, ls, hr, rfl⟩ := exists_rest hk
  exact h.take fun m hm => by
    obtain rfl : m = l := by simpa [hr] using hm
    exact hq

theorem wrapOne (h : Levelled flow c d) {k : TokenKind} (hk : d.kind? = some k)
    (hq : k.isQuiet = true) : Levelled flow c (d.wrap .scalar 1) := by
  obtain ⟨l, ls, hr, rfl⟩ := exists_rest hk
  exact h.wrap fun m hm => by
    obtain rfl : m = l := by simpa [hr] using hm
    exact hq

/-- A bracket opens a collection. -/
theorem openFlow (h : Levelled flow c d) (ht : t.isBracketed = true) {k : TokenKind}
    (hk : d.kind? = some k) (hb : k = leftBracket ∨ k = leftBrace) :
    Levelled flow c ((d.push t).take 1) := by
  obtain ⟨l, ls, hr, rfl⟩ := exists_rest hk
  refine h.taken (n := 1) (by simp) (by simp) ?_ ?_
  · have hk' : l.token.kind = l.kind := rfl
    rcases hb with hb | hb <;> simp [hr, hk', hb, LexState.depthAfter, level, ht]
  · intro _ m hm
    obtain rfl : m = l := by simpa [hr] using hm
    rcases hb with hb | hb <;> simp [hb]

/-- A bracket closes a collection. -/
theorem closeFlow (h : Levelled flow c d) (hd : d.tasks = t :: ts) (ht : t.isBracketed = true)
    {k : TokenKind} (hk : d.kind? = some k) (hb : k = rightBracket ∨ k = rightBrace) :
    Levelled flow c (d.take 1).close := by
  obtain ⟨l, ls, hr, rfl⟩ := exists_rest hk
  refine h.taken (n := 1) (by simp) (by simp) ?_ ?_
  · have hk' : l.token.kind = l.kind := rfl
    rcases hb with hb | hb <;> simp [hr, hk', hb, LexState.depthAfter, level, hd, ht]
  · intro _ m hm
    obtain rfl : m = l := by simpa [hr] using hm
    rcases hb with hb | hb <;> simp [hb]

/-- The lines between documents stand outside of collections. -/
theorem takeMarker (h : Levelled flow c d) (hd : level d.tasks = 0) {k : TokenKind}
    (hk : d.kind? = some k) (hm : k.isMarker = true) : Levelled flow c (d.take 1) := by
  obtain ⟨l, ls, hr, rfl⟩ := exists_rest hk
  refine h.taken (n := 1) (by simp) (by simp) ?_ ?_
  · have hk' : l.token.kind = l.kind := rfl
    have : LexState.depthAfter 0 l.kind = 0 := by
      revert hm
      cases l.kind <;> simp [isMarker, LexState.depthAfter]
    simp [hr, hk', hd, this]
  · intro _ m hm'
    obtain rfl : m = l := by simpa [hr] using hm'
    intro hb
    rw [hb] at hm
    cases hm

/-! ## Parts of steps

These take several tokens at once. What they report ends the comparison. -/

/-- Whatever is reported as an error may be taken, brackets included. -/
theorem errorLine (p : Problem) : Levelled flow c (d.errorLine p) :=
  .inl (by simp [Config.errorLine, Config.report])

theorem errorToken (p : Problem) : Levelled flow c (d.errorToken p) :=
  .inl (by simp [Config.errorToken, Config.report])

/-- The rest of a line is a comment at most, or it is reported. -/
theorem finishLine (h : Levelled flow c d) : Levelled flow c d.finishLine := by
  have ht := h.takeRun (p := fun k => k == space || k == comment) fun k hk => by
    rcases (by simpa using hk : k = space ∨ k = comment) with rfl | rfl <;> rfl
  dsimp only [Config.finishLine]
  split
  · exact ht
  · exact ht
  · exact errorLine _

/-- The indicator of an item is quiet. -/
theorem openItem (h : Levelled flow c d) {k : TokenKind} (hk : d.kind? = some k)
    (hd : k = dash) (column : Nat) : Levelled flow c (d.openItem column) :=
  (((h.push rfl).takeOne (k := k) hk (by rw [hd]; rfl)).takeSpaces).await _

/-- A key is quiet. -/
theorem takeKey (h : Levelled flow c d) : Levelled flow c d.takeKey := by
  have hp := ((h.push (t := .key) rfl).takeProperties)
  dsimp only [Config.takeKey]
  split
  · exact hp.close (show _ = Task.key :: d.tasks by simp) rfl
  · exact (hp.wrap mem_take_keyLength).close (show _ = Task.key :: d.tasks by simp) rfl

theorem takeColon (h : Levelled flow c d) : Levelled flow c d.takeColon := by
  unfold Config.takeColon
  split
  · exact h.takeOne ‹_› rfl
  · exact of_report _

/-- So is all that an entry begins with, up to the place for its value. -/
theorem openEntry (h : Levelled flow c d) (column : Nat) : Levelled flow c (d.openEntry column) :=
  (((h.push rfl).takeKey.takeSpaces.takeColon.takeSpaces).push rfl).await _

/-- A comma is quiet, and what should not be there is reported. -/
theorem takeComma (h : Levelled flow c d) (closer : TokenKind) (p : Problem) :
    Levelled flow c (d.takeComma closer p) := by
  unfold Config.takeComma
  split
  · exact h
  · rename_i k hk
    split
    · rename_i hc
      exact h.takeOne hk (by rw [hc]; rfl)
    · split
      · exact h
      · exact errorToken _

/-! ## What fills a place

In block style that may be a block scalar, and in a flow collection there is none. -/

/-- Only in block style a block scalar fills a place. -/
theorem fillsIn {p : Option Slot} (h : Levelled flow c d) (hp : p.isSome = true → ¬flow)
    (hf : FillsIn p d e) : Levelled flow c e := by
  -- A bracket opens a level, and all else that fills a place is quiet. A block scalar is excluded
  -- in flow collections.
  cases hf with
  | nothing => exact h
  | later => exact h.takeTrivia.await _
  | sequence hr _ hk => exact (h.push (t := .sequence _) rfl).openItem (kind?_of_rest hr) hk _
  | mapping => exact (h.push rfl).openEntry _
  | @collection _ _ t _ hk ht =>
    cases t with
    | flowSequence => exact h.openFlow rfl hk (.inl (Option.some.inj ht).symm)
    | flowMapping => exact h.openFlow rfl hk (.inr (Option.some.inj ht).symm)
    | _ => cases ht
  | plain => exact (h.push rfl).takePlain
  | words => exact h.wrap isQuiet_of_mem_take_plainLength
  | @scalar _ _ k hk hq =>
    refine h.wrapOne hk ?_
    rcases hq with hq | rfl
    · exact isQuiet_of_isQuoted k hq
    · rfl
  | block hk =>
    obtain ⟨l, ls, hr, hl⟩ := exists_rest hk
    refine h.taken (n := 1) (by simp) (by simp) ?_ fun hflow => absurd hflow (hp rfl)
    have hk' : l.token.kind = l.kind := rfl
    simp [hr, hk', hl, LexState.depthAfter]
  | unterminated => exact .inl (by simp [report])
  | strayLine => exact errorLine _
  | strayToken => exact errorToken _

/-! ## Steps -/

/-- No bracket is taken on the way to a place. The colon of a flow entry is quiet. -/
theorem opens {p : Option Slot} (h : Opens p c d) : Levelled flow c d := by
  have hc := refl flow c
  cases h with
  | slot => exact hc.same (List.prefix_refl _) rfl rfl
  | document => exact hc.takeTrivia.push rfl
  | marked hs ht hl hk =>
    refine ((hc.takeTrivia.push (t := .document) rfl).takeMarker ?_ (kind?_takeTrivia hl)
      (by rw [hk]; rfl)).takeSpaces
    simp [ht, level, isBracketed]
  | flowItem => exact hc.takeTrivia.push rfl
  | flowEntry => exact (hc.takeTrivia.push rfl).push rfl
  | flowValue hs ht hk => exact (((hc.close ht rfl).takeTrivia.takeOne hk rfl).takeTrivia).push rfl

/-- A collection in brackets is closed by its bracket, or it is reported; other nodes take no
bracket. -/
theorem closes (ht : c.tasks = t :: ts) (hn : nested (t :: ts) = true) (h : Closes t c d) :
    Levelled flow c d := by
  have hc := refl flow c
  cases h with
  | node hk => exact hc.close ht (by rcases hk with rfl | rfl | rfl | ⟨n, rfl⟩ <;> rfl)
  | mapping => exact hc.close ht rfl
  | sequence => exact hc.close ht rfl
  | document => exact hc.takeTrivia.close (by simpa using ht) rfl
  | documentEnd hl hk =>
    have hlevel : level c.takeTrivia.tasks = 0 := by simpa [ht] using level_of_nested hn rfl
    exact (hc.takeTrivia.takeMarker hlevel (kind?_takeTrivia hl) (by rw [hk]; rfl)).finishLine.close
      (by simpa using ht) rfl
  | line hk => exact hc.finishLine.close (by simpa using ht) (by rcases hk with rfl | rfl <;> rfl)
  | bracket hk hcl =>
    exact hc.takeTrivia.closeFlow (by simpa using ht) (by cases t <;> first | rfl | cases hcl) hk
      (closer?_eq hcl)
  | unclosed => exact .inl (by simp [report])
  | key => exact (hc.close ht rfl).takeTrivia
  | part hk => exact (hc.close ht (by rcases hk with rfl | rfl <;> rfl)).takeTrivia.takeComma _ _

/-- Where a block scalar may be taken there is a place in block style. -/
theorem acts (hn : nested c.tasks = true) (hflow : flow → c.slot = none ∧ c.tasks ≠ [])
    (h : Acts c d) : Levelled flow c d := by
  have hc := refl flow c
  cases h with
  | @fill p _ _ _ ho hf =>
    refine (opens ho).takeProperties.fillsIn (fun hp h => ?_) hf
    obtain ⟨hs, ht⟩ := hflow h
    cases ho <;> simp_all
  | marker hs ht hl hk =>
    exact hc.takeTrivia.takeMarker (by simp [ht, level]) (kind?_takeTrivia hl)
      (by rcases hk with hk | hk <;> rw [hk] <;> rfl)
  | stray => exact errorLine _
  | entry => exact hc.takeTrivia.openEntry _
  | item hs ht hl _ hk => exact hc.takeTrivia.openItem (kind?_takeTrivia hl) hk _
  | plain hs ht hn =>
    obtain ⟨rfl, -⟩ := of_continuation hn
    exact (hc.takeRun fun k hk => by cases k <;> first | rfl | cases hk).takePlain
  | close hs ht h => exact closes ht (ht ▸ hn) h

end Levelled

/-- Every step leads from level to level. -/
theorem Nested.levelled_step {c d : Config} (h : Nested c) (hd : c.step = some d) :
    Levelled (level c.tasks ≠ 0) c d := by
  refine Levelled.acts h.tasks (fun hlevel => ⟨?_, ?_⟩) (acts_of_step hd)
  · by_contra hs
    obtain ⟨s, hs⟩ := Option.ne_none_iff_exists'.mp hs
    obtain ⟨t, ts, ht, hp⟩ := h.place s hs
    have hf : t.isFlow = false := by cases t <;> first | rfl | exact absurd hp Bool.false_ne_true
    exact hlevel (ht ▸ level_of_nested (ht ▸ h.tasks) hf)
  · intro ht
    exact hlevel (by rw [ht]; rfl)

/-- So does every run. -/
theorem Leads.level_eq {c d : Config} (h : Leads c d) (hc : Nested c) (hd : d.faults = []) :
    ∃ xs, c.rest.map Lexeme.token = xs ++ d.rest.map Lexeme.token ∧
      depthAfterAll (level c.tasks) xs = level d.tasks := by
  obtain ⟨n, hn⟩ := h
  induction hn with
  | refl => exact ⟨[], rfl, rfl⟩
  | cons hstep hs ih =>
    obtain ⟨ys, hys, hl⟩ := ih (hc.step hstep) hd
    have hf := Leads.faultless ⟨_, hs⟩ hd
    obtain ⟨xs, hxs, hl', -⟩ := (hc.levelled_step hstep).resolve_left (by simp [hf])
    exact ⟨xs ++ ys, by rw [hxs, hys, List.append_assoc], by rw [depthAfterAll_append, hl', hl]⟩

/-! ## Leaving flow collections

The last token of a flow collection is its bracket, if nothing is reported. Behind it the lexer
is where it was before the collection. -/

/-- In a flow collection no place is left to be filled in block style. -/
theorem slot_stepTask_of_isFlow {c : Config} {t : Task} {ts : List Task} (hs : c.slot = none)
    (h : c.tasks = t :: ts) (ht : t.isFlow = true) : (c.stepTask t).slot = none := by
  have hhead {u : Task} {us : List Task} (hu : c.tasks = u :: us) : u = t :=
    (List.cons.inj (hu.symm.trans h)).1
  generalize hd : c.stepTask t = d
  cases hd ▸ acts_stepTask hs h with
  | fill ho hf =>
    cases ho with
    | slot hs' => simp [hs] at hs'
    | document _ ht' => simp [h] at ht'
    | marked _ ht' => simp [h] at ht'
    | _ => simp [hf.slot_eq, hs]
  | entry _ ht' => cases hhead ht' ▸ ht
  | item _ ht' => cases hhead ht' ▸ ht
  | close _ _ hc => rw [hc.slot_eq, hs]
  | _ => simp [hs]

/-- The step that leaves a collection takes the bracket that closes it. -/
theorem exists_closer {c : Config} {t : Task} {ts : List Task} (hs : c.slot = none)
    (h : c.tasks = t :: ts) (ht : t.isBracketed = true) (hd : (c.stepTask t).tasks = ts)
    (hf : (c.stepTask t).faults = []) :
    ∃ xs y, c.rest.map Lexeme.token = xs ++ y :: (c.stepTask t).rest.map Lexeme.token ∧
      (y.kind = rightBracket ∨ y.kind = rightBrace) := by
  generalize hstep : c.stepTask t = d at hd hf ⊢
  obtain ⟨u, us, hu, hc⟩ := (hstep ▸ acts_stepTask hs h : Acts c d).exists_closes (by simp [hd, h])
  obtain ⟨rfl, -⟩ := List.cons.inj (h.symm.trans hu)
  cases hc with
  | bracket hk hcl =>
    obtain ⟨l, ls, hl, rfl⟩ := exists_rest hk
    refine ⟨(c.rest.take (triviaLength c.rest)).map Lexeme.token, l.token, ?_, closer?_eq hcl⟩
    have hr : c.rest.drop (triviaLength c.rest) = l :: ls := by simpa [takeTrivia] using hl
    simp only [rest_close, rest_take, hl, List.drop_succ_cons, List.drop_zero]
    rw [← List.map_cons, ← List.map_append, ← hr, List.take_append_drop]
  | unclosed => simp [report] at hf
  | node hk => rcases hk with rfl | rfl | rfl | ⟨n, rfl⟩ <;> cases ht
  | line hk => rcases hk with rfl | rfl <;> cases ht
  | part hk => rcases hk with rfl | rfl <;> cases ht
  | _ => cases ht

/-- The outermost of the flow nodes has a bracket. -/
theorem isBracketed_of_outermost (hn : nested (t :: ts) = true) (ht : t.isFlow = true)
    (hts : ∀ u us, ts = u :: us → u.isFlow = false) : t.isBracketed = true := by
  cases ts with
  | nil =>
    obtain rfl : t = .document := by simpa [nested] using hn
    cases ht
  | cons u us =>
    have hu := hts u us rfl
    have hold : u.holds t = true := by
      simp only [nested, Bool.and_eq_true] at hn
      exact hn.1
    revert hold hu ht
    cases t <;> cases u <;> simp [isFlow, holds, isPlace, isBracketed]

/-- Runs that agree on the tokens leave a flow collection together. They take no block scalar, and
the bracket that closes it last. -/
theorem Twins.leave_flow {b : Base} {ts : List Task} {c c' : Config} (hb : b.tail = [])
    (hblock : ∀ u us, b.tasks = u :: us → u.isFlow = false) (hn : Nested c) (h : Twins b ts c c')
    (hts : ts.all Task.isFlow = true) (hs : c.slot = none) (hrun : c.run.faults = []) :
    ∃ d d' xs, Leads c d ∧ Leads c' d' ∧ Twins b [] d d' ∧ d.slot = none ∧
      c.rest.map Lexeme.token = xs ++ d.rest.map Lexeme.token ∧ (∀ x ∈ xs, x.kind ≠ blockScalar) ∧
      (ts ≠ [] → ∃ ys y, xs = ys ++ [y] ∧ (y.kind = rightBracket ∨ y.kind = rightBrace)) := by
  generalize hm : c.measure = n
  -- By induction on the measure. Each step keeps the runs twins, as long as tokens are left and
  -- no fault is reported.
  induction n using Nat.strongRecOn generalizing c c' ts with
  | _ n ih =>
    cases ts with
    | nil => exact ⟨c, c', [], .refl c, .refl c', h, hs, rfl, by simp, by simp⟩
    | cons t ts =>
      simp only [List.all_cons, Bool.and_eq_true] at hts
      have hd := step_of_tasks hs h.tasks
      have hd' := step_of_tasks (h.slot.trans hs) h.tasks'
      obtain ⟨us, hus, hp⟩ := h.par.stepTask_of_isFlow hts.1
      have hrun' : (c.stepTask t).run.faults = [] := by rw [← run_of_step hd]; exact hrun
      have hf : (c.stepTask t).faults = [] := (Leads.to_run _).faultless hrun'
      have hlost : ¬ Lost b (c.stepTask t) := by
        rintro (h0 | h0)
        · exact h0 hf
        · simp [hb] at h0
      have hp := hp.resolve_left hlost
      have hes : (c.stepTask t).slot = none := slot_stepTask_of_isFlow hs h.tasks hts.1
      have hlevelled : Levelled True c (c.stepTask t) :=
        .acts hn.tasks (fun _ => ⟨hs, by simp [h.tasks]⟩) (acts_stepTask hs h.tasks)
      obtain ⟨xs, hxs, -, hxs'⟩ := hlevelled.resolve_left (by simp [hf])
      -- The step that leaves no flow node takes the closing bracket. Before it other nodes are
      -- left, and the induction goes on with them.
      by_cases hleft : us ++ ts = []
      · obtain ⟨rfl, rfl⟩ := List.append_eq_nil_iff.mp hleft
        have htasks : c.tasks = t :: b.tasks := h.tasks
        have ht : t.isBracketed = true := isBracketed_of_outermost (htasks ▸ hn.tasks) hts.1 hblock
        obtain ⟨ys, y, hys, hy⟩ := exists_closer hs htasks ht hp.tasks hf
        refine ⟨_, _, xs, .of_step hd, .of_step hd', hp, hes, hxs, hxs' trivial, fun _ =>
          ⟨ys, y, ?_, hy⟩⟩
        rw [hxs, List.append_cons] at hys
        exact List.append_cancel_right hys
      · obtain ⟨e, e', ys, hl, hl', he, hes, hys, hys', hclose⟩ := ih _ (hm ▸ measure_step hd)
          (hn.step hd) hp (by simp [hus, hts.2]) hes hrun' rfl
        obtain ⟨zs, z, rfl, hz⟩ := hclose hleft
        refine ⟨e, e', xs ++ (zs ++ [z]), .head hd hl, .head hd' hl', he, hes, ?_, fun x hx => ?_,
          fun _ => ⟨xs ++ zs, z, by simp, hz⟩⟩
        · rw [hxs, hys]
          simp only [List.append_assoc]
        · exact (List.mem_append.mp hx).elim (hxs' trivial x) (hys' x)

end Config

end YamlPatch
