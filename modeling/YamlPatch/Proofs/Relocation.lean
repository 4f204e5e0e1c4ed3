import YamlPatch.Proofs.Lookalike
import YamlPatch.Proofs.Run

/-!
# Runs further down a text

The parser does not look back at the trees that are finished, and of the place of a token it
looks at the column only. So it does the same with a line and what follows wherever that line
stands. `Config.down` moves a configuration down, behind other trees and other faults; a step
from the configuration that was moved is the step, moved (`Config.step_down`), and so it is with
whole runs (`Config.run_down`).

The map commutes with every function of the parser. There is one equation for each, from left to
right as `simp` uses it, and each is proved from those for the functions that it calls. Only two
facts about places enter : columns are kept, because the text is moved to the start of a line,
and the questions about what lies ahead do not depend on the places at all.
-/

namespace YamlPatch

open TokenKind

/-! ## Places further down

Lines are added and columns are kept. -/

/-- The place that lies to the line that starts at `p` as `q` lies to the start of the text. -/
def Position.down (p q : Position) : Position := ⟨p.offset + q.offset, p.line + q.line, q.column⟩

/-- Moving a place down and reading on can be done in either order. -/
theorem Position.step_down (p q : Position) (c : Char) : (p.down q).step c = p.down (q.step c) := by
  simp only [down, step, mk.injEq, Nat.add_assoc, true_and, and_true]
  split <;> rfl

/-- So it is with a whole text. -/
theorem Position.advance_down (p q : Position) (t : Text) :
    (p.down q).advance t = p.down (q.advance t) := by
  induction t generalizing q with
  | nil => rfl
  | cons c t ih =>
    calc (p.down q).advance (c :: t) = ((p.down q).step c).advance t := rfl
      _ = p.down ((q.step c).advance t) := by rw [step_down, ih]

/-- The start of the text is moved to the start of the line. -/
theorem Position.down_start {p : Position} (h : p.column = 0) : p.down {} = p := by
  obtain ⟨offset, line, column⟩ := p
  obtain rfl : column = 0 := h
  rfl

namespace Lexeme

/-- A token further down : the same token at another place. -/
def down (p : Position) (l : Lexeme) : Lexeme := ⟨l.token, p.down l.start⟩

@[simp] theorem kind_down (p : Position) (l : Lexeme) : (l.down p).kind = l.kind := rfl

@[simp] theorem column_down (p : Position) (l : Lexeme) : (l.down p).column = l.column := rfl

/-- The tokens of a text that has been moved down are its tokens, moved. -/
theorem locate_down (p q : Position) (xs : List Token) :
    locate (p.down q) xs = (locate q xs).map (down p) := by
  induction xs generalizing q with
  | nil => rfl
  | cons x xs ih => simp [locate, down, Position.advance_down, ih]

end Lexeme

/-- A fault further down. -/
def Fault.down (p : Position) (f : Fault) : Fault := { f with start := p.down f.start }

/-- To all questions of the parser, tokens further down look the same. -/
theorem alike_down (p : Position) (ls : List Lexeme) :
    Alike True [] [] ls (ls.map (Lexeme.down p)) := by
  induction ls with
  | nil => exact .nil rfl rfl
  | cons l ls ih => exact .cons rfl (fun _ => .inl rfl) ih

/-! ## Configurations further down

The nodes under construction are the same in both, and so is the place that waits to be filled. -/

/-- What comes before the line that a configuration is moved to : its place, and the trees and
the faults of the lines above. -/
structure Above where
  place : Position
  trees : List Tree
  faults : List Fault

namespace Config

variable (a : Above) (c : Config)

/-- The configuration behind what is above. -/
def down : Config where
  finished := a.trees ++ c.finished
  frames := c.frames
  slot := c.slot
  rest := c.rest.map (Lexeme.down a.place)
  faults := a.faults ++ c.faults.map (Fault.down a.place)
  finish := a.place.down c.finish

/-! ## Moves

The functions of the parser commute with `Config.down`. The equations bring it to the outside. -/

@[simp] theorem rest_down : (c.down a).rest = c.rest.map (Lexeme.down a.place) := rfl

@[simp] theorem kind?_down : (c.down a).kind? = c.kind? := (alike_down a.place c.rest).head?_eq

/-- The tokens that count are the same, moved down. -/
theorem significant_down :
    significant (c.down a).rest = (significant c.rest).map (Lexeme.down a.place) := by
  simp [significant, List.dropWhile_map, Function.comp_def]

@[simp] theorem add_down (ts : List Tree) : (c.down a).add ts = (c.add ts).down a := by
  cases hc : c.frames with
  | nil => simp [add, down, hc]
  | cons f fs => simp [add, down, hc]

/-- The trees made of the next tokens do not hold their places. -/
theorem ahead_down (n : Nat) : (c.down a).ahead n = c.ahead n := by
  simp [ahead, ← List.map_take, Function.comp_def, Lexeme.down]

/-- Taking away tokens can be done before moving down or after it. -/
theorem withRest_down (ls : List Lexeme) :
    ({ c.down a with rest := ls.map (Lexeme.down a.place) } : Config) =
      ({ c with rest := ls } : Config).down a := rfl

@[simp] theorem take_down (n : Nat) : (c.down a).take n = (c.take n).down a := by
  unfold take
  rw [ahead_down, add_down, rest_down, ← List.map_drop, withRest_down]

@[simp] theorem wrap_down (k : NodeKind) (n : Nat) : (c.down a).wrap k n = (c.wrap k n).down a := by
  unfold wrap
  rw [ahead_down, add_down, rest_down, ← List.map_drop, withRest_down]

@[simp] theorem takeTrivia_down : (c.down a).takeTrivia = c.takeTrivia.down a := by
  rw [takeTrivia, rest_down, (alike_down _ _).triviaLength_eq, take_down, takeTrivia]

@[simp] theorem takeSpaces_down : (c.down a).takeSpaces = c.takeSpaces.down a := by
  rw [takeSpaces, rest_down, (alike_down _ _).spacesLength_eq, take_down, takeSpaces]

@[simp] theorem push_down (t : Task) : (c.down a).push t = (c.push t).down a := rfl

@[simp] theorem close_down : (c.down a).close = c.close.down a := by
  cases hc : c.frames with
  | nil => simp [close, down, hc]
  | cons f fs =>
    have hclose (d : Config) (hd : d.frames = f :: fs) :
        d.close = ({ d with frames := fs } : Config).add [f.tree] := by
      simp [close, hd]
    rw [hclose c hc, hclose (c.down a) hc]
    exact add_down a { c with frames := fs } [f.tree]

@[simp] theorem await_down (s : Slot) : (c.down a).await s = (c.await s).down a := rfl

@[simp] theorem report_down (p : Problem) : (c.down a).report p = (c.report p).down a := by
  cases hc : c.rest with
  | nil => simp [report, down, hc, Fault.down]
  | cons l ls => simp [report, down, hc, Fault.down, Lexeme.down]

@[simp] theorem errorLine_down (p : Problem) : (c.down a).errorLine p = (c.errorLine p).down a := by
  have hlength : restOfLineLength (c.down a).rest = restOfLineLength c.rest := by
    simp [restOfLineLength, kindRun, List.takeWhile_map, Function.comp_def]
  rw [errorLine, hlength, report_down, wrap_down, errorLine]

@[simp] theorem errorToken_down (p : Problem) :
    (c.down a).errorToken p = (c.errorToken p).down a := by
  rw [errorToken, report_down, wrap_down, errorToken]

@[simp] theorem finishLine_down : (c.down a).finishLine = c.finishLine.down a := by
  dsimp only [finishLine]
  rw [rest_down, (alike_down _ _).lineEndLength_eq, take_down, kind?_down]
  split
  · rfl
  · rfl
  · exact errorLine_down a _ _

@[simp] theorem openItem_down (column : Nat) :
    (c.down a).openItem column = (c.openItem column).down a := by
  simp [openItem]

@[simp] theorem takeProperties_down : (c.down a).take (propertiesLength (c.down a).rest) =
    (c.take (propertiesLength c.rest)).down a := by
  rw [rest_down, (alike_down _ _).propertiesLength_eq, take_down]

@[simp] theorem takePlain_down : (c.down a).take (plainLength (c.down a).rest) =
    (c.take (plainLength c.rest)).down a := by
  rw [rest_down, (alike_down _ _).plainLength_eq, take_down]

@[simp] theorem takeKey_down : (c.down a).takeKey = c.takeKey.down a := by
  have hkey := takeProperties_down a (c.push .key)
  rw [rest_down, rest_push] at hkey
  dsimp only [takeKey]
  rw [push_down, rest_down, hkey, rest_down, (alike_down _ _).keyLength_eq]
  split
  · exact close_down a _
  · rw [wrap_down, close_down]

@[simp] theorem takeColon_down : (c.down a).takeColon = c.takeColon.down a := by
  unfold takeColon
  rw [kind?_down]
  split <;> simp

@[simp] theorem openEntry_down (column : Nat) :
    (c.down a).openEntry column = (c.openEntry column).down a := by
  simp [openEntry]

@[simp] theorem takeInline_down (column : Nat) (k : TokenKind) :
    (c.down a).takeInline column k = (c.takeInline column k).down a := by
  unfold takeInline
  split <;> try split
  all_goals simp [(alike_down _ _).plainLength_eq]

@[simp] theorem fillContent_down (s : Slot) :
    (c.down a).fillContent s = (c.fillContent s).down a := by
  have hlater := (alike_down a.place c.rest).laterStart_eq trivial s
  have hkey := (alike_down a.place c.rest).startsKey_eq
  unfold fillContent
  rw [rest_down]
  cases hc : c.rest with
  | nil => rfl
  | cons l ls =>
    rw [hc, List.map_cons] at hlater hkey
    simp only [List.map_cons, Lexeme.kind_down, Lexeme.column_down, hlater, hkey]
    split
    · split <;> simp
    · split
      · simp
      · split <;> simp

@[simp] theorem fill_down (s : Slot) : (c.down a).fill s = (c.fill s).down a := by
  rw [fill, takeProperties_down, fillContent_down, fill]

@[simp] theorem takeFlowContent_down (b : Bool) :
    (c.down a).takeFlowContent b = (c.takeFlowContent b).down a := by
  unfold takeFlowContent
  rw [kind?_down]
  split
  · rfl
  · split <;> try split <;> try split
    all_goals simp [(alike_down _ _).plainLength_eq]

@[simp] theorem takeFlowNode_down : (c.down a).takeFlowNode = c.takeFlowNode.down a := by
  rw [takeFlowNode, takeProperties_down, takeFlowContent_down, rest_down,
    (alike_down _ _).propertiesLength_eq, takeFlowNode]

@[simp] theorem takeComma_down (closer : TokenKind) (p : Problem) :
    (c.down a).takeComma closer p = (c.takeComma closer p).down a := by
  unfold takeComma
  rw [kind?_down]
  split
  · rfl
  · split
    · simp
    · split <;> simp

/-! ## Steps

Each step function asks only questions that have the same answer further down, and then makes
moves that commute with going down. -/

/-- Between documents the step is the same as further up. None is left in one place if and only
if none is left in the other. -/
theorem stepStream_down : (c.down a).stepStream = c.stepStream.map (down a) := by
  unfold stepStream
  rw [significant_down]
  cases significant c.rest with
  | nil => rfl
  | cons l ls =>
    simp only [List.map_cons, Lexeme.kind_down]
    split <;> simp

/-- In a document the step is the same as further up. -/
theorem stepDocument_down : (c.down a).stepDocument = c.stepDocument.down a := by
  unfold stepDocument
  rw [significant_down]
  cases significant c.rest with
  | nil => simp
  | cons l ls =>
    simp only [List.map_cons, Lexeme.kind_down]
    split <;> simp

/-- In a block mapping too, since columns are kept. -/
theorem stepMapping_down (column : Nat) :
    (c.down a).stepMapping column = (c.stepMapping column).down a := by
  unfold stepMapping
  rw [significant_down]
  cases hs : significant c.rest with
  | nil => simp
  | cons l ls =>
    have hkey := (alike_down a.place (l :: ls)).startsKey_eq
    rw [List.map_cons] at hkey
    simp only [List.map_cons, Lexeme.kind_down, Lexeme.column_down, hkey]
    split
    · simp
    · split
      · simp
      · split <;> simp

theorem stepSequence_down (column : Nat) :
    (c.down a).stepSequence column = (c.stepSequence column).down a := by
  unfold stepSequence
  rw [significant_down]
  cases significant c.rest with
  | nil => simp
  | cons l ls =>
    show (if l.kind.isMarker ∨ l.column < column ∨ l.column = column ∧ l.kind ≠ dash
      then (c.down a).close
      else if column < l.column then (c.down a).takeTrivia.errorLine .unexpectedIndentation
      else (c.down a).takeTrivia.openItem column) = _
    dsimp only
    split
    · exact close_down a c
    · split <;> simp

/-- In a plain scalar too : whether it goes on is decided by a column. -/
theorem stepPlain_down (column : Nat) :
    (c.down a).stepPlain column = (c.stepPlain column).down a := by
  unfold stepPlain
  rw [rest_down, (alike_down _ _).continuation_eq trivial]
  split
  · dsimp only
    rw [take_down, takePlain_down]
  · exact close_down a c

theorem stepFlowSequence_down : (c.down a).stepFlowSequence = c.stepFlowSequence.down a := by
  dsimp only [stepFlowSequence]
  rw [takeTrivia_down, kind?_down]
  split
  · simp
  · split <;> simp

theorem stepFlowMapping_down : (c.down a).stepFlowMapping = c.stepFlowMapping.down a := by
  dsimp only [stepFlowMapping]
  rw [takeTrivia_down, kind?_down]
  split
  · simp
  · split <;> simp

/-- Behind the key of a flow entry too. -/
theorem stepFlowKey_down : (c.down a).stepFlowKey = c.stepFlowKey.down a := by
  dsimp only [stepFlowKey]
  rw [close_down, takeTrivia_down, kind?_down]
  split
  · rw [take_down, takeTrivia_down, push_down, kind?_down]
    split
    · rfl
    · split
      · rfl
      · exact takeFlowNode_down a _
  · rfl

/-- So it is in any node. -/
theorem stepTask_down (t : Task) : (c.down a).stepTask t = (c.stepTask t).down a := by
  cases t with
  | document => exact stepDocument_down a c
  | mapping column => exact stepMapping_down a c column
  | sequence column => exact stepSequence_down a c column
  | plain column => exact stepPlain_down a c column
  | flowSequence => exact stepFlowSequence_down a c
  | flowMapping => exact stepFlowMapping_down a c
  | key => exact stepFlowKey_down a c
  | entry => simp [stepTask]
  | item => simp [stepTask]
  | value => simp [stepTask]
  | flowValue => simp [stepTask]
  | flowItem => simp [stepTask]
  | flowEntry => simp [stepTask]

/-- A step further down is the step, moved down. -/
theorem step_down : (c.down a).step = c.step.map (down a) := by
  unfold step
  rw [show (c.down a).slot = c.slot from rfl, show (c.down a).frames = c.frames from rfl]
  split
  · exact congrArg some (fill_down a { c with slot := none } _)
  · split
    · exact stepStream_down a c
    · exact congrArg some (stepTask_down a c _)

/-- A run further down is the run, moved down. -/
theorem run_down : (c.down a).run = c.run.down a := by
  fun_induction run c with
  | case1 c h =>
    rw [run]
    split
    · rfl
    · rename_i d hd
      simp [step_down, h] at hd
  | case2 c d h ih => rw [run_of_step (by rw [step_down, h]; rfl), ih]

end Config

end YamlPatch
