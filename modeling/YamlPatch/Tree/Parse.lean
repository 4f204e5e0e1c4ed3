import YamlPatch.Tree.Moves
import YamlPatch.Tree.Progress

/-!
# Parsing

`Config.run` steps until no step is left, which happens after finitely many steps because
each makes the measure smaller. `parse` runs from the tokens of a text; the trivia left at
the end belong to the stream. Parsing never fails : it gives a tree and the faults, and
`parseStrict` accepts the tree only if there are none.

A step moves tokens and invents none. The tokens in the tree under construction, followed
by those that are left, stay the same (`Config.tokens_step`), so the leaves of the tree are
the tokens of the text (`leaves_parse`) and the text of the tree is the text (`text_parse`).
-/

namespace YamlPatch

open TokenKind

namespace Config

/-- The configuration after the last step. -/
def run (c : Config) : Config :=
  match _h : c.step with
  | none => c
  | some c' => run c'
termination_by c.measure
decreasing_by exact measure_step ‹_›

/-- Before the first step : all tokens are left. -/
def start (t : Text) : Config where
  rest := Lexeme.locate {} (lex t)
  finish := Position.advance {} t

/-- The stream, once no step is left. -/
def stream (c : Config) : Tree :=
  .node .stream (c.finished ++ c.rest.map fun l => .token l.token)

end Config

/-- A tree with what is wrong with the text it was read from. -/
structure Parse where
  tree : Tree
  faults : List Fault
  deriving Repr

/-- What is wrong with the text, in plain messages. -/
def Parse.errors (p : Parse) : List String := p.faults.map Fault.message

/-- What is wrong with the text, and where. -/
def Parse.notes (p : Parse) : List Fault.Note := p.faults.map Fault.note

/-- The tree of a text and the faults in the text. -/
def parse (t : Text) : Parse :=
  let c := (Config.start t).run
  ⟨c.stream, c.faults⟩

/-- The tree of a text without faults. -/
def parseStrict (t : Text) : Except (List Fault) Tree :=
  match (parse t).faults with
  | [] => .ok (parse t).tree
  | fs => .error fs

namespace Config

/-! ## No token is lost -/

/-- The tokens in the tree under construction. -/
def built (c : Config) : List Token :=
  Tree.leavesOf c.finished ++ c.frames.reverse.flatMap fun f => Tree.leavesOf f.done

/-- The tokens in the tree and those that are left. -/
def tokens (c : Config) : List Token := c.built ++ c.rest.map Lexeme.token

/-- New trees stand behind those that were built before. -/
theorem built_add (c : Config) (ts : List Tree) :
    (c.add ts).built = c.built ++ Tree.leavesOf ts := by
  unfold add
  split
  · simp_all [built]
  · simp_all [built]

/-- The trees made of the next tokens have these tokens as leaves. -/
theorem leavesOf_ahead (c : Config) (n : Nat) :
    Tree.leavesOf (c.ahead n) = (c.rest.take n).map Lexeme.token := by
  have h : c.ahead n = ((c.rest.take n).map Lexeme.token).map Tree.token := by
    simp [ahead, List.map_map, Function.comp_def]
  rw [h, Tree.leavesOf_map_token]

/-- Taking tokens moves them from the text into the tree. -/
theorem tokens_take (c : Config) (n : Nat) : (c.take n).tokens = c.tokens := by
  have h : (c.take n).built = (c.add (c.ahead n)).built := rfl
  rw [tokens, h, built_add, leavesOf_ahead, rest_take, List.append_assoc, ← List.map_append,
    List.take_append_drop, tokens]

/-- So does putting them into a node of their own. -/
theorem tokens_wrap (c : Config) (k : NodeKind) (n : Nat) :
    (c.wrap k n).tokens = c.tokens := by
  have h : (c.wrap k n).built = (c.add [.node k (c.ahead n)]).built := rfl
  rw [tokens, h, built_add]
  simp only [Tree.leavesOf, Tree.leaves, List.append_nil]
  rw [leavesOf_ahead, rest_wrap, List.append_assoc, ← List.map_append,
    List.take_append_drop, tokens]

/-- Opening a node changes no token. -/
theorem tokens_push (c : Config) (t : Task) : (c.push t).tokens = c.tokens := by
  simp [tokens, built, push, Tree.leavesOf]

/-- Closing a node changes no token either : its tree goes to the node around it. -/
theorem tokens_close (c : Config) : c.close.tokens = c.tokens := by
  unfold close
  split
  · rfl
  · rename_i f fs h
    rw [tokens, built_add]
    simp [tokens, built, h, Frame.tree, Tree.leavesOf, Tree.leaves]

/-- Every move leaves them as they are. -/
theorem Grows.tokens {c d : Config} (h : Grows c d) : d.tokens = c.tokens := by
  induction h with
  | refl => rfl
  | take _ n ih => rw [tokens_take, ih]
  | wrap _ k n ih => rw [tokens_wrap, ih]
  | push _ t ih => rw [tokens_push, ih]
  | close _ ih => rw [tokens_close, ih]
  | await _ _ ih => exact ih
  | unslot _ ih => exact ih
  | report _ _ ih => exact ih

/-- A step moves tokens from the text to the tree. -/
theorem tokens_step {c c' : Config} (h : c.step = some c') : c'.tokens = c.tokens :=
  (Grows.step h).tokens

/-- A whole run keeps all the tokens in their order. -/
theorem tokens_run (c : Config) : c.run.tokens = c.tokens := by
  fun_induction run c with
  | case1 => rfl
  | case2 c c' h ih => rw [ih, tokens_step h]

/-- A run ends between documents. -/
theorem frames_run (c : Config) : c.run.frames = [] := by
  fun_induction run c with
  | case1 c h =>
    unfold step at h
    split at h
    · cases h
    · split at h
      · assumption
      · cases h
  | case2 c c' h ih => exact ih

end Config

/-- The leaves of the tree are the tokens of the text. -/
theorem leaves_parse (t : Text) : (parse t).tree.leaves = lex t := by
  have h1 := Config.tokens_run (Config.start t)
  have h2 := Config.frames_run (Config.start t)
  have h3 : (Config.start t).tokens = lex t := by
    simp [Config.tokens, Config.built, Config.start, Tree.leavesOf, Lexeme.map_token_locate]
  rw [h3, Config.tokens, Config.built, h2] at h1
  rw [← h1]
  have h4 (ls : List Lexeme) : (ls.map fun l => Tree.token l.token) =
      (ls.map Lexeme.token).map Tree.token := by simp
  simp only [parse, Config.stream, Tree.leaves, Tree.leavesOf_append]
  rw [h4, Tree.leavesOf_map_token]
  simp

/-- The text of the tree is the text. -/
theorem text_parse (t : Text) : (parse t).tree.text = t := by
  rw [Tree.text, leaves_parse, join_lex]

end YamlPatch
