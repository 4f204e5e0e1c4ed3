import Mathlib.Data.List.TakeWhile
import YamlPatch.Tree.Parse

/-!
# Runs of the parser

A run is a chain of steps. `Config.Steps n c d` says that `n` steps lead from `c` to `d`, and
`Config.Leads c d` that some number of them does. There is one step at most from each
configuration, so a run never leaves the way of `Config.run`, and one that cannot be continued
ends where it does (`Leads.run_eq`).

What every step keeps, every run keeps (`Leads.keeps`), so no token is lost on the way. The main
statement is `parse_lossless` : on every text the parser stops within eight steps for each token,
and the leaves of its tree are the tokens of the text.
-/

namespace YamlPatch

open TokenKind

namespace Config

/-- `n` steps lead from one configuration to the other. -/
inductive Steps : Nat → Config → Config → Prop where
  | refl (c : Config) : Steps 0 c c
  | cons {n : Nat} {c d e : Config} (h : c.step = some d) (hs : Steps n d e) : Steps (n + 1) c e

/-- Some steps lead from one configuration to the other. -/
def Leads (c d : Config) : Prop := ∃ n, Steps n c d

/-- Runs are put together. -/
theorem Steps.trans {m n : Nat} {c d e : Config} (h : Steps m c d) (h' : Steps n d e) :
    Steps (m + n) c e := by
  induction h with
  | refl => simpa using h'
  | cons hstep _ ih =>
    rw [Nat.succ_add]
    exact .cons hstep (ih h')

/-- Every step of a run makes the measure smaller. -/
theorem Steps.measure_le {n : Nat} {c d : Config} (h : Steps n c d) :
    d.measure + n ≤ c.measure := by
  induction h with
  | refl => simp
  | cons hstep _ ih =>
    have := measure_step hstep
    omega

/-- A step does not change where the run ends. -/
theorem run_of_step {c d : Config} (h : c.step = some d) : c.run = d.run := by
  rw [run]
  split <;> simp_all

namespace Leads

/-- A run may have no steps. -/
@[refl] theorem refl (c : Config) : Leads c c := ⟨0, .refl c⟩

/-- One run may follow another. -/
theorem trans {c d e : Config} (h : Leads c d) (h' : Leads d e) : Leads c e := by
  obtain ⟨m, hm⟩ := h
  obtain ⟨n, hn⟩ := h'
  exact ⟨m + n, hm.trans hn⟩

/-- A step is a run. -/
theorem of_step {c d : Config} (h : c.step = some d) : Leads c d := ⟨1, .cons h (.refl d)⟩

/-- A step may be put before a run. -/
theorem head {c d e : Config} (h : c.step = some d) (h' : Leads d e) : Leads c e :=
  (of_step h).trans h'

/-- A run either stands still or starts with a step. -/
theorem cases_head {c e : Config} (h : Leads c e) :
    c = e ∨ ∃ d, c.step = some d ∧ Leads d e := by
  obtain ⟨n, hn⟩ := h
  cases hn with
  | refl => exact .inl rfl
  | cons hstep hs => exact .inr ⟨_, hstep, ⟨_, hs⟩⟩

/-- A run stands still or ends with a step. -/
theorem cases_last {c e : Config} (h : Leads c e) :
    c = e ∨ ∃ d, Leads c d ∧ d.step = some e := by
  obtain ⟨n, hn⟩ := h
  induction hn with
  | refl => exact .inl rfl
  | @cons n c d e hstep _ ih =>
    rcases ih with rfl | ⟨b, hb, he⟩
    · exact .inr ⟨c, .refl c, hstep⟩
    · exact .inr ⟨b, .head hstep hb, he⟩

/-- All configurations on a run end in the same one. -/
theorem run_eq {c d : Config} (h : Leads c d) : d.run = c.run := by
  obtain ⟨n, hn⟩ := h
  induction hn with
  | refl => rfl
  | cons hstep _ ih => rw [ih, run_of_step hstep]

/-- Every run goes on to the end. -/
theorem to_run (c : Config) : Leads c c.run := by
  fun_induction run c with
  | case1 c => exact refl c
  | case2 c d h ih => exact head h ih

/-- At the end there is no step left. -/
theorem step_run (c : Config) : c.run.step = none := by
  fun_induction run c with
  | case1 c h => exact h
  | case2 c d h ih => exact ih

/-- The measure does not go up. -/
theorem measure_le {c d : Config} (h : Leads c d) : d.measure ≤ c.measure := by
  obtain ⟨n, hn⟩ := h
  have := hn.measure_le
  omega

/-- What every step keeps, every run keeps. -/
theorem keeps {P : Config → Prop} {c d : Config} (h : Leads c d)
    (hP : ∀ {c d : Config}, P c → c.step = some d → P d) (hc : P c) : P d := by
  obtain ⟨n, hn⟩ := h
  induction hn with
  | refl => exact hc
  | cons hstep _ ih => exact ih (hP hc hstep)

end Leads

/-- At the end of the text only trivia are left. -/
theorem isTrivia_of_step_eq_none {c : Config} (h : c.step = none) :
    ∀ l ∈ c.rest, l.kind.isTrivia = true := by
  unfold step at h
  split at h
  · cases h
  · split at h
    · unfold stepStream at h
      split at h
      · rename_i hrest
        simpa [significant] using hrest
      · dsimp only at h
        split at h <;> cases h
    · cases h

/-! ## Losslessness

Each step makes the measure smaller, so its value at the start bounds the length of every run. -/

/-- At the start the measure is eight for each token. -/
theorem measure_start (t : Text) : (start t).measure = 8 * (lex t).length := by
  have h : (start t).rest.length = (lex t).length := by
    rw [← List.length_map Lexeme.token]
    simp [start, Lexeme.map_token_locate]
  simp [measure, h, show (start t).frames = [] from rfl, show (start t).slot = none from rfl]

/-- No run is longer than eight steps for each token of the text. -/
theorem Steps.le_of_start {n : Nat} {t : Text} {c : Config} (h : Steps n (start t) c) :
    n ≤ 8 * (lex t).length := by
  have := h.measure_le
  rw [measure_start] at this
  omega

/-- A configuration that a run from the tokens of `t` comes to holds them all, those in the
tree before those that are left. -/
theorem Leads.tokens_eq {t : Text} {c : Config} (h : Leads (start t) c) : c.tokens = lex t := by
  have h0 : (start t).tokens = lex t := by
    simp [tokens, built, start, Tree.leavesOf, Lexeme.map_token_locate]
  exact h.keeps (fun hc hstep => (tokens_step hstep).trans hc) h0

end Config

/-- A text is accepted if the run reports no fault, and its tree is what the run leaves. -/
theorem parseStrict_eq_ok {t : Text} {x : Tree} :
    parseStrict t = .ok x ↔ (Config.start t).run.faults = [] ∧ (Config.start t).run.stream = x := by
  rw [parseStrict, parse]
  cases hf : (Config.start t).run.faults <;> simp

/-- On every text, well formed or not, the parser stops, and it has lost nothing. All runs are
bounded, one of them ends where no step is left, and every configuration on the way holds all
tokens in their order; the leaves of the tree are the tokens of the text, and its text is the
text. -/
theorem parse_lossless (t : Text) :
    (∀ n c, Config.Steps n (Config.start t) c → n ≤ 8 * (lex t).length ∧ c.tokens = lex t) ∧
      (∃ z, Config.Leads (Config.start t) z ∧ z.step = none ∧ parse t = ⟨z.stream, z.faults⟩) ∧
      (parse t).tree.leaves = lex t ∧ (parse t).tree.text = t := by
  refine ⟨fun n c h => ⟨h.le_of_start, Config.Leads.tokens_eq ⟨n, h⟩⟩, ?_, leaves_parse t,
    text_parse t⟩
  exact ⟨(Config.start t).run, .to_run _, Config.Leads.step_run _, rfl⟩

end YamlPatch
