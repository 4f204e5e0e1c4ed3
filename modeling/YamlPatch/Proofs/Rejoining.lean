import YamlPatch.Proofs.Approach
import YamlPatch.Proofs.Entries
import YamlPatch.Proofs.LineStarts

/-!
# Runs that end alike

Two configurations with the same tasks and the same tokens left end alike (`Config.EndAlike`) :
from there on the parser builds the same. In block context that takes the end of a line, where
columns are no longer looked at; inside a flow collection the runs leave the collection
together, and behind it the line ends (`Config.endAlike_of_flow`).

What the runs build is compared by the ends of their logs, since what they have built before
differs. The runs go on alike as long as their configurations are twins, and twins they stay
until tokens are left that the two texts do not share. Here they share all.
-/

namespace YamlPatch

open TokenKind Lexeme YamlPatch.Tree

/-- Lists that are alike to the end have the same tokens. -/
theorem Alike.map_token_eq {ls ls' : List Lexeme} (h : Alike False [] [] ls ls') :
    ls'.map Lexeme.token = ls.map Lexeme.token := by
  induction h with
  | nil => rfl
  | stop _ _ _ ht => cases ht
  | cons htoken _ _ ih => simp [htoken, ih]

/-- Around the outermost node of a flow collection is a block place. -/
theorem Task.exists_place {ts us : List Task} (h : nested (ts ++ us) = true) (hne : ts ≠ [])
    (hts : ts.all isFlow = true) (hus : ∀ v vs, us = v :: vs → v.isFlow = false) :
    ∃ v vs, us = v :: vs ∧ v.isPlace = true := by
  induction ts with
  | nil => exact absurd rfl hne
  | cons t ts ih =>
    simp only [List.all_cons, Bool.and_eq_true] at hts
    cases ts with
    | cons u ts => exact ih (nested_tail h) (by simp) hts.2
    | nil =>
      cases us with
      | nil =>
        obtain rfl : t = .document := by simpa [nested] using h
        cases hts.1
      | cons v vs =>
        refine ⟨v, vs, rfl, ?_⟩
        have hv := hus v vs rfl
        have hold : v.holds t = true := by
          simp only [List.cons_append, List.nil_append, nested, Bool.and_eq_true] at h
          exact h.1
        have ht := hts.1
        revert hold hv ht
        cases t <;> cases v <;> simp [isFlow, holds, isPlace, isFlowPlace]

namespace Config

/-- Two runs end in the same way : from `c` and `c'` on they build the same. -/
structure EndAlike (c c' : Config) : Prop where
  faults : c'.run.faults = []
  rest : c'.run.rest.map Lexeme.token = c.run.rest.map Lexeme.token
  log : ∃ e, c.run.log = c.log ++ e ∧ c'.run.log = c'.log ++ e

/-- Runs that come to where they end alike and have built the same on the way end alike. -/
theorem EndAlike.of_leads {c c' d d' : Config} (h : EndAlike d d') (hd : Leads c d)
    (hd' : Leads c' d') (hlog : ∃ e, d.log = c.log ++ e ∧ d'.log = c'.log ++ e) :
    EndAlike c c' := by
  obtain ⟨e, he, he'⟩ := hlog
  obtain ⟨e₁, he₁, he₁'⟩ := h.log
  refine ⟨hd'.run_eq ▸ h.faults, hd'.run_eq ▸ hd.run_eq ▸ h.rest, e ++ e₁, ?_, ?_⟩
  · rw [← hd.run_eq, he₁, he, List.append_assoc]
  · rw [← hd'.run_eq, he₁', he', List.append_assoc]

/-- Behind a flow collection in block context the line ends. -/
theorem endsLine_of_place {c : Config} {u : Task} {us : List Task} (ht : c.tasks = u :: us)
    (hn : Nested c) (hu : u.isPlace = true) (hs : c.slot = none) {p : Position} {ys : List Token}
    (hr : c.rest = locate p ys) (hrun : c.run.faults = [])
    {s : LexState} (hcuts : Cuts s ys []) (hline : s.atLineStart = false) : EndsLine ys := by
  have h1 : c.step = some (c.stepTask u) := step_of_tasks hs ht
  have hf : (c.stepTask u).faults = [] := by
    refine (Leads.to_run _).faultless ?_
    rwa [← run_of_step h1]
  have hfinish {d : Config} (hd : d.finishLine.faults = []) (hrest : d.rest = c.rest) :
      EndsLine ys := by
    simpa [hrest, hr, map_token_locate] using endsLine_of_finishLine hd
  -- An item ends its line when it is closed, a value when the entry around it is, and behind the
  -- root of a document only a marker may come.
  cases u with
  | item => exact hfinish (by simpa [stepTask] using hf) rfl
  | value =>
    have h1' : c.step = some c.close := h1
    have htail : ∃ vs, us = .entry :: vs := by
      have hnest := hn.tasks
      rw [ht] at hnest
      cases us with
      | nil => cases hnest
      | cons v vs =>
        simp only [Task.nested, Bool.and_eq_true] at hnest
        cases v <;> first | exact ⟨vs, rfl⟩ | cases hnest.1
    obtain ⟨vs, rfl⟩ := htail
    have h2 : c.close.step = some c.close.finishLine.close :=
      step_of_tasks (by simpa using hs) (show c.close.tasks = .entry :: vs by simp [ht])
    refine hfinish (d := c.close) ?_ (by simp)
    have : c.close.finishLine.close.faults = [] := by
      refine (Leads.to_run _).faultless ?_
      rwa [← run_of_step h2, ← run_of_step h1']
    simpa using this
  | document =>
    obtain ⟨zs, ws, rfl, hzs, hws⟩ := exists_trivia ys
    refine .of_cuts hcuts hline hzs fun w vs hw => ?_
    subst hw
    have hsig : significant c.rest = locate (p.advance (Token.join zs)) (w :: vs) := by
      rw [hr, significant_locate p hzs hws]
    simp only [stepTask, stepDocument, hsig, locate] at hf
    generalize hk : (⟨w, p.advance (Token.join zs)⟩ : Lexeme).kind = k at hf
    have hk : w.kind = k := hk
    split at hf
    · rw [hk]; rfl
    · rw [hk]; rfl
    · rw [hk]; rfl
    · simp [errorLine, report] at hf
  | _ => cases hu

/-- With the same tasks, what is left need only look the same to the parser. -/
theorem EndAlike.of_alike {c c' : Config} (htasks : c'.tasks = c.tasks) (hslot : c'.slot = c.slot)
    (hfaults : c'.faults = []) (hrest : Alike True [] [] c.rest c'.rest)
    (hrun : c.run.faults = []) : EndAlike c c' :=
  have h := run_of_alike htasks hslot hfaults hrest hrun
  ⟨h.1, h.2.1, h.2.2⟩

/-- At the end of a line it may stand anywhere. -/
theorem EndAlike.of_endsLine {c c' : Config} {p p' : Position} {xs : List Token}
    (htasks : c'.tasks = c.tasks) (hslot : c'.slot = c.slot) (hfaults : c'.faults = [])
    (hrest : c.rest = locate p xs) (hrest' : c'.rest = locate p' xs) (hends : EndsLine xs)
    (hn : HasLineFeeds xs) (hrun : c.run.faults = []) : EndAlike c c' :=
  .of_alike htasks hslot hfaults (by rw [hrest, hrest']; exact .of_endsLine hends hn p p') hrun

/-- Inside a flow collection, what is still to come is the same wherever it stands. There is no
block scalar on the line. -/
theorem endAlike_of_flow {t : Text} {c c' : Config} {u : Task} {us : List Task}
    (hl : Leads (start t) c) (ht : c.tasks = u :: us) (hu : u.isFlow = true)
    (ht' : c'.tasks = c.tasks) (hs : c.slot = none) (hs' : c'.slot = none) (hf' : c'.faults = [])
    {p p' : Position} {ys : List Token} (hr : c.rest = locate p ys) (hr' : c'.rest = locate p' ys)
    (hn : HasLineFeeds ys) (hrun : c.run.faults = []) : EndAlike c c' ∧ Calm ys := by
  have hnest : Nested c := (Nested.start t).leads hl
  have hsplit : c.tasks = c.tasks.takeWhile Task.isFlow ++ c.tasks.dropWhile Task.isFlow :=
    List.takeWhile_append_dropWhile.symm
  have htwins : Twins (divergence False c c' (c.tasks.dropWhile Task.isFlow))
      (c.tasks.takeWhile Task.isFlow) c c' := by
    refine ⟨hsplit, ht'.trans hsplit, hs'.trans hs.symm, ⟨[], by simp [divergence]⟩,
      (Leads.to_run c).faultless hrun, hf', ?_⟩
    rw [hr, hr']
    exact .of_tokens p p' ys
  have hblock : ∀ v vs, c.tasks.dropWhile Task.isFlow = v :: vs → v.isFlow = false :=
    fun _ _ => eq_false_of_dropWhile
  obtain ⟨d, d', xs, hd, hd', htw, hds, hxs, hcalm, hclose⟩ :=
    htwins.leave_flow rfl hblock hnest (by simp) hs hrun
  obtain ⟨zs, y, rfl, hy⟩ := hclose (by simp [ht, hu])
  -- the place behind the outermost bracket
  have hdn := hnest.leads hd
  obtain ⟨v, vs, hv, hplace⟩ :
      ∃ v vs, c.tasks.dropWhile Task.isFlow = v :: vs ∧ v.isPlace = true := by
    refine Task.exists_place (hsplit ▸ hnest.tasks) ?_ (by simp) hblock
    simp [ht, hu]
  have hdrun : d.run.faults = [] := hd.run_eq ▸ hrun
  obtain ⟨as, ws, -, hdr⟩ := (hl.trans hd).grows.exists_locate
  rw [hr, hdr, map_token_locate, map_token_locate] at hxs
  subst hxs
  obtain ⟨as', ys', hlex, hcr⟩ := hl.grows.exists_locate
  have hys' := congrArg (List.map Lexeme.token) (hr.symm.trans hcr)
  rw [map_token_locate, map_token_locate] at hys'
  subst hys'
  have hcuts : Cuts {} (as' ++ (zs ++ y :: ws)) [] := .of_lexFrom (by simpa [lex] using hlex)
  obtain ⟨hread, hrest⟩ := Cuts.cases_cons hcuts.right.right
  have hends : EndsLine ws := by
    refine endsLine_of_place (htw.tasks.trans hv) hdn hplace hds hdr hdrun hrest
      (hread.atLineStart_after_node ?_)
    rcases hy with hy | hy <;> rw [hy] <;> rfl
  have hnw : HasLineFeeds ws := hn.of_suffix (List.suffix_append _ ws)
  -- there the second run has the same tokens left
  obtain ⟨q', ws', hdr'⟩ : ∃ q' ws', d'.rest = locate q' ws' := by
    obtain ⟨ls, hls⟩ := hd'.grows.rest
    rw [hr'] at hls
    exact ⟨_, _, by rw [← drop_locate, ← hls, List.drop_left]⟩
  have hws := Alike.map_token_eq htw.rest
  rw [hdr, hdr', map_token_locate, map_token_locate] at hws
  subst hws
  refine ⟨?_, ?_⟩
  · exact (EndAlike.of_endsLine (htw.tasks'.trans htw.tasks.symm) htw.slot htw.faults' hdr hdr'
      hends hnw hdrun).of_leads hd hd' htw.log
  · exact .append hcalm (hends.calm hnw)

end Config

end YamlPatch
