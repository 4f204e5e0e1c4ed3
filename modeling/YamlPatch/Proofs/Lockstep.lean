import YamlPatch.Proofs.PutGet
import YamlPatch.Proofs.Refusals
import YamlPatch.Tool

/-!
# Strict and lenient bumps

A write takes effect (`Release.Update.TakesEffect`) or it is refused (`Release.Update.Refused`),
and which of the two depends on the document alone. The policy for missing fields comes in
afterwards : a strict bump ends at a write that is refused, and a lenient one goes on with the
document as it was. So the two do the same as long as the writes take effect (`Plan.Makes`). If
all of them do, the documents at the end are the same; if not, the strict bump leaves the
document of the writes before the first that is refused (`Plan.makes_or_refused`,
`Plan.apply_lockstep`).

A tool that is told to be strict has the text of a document only if the whole plan was made.

The induction is on the plan, and its cases are the two outcomes of the first write. Refusals
are told by what a reader sees (`Cursor.Outcome`), so the case in which the write is refused
says which field is missing or of another kind, and in which document.
-/

namespace YamlPatch

open Tool

namespace Release

/-! ## One write

A refusal leaves the document as it was, so a lenient bump can go on from there. -/

/-- The write is made, and afterwards its value is found at its path. -/
structure Update.TakesEffect (u : Update) (t t' : Tree) : Prop where
  put : (Cursor.ofTree t).put u.path u.value = .ok t'
  found : ∃ d, (Cursor.ofTree t').find? u.path = some d ∧ u.value.IsReadAs d.focus

/-- The path of the write leads to no entry or to one that does not take the value, and the
error says which. -/
inductive Update.Refused (u : Update) (t : Tree) : WriteError → Prop where
  | missing (h : (Cursor.ofTree t).holder? u.path = none) : Refused u t (.keyNotFound u.path)
  | mismatch {d : Cursor} (h : (Cursor.ofTree t).holder? u.path = some d) (hd : ¬d.Takes u.value)
      (m : Mismatch) : Refused u t (.typeMismatch u.path m)

namespace Plan

variable {u : Update} {us : List Update} {t t₁ t' : Tree} {e : WriteError}

/-- A write takes effect under either policy, or under neither : then it is an error for the
one, and for the other nothing has happened. -/
theorem takesEffect_or_refused (hv : u.value.Made) (t : Tree) : (∃ t', u.TakesEffect t t') ∨
    ∃ e, u.Refused t e ∧ (Cursor.ofTree t).set u.path u.value .error = .error e ∧
      (Cursor.ofTree t).set u.path u.value .ignore = .ok t := by
  have houtcome := (Cursor.ofTree t).outcome_put u.path hv
  have hrebuild : (Cursor.ofTree t).rebuild = t := rfl
  generalize hput : (Cursor.ofTree t).put u.path u.value = r at houtcome
  cases houtcome with
  | missing h =>
    exact .inr ⟨_, .missing h, by simp [Cursor.set, hput], by simp [Cursor.set, hput, hrebuild]⟩
  | mismatch h hd m =>
    exact .inr ⟨_, .mismatch h hd m,
      by simp [Cursor.set, hput], by simp [Cursor.set, hput, hrebuild]⟩
  | written h hd t' =>
    obtain ⟨y, new, rfl, hnew, hshown, -⟩ := Cursor.exists_of_set hv (Cursor.set_of_put hput .error)
    obtain ⟨d, hfind, rfl⟩ := Option.map_eq_some_iff.mp hnew
    exact .inl ⟨_, hput, d, hfind, hshown.reads⟩

/-! ## Writes one after the other

By induction on the writes, of which the first is made or refused. -/

/-- All the writes take effect, each in the document that those before it have left. -/
inductive Makes : List Update → Tree → Tree → Prop where
  | nil (t : Tree) : Makes [] t t
  | cons {u : Update} {us : List Update} {t t₁ t' : Tree} (h : u.TakesEffect t t₁)
      (hs : Makes us t₁ t') : Makes (u :: us) t t'

/-- Writes that all take effect leave their document without a failure. -/
theorem Makes.applyUpdates (h : Makes us t t') (m : MissingPolicy) :
    applyUpdates m us t = (t', none) := by
  induction h with
  | nil => rfl
  | cons h hs ih => exact (applyUpdates_cons (Cursor.set_of_put h.put m) _).trans ih

/-- All the writes take effect, or all before one that is refused. -/
theorem makes_or_refused (hv : ∀ u ∈ us, u.value.Made) (t : Tree) : (∃ t', Makes us t t') ∨
    ∃ before u after t' e, us = before ++ u :: after ∧ Makes before t t' ∧ u.Refused t' e ∧
      applyUpdates .error us t = (t', some e) := by
  induction us generalizing t with
  | nil => exact .inl ⟨t, .nil t⟩
  | cons u us ih =>
    rcases takesEffect_or_refused (hv u (by simp)) t with ⟨t₁, h⟩ | ⟨e, hrefused, hset, -⟩
    · rcases ih (fun w hw => hv w (List.mem_cons_of_mem u hw)) t₁ with
        ⟨t', hs⟩ | ⟨before, w, after, t', e, rfl, hs, hrefused, happly⟩
      · exact .inl ⟨t', .cons h hs⟩
      · refine .inr ⟨u :: before, w, after, t', e, rfl, .cons h hs, hrefused, ?_⟩
        exact (applyUpdates_cons (Cursor.set_of_put h.put .error) _).trans happly
    · refine .inr ⟨[], u, us, t, e, rfl, .nil t, hrefused, ?_⟩
      rw [applyUpdates, hset]

/-- A strict run without an error has made all its writes. -/
theorem applyUpdates_error_iff (hv : ∀ u ∈ us, u.value.Made) :
    applyUpdates .error us t = (t', none) ↔ Makes us t t' := by
  refine ⟨fun h => ?_, fun h => h.applyUpdates .error⟩
  rcases makes_or_refused hv t with ⟨u, hmakes⟩ | ⟨_, _, _, u, e, -, -, -, happly⟩
  · cases (hmakes.applyUpdates .error).symm.trans h
    exact hmakes
  · cases happly.symm.trans h

/-- A lenient run never fails. It makes some of its writes, in their order. -/
theorem exists_makes_of_ignore (hv : ∀ u ∈ us, u.value.Made) (t : Tree) :
    ∃ vs t', vs.Sublist us ∧ Makes vs t t' ∧ applyUpdates .ignore us t = (t', none) := by
  induction us generalizing t with
  | nil => exact ⟨[], t, .slnil, .nil t, rfl⟩
  | cons u us ih =>
    have ih := ih fun w hw => hv w (List.mem_cons_of_mem u hw)
    rcases takesEffect_or_refused (hv u (by simp)) t with ⟨t₁, h⟩ | ⟨e, -, -, hset⟩
    · obtain ⟨vs, t', hvs, hs, happly⟩ := ih t₁
      refine ⟨u :: vs, t', hvs.cons_cons u, .cons h hs, ?_⟩
      exact (applyUpdates_cons (Cursor.set_of_put h.put .ignore) _).trans happly
    · obtain ⟨vs, t', hvs, hs, happly⟩ := ih t
      exact ⟨vs, t', hvs.cons u, hs, (applyUpdates_cons hset _).trans happly⟩

/-! ## Two policies

The two are compared up to the first refusal. What a lenient bump does behind it has no
counterpart. -/

/-- A strict bump and a lenient one agree up to the first write that is refused. If the strict
bump succeeds then all its writes have taken effect, and the lenient bump leaves the same
document. If it fails then it fails at a write that is refused : all the writes before it have
taken effect, and it leaves the document that the lenient bump makes of these. And a strict tool
has the text of a document only if its whole plan has been made. -/
theorem apply_lockstep (plan : Plan) (t : Tree) (hv : ∀ u ∈ plan.updates, u.value.Made) :
    (∀ t', plan.apply .error t = (t', none) →
        Makes plan.updates t t' ∧ plan.apply .ignore t = (t', none)) ∧
      (∀ t' e, plan.apply .error t = (t', some e) →
        ∃ before u after, plan.updates = before ++ u :: after ∧ Makes before t t' ∧
          applyUpdates .ignore before t = (t', none) ∧ u.Refused t' e) ∧
      ∀ (tool : Tool) (o : Options) (path : Text) (fetched : Except ReadFault ByteArray),
        o.strict = true → load fetched = .ok t → tool.plan t o.branch = .ok plan → ∀ text,
          tool.bump o path fetched = .ok text ↔ ∃ t', Makes plan.updates t t' ∧ text = t'.text := by
  refine ⟨fun t' h => ?_, fun t' e h => ?_, fun tool o path fetched hstrict hload hplan text => ?_⟩
  · have hmakes := (applyUpdates_error_iff hv).mp h
    exact ⟨hmakes, hmakes.applyUpdates .ignore⟩
  · rcases makes_or_refused hv t with ⟨u, hmakes⟩ | ⟨before, u, after, u', e', hus, hmakes,
      hrefused, happly⟩
    · cases (hmakes.applyUpdates .error).symm.trans h
    · cases happly.symm.trans h
      exact ⟨before, u, after, hus, hmakes, hmakes.applyUpdates .ignore, hrefused⟩
  -- A strict tool has a text if its bump has made all the writes, and else it has the error of
  -- the first that is refused.
  · have hmissing : o.missing = .error := by rw [Options.missing, if_pos hstrict]
    simp only [Tool.bump, hload, bumped, hplan, hmissing]
    rcases makes_or_refused hv t with ⟨u, hmakes⟩ | ⟨_, _, _, u, e, -, -, -, happly⟩
    · have happly : plan.apply .error t = (u, none) := hmakes.applyUpdates .error
      rw [happly]
      constructor
      · rintro ⟨⟩
        exact ⟨u, hmakes, rfl⟩
      · rintro ⟨t', hmakes', rfl⟩
        cases ((hmakes.applyUpdates .error).symm.trans (hmakes'.applyUpdates .error))
        rfl
    · have happly : plan.apply .error t = (u, some e) := happly
      rw [happly]
      constructor
      · rintro ⟨⟩
      · rintro ⟨t', hmakes', -⟩
        cases (happly.symm.trans (hmakes'.applyUpdates .error))

/-- A sequence is not put in place of a string : the first number has been written and the
second has not. -/
theorem apply_lockstep_mismatch :
    let t := (parse "a: 1\nb: x".toList).tree
    let set (k : String) (v : Value) : Update := ⟨field k [], v⟩
    let plan : Plan := ⟨.ofNumbers 1 0 0, .ofNumbers 1 1 0,
      [set "a" (.atom (.ofInt 2)), set "b" (.sequence []), set "a" (.atom (.ofInt 3))]⟩
    (∀ u ∈ plan.updates, u.value.Made) ∧ (plan.apply .ignore t).1.text = "a: 3\nb: x".toList ∧
      ∃ before u after t' e, plan.updates = before ++ u :: after ∧
      plan.apply .error t = (t', some e) ∧
        Makes before t t' ∧ applyUpdates .ignore before t = (t', none) ∧ u.Refused t' e ∧
        e.message = "Type mismatch at 'b': cannot replace a scalar with a sequence".toList ∧
        t'.text = "a: 2\nb: x".toList := by
  intro t set plan
  have hv : ∀ u ∈ plan.updates, u.value.Made := by
    intro u hu
    simp only [plan, List.mem_cons, List.not_mem_nil, or_false] at hu
    rcases hu with rfl | rfl | rfl
    · exact .ofInt 2
    · trivial
    · exact .ofInt 3
  have hfails : (plan.apply .error t).2.map WriteError.message =
      some "Type mismatch at 'b': cannot replace a scalar with a sequence".toList := by
        decide +kernel
  obtain ⟨e, he, hmessage⟩ := Option.map_eq_some_iff.mp hfails
  obtain ⟨before, u, after, hus, hmakes, hignore, hrefused⟩ :=
    (apply_lockstep plan t hv).2.1 _ e (Prod.ext rfl he)
  exact ⟨hv,
    by decide +kernel, before, u, after, _, e, hus, Prod.ext rfl he, hmakes, hignore, hrefused,
      hmessage,
    by decide +kernel⟩

end Plan

end Release

end YamlPatch
