import YamlPatch.Proofs.Trace

/-!
# What runs never undo

Steps are made of moves (`Config.Grows`), and so are runs (`Config.Leads.grows`); what every
move keeps is thereby kept by every run. The tokens left are an end of those that were left, the
faults and the log begin with those that there were, and the text ends where it did : a run that
ends without faults never had any.

Each of these is an order on configurations, so one induction over the moves is enough for it,
and the run itself is never looked at. They are what a later part of a run knows about an
earlier one.
-/

namespace YamlPatch

open TokenKind

namespace Config

@[simp] theorem finish_add (c : Config) (ts : List Tree) : (c.add ts).finish = c.finish := by
  unfold add; split <;> rfl

@[simp] theorem finish_close (c : Config) : c.close.finish = c.finish := by
  unfold close; split <;> simp

namespace Grows

variable {c d : Config}

/-- Tokens are taken from the front only, so what is left is an end of what was left. -/
theorem rest (h : Grows c d) : d.rest <:+ c.rest := by
  induction h with
  | refl => exact List.suffix_refl _
  | take _ n ih => exact (List.drop_suffix _ _).trans ih
  | wrap _ k n ih => exact (List.drop_suffix _ _).trans ih
  | close _ ih => simpa using ih
  | _ => assumption

/-- Faults are added behind those that were found before, and none is taken back. -/
theorem faults (h : Grows c d) : c.faults <+: d.faults := by
  induction h with
  | refl => exact List.prefix_refl _
  | report _ p ih => exact ih.trans (List.prefix_append _ _)
  | await => assumption
  | unslot => assumption
  | push => assumption
  | _ => simpa

/-- What has been built stays built : events are only added. -/
theorem log (h : Grows c d) : c.log <+: d.log := by
  induction h with
  | refl => exact List.prefix_refl _
  | take _ n ih => exact ih.trans (by rw [log_take]; exact List.prefix_append _ _)
  | wrap _ k n ih => exact ih.trans (by rw [log_wrap]; exact List.prefix_append _ _)
  | push _ t ih => exact ih.trans (by rw [log_push]; exact List.prefix_append _ _)
  | @close d _ ih =>
    refine ih.trans ?_
    cases ht : d.tasks with
    | nil => simp [Config.close, frames_eq_nil ht]
    | cons t ts => rw [log_close ht]; exact List.prefix_append _ _
  | _ => assumption

/-- The end of the text is where it was. -/
theorem finish (h : Grows c d) : d.finish = c.finish := by
  induction h with
  | refl => rfl
  | take _ n ih => exact (finish_add _ _).trans ih
  | wrap _ k n ih => exact (finish_add _ _).trans ih
  | close _ ih => simpa using ih
  | _ => assumption

/-- There are never more tokens left than before. -/
theorem length_le (h : Grows c d) : d.rest.length ≤ c.rest.length := h.rest.length_le

/-- Without faults at the end there were none before. -/
theorem faultless (h : Grows c d) (hd : d.faults = []) : c.faults = [] :=
  List.prefix_nil.mp (hd ▸ h.faults)

end Grows

/-- A run is made of moves, since each of its steps is. -/
theorem Leads.grows {c d : Config} (h : Leads c d) : Grows c d := by
  obtain ⟨n, hn⟩ := h
  induction hn with
  | refl => exact .refl _
  | cons hstep _ ih => exact (Grows.step hstep).trans ih

/-- A run that ends without faults has none on the way. -/
theorem Leads.faultless {c d : Config} (h : Leads c d) (hd : d.faults = []) : c.faults = [] :=
  h.grows.faultless hd

end Config

end YamlPatch
