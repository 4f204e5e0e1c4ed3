import YamlPatch.Proofs.Run
import YamlPatch.Tree.Cursor

/-!
# What a run has built, as a list

The parser builds its tree from left to right, so the tree can be written down as the list of
what happens on the way : a node is opened, a token is put in, a node is closed (`Event`). The
events of a tree determine it (`Tree.eventsOf_inj`), even if more events follow.

`Config.log` is the list for a configuration, in which the nodes under construction are open. A
move adds events at its end and changes nothing before them, and it changes the open tasks
(`Config.tasks`) only at the top. What the trees in a configuration are never decides what
happens next, so log, tasks, slot and the tokens left are all there is to know.

The list is used where two texts are parsed that share a beginning or an end. The trees that are
under construction at the border are different, and cannot be compared before they are complete;
the events up to the border, and those behind it, can. In the end the events of both runs are
those of their trees, and `Cursor.eventsOf_rebuild` cuts these at a place in the tree.
-/

namespace YamlPatch

open TokenKind

/-- What happens while a tree is built from left to right. -/
inductive Event where
  | opening (k : NodeKind)
  | leaf (t : Token)
  | closing
  deriving DecidableEq, Repr

namespace Tree

mutual

/-- How a tree is built. -/
def events : Tree → List Event
  | .token t => [.leaf t]
  | .node k ts => .opening k :: eventsOf ts ++ [.closing]

/-- How several trees are built. -/
def eventsOf : List Tree → List Event
  | [] => []
  | t :: ts => t.events ++ eventsOf ts

end

@[simp] theorem eventsOf_nil : eventsOf [] = [] := rfl

@[simp] theorem eventsOf_cons (t : Tree) (ts : List Tree) :
    eventsOf (t :: ts) = t.events ++ eventsOf ts := rfl

/-- Trees are built one after the other. -/
@[simp] theorem eventsOf_append (ss ts : List Tree) :
    eventsOf (ss ++ ts) = eventsOf ss ++ eventsOf ts := by
  induction ss with
  | nil => rfl
  | cons s ss ih => simp [ih]

@[simp] theorem events_token (t : Token) : (token t).events = [.leaf t] := rfl

/-- A node is opened, the trees under it are built, and it is closed. -/
theorem events_node (k : NodeKind) (ts : List Tree) :
    (node k ts).events = .opening k :: (eventsOf ts ++ [.closing]) := rfl

/-- Tokens that become leaves one after the other. -/
theorem eventsOf_tokens (ts : List Token) : eventsOf (ts.map token) = ts.map .leaf := by
  induction ts with
  | nil => rfl
  | cons t ts ih => simp [ih]

mutual

/-- The events of a tree are not the beginning of those of another. -/
theorem events_inj :
    ∀ (t u : Tree) {a b : List Event}, t.events ++ a = u.events ++ b → t = u ∧ a = b
  | .token x, .token y, a, b, h => by simpa using h
  | .token x, .node k us, a, b, h => by simp [events_node] at h
  | .node k ts, .token y, a, b, h => by simp [events_node] at h
  | .node k ts, .node l us, a, b, h => by
    simp only [events_node, List.cons_append, List.append_assoc,
      List.cons.injEq, Event.opening.injEq] at h
    obtain ⟨rfl, rfl⟩ := eventsOf_inj ts us h.2
    exact ⟨by rw [h.1], rfl⟩

/-- Two lists of trees in open nodes are the same if what happens up to the end of the nodes and
behind it is the same. The end of the node tells where the list stops. -/
theorem eventsOf_inj : ∀ (ts us : List Tree) {a b : List Event},
    eventsOf ts ++ .closing :: a = eventsOf us ++ .closing :: b → ts = us ∧ a = b
  | [], [], a, b, h => by simpa using h
  | [], .token x :: us, a, b, h => by simp at h
  | [], .node k vs :: us, a, b, h => by simp [events_node] at h
  | .token x :: ts, [], a, b, h => by simp at h
  | .node k vs :: ts, [], a, b, h => by simp [events_node] at h
  | t :: ts, u :: us, a, b, h => by
    simp only [eventsOf_cons, List.append_assoc] at h
    obtain ⟨ht, h⟩ := events_inj t u h
    obtain ⟨hts, hab⟩ := eventsOf_inj ts us h
    exact ⟨by rw [ht, hts], hab⟩

end

/-- Trees that are built in the same way are the same. -/
theorem eq_of_eventsOf_eq {ts us : List Tree} (h : eventsOf ts = eventsOf us) : ts = us :=
  (eventsOf_inj ts us (a := []) (b := []) (by rw [h])).1

end Tree

open YamlPatch.Tree Event

/-! ## The tokens among events

Leaving out where nodes are opened and closed, one has the leaves. -/

/-- The tokens that are put in. -/
def Event.tokens (es : List Event) : List Token :=
  es.filterMap fun e => match e with
    | leaf t => some t
    | _ => none

namespace Event

@[simp] theorem tokens_nil : tokens [] = [] := rfl

/-- Tokens are put in one after the other. -/
@[simp] theorem tokens_append (es fs : List Event) : tokens (es ++ fs) = tokens es ++ tokens fs :=
  List.filterMap_append

@[simp] theorem tokens_opening (k : NodeKind) (es : List Event) :
    tokens (opening k :: es) = tokens es := rfl

@[simp] theorem tokens_leaf (t : Token) (es : List Event) :
    tokens (leaf t :: es) = t :: tokens es := rfl

@[simp] theorem tokens_closing (es : List Event) : tokens (closing :: es) = tokens es := rfl

@[simp] theorem tokens_map_leaf (ts : List Token) : tokens (ts.map leaf) = ts := by
  induction ts with
  | nil => rfl
  | cons t ts ih => simp [ih]

mutual

/-- The tokens put in while a tree is built are its leaves. -/
@[simp] theorem tokens_events : ∀ t : Tree, tokens t.events = t.leaves
  | .token t => rfl
  | .node k ts => by simp [events_node, leaves, tokens_eventsOf ts]

@[simp] theorem tokens_eventsOf : ∀ ts : List Tree, tokens (eventsOf ts) = leavesOf ts
  | [] => rfl
  | t :: ts => by simp [leavesOf, tokens_events t, tokens_eventsOf ts]

end

end Event

namespace Crumb

/-- What is built before the place that the crumbs surround, in a tree whose root is open. -/
def eventsBefore : List Crumb → List Event
  | [] => []
  | [b] => eventsOf b.before
  | b :: bs => eventsBefore bs ++ opening b.kind :: eventsOf b.before

/-- What is built behind the place, up to the end of the root's children. -/
def eventsAfter : List Crumb → List Event
  | [] => []
  | [b] => eventsOf b.after
  | b :: bs => eventsOf b.after ++ closing :: eventsAfter bs

/-- A place in a node lies behind the children before it, and behind what is before the node. -/
theorem eventsBefore_cons (b : Crumb) {bs : List Crumb} (h : bs ≠ []) :
    eventsBefore (b :: bs) = eventsBefore bs ++ opening b.kind :: eventsOf b.before := by
  cases bs with
  | nil => exact absurd rfl h
  | cons c cs => rfl

/-- Behind it come the other children, and what is behind the node once that is closed. -/
theorem eventsAfter_cons (b : Crumb) {bs : List Crumb} (h : bs ≠ []) :
    eventsAfter (b :: bs) = eventsOf b.after ++ closing :: eventsAfter bs := by
  cases bs with
  | nil => exact absurd rfl h
  | cons c cs => rfl

/-- The tokens built around a place are those of the text around it. -/
theorem join_tokens_eventsBefore :
    ∀ bs : List Crumb, Token.join (Event.tokens (eventsBefore bs)) = textBefore bs
  | [] => rfl
  | [b] => by simp [eventsBefore, textBefore, textOf]
  | b :: c :: bs => by
    simp [eventsBefore, textBefore, textOf, join_tokens_eventsBefore (c :: bs)]

/-- So are those built behind it. -/
theorem join_tokens_eventsAfter :
    ∀ bs : List Crumb, Token.join (Event.tokens (eventsAfter bs)) = textAfter bs
  | [] => rfl
  | [b] => by simp [eventsAfter, textAfter, textOf]
  | b :: c :: bs => by
    simp [eventsAfter, textAfter, textOf, join_tokens_eventsAfter (c :: bs)]

end Crumb

/-- Around a place that is not the root itself, a tree is built as its crumbs say. -/
theorem Cursor.eventsOf_rebuild (t : Tree) {bs : List Crumb} (h : bs ≠ []) :
    eventsOf (Cursor.rebuild ⟨t, bs⟩).children =
      Crumb.eventsBefore bs ++ t.events ++ Crumb.eventsAfter bs := by
  induction bs generalizing t with
  | nil => exact absurd rfl h
  | cons b bs ih =>
    cases bs with
    | nil => simp [rebuild, Crumb.fill, children, Crumb.eventsBefore, Crumb.eventsAfter]
    | cons c cs =>
      have hr : rebuild ⟨t, b :: c :: cs⟩ = rebuild ⟨b.fill t, c :: cs⟩ := rfl
      rw [hr, ih _ (by simp)]
      simp [Crumb.fill, events_node, Crumb.eventsBefore, Crumb.eventsAfter]

namespace Config

/-! ## The log and the tasks

These equations say what a move does to the log, the tasks, the faults and the slot, so that no
later proof has to open a move. -/

/-- What has been built so far, the nodes under construction being open. -/
def log (c : Config) : List Event :=
  eventsOf c.finished ++
    c.frames.reverse.flatMap fun f => opening f.task.nodeKind :: eventsOf f.done

/-- The tokens built are those of the log. -/
theorem tokens_log (c : Config) : Event.tokens c.log = c.built := by
  have hframes (fs : List Frame) :
      Event.tokens (fs.flatMap fun f => opening f.task.nodeKind :: eventsOf f.done) =
      fs.flatMap fun f => leavesOf f.done := by
    induction fs with
    | nil => rfl
    | cons f fs ih => simp [ih]
  simp [log, built, hframes]

/-- The nodes under construction, innermost first. -/
def tasks (c : Config) : List Task := c.frames.map Frame.task

/-- The next `n` tokens as events. -/
def leavesAhead (c : Config) (n : Nat) : List Event :=
  ((c.rest.take n).map Lexeme.token).map leaf

/-- The trees made of the next tokens are leaves. -/
theorem eventsOf_ahead (c : Config) (n : Nat) : eventsOf (c.ahead n) = c.leavesAhead n := by
  have h : c.ahead n = ((c.rest.take n).map Lexeme.token).map Tree.token := by
    simp [ahead, Function.comp_def]
  rw [h, eventsOf_tokens, leavesAhead]

/-- Trees that are put into the innermost node stand at the end of the log. -/
theorem log_add (c : Config) (ts : List Tree) : (c.add ts).log = c.log ++ eventsOf ts := by
  unfold add
  split <;> simp_all [log]

@[simp] theorem tasks_add (c : Config) (ts : List Tree) : (c.add ts).tasks = c.tasks := by
  unfold add
  split <;> simp_all [tasks]

@[simp] theorem faults_add (c : Config) (ts : List Tree) : (c.add ts).faults = c.faults := by
  unfold add; split <;> rfl

/-- Taking tokens adds leaves to the log. -/
@[simp] theorem log_take (c : Config) (n : Nat) : (c.take n).log = c.log ++ c.leavesAhead n := by
  rw [← eventsOf_ahead, ← log_add]
  rfl

/-- A node around tokens is opened and closed in the log. -/
@[simp] theorem log_wrap (c : Config) (k : NodeKind) (n : Nat) :
    (c.wrap k n).log = c.log ++ opening k :: (c.leavesAhead n ++ [closing]) := by
  have h : (c.wrap k n).log = (c.add [.node k (c.ahead n)]).log := rfl
  rw [h, log_add]
  simp [events_node, eventsOf_ahead]

/-- Opening a node adds one event. -/
@[simp] theorem log_push (c : Config) (t : Task) :
    (c.push t).log = c.log ++ [opening t.nodeKind] := by
  simp [log, push]

/-- So does closing one, provided that a node is open. -/
theorem log_close {c : Config} {t : Task} {ts : List Task} (h : c.tasks = t :: ts) :
    c.close.log = c.log ++ [closing] := by
  unfold close
  split
  · simp_all [tasks]
  · rename_i f fs hf
    rw [log_add]
    simp [log, hf, Frame.tree, events_node]

@[simp] theorem log_await (c : Config) (s : Slot) : (c.await s).log = c.log := rfl

@[simp] theorem log_report (c : Config) (p : Problem) : (c.report p).log = c.log := rfl

@[simp] theorem tasks_take (c : Config) (n : Nat) : (c.take n).tasks = c.tasks := tasks_add c _

@[simp] theorem tasks_wrap (c : Config) (k : NodeKind) (n : Nat) :
    (c.wrap k n).tasks = c.tasks := tasks_add c _

@[simp] theorem tasks_push (c : Config) (t : Task) : (c.push t).tasks = t :: c.tasks := rfl

/-- Closing a node leaves the tasks below it. -/
@[simp] theorem tasks_close (c : Config) : c.close.tasks = c.tasks.tail := by
  unfold close
  split
  · simp_all [tasks]
  · rename_i f fs hf
    rw [tasks_add]
    simp [tasks, hf]

@[simp] theorem tasks_await (c : Config) (s : Slot) : (c.await s).tasks = c.tasks := rfl

@[simp] theorem tasks_report (c : Config) (p : Problem) : (c.report p).tasks = c.tasks := rfl

@[simp] theorem faults_take (c : Config) (n : Nat) : (c.take n).faults = c.faults := faults_add c _

@[simp] theorem faults_wrap (c : Config) (k : NodeKind) (n : Nat) :
    (c.wrap k n).faults = c.faults := faults_add c _

@[simp] theorem faults_push (c : Config) (t : Task) : (c.push t).faults = c.faults := rfl

@[simp] theorem faults_close (c : Config) : c.close.faults = c.faults := by
  unfold close; split <;> simp

@[simp] theorem faults_await (c : Config) (s : Slot) : (c.await s).faults = c.faults := rfl

@[simp] theorem slot_wrap (c : Config) (k : NodeKind) (n : Nat) :
    (c.wrap k n).slot = c.slot := slot_add c _

@[simp] theorem slot_push (c : Config) (t : Task) : (c.push t).slot = c.slot := rfl

@[simp] theorem slot_close (c : Config) : c.close.slot = c.slot := by
  unfold close; split <;> simp

@[simp] theorem slot_report (c : Config) (p : Problem) : (c.report p).slot = c.slot := rfl

@[simp] theorem slot_await (c : Config) (s : Slot) : (c.await s).slot = some s := rfl

@[simp] theorem rest_await (c : Config) (s : Slot) : (c.await s).rest = c.rest := rfl

/-- Without tasks no node is under construction. -/
theorem frames_eq_nil {c : Config} (h : c.tasks = []) : c.frames = [] := by
  simpa [tasks] using h

/-- The frames are the tasks with the trees finished in each. -/
theorem frames_eq_cons {c : Config} {t : Task} {ts : List Task} (h : c.tasks = t :: ts) :
    ∃ done fs, c.frames = ⟨t, done⟩ :: fs ∧ fs.map Frame.task = ts := by
  obtain ⟨f, fs, hf, rfl, hfs⟩ := List.map_eq_cons_iff.mp h
  exact ⟨f.done, fs, hf, hfs⟩

/-- Without open nodes the log is what is finished. -/
theorem log_of_tasks_nil {c : Config} (h : c.tasks = []) : c.log = eventsOf c.finished := by
  simp [log, frames_eq_nil h]

/-- What the innermost task does next. -/
theorem step_of_tasks {c : Config} {t : Task} {ts : List Task} (hs : c.slot = none)
    (h : c.tasks = t :: ts) : c.step = some (c.stepTask t) := by
  obtain ⟨done, fs, hf, -⟩ := frames_eq_cons h
  simp [step, hs, hf]

/-- If something waits to be filled then that is done first. -/
theorem step_of_slot {c : Config} {s : Slot} (hs : c.slot = some s) :
    c.step = some (({ c with slot := none } : Config).fill s) := by
  simp [step, hs]

/-- Between documents the stream decides. -/
theorem step_of_tasks_nil {c : Config} (hs : c.slot = none) (h : c.tasks = []) :
    c.step = c.stepStream := by
  simp [step, hs, frames_eq_nil h]

end Config

end YamlPatch
