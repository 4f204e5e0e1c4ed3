import YamlPatch.Proofs.Bumps
import YamlPatch.Proofs.Versions

/-!
# What a bump leaves in a project

The fields of a project that a bump may write are apart from one another (`Plan.projectFields`),
so none of its writes undoes another. Neither does one reach a scalar elsewhere : a write that
succeeds has passed mappings only and has not come to one, so a scalar at another path is apart
from it (`Cursor.apart_of_isScalar`). Hence a bumped project shows what the plan was made from :
the versions of the components before the bump, the default channel, and all scalars at other
paths (`Plan.shown_of_project`).

The second of two bumps finds what the first one left (`Plan.chain_of_project`) : it cuts the
release that was next, and what it records of the previous release is what the first one wrote
of its own.

A plan leaves out the fields of which the project has nothing to record. So what is known of its
writes is that their paths are some of the fields above, in the same order, and that is enough
for them to be apart (`Plan.path_projectUpdates`).
-/

namespace YamlPatch

open YamlPatch.Tree

namespace Release.Plan

/-- A scalar at a path that is not written is apart from all that are. -/
theorem apart_of_applyUpdates {us : List Update} {t t' d : Tree} (hv : ∀ u ∈ us, u.value.Made)
    (h : applyUpdates .error us t = (t', none)) {q : KeyPath}
    (hd : ((Cursor.ofTree t).find? q).map Cursor.focus = some d) (hscalar : d.isNode .scalar = true)
    (hq : ∀ u ∈ us, u.path ≠ q) : ∀ u ∈ us, u.path.Apart q := by
  induction us generalizing t with
  | nil => simp
  | cons u us ih =>
    obtain ⟨t₁, ht, h⟩ := exists_of_applyUpdates_cons h
    obtain ⟨c, hc, rfl⟩ := Option.map_eq_some_iff.mp hd
    have hapart := Cursor.apart_of_isScalar ht hc hscalar (hq u (by simp))
    obtain ⟨y, new, rfl, -, -, hrest⟩ := Cursor.exists_of_set (hv u (by simp)) ht
    have ih := ih (fun w hw => hv w (by simp [hw])) h ((hrest q hapart).trans hd)
      fun w hw => hq w (by simp [hw])
    intro w hw
    rcases List.mem_cons.mp hw with rfl | hw
    · exact hapart
    · exact ih w hw

/-! ## The fields of a project

The list of all fields is fixed. A plan leaves out some of them and keeps the order of the
others. -/

/-- The fields that the bump of a project may write, in the order of the writes. -/
def projectFields : List KeyPath :=
  [field "project" ["version"], field "dependencies" ["redhat-knative-istio-authz-chart"],
    field "olm" ["replaces"], field "olm" ["skipRange"], field "olm" ["channels", "list"]] ++
    components.map (fun k => field "dependencies" ["previous", k]) ++
    [field "olm" ["previous", "replaces"], field "olm" ["previous", "skipRange"]]

/-- No field is on the way to another. -/
theorem projectFields_apart : projectFields.Pairwise KeyPath.Apart := by
  unfold KeyPath.Apart
  decide +kernel

/-- A component is recorded at one field, or not at all. -/
theorem path_recordComponent (x : Tree) (k : String) :
    ((recordComponent x k).map Update.path).Sublist [field "dependencies" ["previous", k]] := by
  unfold recordComponent
  cases readField x (field "dependencies" [k]) <;> simp

/-- What is recorded of the release before goes to two fields, or to none of them. -/
theorem path_previousUpdates (v : Version) : ((previousUpdates v).map Update.path).Sublist
    [field "olm" ["previous", "replaces"], field "olm" ["previous", "skipRange"]] := by
  unfold previousUpdates
  split <;> simp

/-- A plan leaves out fields, and writes the others in this order. -/
theorem path_projectUpdates (x : Tree) (current next : Version) :
    ((projectUpdates x current next).map Update.path).Sublist projectFields := by
  have hcomponents : ((components.flatMap (recordComponent x)).map Update.path).Sublist
      (components.map fun k => field "dependencies" ["previous", k]) := by
    simp only [components, List.flatMap_cons, List.flatMap_nil, List.map_append, List.map_cons,
      List.map_nil]
    exact (path_recordComponent x _).append ((path_recordComponent x _).append
      ((path_recordComponent x _).append (List.Sublist.refl _)))
  unfold projectUpdates projectFields
  simp only [List.map_append]
  exact ((List.Sublist.refl _).append hcomponents).append (path_previousUpdates current)

/-- Texts are values that are made in the usual ways. -/
theorem allMade_map_ofText (ts : List Text) : Value.AllMade (ts.map Value.ofText) := by
  induction ts with
  | nil => trivial
  | cons t ts ih => exact ⟨.ofText t, ih⟩

/-- All values of a plan are texts or lists of texts. -/
theorem made_of_mem_projectUpdates {x : Tree} {current next : Version} {u : Update}
    (h : u ∈ projectUpdates x current next) : u.value.Made := by
  have htext (t : Text) : (Value.ofText t).Made := .ofText t
  simp only [projectUpdates, List.mem_append] at h
  rcases h with (h | h) | h
  · simp only [List.mem_cons, List.not_mem_nil, or_false] at h
    rcases h with rfl | rfl | rfl | rfl | rfl
    · exact htext _
    · exact htext _
    · exact htext _
    · exact htext _
    · exact allMade_map_ofText _
  · obtain ⟨k, -, h⟩ := List.mem_flatMap.mp h
    simp only [recordComponent, Option.mem_toList, Option.map_eq_some_iff] at h
    obtain ⟨s, -, rfl⟩ := h
    exact htext s
  · unfold previousUpdates at h
    split at h
    · simp only [List.mem_cons, List.not_mem_nil, or_false] at h
      rcases h with rfl | rfl
      · exact htext _
      · exact htext _
    · cases h

/-- The parts of a plan : the release being cut, the one behind it, and what is written for the
two. -/
theorem of_ofProject {x : Tree} {branch : Option Text} {plan : Plan}
    (h : ofProject x branch = .ok plan) :
    currentRelease x (field "project" ["version"]) branch = .ok plan.current ∧
      plan.next = plan.current.nextMinor ∧
      plan.updates = projectUpdates x plan.current plan.next := by
  unfold ofProject at h
  cases hc : currentRelease x (field "project" ["version"]) branch with
  | error e => simp [hc, Except.map] at h
  | ok current =>
    simp only [hc, Except.map, Except.ok.injEq] at h
    subst h
    exact ⟨rfl, rfl, rfl⟩

variable {x t : Tree} {branch : Option Text} {plan : Plan}

/-- A write of a plan goes to one of the fields. -/
theorem mem_projectFields (hplan : ofProject x branch = .ok plan) {u : Update}
    (hu : u ∈ plan.updates) : u.path ∈ projectFields := by
  rw [(of_ofProject hplan).2.2] at hu
  exact (path_projectUpdates x plan.current plan.next).subset (List.mem_map_of_mem hu)

/-- It writes a value that is made in the usual ways. -/
theorem made_of_mem_project (hplan : ofProject x branch = .ok plan) :
    ∀ u ∈ plan.updates, u.value.Made := by
  rw [(of_ofProject hplan).2.2]
  exact fun u => made_of_mem_projectUpdates

/-- Without a branch the release being cut is that of the version in the document. -/
theorem current_of_ofProject (hplan : ofProject x none = .ok plan) :
    ∃ s v, readField x (field "project" ["version"]) = some s ∧ readVersion s = .ok v ∧
      plan.current = v.release := by
  have hc := (of_ofProject hplan).1
  simp only [currentRelease] at hc
  split at hc
  · rename_i s hs
    cases hv : readVersion s with
    | error e => simp [hv, Except.map] at hc
    | ok v =>
      simp only [hv, Except.map, Except.ok.injEq] at hc
      exact ⟨s, v, (Option.filter_eq_some_iff.mp hs).1, hv, hc.symm⟩
  · cases hc

/-- All that a project bump has written is found. -/
theorem project_shown (hplan : ofProject x branch = .ok plan)
    (h : plan.apply .error x = (t, none)) :
    ∀ u ∈ plan.updates, ∃ new, ((Cursor.ofTree t).find? u.path).map Cursor.focus = some new ∧
      u.value.ShownBy new := by
  have hpaths : plan.updates.Pairwise fun u w => u.path.Apart w.path := by
    rw [(of_ofProject hplan).2.2]
    exact List.pairwise_map.mp
      (projectFields_apart.sublist (path_projectUpdates x plan.current plan.next))
  exact applyUpdates_shown (made_of_mem_project hplan) hpaths h

/-- A field apart from those of a project is read as before. -/
theorem readField_of_project (hplan : ofProject x branch = .ok plan)
    (h : plan.apply .error x = (t, none)) {q : KeyPath} (hq : ∀ p ∈ projectFields, p.Apart q) :
    readField t q = readField x q := by
  rw [readField, readField, Cursor.string?_eq, Cursor.string?_eq,
    applyUpdates_apart (made_of_mem_project hplan) h fun u hu => hq _ (mem_projectFields hplan hu)]

/-- No component is a field that is written, or on the way to one. -/
theorem apart_component :
    ∀ k ∈ components, ∀ p ∈ projectFields, p.Apart (field "dependencies" [k]) := by
  unfold KeyPath.Apart
  decide +kernel

/-! ## A project

The statements below are about every document. This one takes part in all the writes of a plan. -/

/-- A project with all three components. The versions of serving and of the broker need quotes,
and that of eventing is plain. -/
def sample : Tree :=
  let entry (k : String) (v : Value) : Text × Value := (k.toList, v)
  let text (s : String) : Value := .ofText s.toList
  (Value.mapping [
    entry "project" (.mapping [entry "version" (text "1.2.3")]),
    entry "dependencies" (.mapping [
      entry "redhat-knative-istio-authz-chart" (text "1.2.0"),
      entry "serving" (text "v1: '1'"),
      entry "eventing" (text "knative-v1.2"),
      entry "eventing_kafka_broker" (text "1.20"),
      entry "previous" (.mapping [
        entry "serving" (text "v1"),
        entry "eventing" (text ""),
        entry "eventing_kafka_broker" (text "1.10")])]),
    entry "olm" (.mapping [
      entry "replaces" (text "1.1.0"),
      entry "skipRange" (text ">=1.1.0 <1.2.0"),
      entry "channels" (.mapping [entry "default" (text "stable"), entry "list" (.sequence [])]),
      entry "previous"
        (.mapping [entry "replaces" (text ""), entry "skipRange" (text "")])])]).flowTree

/-- The sample is a project at 1.2.3. -/
theorem version_of_sample :
    readField sample (field "project" ["version"]) = some "1.2.3".toList ∧
      readVersion "1.2.3".toList = .ok (Version.ofNumbers 1 2 3) :=
  ⟨by decide +kernel, by rfl⟩

/-- The release that a bump of the sample cuts is 1.2. -/
theorem current_of_sample (hplan : ofProject sample none = .ok plan) :
    plan.current = Version.ofNumbers 1 2 0 := by
  obtain ⟨s, v, hs, hv, hcurrent⟩ := current_of_ofProject hplan
  obtain ⟨hversion, hread⟩ := version_of_sample
  obtain rfl : "1.2.3".toList = s := Option.some.inj (hversion.symm.trans hs)
  obtain rfl : Version.ofNumbers 1 2 3 = v := Except.ok.inj (hread.symm.trans hv)
  exact hcurrent

/-- A document after a bump without a branch that succeeds. -/
def bumped? (x : Tree) : Option Tree :=
  match ofProject x none with
  | .ok plan =>
    match plan.apply .error x with
    | (t, none) => some t
    | (_, some _) => none
  | .error _ => none

/-- Such a document has come about by a plan that was made as a whole. -/
theorem exists_plan_of_bumped? (h : bumped? x = some t) :
    ∃ plan, ofProject x none = .ok plan ∧ plan.apply .error x = (t, none) := by
  unfold bumped? at h
  split at h
  · rename_i plan hplan
    split at h
    · cases h
      exact ⟨plan, hplan, ‹_›⟩
    · cases h
  · cases h

/-! ## What a project shows

Since the fields are apart, the last word about each of them is the one write that it gets. -/

/-- A project that has been bumped shows the document it was before. Every value that was planned is
found at its path. The versions of serving, of eventing and of the Kafka broker of eventing are each
recorded and kept, if the project has them. The channels are the default channel, if there was one,
and the stable channel of the next release. All scalars at paths that were not planned are left as
they were. -/
theorem shown_of_project (hplan : ofProject x branch = .ok plan)
    (h : plan.apply .error x = (t, none)) :
    (∀ u ∈ plan.updates, ∃ d, (Cursor.ofTree t).find? u.path = some d ∧ u.value.IsReadAs d.focus) ∧
      (∀ k ∈ ["serving", "eventing", "eventing_kafka_broker"],
        ∀ s, readField x (field "dependencies" [k]) = some s →
          (∃ d, (Cursor.ofTree t).find? (field "dependencies" ["previous", k]) = some d ∧
            d.focus.isNode .scalar = true ∧ Scalar.value d.focus = s) ∧
          readField t (field "dependencies" [k]) = some s) ∧
      (∃ d, (Cursor.ofTree t).find? (field "olm" ["channels", "list"]) = some d ∧
        (Value.sequence (((readField x (field "olm" ["channels", "default"])).toList ++
          ["stable-".toList ++ naturalText plan.next.major ++ '.' ::
            naturalText plan.next.minor]).map Value.ofText)).IsReadAs d.focus) ∧
      ∀ q d, (∀ u ∈ plan.updates, u.path ≠ q) → (Cursor.ofTree x).find? q = some d →
        d.focus.isNode .scalar = true → ((Cursor.ofTree t).find? q).map Cursor.focus =
          some d.focus := by
  have hfound : ∀ u ∈ plan.updates, ∃ d, (Cursor.ofTree t).find? u.path = some d ∧
      u.value.IsReadAs d.focus := by
    intro u hu
    obtain ⟨new, hnew, hs⟩ := project_shown hplan h u hu
    obtain ⟨d, hd, rfl⟩ := Option.map_eq_some_iff.mp hnew
    exact ⟨d, hd, hs.reads⟩
  have hupdates := (of_ofProject hplan).2.2
  -- A component is recorded by one of the writes, and kept because its own field is apart from
  -- all of them.
  refine ⟨hfound, fun k hk s hs => ⟨?_, ?_⟩, ?_, fun q d hq hd hscalar => ?_⟩
  · have hmem : ⟨field "dependencies" ["previous", k], .ofText s⟩ ∈ plan.updates := by
      have hk : k ∈ components := hk
      have : ⟨field "dependencies" ["previous", k], .ofText s⟩ ∈
          components.flatMap (recordComponent x) :=
        List.mem_flatMap.mpr ⟨k, hk, by simp [recordComponent, hs]⟩
      simp [hupdates, projectUpdates, this]
    exact hfound _ hmem
  · rw [readField_of_project hplan h (apart_component k hk), hs]
  · refine hfound ⟨field "olm" ["channels", "list"], .sequence (channels x plan.next)⟩ ?_
    simp [hupdates, projectUpdates]
  · have hv := made_of_mem_project hplan
    have hd' : ((Cursor.ofTree x).find? q).map Cursor.focus = some d.focus := by
      rw [hd, Option.map_some]
    rw [applyUpdates_apart hv h (apart_of_applyUpdates hv h hd' hscalar hq), hd']

/-- The version of each component is recorded in place of the one that was there before, and is
kept itself. The channels are the default channel of the sample and that of release 1.3. -/
theorem shown_of_sample :
    ∃ plan t, ofProject sample none = .ok plan ∧
      plan.apply .error sample = (t, none) ∧
      (∀ e ∈ [("serving", "v1: '1'"), ("eventing", "knative-v1.2"),
          ("eventing_kafka_broker", "1.20")],
        readField sample (field "dependencies" [e.1]) = some e.2.toList ∧
          readField t (field "dependencies" [e.1]) = some e.2.toList ∧
          ∃ d, (Cursor.ofTree t).find? (field "dependencies" ["previous", e.1]) = some d ∧
            d.focus.isNode .scalar = true ∧ Scalar.value d.focus = e.2.toList) ∧
      ∃ d, (Cursor.ofTree t).find? (field "olm" ["channels", "list"]) = some d ∧
        (Value.sequence (["stable".toList, "stable-1.3".toList].map Value.ofText)).IsReadAs
          d.focus := by
  have hbumped : (bumped? sample).isSome = true := by decide +kernel
  have hdefault : readField sample (field "olm" ["channels", "default"]) =
      some "stable".toList := by decide +kernel
  have hversions : ∀ e ∈ [("serving", "v1: '1'"), ("eventing", "knative-v1.2"),
        ("eventing_kafka_broker", "1.20")],
      readField sample (field "dependencies" [e.1]) = some e.2.toList := by decide +kernel
  obtain ⟨t, ht⟩ := Option.isSome_iff_exists.mp hbumped
  obtain ⟨plan, hplan, h⟩ := exists_plan_of_bumped? ht
  have hnext : plan.next = Version.ofNumbers 1 3 0 := by
    rw [(of_ofProject hplan).2.1, current_of_sample hplan]
    decide
  obtain ⟨-, hcomponents, hchannels, -⟩ := shown_of_project hplan h
  refine ⟨plan, t, hplan, h, fun e he => ?_, ?_⟩
  · have hname : e.1 ∈ ["serving", "eventing", "eventing_kafka_broker"] :=
      List.mem_map_of_mem he
    obtain ⟨hrecorded, hkept⟩ := hcomponents e.1 hname _ (hversions e he)
    exact ⟨hversions e he, hkept, hrecorded⟩
  · rw [hdefault, hnext] at hchannels
    exact hchannels

/-! ## One bump after another

The second plan is made from what the first one has written, read back field by field. -/

/-- The text of a version without a name is read as that version. -/
theorem eq_of_readVersion {v w : Version} (hv : v.IsBare) (h : readVersion v.text = .ok w) :
    w = v := by
  unfold readVersion at h
  rw [hv.trim_text] at h
  split at h
  · cases h
    exact hv.eq_of_parse ‹_›
  · cases h

/-- A text that was planned is read, unless it starts with a word for null. -/
theorem readField_of_mem (hplan : ofProject x branch = .ok plan)
    (h : plan.apply .error x = (t, none)) {p : KeyPath} {s : Text}
    (hmem : ⟨p, .ofText s⟩ ∈ plan.updates) (hs : ¬StartsNull s) : readField t p = some s := by
  obtain ⟨new, hnew, hshown⟩ := project_shown hplan h _ hmem
  exact Cursor.string?_of_shownBy hnew hshown hs

/-- A range of versions starts with a sign, not with a word for null. -/
theorem not_startsNull_skipRange (a b : Version) : ¬StartsNull (Version.skipRange a b) := by
  have hchar : isBlank '>' = false := by decide
  simp [StartsNull, Version.skipRange, isWordChar, hchar, nullWords]

/-- What the plan says about the release being cut is read in the project. -/
theorem readField_own (hplan : ofProject x branch = .ok plan)
    (h : plan.apply .error x = (t, none)) :
    readField t (field "project" ["version"]) = some plan.next.text ∧
      readField t (field "olm" ["replaces"]) = some plan.current.text ∧
      readField t (field "olm" ["skipRange"]) =
        some (Version.skipRange plan.current plan.next) := by
  have hupdates := (of_ofProject hplan).2.2
  exact ⟨readField_of_mem hplan h (by simp [hupdates, projectUpdates, versionValue])
    (Version.not_startsNull _),
    readField_of_mem hplan h (by simp [hupdates, projectUpdates, versionValue])
      (Version.not_startsNull _),
    readField_of_mem hplan h (by simp [hupdates, projectUpdates]) (not_startsNull_skipRange _ _)⟩

/-- So is what it says about the one before, if there is one. -/
theorem readField_previous (hplan : ofProject x branch = .ok plan)
    (h : plan.apply .error x = (t, none)) {previous : Version}
    (hp : plan.current.previousMinor? = some previous) :
    readField t (field "olm" ["previous", "replaces"]) = some previous.text ∧
      readField t (field "olm" ["previous", "skipRange"]) =
        some (Version.skipRange previous plan.current) := by
  have hupdates := (of_ofProject hplan).2.2
  exact ⟨readField_of_mem hplan h
      (by simp [hupdates, projectUpdates, previousUpdates, hp, versionValue])
      (Version.not_startsNull _),
    readField_of_mem hplan h (by simp [hupdates, projectUpdates, previousUpdates, hp])
      (not_startsNull_skipRange _ _)⟩

/-- The upgrade graph goes on from bump to bump. If the version of a project has no name, its minor
number does not overflow, and the project is bumped twice without a branch, then the second bump
cuts the release that was next in the first. What it records of the previous release is what the
first one wrote of its own, and the range of the previous release ends where the new range begins,
at the version that is replaced. -/
theorem chain_of_project {x t₁ t₂ : Tree} {first second : Plan} {s : Text} {v : Version}
    (hs : readField x (field "project" ["version"]) = some s) (hv : readVersion s = .ok v)
    (hname : v.pre = [] ∧ v.build = []) (hminor : v.minor + 1 < UInt64.size)
    (hfirst : ofProject x none = .ok first) (h₁ : first.apply .error x = (t₁, none))
    (hsecond : ofProject t₁ none = .ok second)
    (h₂ : second.apply .error t₁ = (t₂, none)) :
    second.current = first.next ∧
      (readField t₁ (field "olm" ["replaces"]) = some first.current.text ∧
        readField t₂ (field "olm" ["previous", "replaces"]) =
          readField t₁ (field "olm" ["replaces"])) ∧
      (readField t₁ (field "olm" ["skipRange"]) =
        some (Version.skipRange first.current first.next) ∧
        readField t₂ (field "olm" ["previous", "skipRange"]) =
          readField t₁ (field "olm" ["skipRange"])) ∧
      ∃ lower middle upper,
        (readField t₂ (field "olm" ["previous", "skipRange"])).bind Version.bounds? =
          some (lower, middle) ∧
        (readField t₂ (field "olm" ["skipRange"])).bind Version.bounds? = some (middle, upper) ∧
        readField t₂ (field "olm" ["replaces"]) = some middle := by
  obtain ⟨s₁, v₁, hs₁, hv₁, hcurrent⟩ := current_of_ofProject hfirst
  obtain rfl : s = s₁ := Option.some.inj (hs.symm.trans hs₁)
  obtain rfl : v = v₁ := Except.ok.inj (hv.symm.trans hv₁)
  have hbare : first.current.IsBare := hcurrent ▸ Version.IsBare.release hname
  have hnext : first.next = first.current.nextMinor := (of_ofProject hfirst).2.1
  obtain ⟨hversion, hreplaces, hrange⟩ := readField_own hfirst h₁
  -- the second bump reads the version that the first has written
  obtain ⟨s₂, v₂, hs₂, hv₂, hcut⟩ := current_of_ofProject hsecond
  obtain rfl : first.next.text = s₂ := Option.some.inj (hversion.symm.trans hs₂)
  have hbare' : first.next.IsBare := hnext ▸ Version.isBare_nextMinor _
  have hsame : second.current = first.next := by
    rw [hcut, eq_of_readVersion hbare' hv₂, hnext]
    rfl
  have hprevious : second.current.previousMinor? = some first.current := by
    have hsmall : first.current.minor + 1 < UInt64.size := by
      rw [hcurrent]
      exact hminor
    rw [hsame, hnext, Version.previousMinor?_nextMinor hsmall, hcurrent]
    obtain ⟨major, minor, patch, pre, build⟩ := v
    obtain ⟨rfl, rfl⟩ := hname
    rfl
  obtain ⟨-, hreplaces', hrange'⟩ := readField_own hsecond h₂
  obtain ⟨hbefore, hbeforeRange⟩ := readField_previous hsecond h₂ hprevious
  rw [hsame] at hreplaces' hrange' hbeforeRange
  exact ⟨hsame, ⟨hreplaces, by rw [hbefore, hreplaces]⟩,
    ⟨hrange, by rw [hbeforeRange, hrange]⟩, _, _, _,
    by rw [hbeforeRange, Option.bind_some, Version.bounds?_skipRange hbare],
    by rw [hrange', Option.bind_some, Version.bounds?_skipRange hbare'], hreplaces'⟩

/-- Two bumps of the sample : the range recorded by the second is the one of the first. -/
theorem chain_of_sample :
    ∃ first second t₁ t₂, ofProject sample none = .ok first ∧
      first.apply .error sample = (t₁, none) ∧ ofProject t₁ none = .ok second ∧
      second.apply .error t₁ = (t₂, none) ∧ second.current = first.next ∧
      readField t₂ (field "olm" ["previous", "replaces"]) =
        readField t₁ (field "olm" ["replaces"]) ∧
      readField t₂ (field "olm" ["previous", "skipRange"]) =
        readField t₁ (field "olm" ["skipRange"]) := by
  have hbumped : ((bumped? sample).bind bumped?).isSome = true := by decide +kernel
  obtain ⟨hversion, hread⟩ := version_of_sample
  obtain ⟨t₂, ht⟩ := Option.isSome_iff_exists.mp hbumped
  obtain ⟨t₁, ht₁, ht₂⟩ := Option.bind_eq_some_iff.mp ht
  obtain ⟨first, hfirst, h₁⟩ := exists_plan_of_bumped? ht₁
  obtain ⟨second, hsecond, h₂⟩ := exists_plan_of_bumped? ht₂
  obtain ⟨hsame, ⟨-, hreplaces⟩, ⟨-, hrange⟩, -⟩ :=
    chain_of_project hversion hread ⟨rfl, rfl⟩ (by decide) hfirst h₁ hsecond h₂
  exact ⟨first, second, t₁, t₂, hfirst, h₁, hsecond, h₂, hsame, hreplaces, hrange⟩

end Release.Plan

end YamlPatch
