import SchemaCodegen.Cycle.Path
import SchemaCodegen.Proofs.Cycle.Returning

/-!
# References that are seen to come back

`pathCycles` looks for references that come back as well, but not on all ways.  It looks at a
value in a `Role`: as a schema, as the properties of a schema, or as the list of schemas under a
keyword.  A step of its ways is `Shows`, and a reference is seen to come back when such a way
leads to it (`ShownBack`).

The ways end where a value does not have the form that its role asks for (`Overlooks`); all
other steps agree with those of `Unfolds`.  So a reference that comes back is seen to do so, or
it comes back behind a value that is overlooked (`shownBack_or_overlooked`).  Conversely, what
is seen to come back does so, unless the properties of a schema are a reference themselves
(`comesBack_of_shownBack`).
-/

namespace SchemaCodegen

open Relation

variable {g : Anchors} {document : Option Value} {u v t : Value} {taken : List String}
  {ref : String} {es : Entries} {xs : List Value}

/-! ### Ways through schemas -/

/-- What a value is looked at as: a schema, the properties of a schema, or the schemas that a
keyword joins. -/
inductive Role where
  | schema
  | properties
  | list

/-- The role of a value under a key, if it is looked at. -/
def roleUnder (g : Anchors) (key : Scalar) (v : Value) : Option Role :=
  if key = .string "properties" ∧ g.isObject v = true then some .properties
  else if key = .string "items" then some .schema
  else if g.isList v then some .list
  else if g.isObject v then some .schema
  else none

/-- A step from a value in its role to a part in the part's role. -/
inductive Opens (g : Anchors) : Role × Value → Role × Value → Prop
  | keyword {v u : Value} {es : Entries} {key : Scalar} {role : Role}
      (entries : g.entries? v = some es) (mem : (key, u) ∈ es)
      (under : roleUnder g key u = some role) : Opens g (.schema, v) (role, u)
  | property {v u : Value} {es : Entries} {key : Scalar} (entries : g.entries? v = some es)
      (mem : (key, u) ∈ es) : Opens g (.properties, v) (.schema, u)
  | item {v u : Value} {xs : List Value} (items : g.items? v = some xs) (mem : u ∈ xs) :
      Opens g (.list, v) (.schema, u)

/-- A value that is looked at as a schema is no reference. -/
def PlainIn (g : Anchors) (at_role : Role × Value) : Prop :=
  at_role.1 = .schema → reference? g at_role.2 = none

/-- A step to a part that is looked at, to the target of a reference that is not taken yet, or,
without a document, into such a reference. -/
inductive Shows (g : Anchors) (document : Option Value) : Role × Waypoint → Role × Waypoint → Prop
  | part {role role' : Role} {taken : List String} {v u : Value} (plain : PlainIn g (role, v))
      (opens : Opens g (role, v) (role', u)) :
      Shows g document (role, ⟨taken, v⟩) (role', ⟨taken, u⟩)
  | target {taken : List String} {v t : Value} {ref : String}
      (refers : reference? g v = some ref) (new : ref ∉ taken)
      (found : targetIn g document ref = .ok (some t)) :
      Shows g document (.schema, ⟨taken, v⟩) (.schema, ⟨ref :: taken, t⟩)
  | inside {role : Role} {taken : List String} {v u : Value} {ref : String}
      (no_document : document = none) (refers : reference? g v = some ref) (new : ref ∉ taken)
      (opens : Opens g (.schema, v) (role, u)) :
      Shows g document (.schema, ⟨taken, v⟩) (role, ⟨ref :: taken, u⟩)

/-- `ShownBack g document s`: on a way that goes on from `s`, a schema is a reference that comes
back. -/
def ShownBack (g : Anchors) (document : Option Value) (s : Role × Waypoint) : Prop :=
  ∃ w, ReflTransGen (Shows g document) s (.schema, w) ∧ Retakes g w

/-- A reference is seen to come back at once or behind a first step. -/
theorem shownBack_iff {s : Role × Waypoint} :
    ShownBack g document s
      ↔ (s.1 = .schema ∧ Retakes g s.2)
        ∨ ∃ s', Shows g document s s' ∧ ShownBack g document s' := by
  constructor
  · rintro ⟨w, way, retakes⟩
    obtain rfl | ⟨next, step, rest⟩ := way.cases_head
    · exact .inl ⟨rfl, retakes⟩
    · exact .inr ⟨next, step, w, rest, retakes⟩
  · rintro (⟨role, retakes⟩ | ⟨next, step, w, rest, retakes⟩)
    · obtain ⟨_, w⟩ := s
      cases role
      exact ⟨w, .refl, retakes⟩
    · exact ⟨w, .head step rest, retakes⟩

/-- A value that is no reference is opened. -/
theorem shownBack_part {role : Role} (plain : PlainIn g (role, v)) :
    ShownBack g document (role, ⟨taken, v⟩)
      ↔ ∃ s, Opens g (role, v) s ∧ ShownBack g document (s.1, ⟨taken, s.2⟩) := by
  rw [shownBack_iff]
  constructor
  · rintro (⟨rfl, ref, -, refers⟩ | ⟨_, step, back⟩)
    · cases (plain rfl).symm.trans refers
    · cases step with
      | part _ opens => exact ⟨_, opens, back⟩
      | target refers => cases (plain rfl).symm.trans refers
      | inside _ refers => cases (plain rfl).symm.trans refers
  · rintro ⟨s, opens, back⟩
    exact .inr ⟨_, .part plain opens, back⟩

theorem shownBack_repeated (refers : reference? g v = some ref) (again : ref ∈ taken) :
    ShownBack g document (.schema, ⟨taken, v⟩) := ⟨_, .refl, ref, again, refers⟩

/-- A new reference that has a target is left for the target. -/
theorem shownBack_target (refers : reference? g v = some ref) (new : ref ∉ taken)
    (found : targetIn g document ref = .ok (some t)) :
    ShownBack g document (.schema, ⟨taken, v⟩)
      ↔ ShownBack g document (.schema, ⟨ref :: taken, t⟩) := by
  rw [shownBack_iff]
  constructor
  · rintro (⟨-, other, again, refers'⟩ | ⟨_, step, back⟩)
    · cases refers.symm.trans refers'
      exact absurd again new
    · cases step with
      | part plain => cases (plain rfl).symm.trans refers
      | target refers' _ found' =>
          cases refers.symm.trans refers'
          cases found.symm.trans found'
          exact back
      | inside no_document =>
          subst no_document
          cases found
  · exact fun back => .inr ⟨_, .target refers new found, back⟩

/-- Without a document a new reference is opened. -/
theorem shownBack_inside (refers : reference? g v = some ref) (new : ref ∉ taken) :
    ShownBack g none (.schema, ⟨taken, v⟩)
      ↔ ∃ s, Opens g (.schema, v) s ∧ ShownBack g none (s.1, ⟨ref :: taken, s.2⟩) := by
  rw [shownBack_iff]
  constructor
  · rintro (⟨-, other, again, refers'⟩ | ⟨_, step, back⟩)
    · cases refers.symm.trans refers'
      exact absurd again new
    · cases step with
      | part plain => cases (plain rfl).symm.trans refers
      | target _ _ found => cases found
      | inside _ refers' _ opens =>
          cases refers.symm.trans refers'
          exact ⟨_, opens, back⟩
  · rintro ⟨s, opens, back⟩
    exact .inr ⟨_, .inside rfl refers new opens, back⟩

/-- A new reference that a document has nothing for is left alone. -/
theorem not_shownBack_unresolved (with_document : document ≠ none)
    (refers : reference? g v = some ref) (new : ref ∉ taken)
    (nothing : targetIn g document ref = .ok none) :
    ¬ ShownBack g document (.schema, ⟨taken, v⟩) := by
  rw [shownBack_iff]
  rintro (⟨-, other, again, refers'⟩ | ⟨_, step, -⟩)
  · cases refers.symm.trans refers'
    exact absurd again new
  · cases step with
    | part plain => cases (plain rfl).symm.trans refers
    | target refers' _ found =>
        cases refers.symm.trans refers'
        cases nothing.symm.trans found
    | inside no_document => exact with_document no_document

/-- What is no object is not looked at as a schema. -/
theorem not_shownBack_of_entries? (no_object : g.entries? v = none) :
    ¬ ShownBack g document (.schema, ⟨taken, v⟩) := by
  have plain : reference? g v = none := by
    unfold reference?
    rw [no_object]
    rfl
  rw [shownBack_part fun _ => plain]
  rintro ⟨_, opens, -⟩
  cases opens with
  | keyword entries => cases no_object.symm.trans entries

/-! ### What is overlooked -/

/-- A value that the second kind of way does not go into, or goes into another way: a list in
the place of a schema, a reference that a document has nothing for, and properties that are a
reference. -/
inductive Overlooks (g : Anchors) (document : Option Value) : Role × Waypoint → Prop
  | list {taken : List String} {v : Value} (isList : g.isList v = true) :
      Overlooks g document (.schema, ⟨taken, v⟩)
  | unresolved {taken : List String} {v : Value} {ref : String}
      (with_document : document ≠ none) (refers : reference? g v = some ref)
      (nothing : targetIn g document ref = .ok none) :
      Overlooks g document (.schema, ⟨taken, v⟩)
  | properties {taken : List String} {v : Value} (refers : isReference g v = true) :
      Overlooks g document (.properties, ⟨taken, v⟩)

/-- A list is no object. -/
theorem entries?_of_isList (list : g.isList v = true) : g.entries? v = none := by
  unfold Anchors.isList Anchors.items? at list
  unfold Anchors.entries?
  cases seen : g.look v with
  | object es =>
      rw [seen] at list
      cases list
  | _ => rfl

/-- A list is no reference. -/
theorem reference?_of_isList (list : g.isList v = true) : reference? g v = none := by
  unfold reference?
  rw [entries?_of_isList list]
  rfl

/-- Where a reference comes back, there is an object or a list. -/
theorem isObject_or_isList (back : ComesBack g document ⟨taken, v⟩) :
    g.isObject v = true ∨ g.isList v = true := by
  cases refers : reference? g v with
  | some ref =>
      obtain ⟨es, entries, -⟩ := Option.bind_eq_some_iff.1 refers
      exact .inl (Option.isSome_iff_exists.2 ⟨es, entries⟩)
  | none =>
      obtain ⟨u, ⟨xs, items, -⟩ | ⟨es, _, entries, -⟩, -⟩ := (comesBack_part refers).1 back
      · exact .inr (Option.isSome_iff_exists.2 ⟨xs, items⟩)
      · exact .inl (Option.isSome_iff_exists.2 ⟨es, entries⟩)

/-- The value has the form that its role asks for; any value will do as a schema. -/
def Fits (g : Anchors) : Role × Value → Prop
  | (.schema, _) => True
  | (.properties, v) => g.isObject v = true
  | (.list, v) => g.isList v = true

theorem fits_of_roleUnder {key : Scalar} {role : Role} (under : roleUnder g key v = some role) :
    Fits g (role, v) := by
  unfold roleUnder at under
  split at under
  · next both =>
      cases under
      exact both.2
  · split at under
    · cases under
      trivial
    · split at under
      · next list =>
          cases under
          exact list
      · split at under
        · cases under
          trivial
        · cases under

/-- An object or a list under a key is looked at. -/
theorem exists_roleUnder (key : Scalar) (container : g.isObject v = true ∨ g.isList v = true) :
    ∃ role, roleUnder g key v = some role := by
  unfold roleUnder
  split
  · exact ⟨_, rfl⟩
  · split
    · exact ⟨_, rfl⟩
    · split
      · exact ⟨_, rfl⟩
      · next no_list =>
          rw [if_pos (container.resolve_right no_list)]
          exact ⟨_, rfl⟩

/-- From an object that is looked at as a schema, a step leads to each part behind which a
reference comes back. -/
theorem exists_opens (object : g.isList v ≠ true) (part : PartOf g v u)
    (back : ComesBack g document ⟨taken, u⟩) :
    ∃ role, Opens g (.schema, v) (role, u) ∧ Fits g (role, u) := by
  obtain ⟨xs, items, -⟩ | ⟨es, key, entries, mem⟩ := part
  · exact absurd (Option.isSome_iff_exists.2 ⟨xs, items⟩) object
  · obtain ⟨role, under⟩ := exists_roleUnder key (isObject_or_isList back)
    exact ⟨role, .keyword entries mem under, fits_of_roleUnder under⟩

/-- Where nothing is overlooked, the second kind of way takes each step of the first behind
which a reference comes back. -/
theorem exists_shows {role : Role} {w w' : Waypoint} (fits : Fits g (role, w.value))
    (seen : ¬ Overlooks g document (role, w)) (step : Unfolds g document w w')
    (back : ComesBack g document w') :
    ∃ role', Shows g document (role, w) (role', w') ∧ Fits g (role', w'.value) := by
  cases role with
  | schema =>
      have no_list : g.isList w.value ≠ true := fun list => seen (.list list)
      cases step with
      | part plain part =>
          obtain ⟨role', opens, fits'⟩ := exists_opens no_list part back
          exact ⟨role', .part (fun _ => plain) opens, fits'⟩
      | target refers new found => exact ⟨.schema, .target refers new found, trivial⟩
      | inside refers new nothing part =>
          have no_document : document = none := by
            by_contra with_document
            exact seen (.unresolved with_document refers nothing)
          obtain ⟨role', opens, fits'⟩ := exists_opens no_list part back
          exact ⟨role', .inside no_document refers new opens, fits'⟩
  | properties =>
      have plain : reference? g w.value = none := by
        by_contra refers
        exact seen (.properties (Option.isSome_iff_ne_none.2 refers))
      obtain ⟨es, entries⟩ := Option.isSome_iff_exists.1 fits
      cases step with
      | part _ part =>
          obtain ⟨xs, items, -⟩ | ⟨_, key, _, mem⟩ := part
          · have list : g.isList _ = true := Option.isSome_iff_exists.2 ⟨xs, items⟩
            cases (entries?_of_isList list).symm.trans entries
          · exact ⟨.schema, .part nofun (.property ‹_› mem), trivial⟩
      | target refers => cases plain.symm.trans refers
      | inside refers => cases plain.symm.trans refers
  | list =>
      have plain := reference?_of_isList fits
      cases step with
      | part _ part =>
          obtain ⟨xs, items, mem⟩ | ⟨es, key, entries, -⟩ := part
          · exact ⟨.schema, .part nofun (.item items mem), trivial⟩
          · cases (entries?_of_isList fits).symm.trans entries
      | target refers => cases plain.symm.trans refers
      | inside refers => cases plain.symm.trans refers

/-- **What can be missed.**  A reference that comes back is shown, unless it comes back behind a
value that is overlooked. -/
theorem shownBack_or_overlooked {role : Role} {w : Waypoint} (fits : Fits g (role, w.value))
    (back : ComesBack g document w) :
    ShownBack g document (role, w) ∨ ∃ s : Role × Waypoint,
      ReflTransGen (Shows g document) (role, w) s ∧ Overlooks g document s
        ∧ ComesBack g document s.2 := by
  obtain ⟨last, way, retakes⟩ := back
  induction way using ReflTransGen.head_induction_on generalizing role with
  | refl =>
      obtain ⟨ref, again, refers⟩ := retakes
      cases role with
      | schema => exact .inl ⟨last, .refl, ref, again, refers⟩
      | properties =>
          have overlooks : Overlooks g document (.properties, last) :=
            .properties (Option.isSome_iff_exists.2 ⟨ref, refers⟩)
          exact .inr ⟨_, .refl, overlooks, last, .refl, ref, again, refers⟩
      | list => cases (reference?_of_isList fits).symm.trans refers
  | @head w next step rest ih =>
      by_cases overlooks : Overlooks g document (role, w)
      · exact .inr ⟨_, .refl, overlooks, last, .head step rest, retakes⟩
      · obtain ⟨role', shows, fits'⟩ := exists_shows fits overlooks step ⟨last, rest, retakes⟩
        obtain ⟨w', way, retakes'⟩ | ⟨s, way, behind⟩ := ih fits'
        · exact .inl ⟨w', .head shows way, retakes'⟩
        · exact .inr ⟨s, .head shows way, behind⟩

/-! ### What is seen -/

/-- From the schema, no properties are looked at that are a reference. -/
def PlainProperties (g : Anchors) (document : Option Value) (schema : Value) : Prop :=
  ∀ w, ReflTransGen (Shows g document) (.schema, ⟨[], schema⟩) (.properties, w) →
    reference? g w.value = none

theorem partOf_of_opens {s s' : Role × Value} (opens : Opens g s s') : PartOf g s.2 s'.2 := by
  cases opens with
  | keyword entries mem => exact .inr ⟨_, _, entries, mem⟩
  | property entries mem => exact .inr ⟨_, _, entries, mem⟩
  | item items mem => exact .inl ⟨_, items, mem⟩

/-- What is looked at is within the schema or its document. -/
theorem within_of_shows {schema : Value} {s : Role × Waypoint}
    (way : ReflTransGen (Shows g document) (.schema, ⟨[], schema⟩) s) :
    Within g (schema :: document.toList) s.2.value := by
  have document_mem : ∀ d ∈ document, d ∈ schema :: document.toList := fun d mem =>
    List.mem_cons_of_mem _ (Option.mem_toList.2 mem)
  induction way with
  | refl => exact .of_mem List.mem_cons_self
  | tail _ step ih =>
      cases step with
      | part _ opens => exact ih.part (partOf_of_opens opens)
      | target _ _ found => exact within_of_targetIn document_mem found
      | inside _ _ _ opens => exact ih.part (partOf_of_opens opens)

/-- Properties are looked at where they stand under that key. -/
theorem eq_properties_of_opens {s : Role × Value} (opens : Opens g s (.properties, u)) :
    ∃ es, g.entries? s.2 = some es ∧ (.string "properties", u) ∈ es := by
  cases opens with
  | @keyword _ _ es key _ entries mem under =>
      refine ⟨es, entries, ?_⟩
      unfold roleUnder at under
      split at under
      · next both => exact both.1 ▸ mem
      · repeat' split at under
        all_goals cases under

/-- Where no value under the key `properties` is a reference, no properties are. -/
theorem plainProperties_of_within {schema : Value}
    (plain : ∀ v, Within g (schema :: document.toList) v → ∀ es ps, g.entries? v = some es →
      (.string "properties", ps) ∈ es → reference? g ps = none) :
    PlainProperties g document schema := by
  intro w way
  obtain same | ⟨s, before, step⟩ := way.cases_tail
  · cases same
  · cases step with
    | part _ opens =>
        obtain ⟨es, entries, mem⟩ := eq_properties_of_opens opens
        exact plain _ (within_of_shows before) es _ entries mem
    | inside _ _ _ opens =>
        obtain ⟨es, entries, mem⟩ := eq_properties_of_opens opens
        exact plain _ (within_of_shows before) es _ entries mem

/-- A step of the second kind is one of the first, unless properties are a reference. -/
theorem unfolds_of_shows {s s' : Role × Waypoint}
    (plain : s.1 = .properties → reference? g s.2.value = none) (shows : Shows g document s s') :
    Unfolds g document s.2 s'.2 := by
  cases shows with
  | @part role role' taken v u plain_schema opens =>
      refine .part ?_ (partOf_of_opens opens)
      cases role with
      | schema => exact plain_schema rfl
      | properties => exact plain rfl
      | list =>
          cases opens with
          | item items => exact reference?_of_isList (Option.isSome_iff_exists.2 ⟨_, items⟩)
  | target refers new found => exact .target refers new found
  | inside no_document refers new opens =>
      subst no_document
      exact .inside refers new rfl (partOf_of_opens opens)

/-- What is looked at is on a way of the first kind. -/
theorem unfolds_of_showing {schema : Value} (plain : PlainProperties g document schema)
    {s : Role × Waypoint} (way : ReflTransGen (Shows g document) (.schema, ⟨[], schema⟩) s) :
    ReflTransGen (Unfolds g document) ⟨[], schema⟩ s.2 := by
  induction way with
  | refl => exact .refl
  | @tail s s' way step ih =>
      refine ih.tail (unfolds_of_shows (fun role => ?_) step)
      obtain ⟨_, w⟩ := s
      cases role
      exact plain w way

/-- **Nothing else is seen.**  What is seen to come back comes back, unless the properties of a
schema are a reference. -/
theorem comesBack_of_shownBack {schema : Value} (plain : PlainProperties g document schema)
    (back : ShownBack g document (.schema, ⟨[], schema⟩)) :
    ComesBack g document ⟨[], schema⟩ := by
  obtain ⟨w, way, retakes⟩ := back
  exact ⟨w, unfolds_of_showing plain way, retakes⟩

/-- Asking for targets does not fail for the schemas that are looked at from `s` on. -/
def AnswersSeen (g : Anchors) (document : Option Value) (s : Role × Waypoint) : Prop :=
  ∀ w, ReflTransGen (Shows g document) s (.schema, w) → Answers g document w

theorem AnswersSeen.behind {s s' : Role × Waypoint} (answers : AnswersSeen g document s)
    (way : ReflTransGen (Shows g document) s s') : AnswersSeen g document s' :=
  fun w rest => answers w (way.trans rest)

theorem answersSeen_of_answersOn {schema : Value} (plain : PlainProperties g document schema)
    (answers : AnswersOn g document ⟨[], schema⟩) :
    AnswersSeen g document (.schema, ⟨[], schema⟩) :=
  fun _ way => answers _ (unfolds_of_showing plain way)

end SchemaCodegen
