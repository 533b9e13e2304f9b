import SchemaCodegen.Proofs.Reference.Inlined

/-!
# References that come back

A reference comes back when it is met again on the way from the root, through parts and through
the targets of references (`ComesBack`).  A step of such a way goes on to any part of a value
that is no reference, to the target of a reference, or into a reference that has no target
(`Unfolds`).  The references taken on the way are carried along, so each branch has its own.

What `ComesBack` says of a value follows from the value's form: `comesBack_part`,
`comesBack_repeated`, `comesBack_target`, `comesBack_inside`.
-/

namespace SchemaCodegen

open Relation

variable {g : Anchors} {document : Option Value} {u v t : Value} {taken : List String}
  {ref : String} {es : Entries} {xs : List Value} {roots : List Value}

/-! ### Parts -/

theorem partOf_list : PartOf g (.list xs) u ↔ u ∈ xs := by
  constructor
  · rintro (⟨_, items, mem⟩ | ⟨_, _, entries, -⟩)
    · cases items
      exact mem
    · cases entries
  · exact fun mem => .inl ⟨xs, rfl, mem⟩

theorem partOf_object : PartOf g (.object es) u ↔ ∃ e ∈ es, e.2 = u := by
  constructor
  · rintro (⟨_, items, -⟩ | ⟨_, key, entries, mem⟩)
    · cases items
    · cases entries
      exact ⟨_, mem, rfl⟩
  · rintro ⟨e, mem, rfl⟩
    exact .inr ⟨es, e.1, rfl, mem⟩

theorem not_partOf_leaf (isLeaf : v.IsLeaf g) : ¬ PartOf g v u := by
  rintro (⟨_, items, -⟩ | ⟨_, _, entries, -⟩)
  · cases isLeaf.1.symm.trans items
  · cases isLeaf.2.symm.trans entries

/-! ### References that occur -/

/-- The references that occur in a schema or its document. -/
def occurring (g : Anchors) (schema : Value) (document : Option Value) : List String :=
  g.references schema ++ (document.map g.references).getD []

/-- Each reference that occurs is listed. -/
theorem mem_occurring {r : String} (occurs : Occurs g (v :: document.toList) r) :
    r ∈ occurring g v document := by
  obtain ⟨u, ⟨root, mem, inside⟩, refers⟩ := occurs
  have found := Holds.mem_references ⟨u, inside, refers⟩
  unfold occurring
  obtain rfl | in_document := List.mem_cons.1 mem
  · exact List.mem_append_left _ found
  · obtain rfl := Option.mem_toList.1 in_document
    exact List.mem_append_right _ found

/-! ### Ways through parts and targets -/

/-- A value, with the references that were taken on the way to it. -/
structure Waypoint where
  taken : List String
  value : Value

/-- What a reference refers to; nothing without a document. -/
def targetIn (g : Anchors) (document : Option Value) (ref : String) :
    Except Failure (Option Value) := ((Inlining.marking g document).target ref).result

/-- What a reference refers to is within the roots. -/
theorem within_of_targetIn {t : Value} (document_mem : ∀ d ∈ document, d ∈ roots)
    (found : targetIn g document ref = .ok (some t)) : Within g roots t := by
  cases document with
  | none => cases found
  | some d => exact ⟨d, document_mem d rfl, inside_of_resolve found⟩

/-- A step to a part, to the target of a reference that is not taken yet, or into such a
reference when it has no target. -/
inductive Unfolds (g : Anchors) (document : Option Value) : Waypoint → Waypoint → Prop
  | part {taken : List String} {v u : Value} (plain : reference? g v = none)
      (part : PartOf g v u) : Unfolds g document ⟨taken, v⟩ ⟨taken, u⟩
  | target {taken : List String} {v t : Value} {ref : String}
      (refers : reference? g v = some ref) (new : ref ∉ taken)
      (found : targetIn g document ref = .ok (some t)) :
      Unfolds g document ⟨taken, v⟩ ⟨ref :: taken, t⟩
  | inside {taken : List String} {v u : Value} {ref : String}
      (refers : reference? g v = some ref) (new : ref ∉ taken)
      (nothing : targetIn g document ref = .ok none) (part : PartOf g v u) :
      Unfolds g document ⟨taken, v⟩ ⟨ref :: taken, u⟩

/-- The value is a reference that was taken on the way to it. -/
def Retakes (g : Anchors) (w : Waypoint) : Prop := ∃ ref ∈ w.taken, reference? g w.value = some ref

/-- `ComesBack g document w`: on a way that goes on from `w`, a reference comes back. -/
def ComesBack (g : Anchors) (document : Option Value) (w : Waypoint) : Prop :=
  ∃ w', ReflTransGen (Unfolds g document) w w' ∧ Retakes g w'

/-- A reference comes back at once or behind a first step. -/
theorem comesBack_iff {w : Waypoint} :
    ComesBack g document w
      ↔ Retakes g w ∨ ∃ w', Unfolds g document w w' ∧ ComesBack g document w' := by
  constructor
  · rintro ⟨w', way, retakes⟩
    obtain rfl | ⟨next, step, rest⟩ := way.cases_head
    · exact .inl retakes
    · exact .inr ⟨next, step, w', rest, retakes⟩
  · rintro (retakes | ⟨next, step, w', rest, retakes⟩)
    · exact ⟨w, .refl, retakes⟩
    · exact ⟨w', .head step rest, retakes⟩

/-! ### Ways on which resolving does not fail -/

/-- Asking for the target of a reference that is not taken yet does not fail. -/
def Answers (g : Anchors) (document : Option Value) (w : Waypoint) : Prop :=
  ∀ ref, reference? g w.value = some ref → ref ∉ w.taken →
    ∃ found, targetIn g document ref = .ok found

/-- Asking for targets does not fail on the ways that go on from `w`. -/
def AnswersOn (g : Anchors) (document : Option Value) (w : Waypoint) : Prop :=
  ∀ w', ReflTransGen (Unfolds g document) w w' → Answers g document w'

theorem AnswersOn.next {w w' : Waypoint} (answers : AnswersOn g document w)
    (step : Unfolds g document w w') : AnswersOn g document w' :=
  fun last way => answers last (.head step way)

/-- A reference that occurs is asked for its target without failing. -/
theorem answers_of_answersReferences {w : Waypoint} (within : Within g roots w.value)
    (answers : ∀ d ∈ document, AnswersReferences g roots d) : Answers g document w := by
  intro ref refers _
  cases document with
  | none => exact ⟨none, rfl⟩
  | some d => exact answers d rfl ref ⟨_, within, reference?_eq_some.1 refers⟩

/-- A step stays within the schema and its document. -/
theorem within_of_unfolds {w w' : Waypoint} (document_mem : ∀ d ∈ document, d ∈ roots)
    (within : Within g roots w.value) (step : Unfolds g document w w') :
    Within g roots w'.value := by
  cases step with
  | part _ part => exact within.part part
  | target _ _ found => exact within_of_targetIn document_mem found
  | inside _ _ _ part => exact within.part part

theorem answersOn_of_answersReferences {w : Waypoint} (document_mem : ∀ d ∈ document, d ∈ roots)
    (within : Within g roots w.value) (answers : ∀ d ∈ document, AnswersReferences g roots d) :
    AnswersOn g document w := by
  intro last way
  refine answers_of_answersReferences ?_ answers
  induction way with
  | refl => exact within
  | tail _ step ih => exact within_of_unfolds document_mem ih step

/-! ### Coming back by the form of a value -/

/-- Below a value that is no reference, a reference comes back behind one of its parts. -/
theorem comesBack_part (plain : reference? g v = none) :
    ComesBack g document ⟨taken, v⟩ ↔ ∃ u, PartOf g v u ∧ ComesBack g document ⟨taken, u⟩ := by
  rw [comesBack_iff]
  constructor
  · rintro (⟨ref, -, refers⟩ | ⟨w, step, back⟩)
    · cases plain.symm.trans refers
    · cases step with
      | part _ part => exact ⟨_, part, back⟩
      | target refers => cases plain.symm.trans refers
      | inside refers => cases plain.symm.trans refers
  · rintro ⟨u, part, back⟩
    exact .inr ⟨_, .part plain part, back⟩

/-- A reference that was taken has come back. -/
theorem comesBack_repeated (refers : reference? g v = some ref) (again : ref ∈ taken) :
    ComesBack g document ⟨taken, v⟩ := comesBack_iff.2 (.inl ⟨ref, again, refers⟩)

/-- Below a new reference that has a target, a reference comes back behind the target. -/
theorem comesBack_target (refers : reference? g v = some ref) (new : ref ∉ taken)
    (found : targetIn g document ref = .ok (some t)) :
    ComesBack g document ⟨taken, v⟩ ↔ ComesBack g document ⟨ref :: taken, t⟩ := by
  rw [comesBack_iff]
  constructor
  · rintro (⟨other, again, refers'⟩ | ⟨w, step, back⟩)
    · cases refers.symm.trans refers'
      exact absurd again new
    · cases step with
      | part plain => cases plain.symm.trans refers
      | target refers' _ found' =>
          cases refers.symm.trans refers'
          cases found.symm.trans found'
          exact back
      | inside refers' _ nothing =>
          cases refers.symm.trans refers'
          cases found.symm.trans nothing
  · exact fun back => .inr ⟨_, .target refers new found, back⟩

/-- Below a new reference without a target, a reference comes back behind one of its parts. -/
theorem comesBack_inside (refers : reference? g v = some ref) (new : ref ∉ taken)
    (nothing : targetIn g document ref = .ok none) :
    ComesBack g document ⟨taken, v⟩
      ↔ ∃ u, PartOf g v u ∧ ComesBack g document ⟨ref :: taken, u⟩ := by
  rw [comesBack_iff]
  constructor
  · rintro (⟨other, again, refers'⟩ | ⟨w, step, back⟩)
    · cases refers.symm.trans refers'
      exact absurd again new
    · cases step with
      | part plain => cases plain.symm.trans refers
      | target refers' _ found =>
          cases refers.symm.trans refers'
          cases nothing.symm.trans found
      | inside refers' _ _ part =>
          cases refers.symm.trans refers'
          exact ⟨_, part, back⟩
  · rintro ⟨u, part, back⟩
    exact .inr ⟨_, .inside refers new nothing part, back⟩

end SchemaCodegen
