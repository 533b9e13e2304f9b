import Mathlib
import SchemaCodegen.Proofs.Cycle.Breaking
import SchemaCodegen.Proofs.Cycle.Reporting

/-!
# Reported cycles and marked repeats

`pathCycles` reports the references of a schema that come back, and `breakCycles` marks them.
In trees both end, the first by `ShownBack` and the second by `ComesBack`, so the two agree as
far as these do.

* What is reported is marked: a reported cycle is a reference that comes back on one way, and
  breaking cycles replaces it (`pathCycles_sound`).  A reference on two branches does not come
  back.
* What is marked is reported, unless it comes back behind a value that the report overlooks
  (`pathCycles_complete_or_overlooks`).  A list under `items` is such a value
  (`pathCycles_overlooks_listedItems`).
-/

namespace SchemaCodegen

open Relation

variable {g : Anchors} {document : Option Value} {schema : Located}

/-! ### What is reported is marked -/

/-- **No false alarm.**  In trees, where no properties of a schema are a reference, both walks
end, and if a cycle is reported then breaking cycles replaces a reference, which comes back on
one way from the root. -/
theorem pathCycles_sound (stands : Stands g schema.value document schema)
    (trees : ∀ root ∈ schema.value :: document.toList, root.isTree = true)
    (answers : ∀ d ∈ document, AnswersReferences g (schema.value :: document.toList) d)
    (plain : PlainProperties g document schema.value) :
    ∃ found marked, (pathCycles g schema (wholeOf document) [] []).result = .ok found
      ∧ (breakCycles g schema.value document).result = .ok marked
      ∧ (found ≠ [] → Replaces g schema.value document
        ∧ ComesBack g document ⟨[], schema.value⟩) := by
  have document_mem : ∀ d ∈ document, d ∈ schema.value :: document.toList := fun d mem =>
    List.mem_cons_of_mem _ (Option.mem_toList.2 mem)
  have answers_on : AnswersOn g document ⟨[], schema.value⟩ :=
    answersOn_of_answersReferences document_mem (.of_mem List.mem_cons_self) answers
  obtain ⟨found, reports, iff⟩ := pathCycles_isOk_and_reports_iff stands trees
    (answersSeen_of_answersOn plain answers_on)
  obtain ⟨⟨marked, breaks⟩, replaces⟩ := breakCycles_isOk_and_replaces_iff trees answers_on
  refine ⟨found, marked, reports, breaks, fun some_found => ?_⟩
  have back := comesBack_of_shownBack plain (iff.1 some_found)
  exact ⟨replaces.2 back, back⟩

theorem trees_linkedList : ∀ root ∈ [referenceTo "#/Link", linkedList], root.isTree = true := by
  decide

theorem plainProperties_linkedList :
    PlainProperties {} (some linkedList) (referenceTo "#/Link") := by
  refine plainProperties_of_within fun u within es ps entries mem => ?_
  have plain : ∀ es ∈ Anchors.entries? {} u, ∀ e ∈ es, e.1 = .string "properties" →
      reference? {} e.2 = none :=
    forall_within (P := fun u => ∀ es ∈ Anchors.entries? {} u, ∀ e ∈ es,
      e.1 = .string "properties" → reference? {} e.2 = none) trees_linkedList (by decide) u within
  exact plain es entries _ mem rfl

/-- The premises hold of a list that refers to itself. -/
theorem pathCycles_sound_linkedList :
    Stands {} (referenceTo "#/Link") (some linkedList) ⟨.schema, [], referenceTo "#/Link"⟩
      ∧ (∀ root ∈ [referenceTo "#/Link", linkedList], root.isTree = true)
      ∧ AnswersReferences {} [referenceTo "#/Link", linkedList] linkedList
      ∧ PlainProperties {} (some linkedList) (referenceTo "#/Link")
      ∧ ∃ found marked,
        (pathCycles {} ⟨.schema, [], referenceTo "#/Link"⟩ (wholeOf (some linkedList)) [] []).result
          = .ok found
        ∧ (breakCycles {} (referenceTo "#/Link") (some linkedList)).result = .ok marked
        ∧ (found ≠ [] → Replaces {} (referenceTo "#/Link") (some linkedList)
          ∧ ComesBack {} (some linkedList) ⟨[], referenceTo "#/Link"⟩) := by
  have answers : ∀ d ∈ some linkedList,
      AnswersReferences {} [referenceTo "#/Link", linkedList] d := by
    rintro _ ⟨⟩
    exact answersReferences_linkedList
  exact ⟨rfl, trees_linkedList, answersReferences_linkedList, plainProperties_linkedList,
    pathCycles_sound rfl trees_linkedList answers plainProperties_linkedList⟩

/-- Two branches that refer to the same schema are no cycle. -/
example : (pathCycles {} ⟨.schema, [], .object [(.string "properties", .object
      [(.string "a", referenceTo "#/A"), (.string "b", referenceTo "#/A")])]⟩
    (wholeOf (some (.object [(.string "A", .object [(.string "type", .string "string")])]))) [] []
    ).result = .ok [] := by
  cbv

/-! ### What is marked is reported, or overlooked -/

/-- **What a report can miss.**  If breaking the cycles of a tree replaces a reference, then a
cycle is reported, or something is overlooked: the reference comes back behind it, or it is the
properties of a schema, which are a reference themselves. -/
theorem pathCycles_complete_or_overlooks (stands : Stands g schema.value document schema)
    (trees : ∀ root ∈ schema.value :: document.toList, root.isTree = true)
    (replaces : Replaces g schema.value document) :
    (∃ found, (pathCycles g schema (wholeOf document) [] []).result = .ok found ∧ found ≠ [])
      ∨ ∃ s, ReflTransGen (Shows g document) (.schema, ⟨[], schema.value⟩) s
        ∧ Overlooks g document s ∧ (ComesBack g document s.2 ∨ s.1 = .properties) := by
  by_cases plain : PlainProperties g document schema.value
  · obtain ⟨-, marked, -, breaks, -⟩ := id replaces
    have answers := answersOn_of_breakCycles trees breaks
    have back := (breakCycles_isOk_and_replaces_iff trees answers).2.1 replaces
    have fits : Fits g (.schema, schema.value) := trivial
    obtain shown | ⟨s, way, overlooks, behind⟩ := shownBack_or_overlooked fits back
    · obtain ⟨found, reports, iff⟩ := pathCycles_isOk_and_reports_iff stands trees
        (answersSeen_of_answersOn plain answers)
      exact .inl ⟨found, reports, iff.2 shown⟩
    · exact .inr ⟨s, way, overlooks, .inl behind⟩
  · unfold PlainProperties at plain
    push Not at plain
    obtain ⟨w, way, refers⟩ := plain
    exact .inr ⟨_, way, .properties (Option.isSome_iff_ne_none.2 refers), .inr rfl⟩

/-- The reference to the list comes back under `next`. -/
theorem replaces_linkedList : Replaces {} (referenceTo "#/Link") (some linkedList) := by
  have answers : AnswersOn {} (some linkedList) ⟨[], referenceTo "#/Link"⟩ := by
    have within : Within {} [referenceTo "#/Link", linkedList] (referenceTo "#/Link") :=
      .of_mem List.mem_cons_self
    refine answersOn_of_answersReferences ?_ within ?_
    · rintro _ ⟨⟩
      exact List.mem_cons_of_mem _ List.mem_cons_self
    · rintro _ ⟨⟩
      exact answersReferences_linkedList
  refine (breakCycles_isOk_and_replaces_iff trees_linkedList answers).2.2 ?_
  have target : targetIn {} (some linkedList) "#/Link" = .ok (some (.object
      [(.string "next", referenceTo "#/Link"), (.string "label", referenceTo "#/Label")])) :=
    resolve_link
  rw [comesBack_target rfl List.not_mem_nil target, comesBack_part rfl]
  exact ⟨referenceTo "#/Link", partOf_object.2 ⟨_, List.mem_cons_self, rfl⟩,
    comesBack_repeated rfl List.mem_cons_self⟩

/-- The premises hold of a list that refers to itself. -/
theorem pathCycles_complete_or_overlooks_linkedList :
    Stands {} (referenceTo "#/Link") (some linkedList) ⟨.schema, [], referenceTo "#/Link"⟩
      ∧ (∀ root ∈ [referenceTo "#/Link", linkedList], root.isTree = true)
      ∧ Replaces {} (referenceTo "#/Link") (some linkedList)
      ∧ ((∃ found, (pathCycles {} ⟨.schema, [], referenceTo "#/Link"⟩
            (wholeOf (some linkedList)) [] []).result = .ok found ∧ found ≠ [])
        ∨ ∃ s, ReflTransGen (Shows {} (some linkedList)) (.schema, ⟨[], referenceTo "#/Link"⟩) s
          ∧ Overlooks {} (some linkedList) s
          ∧ (ComesBack {} (some linkedList) s.2 ∨ s.1 = .properties)) :=
  ⟨rfl, trees_linkedList, replaces_linkedList,
    pathCycles_complete_or_overlooks rfl trees_linkedList replaces_linkedList⟩

/-- An array whose items are given one by one, the first of which is the array itself. -/
def listedItems : Value :=
  .object [(.string "Tuple",
    .object [(.string "type", .string "array"), (.string "items", .list [referenceTo "#/Tuple"])])]

/-- A list under `items` is overlooked: the reference in it comes back and is marked, and
nothing is reported. -/
theorem pathCycles_overlooks_listedItems :
    (referenceTo "#/Tuple").isTree = true ∧ listedItems.isTree = true
      ∧ Replaces {} (referenceTo "#/Tuple") (some listedItems)
      ∧ (pathCycles {} ⟨.schema, [], referenceTo "#/Tuple"⟩ (wholeOf (some listedItems)) [] []
        ).result = .ok [] := by
  refine ⟨rfl, rfl, ⟨?_, ?_, ?_, ?_, ?_⟩, ?_⟩
  · exact .object
      [(.string "type", .string "array"), (.string "items", .list [referenceTo "#/Tuple"])]
  · exact .object
      [(.string "type", .string "array"), (.string "items", .list [circularMarker "#/Tuple"])]
  · cbv
  · cbv
  · simp [circularMarker, referenceTo, Value.record]
  · cbv

end SchemaCodegen
