import SchemaCodegen.Proofs.Json.Data
import SchemaCodegen.Proofs.Reference.Inlined
import SchemaCodegen.Proofs.Reference.Walks

/-!
# References that stumble

A reference that is broken, in whatever way, is answered by nothing, so that work on the other
schemas can go on.  There is one exception.  A pointer that has come to a list *stumbles* over a
segment of digits that is no number, such as a superscript two: it is taken for an index and cannot
be read as one (`Stumbles`).  Resolving fails on the references that stumble and on no others
(`resolve_eq_error_iff`).

What meets such a reference fails with it, and nothing else makes it fail: a chain of references,
the search for unresolved ones, and both copies with references inlined
(`references_fail_only_stumbling`).

### What is load-bearing

The operations meet references only that occur in the value or in the document, because whatever a
reference resolves to is inside the document (`inside_of_resolve`).  So the failure can be traced to
one of these (`StumblesWithin`).
-/

namespace SchemaCodegen

open Traced

variable {g : Anchors} {document v : Value} {d : Entries} {roots : List Value}
  {ref : String} {fresh : List String} {active : List Nat} {f : Failure} {P : Failure → Prop}

/-! ### Resolving -/

/-- `Stumbles g document ref`: the pointer `ref` leads to a list of the document and goes on with
digits that are no number. -/
def Stumbles (g : Anchors) (document : Value) (ref : String) : Prop :=
  ∃ before segment after v xs, Reference.parse ref = .pointer (before ++ segment :: after)
    ∧ Walks g document before v ∧ g.items? v = some xs ∧ DigitsWithoutNumber segment

/-- Resolving fails on a pointer exactly where following it does. -/
theorem result_locate_eq_error_iff {l : Located} : (locate g ref l).result = .error f ↔
    ∃ segments, Reference.parse ref = .pointer segments ∧ l.follow? g segments = .error f := by
  unfold locate
  cases parsed : Reference.parse ref with
  | whole => simp
  | malformed => simp
  | external => simp
  | pointer segments =>
      simp only [result_bind_eq_error, result_ofExcept, Reference.pointer.injEq, exists_eq_left']
      refine or_iff_left fun ⟨found, _, fails⟩ => ?_
      -- Whether the walk has found something or nothing, what comes after it does not fail.
      cases found with
      | some found => simp at fails
      | none =>
          cases named : lookupName? g ref l with
          | some found => simp [named] at fails
          | none => simp [named] at fails

/-- Resolving a reference fails exactly when it stumbles. -/
theorem resolve_eq_error_iff : (resolve g ref document).result = .error f ↔
    f = .unreadable ∧ Stumbles g document ref := by
  have located : (resolve g ref document).result = .error f
      ↔ (locate g ref ⟨.document, [], document⟩).result = .error f := by
    rw [resolve, result_bind_eq_error]
    exact or_iff_left (by simp)
  rw [located, result_locate_eq_error_iff]
  constructor
  · rintro ⟨segments, parsed, fails⟩
    obtain ⟨unreadable, before, segment, after, v, xs, rfl, stands⟩ :=
      follow?_eq_error_iff.1 fails
    exact ⟨unreadable, before, segment, after, v, xs, parsed, stands⟩
  · rintro ⟨unreadable, before, segment, after, v, xs, parsed, stands⟩
    exact ⟨_, parsed, follow?_eq_error_iff.2
      ⟨unreadable, before, segment, after, v, xs, rfl, stands⟩⟩

/-! ### Following what occurs -/

/-- A reference that occurs within the roots stumbles in the document, and the failure is that of a
number which cannot be read. -/
def StumblesWithin (g : Anchors) (roots : List Value) (document : Value) (f : Failure) : Prop :=
  f = .unreadable ∧ ∃ ref, Occurs g roots ref ∧ Stumbles g document ref

/-- Resolving a reference that occurs fails only where it stumbles. -/
theorem failsOnly_resolve (occurs : Occurs g roots ref) :
    (resolve g ref document).FailsOnly (StumblesWithin g roots document) := by
  intro f fails
  obtain ⟨unreadable, stumbles⟩ := resolve_eq_error_iff.1 fails
  exact ⟨unreadable, ref, occurs, stumbles⟩

/-- A chain of references fails only where one of them stumbles. -/
theorem failsOnly_followFresh (document_mem : document ∈ roots) (within : Within g roots v) :
    (followFresh g document fresh v).FailsOnly (StumblesWithin g roots document) := by
  induction left : fresh.length using Nat.strongRecOn generalizing fresh v with
  | _ left fewer =>
      subst left
      rw [followFresh]
      cases refers : reference? g v with
      | none => exact failsOnly_pure _
      | some ref =>
          have occurs : Occurs g roots ref := ⟨v, within, reference?_eq_some.1 refers⟩
          dsimp only
          split
          · next new =>
              refine (failsOnly_resolve occurs).bind fun found resolved => ?_
              cases found with
              | none => exact failsOnly_of_ok rfl
              | some t =>
                  have inside : Within g roots t :=
                    ⟨document, document_mem, inside_of_resolve resolved⟩
                  exact fewer _ (length_taking_lt new) inside rfl
          · exact failsOnly_of_ok rfl

/-- The search for unresolved references of a dictionary fails exactly when one stumbles. -/
theorem unresolvedReferences_eq_error_iff :
    (unresolvedReferences g d document).result = .error f ↔
      StumblesWithin g (d.map Prod.snd) document f := by
  have fails_only :
      (unresolvedReferences g d document).FailsOnly (StumblesWithin g (d.map Prod.snd) document) := by
    rw [unresolvedReferences_eq]
    refine (failsOnly_mapM fun e mem => ?_).bind fun _ _ => failsOnly_pure _
    rw [filterMapM_eq_mapM, map_eq_pure_bind]
    refine (failsOnly_mapM fun ref at_ref => ?_).bind fun _ _ => failsOnly_pure _
    obtain ⟨u, inside, refers⟩ := holds_of_mem_references at_ref
    have occurs : Occurs g (d.map Prod.snd) ref :=
      ⟨u, ⟨e.2, List.mem_map_of_mem mem, inside⟩, refers⟩
    refine (failsOnly_resolve occurs).bind fun found _ => ?_
    cases found with
    | none => exact failsOnly_pure _
    | some t => exact failsOnly_pure _
  refine ⟨fails_only f, ?_⟩
  rintro ⟨rfl, ref, ⟨u, ⟨root, mem, inside⟩, refers⟩, stumbles⟩
  have fails := resolve_eq_error_iff.2 ⟨rfl, stumbles⟩
  cases searched : (unresolvedReferences g d document).result with
  | error e =>
      obtain ⟨rfl, -⟩ := fails_only e searched
      rfl
  | ok found =>
      -- Where the search has a result, every reference has been resolved without a failure.
      rw [unresolvedReferences_eq] at searched
      obtain ⟨parts, each, -⟩ := result_bind_eq_ok.1 searched
      obtain ⟨e, at_e, rfl⟩ := List.mem_map.1 mem
      obtain ⟨part, -, reported⟩ := exists_of_mem_left (result_mapM_eq_ok.1 each) at_e
      rw [filterMapM_eq_mapM, result_map_eq_ok] at reported
      obtain ⟨answers, each_ref, -⟩ := reported
      have at_ref : ref ∈ g.references e.2 := Holds.mem_references ⟨u, inside, refers⟩
      obtain ⟨answer, -, resolved⟩ := exists_of_mem_left (result_mapM_eq_ok.1 each_ref) at_ref
      obtain ⟨t, resolved, -⟩ := result_reportOf.1 resolved
      cases fails.symm.trans resolved

/-! ### Copies -/

section Copies

variable {p : Inlining} (trees : ∀ root ∈ roots, root.isTree = true)
  (asks : ∀ ref, Occurs g roots ref → (p.target ref).FailsOnly P)
  (answers : ∀ ref t, (p.target ref).result = .ok (some t) → Within g roots t)

include trees asks answers

/-- A walk that inlines references in a tree fails only where asking for a target does. -/
theorem failsOnly_value (within : Within g roots v) :
    (p.value g fresh active v).FailsOnly P := by
  -- Taking a reference leaves fewer fresh ones; between references the tree gets smaller.
  induction count : fresh.length using Nat.strongRecOn generalizing fresh active v with
  | _ count fewer =>
      subst count
      have tree := within.isTree trees
      induction v, tree using Value.isTree_induct (g := g) with
      | leaf v _ isLeaf =>
          rw [Inlining.value_leaf isLeaf]
          exact failsOnly_pure _
      | list xs _ ih =>
          rw [Inlining.value_list]
          refine (failsOnly_mapM fun x mem => ?_).bind fun _ _ => failsOnly_pure _
          have here : Within g roots x := within.part (.inl ⟨xs, rfl, mem⟩)
          exact ih x mem (here.isTree trees) here
      | object es _ ih =>
          have below (e : Scalar × Value) (mem : e ∈ es) : Within g roots e.2 :=
            within.part (.inr ⟨es, e.1, rfl, mem⟩)
          cases reference : Entries.string? es "$ref" with
          | none =>
              rw [Inlining.value_object reference]
              refine (failsOnly_mapM fun e mem => ?_).bind fun _ _ => failsOnly_pure _
              have here := ih e mem ((below e mem).isTree trees) (below e mem)
              exact here.bind fun _ _ => failsOnly_pure _
          | some ref =>
              by_cases new : ref ∈ fresh
              · have lower := length_taking_lt new
                rw [Inlining.value_fresh reference new]
                refine (asks ref ⟨_, within, es, rfl, reference⟩).bind fun found answered => ?_
                cases found with
                | some t => exact fewer _ lower (answers ref t answered) rfl
                | none =>
                    dsimp only
                    split
                    · rw [Inlining.entries_eq_mapM]
                      refine (failsOnly_mapM fun e mem => ?_).bind fun _ _ => failsOnly_pure _
                      exact (fewer _ lower (below e mem) rfl).bind fun _ _ => failsOnly_pure _
                    · exact failsOnly_pure _
              · rw [Inlining.value_repeated reference new]
                exact failsOnly_pure _

end Copies

/-- **Broken references** fail only where they stumble.  Resolving a reference fails exactly when it
stumbles, and the search for the unresolved references of a dictionary exactly when one of them does.
Following a chain of references and, in trees, inlining references in either way fail only with a
reference that occurs and stumbles; otherwise they give a result, however broken the references
are.  Without a document nothing is resolved and nothing fails. -/
theorem references_fail_only_stumbling (tree : v.isTree = true)
    (document_tree : document.isTree = true) :
    (∀ ref f, (resolve g ref document).result = .error f
        ↔ f = .unreadable ∧ Stumbles g document ref)
      ∧ (followReference g v document).FailsOnly (StumblesWithin g [v, document] document)
      ∧ (∀ d f, (unresolvedReferences g d document).result = .error f
          ↔ StumblesWithin g (d.map Prod.snd) document f)
      ∧ (dereference g v document).FailsOnly (StumblesWithin g [v, document] document)
      ∧ (breakCycles g v (some document)).FailsOnly (StumblesWithin g [v, document] document)
      ∧ ∃ copy, (breakCycles g v none).result = .ok copy := by
  have trees : ∀ root ∈ [v, document], root.isTree = true := by
    simp [tree, document_tree]
  have document_mem : document ∈ [v, document] := by simp
  have within : Within g [v, document] v := .of_mem List.mem_cons_self
  have inside (ref : String) (t : Value)
      (resolves : (resolve g ref document).result = .ok (some t)) : Within g [v, document] t :=
    ⟨document, document_mem, inside_of_resolve resolves⟩
  refine ⟨fun _ _ => resolve_eq_error_iff, failsOnly_followFresh document_mem within,
    fun _ _ => unresolvedReferences_eq_error_iff, ?_, ?_, ?_⟩
  · refine failsOnly_value trees (fun ref occurs f fails => ?_) (fun ref t answered => ?_) within
    · rw [Inlining.result_target_plain] at fails
      exact failsOnly_resolve occurs f fails
    · rw [Inlining.result_target_plain] at answered
      exact inside ref t answered
  · exact failsOnly_value trees (fun _ occurs => failsOnly_resolve occurs) inside within
  · have never : (breakCycles g v none).FailsOnly fun _ => False := by
      refine failsOnly_value trees (fun _ _ => failsOnly_pure _) (fun _ _ answered => ?_) within
      simp [Inlining.marking] at answered
    cases copied : (breakCycles g v none).result with
    | error f => exact (never f copied).elim
    | ok copy => exact ⟨copy, rfl⟩

/-- A schema that lists its parts. -/
def partsDocument : Value := .object
  [(.string "allOf", .list [.object [(.string "type", .string "string")]])]

/-- In trees, a reference past the end of the list does not stumble. -/
theorem references_fail_only_stumbling_past_end :
    (referenceTo "#/allOf/1").isTree = true ∧ partsDocument.isTree = true
      ∧ ¬ Stumbles {} partsDocument "#/allOf/1"
      ∧ ∃ copy, (breakCycles {} (referenceTo "#/allOf/1") none).result = .ok copy := by
  have tree : (referenceTo "#/allOf/1").isTree = true := rfl
  have document_tree : partsDocument.isTree = true := rfl
  obtain ⟨fails_iff, -, -, -, -, copies⟩ :=
    references_fail_only_stumbling (g := {}) tree document_tree
  refine ⟨tree, document_tree, fun stumbles => ?_, copies⟩
  have fails := (fails_iff "#/allOf/1" .unreadable).2 ⟨rfl, stumbles⟩
  have answers : (resolve {} "#/allOf/1" partsDocument).result = .ok none := rfl
  cases answers.symm.trans fails

/-- A superscript two is a digit and no number: over it resolving a reference stumbles in a proper
document, and so does whatever meets the reference. -/
theorem resolve_superscript_fails :
    partsDocument.isJson = true
      ∧ (resolve {} "#/allOf/²" partsDocument).result = .error .unreadable
      ∧ (followReference {} (referenceTo "#/allOf/²") partsDocument).result = .error .unreadable
      ∧ (unresolvedReferences {} [(.string "Part", referenceTo "#/allOf/²")]
          partsDocument).result = .error .unreadable
      ∧ (dereference {} (referenceTo "#/allOf/²") partsDocument).result = .error .unreadable
      ∧ (breakCycles {} (referenceTo "#/allOf/²") (some partsDocument)).result
          = .error .unreadable := by
  have fails : (resolve {} "#/allOf/²" partsDocument).result = .error .unreadable := rfl
  have occurs : "#/allOf/²" ∈ Anchors.references {} (referenceTo "#/allOf/²") :=
    Holds.mem_references ⟨_, .refl, _, rfl, rfl⟩
  have copy_fails {p : Inlining} {fresh : List String} (new : "#/allOf/²" ∈ fresh)
      (asks : (p.target "#/allOf/²").result = .error .unreadable) :
      (p.value {} fresh [] (referenceTo "#/allOf/²")).result = .error .unreadable := by
    rw [referenceTo, Inlining.value_fresh rfl new, result_bind_eq_error]
    exact .inl asks
  have follow_fails :
      (followReference {} (referenceTo "#/allOf/²") partsDocument).result = .error .unreadable := by
    have own : reference? {} (referenceTo "#/allOf/²") = some "#/allOf/²" := rfl
    rw [followReference, followFresh]
    simp only [own, Option.toList_some, List.singleton_append, List.mem_cons, true_or, reduceDIte]
    exact result_bind_eq_error.2 (.inl fails)
  refine ⟨rfl, fails, follow_fails, unresolvedReferences_eq_error_iff.2 ⟨rfl, "#/allOf/²", ?_, ?_⟩,
    copy_fails (List.mem_append_left _ occurs) rfl,
    copy_fails (List.mem_append_left _ occurs) fails⟩
  · exact ⟨_, .of_mem List.mem_cons_self, _, rfl, rfl⟩
  · exact (resolve_eq_error_iff.1 fails).2

end SchemaCodegen
