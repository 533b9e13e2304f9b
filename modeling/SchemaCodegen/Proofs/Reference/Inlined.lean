import SchemaCodegen.Proofs.Reference.Targets
import SchemaCodegen.Reference.Inline

/-!
# Copies with references inlined

`dereference` and `breakCycles` make copies of a value that differ where a reference comes
back.  `Inlined g document taken v copy marked` says what the two copies of `v` are, position
by position, when the references `taken` lead to it:

* a reference that is taken already is left in the first copy and marked in the second;
* a reference that does not resolve is left in both;
* any other reference stands for its target, with one more reference taken;
* lists and objects are copied with the same length, keys and order, and all else as it is.

The relation knows neither the list of fresh references that the walk carries nor its
measure.  In trees whose reference objects have no other key, both walks end and give the
copies of the relation (`exists_copied`).

### What is load-bearing

A reference is fresh for the walk exactly when it is not taken for the relation, provided that
it occurs at all: whatever the walk meets is inside the value or the document, so its
references are among those that were fresh in the beginning.
-/

namespace SchemaCodegen

open Relation

variable {g : Anchors} {document v copy marked : Value} {roots : List Value}
  {taken fresh : List String} {active : List Nat} {es : Entries} {ref : String}

/-! ### References that occur -/

/-- The object that is a reference and nothing else. -/
def referenceTo (ref : String) : Value := .object [(.string "$ref", .string ref)]

/-- `Occurs g roots ref`: the reference `ref` occurs within the roots. -/
def Occurs (g : Anchors) (roots : List Value) (ref : String) : Prop :=
  ∃ u, Within g roots u ∧ Refers g u ref

/-- The objects with a reference have no other key. -/
def BareReferences (g : Anchors) (roots : List Value) : Prop :=
  ∀ u, Within g roots u → ∀ ref, Refers g u ref → u = referenceTo ref

/-- Resolving a reference that occurs does not fail. -/
def AnswersReferences (g : Anchors) (roots : List Value) (document : Value) : Prop :=
  ∀ ref, Occurs g roots ref → ∃ found, (resolve g ref document).result = .ok found

/-- In trees it suffices to resolve the references on the list of their parts. -/
theorem answersReferences_of_forall (trees : ∀ root ∈ roots, root.isTree = true)
    (answers : ∀ u ∈ roots.flatMap Value.parts, ∀ ref ∈ reference? g u,
      (resolve g ref document).result.isOk = true) : AnswersReferences g roots document := by
  rintro ref ⟨u, within, refers⟩
  have ok := forall_within trees answers u within ref (reference?_eq_some.2 refers)
  cases found : (resolve g ref document).result with
  | error e =>
      rw [found] at ok
      cases ok
  | ok target => exact ⟨target, rfl⟩

/-- A reference that occurs is among the references of the roots. -/
theorem Occurs.mem_references (occurs : Occurs g [v, document] ref) :
    ref ∈ g.references v ++ g.references document := by
  obtain ⟨u, ⟨root, mem, inside⟩, refers⟩ := occurs
  have found := Holds.mem_references ⟨u, inside, refers⟩
  obtain rfl | rfl : root = v ∨ root = document := by simpa using mem
  · exact List.mem_append_left _ found
  · exact List.mem_append_right _ found

theorem refers_referenceTo (g : Anchors) (ref : String) : Refers g (referenceTo ref) ref :=
  ⟨_, rfl, rfl⟩

theorem eq_of_refers_referenceTo {other : String} (refers : Refers g (referenceTo ref) other) :
    other = ref := by
  obtain ⟨es, entries, found⟩ := refers
  cases entries
  cases found
  rfl

/-- A reference object holds its reference only. -/
theorem eq_of_holds_referenceTo {other : String} (holds : Holds g (referenceTo ref) other) :
    other = ref := by
  obtain ⟨u, inside, refers⟩ := holds
  obtain rfl | ⟨w, part, rest⟩ := inside.cases_head
  · exact eq_of_refers_referenceTo refers
  · obtain ⟨xs, items, -⟩ | ⟨es, key, entries, mem⟩ := part
    · cases items
    · cases entries
      cases List.mem_singleton.1 mem
      obtain rfl | ⟨_, part, -⟩ := rest.cases_head
      · obtain ⟨_, entries, -⟩ := refers
        cases entries
      · obtain ⟨_, items, -⟩ | ⟨_, _, entries, -⟩ := part
        · cases items
        · cases entries

/-! ### The two copies -/

/-- A value beside its copy with repeats left and its copy with repeats marked. -/
structure Copies where
  source : Value
  copy : Value
  marked : Value

/-- The sources of entries. -/
def Copies.sources (rows : List (Scalar × Copies)) : Entries := rows.map fun r => (r.1, r.2.source)

/-- The copies of entries, with repeats left. -/
def Copies.copies (rows : List (Scalar × Copies)) : Entries := rows.map fun r => (r.1, r.2.copy)

/-- The copies of entries, with repeats marked. -/
def Copies.markeds (rows : List (Scalar × Copies)) : Entries := rows.map fun r => (r.1, r.2.marked)

/-- `Inlined g document taken v copy marked`: below the references `taken`, the copies of `v`
are `copy` with repeats left, and `marked` with repeats marked. -/
inductive Inlined (g : Anchors) (document : Value) :
    (taken : List String) → (v copy marked : Value) → Prop
  | repeated {taken : List String} {ref : String} (again : ref ∈ taken) :
      Inlined g document taken (referenceTo ref) (referenceTo ref) (circularMarker ref)
  | unresolved {taken : List String} {ref : String} (new : ref ∉ taken)
      (nothing : (resolve g ref document).result = .ok none) :
      Inlined g document taken (referenceTo ref) (referenceTo ref) (referenceTo ref)
  | resolved {taken : List String} {ref : String} {target copy marked : Value}
      (new : ref ∉ taken) (found : (resolve g ref document).result = .ok (some target))
      (below : Inlined g document (ref :: taken) target copy marked) :
      Inlined g document taken (referenceTo ref) copy marked
  | list {taken : List String} {rows : List Copies}
      (each : ∀ row ∈ rows, Inlined g document taken row.source row.copy row.marked) :
      Inlined g document taken (.list (rows.map Copies.source)) (.list (rows.map Copies.copy))
        (.list (rows.map Copies.marked))
  | object {taken : List String} {rows : List (Scalar × Copies)}
      (plain : Entries.string? (Copies.sources rows) "$ref" = none)
      (each : ∀ row ∈ rows, Inlined g document taken row.2.source row.2.copy row.2.marked) :
      Inlined g document taken (.object (Copies.sources rows)) (.object (Copies.copies rows))
        (.object (Copies.markeds rows))
  | leaf {taken : List String} {v : Value} (isLeaf : v.IsLeaf g) : Inlined g document taken v v v

/-! ### One step of the walk -/

namespace Inlining

variable {p : Inlining}

theorem items_eq_mapM (xs : List Value) :
    p.items g fresh active xs = xs.mapM (p.value g fresh active) := by
  induction xs with
  | nil =>
      rw [items]
      rfl
  | cons x xs ih => rw [items, ih, List.mapM_cons]

theorem entries_eq_mapM (es : Entries) :
    p.entries g fresh active es
      = es.mapM (fun e => do pure (e.1, ← p.value g fresh active e.2)) := by
  induction es with
  | nil =>
      rw [entries]
      rfl
  | cons e es ih =>
      rw [entries, ih, List.mapM_cons]
      simp only [bind_assoc, pure_bind]

/-- A list is walked item by item. -/
theorem value_list (xs : List Value) :
    p.value g fresh active (.list xs)
      = (do pure (.list (← xs.mapM (p.value g fresh active)))) := by
  rw [value]
  split
  · next h => cases h
  · split
    · next ys h =>
        cases h
        split
        · next inner entered =>
            cases entered
            rw [items_eq_mapM]
        · next stuck => cases stuck
    · next h => cases h

/-- An object that is no reference is walked value by value. -/
theorem value_object (plain : Entries.string? es "$ref" = none) :
    p.value g fresh active (.object es)
      = (do pure (.object (← es.mapM fun e => do pure (e.1, ← p.value g fresh active e.2)))) := by
  rw [value]
  split
  · next fs h =>
      cases h
      rw [plain]
      dsimp only
      split
      · next inner entered =>
          cases entered
          rw [entries_eq_mapM]
      · next stuck => cases stuck
  · next h => cases h

/-- What has no parts is left as it is. -/
theorem value_leaf (isLeaf : v.IsLeaf g) : p.value g fresh active v = pure v := by
  rw [value]
  split
  · next h => cases isLeaf.2.symm.trans h
  · split
    · next h => cases isLeaf.1.symm.trans h
    · rfl

/-- A reference that is not fresh is a repeat. -/
theorem value_repeated (reference : Entries.string? es "$ref" = some ref) (stale : ref ∉ fresh) :
    p.value g fresh active (.object es) = pure (p.repeated ref (.object es)) := by
  rw [value]
  split
  · next fs h =>
      cases h
      rw [reference]
      exact dif_neg stale
  · next h => cases h

/-- A fresh reference is asked for its target. -/
theorem value_fresh (reference : Entries.string? es "$ref" = some ref) (new : ref ∈ fresh) :
    p.value g fresh active (.object es) = (do
      match ← p.target ref with
      | some t => p.value g (taking ref fresh) [] t
      | none =>
        if p.descends then do
          pure (.object (← p.entries g (taking ref fresh) [] es))
        else pure (.object es)) := by
  rw [value]
  split
  · next fs h =>
      cases h
      rw [reference]
      exact dif_pos new
  · next h => cases h

/-- Asking for a target only resolves the reference. -/
theorem result_target_plain (ref : String) :
    ((plain g document).target ref).result = (resolve g ref document).result := by
  show ((resolve g ref document) >>= _).result = _
  rw [Traced.result_bind]
  cases (resolve g ref document).result with
  | error e => rfl
  | ok found => cases found <;> rfl

end Inlining

/-! ### The walks and the relation -/

section Walks

variable (trees : ∀ root ∈ roots, root.isTree = true) (document_mem : document ∈ roots)
  (bare : BareReferences g roots) (answers : AnswersReferences g roots document)

/-- `Copied g document fresh taken active v row`: the walks of `v` below `fresh` references give
the copies of the row, and these are the copies below the references `taken`. -/
structure Copied (g : Anchors) (document : Value) (fresh taken : List String)
    (active : List Nat) (v : Value) (row : Copies) : Prop where
  source : row.source = v
  plain : ((Inlining.plain g document).value g fresh active v).result = .ok row.copy
  marking : ((Inlining.marking g (some document)).value g fresh active v).result = .ok row.marked
  inlined : Inlined g document taken row.source row.copy row.marked

/-- The items of a list are copied one by one. -/
theorem exists_copied_list {xs : List Value}
    (each : ∀ x ∈ xs, ∃ row, Copied g document fresh taken active x row) :
    ∃ row, Copied g document fresh taken active (.list xs) row := by
  obtain ⟨rows, aligned⟩ := exists_forall₂ each
  have sources : rows.map Copies.source = xs :=
    map_eq_of_forall₂ (aligned.imp fun _ _ copied => copied.source)
  refine ⟨⟨.list xs, .list (rows.map Copies.copy), .list (rows.map Copies.marked)⟩, rfl, ?_, ?_, ?_⟩
  · rw [Inlining.value_list]
    refine Traced.result_bind_eq_ok.2 ⟨_, Traced.result_mapM_eq_ok.2 ?_, rfl⟩
    rw [List.forall₂_map_right_iff]
    exact aligned.imp fun _ _ copied => copied.plain
  · rw [Inlining.value_list]
    refine Traced.result_bind_eq_ok.2 ⟨_, Traced.result_mapM_eq_ok.2 ?_, rfl⟩
    rw [List.forall₂_map_right_iff]
    exact aligned.imp fun _ _ copied => copied.marking
  · dsimp only
    rw [← sources]
    refine .list fun row mem => ?_
    obtain ⟨_, -, copied⟩ := exists_of_mem_left aligned.flip mem
    exact copied.inlined

/-- The values of an object that is no reference are copied one by one. -/
theorem exists_copied_object (no_reference : Entries.string? es "$ref" = none)
    (each : ∀ e ∈ es, ∃ row, Copied g document fresh taken active e.2 row) :
    ∃ row, Copied g document fresh taken active (.object es) row := by
  have keyed : ∀ e ∈ es, ∃ r : Scalar × Copies,
      r.1 = e.1 ∧ Copied g document fresh taken active e.2 r.2 := by
    intro e mem
    obtain ⟨row, copied⟩ := each e mem
    exact ⟨(e.1, row), rfl, copied⟩
  obtain ⟨rows, aligned⟩ := exists_forall₂ keyed
  have sources : Copies.sources rows = es :=
    map_eq_of_forall₂ (aligned.imp fun _ _ here => Prod.ext here.1 here.2.source)
  refine ⟨⟨.object es, .object (Copies.copies rows), .object (Copies.markeds rows)⟩, rfl, ?_, ?_, ?_⟩
  · rw [Inlining.value_object no_reference]
    refine Traced.result_bind_eq_ok.2 ⟨_, Traced.result_mapM_eq_ok.2 ?_, rfl⟩
    rw [Copies.copies, List.forall₂_map_right_iff]
    refine aligned.imp fun e r here => ?_
    rw [here.1]
    exact Traced.result_bind_eq_ok.2 ⟨_, here.2.plain, rfl⟩
  · rw [Inlining.value_object no_reference]
    refine Traced.result_bind_eq_ok.2 ⟨_, Traced.result_mapM_eq_ok.2 ?_, rfl⟩
    rw [Copies.markeds, List.forall₂_map_right_iff]
    refine aligned.imp fun e r here => ?_
    rw [here.1]
    exact Traced.result_bind_eq_ok.2 ⟨_, here.2.marking, rfl⟩
  · dsimp only
    rw [← sources] at no_reference ⊢
    refine .object no_reference fun r mem => ?_
    obtain ⟨_, -, here⟩ := exists_of_mem_left aligned.flip mem
    exact here.2.inlined

/-- A repeat is left in the one copy and marked in the other. -/
theorem copied_repeated (stale : ref ∉ fresh) (again : ref ∈ taken) :
    Copied g document fresh taken active (referenceTo ref)
      ⟨referenceTo ref, referenceTo ref, circularMarker ref⟩ where
  source := rfl
  plain := congrArg Traced.result (Inlining.value_repeated rfl stale)
  marking := congrArg Traced.result (Inlining.value_repeated rfl stale)
  inlined := .repeated again

/-- A reference that does not resolve is left in both copies. -/
theorem copied_unresolved (fresh_mem : ref ∈ fresh) (new : ref ∉ taken)
    (nothing : (resolve g ref document).result = .ok none) :
    Copied g document fresh taken active (referenceTo ref)
      ⟨referenceTo ref, referenceTo ref, referenceTo ref⟩ where
  source := rfl
  plain := by
    refine (congrArg Traced.result (Inlining.value_fresh rfl fresh_mem)).trans ?_
    refine Traced.result_bind_eq_ok.2 ⟨none, ?_, rfl⟩
    rw [Inlining.result_target_plain, nothing]
  marking := by
    refine (congrArg Traced.result (Inlining.value_fresh rfl fresh_mem)).trans ?_
    refine Traced.result_bind_eq_ok.2 ⟨none, nothing, ?_⟩
    -- The walk goes on into the reference object, whose only value is a text.
    rw [Inlining.entries_eq_mapM, List.mapM_cons, List.mapM_nil,
      Inlining.value_leaf ⟨rfl, rfl⟩]
    rfl
  inlined := .unresolved new nothing

/-- A reference that resolves is copied as its target. -/
theorem Copied.resolved {row : Copies} {target : Value} (fresh_mem : ref ∈ fresh)
    (new : ref ∉ taken) (found : (resolve g ref document).result = .ok (some target))
    (below : Copied g document (taking ref fresh) (ref :: taken) [] target row) :
    Copied g document fresh taken active (referenceTo ref)
      ⟨referenceTo ref, row.copy, row.marked⟩ where
  source := rfl
  plain := by
    refine (congrArg Traced.result (Inlining.value_fresh rfl fresh_mem)).trans ?_
    refine Traced.result_bind_eq_ok.2 ⟨some target, ?_, below.plain⟩
    rw [Inlining.result_target_plain, found]
  marking := by
    refine (congrArg Traced.result (Inlining.value_fresh rfl fresh_mem)).trans ?_
    exact Traced.result_bind_eq_ok.2 ⟨some target, found, below.marking⟩
  inlined := .resolved new found (below.source ▸ below.inlined)

/-- Taking a fresh reference keeps the fresh ones apart from those taken. -/
theorem mem_taking_iff_not_mem_cons
    (apart : ∀ r, Occurs g roots r → (r ∈ fresh ↔ r ∉ taken)) :
    ∀ r, Occurs g roots r → (r ∈ taking ref fresh ↔ r ∉ ref :: taken) := by
  intro r occurs
  rw [mem_taking, apart r occurs, List.mem_cons]
  tauto

include trees document_mem bare answers

/-- The walks end and give the copies of the relation, provided that a reference is fresh
exactly when it is not taken. -/
theorem exists_copied (apart : ∀ r, Occurs g roots r → (r ∈ fresh ↔ r ∉ taken))
    (within : Within g roots v) : ∃ row, Copied g document fresh taken active v row := by
  -- Entering a target leaves fewer fresh references; between references the tree gets smaller.
  induction count : fresh.length using Nat.strongRecOn generalizing fresh taken active v with
  | _ count fewer =>
      subst count
      have tree := within.isTree trees
      induction v, tree using Value.isTree_induct (g := g) with
      | leaf v _ isLeaf =>
          refine ⟨⟨v, v, v⟩, rfl, ?_, ?_, .leaf isLeaf⟩
          · rw [Inlining.value_leaf isLeaf]
            rfl
          · rw [Inlining.value_leaf isLeaf]
            rfl
      | list xs _ ih =>
          refine exists_copied_list fun x mem => ?_
          have here : Within g roots x := within.part (.inl ⟨xs, rfl, mem⟩)
          exact ih x mem (here.isTree trees) here
      | object es _ ih =>
          cases reference : Entries.string? es "$ref" with
          | none =>
              refine exists_copied_object reference fun e mem => ?_
              have here : Within g roots e.2 := within.part (.inr ⟨es, e.1, rfl, mem⟩)
              exact ih e mem (here.isTree trees) here
          | some ref =>
              have refers : Refers g (.object es) ref := ⟨es, rfl, reference⟩
              have occurs : Occurs g roots ref := ⟨_, within, refers⟩
              rw [bare _ within _ refers]
              by_cases again : ref ∈ taken
              · have stale : ref ∉ fresh := fun mem => (apart ref occurs).1 mem again
                exact ⟨_, copied_repeated stale again⟩
              · have fresh_mem : ref ∈ fresh := (apart ref occurs).2 again
                obtain ⟨found, resolved⟩ := answers ref occurs
                cases found with
                | none => exact ⟨_, copied_unresolved fresh_mem again resolved⟩
                | some target =>
                    have inside : Within g roots target :=
                      ⟨document, document_mem, inside_of_resolve resolved⟩
                    obtain ⟨row, below⟩ := fewer _ (length_taking_lt fresh_mem)
                      (mem_taking_iff_not_mem_cons apart) inside rfl
                    exact ⟨_, below.resolved fresh_mem again resolved⟩

end Walks

/-- In the beginning every reference that occurs is fresh, and the walks end. -/
theorem exists_copied_start (tree : v.isTree = true) (document_tree : document.isTree = true)
    (bare : BareReferences g [v, document]) (answers : AnswersReferences g [v, document] document) :
    ∃ row, Copied g document (g.references v ++ g.references document) [] [] v row := by
  have trees : ∀ root ∈ [v, document], root.isTree = true := by
    simp [tree, document_tree]
  refine exists_copied trees (by simp) bare answers ?_ (.of_mem List.mem_cons_self)
  intro r occurs
  exact iff_of_true occurs.mem_references List.not_mem_nil

/-- **Both copies.**  In trees whose reference objects have no other key, both walks end, and
their results are the copies of the relation below no reference: the same at every position,
except that a reference which comes back is left in the first and marked in the second. -/
theorem dereference_breakCycles (tree : v.isTree = true) (document_tree : document.isTree = true)
    (bare : BareReferences g [v, document]) (answers : AnswersReferences g [v, document] document) :
    ∃ copy marked, (dereference g v document).result = .ok copy
      ∧ (breakCycles g v (some document)).result = .ok marked
      ∧ Inlined g document [] v copy marked := by
  obtain ⟨row, copied⟩ := exists_copied_start tree document_tree bare answers
  exact ⟨row.copy, row.marked, copied.plain, copied.marking, copied.source ▸ copied.inlined⟩

/-! ### A list that goes on -/

/-- A list that refers to itself, with labels that are nowhere. -/
def linkedList : Value :=
  .object [(.string "Link",
    .object [(.string "next", referenceTo "#/Link"), (.string "label", referenceTo "#/Label")])]

theorem resolve_link : (resolve {} "#/Link" linkedList).result = .ok (some
    (.object [(.string "next", referenceTo "#/Link"), (.string "label", referenceTo "#/Label")])) :=
  rfl

theorem resolve_label : (resolve {} "#/Label" linkedList).result = .ok none := rfl

/-- Two references occur in the list and outside of it, in objects without other keys. -/
theorem refers_linkedList {u : Value} (within : Within {} [referenceTo "#/Link", linkedList] u)
    (refers : Refers {} u ref) :
    u = referenceTo ref ∧ (ref = "#/Link" ∨ ref = "#/Label") := by
  have mem : u ∈ [referenceTo "#/Link", .string "#/Link", linkedList,
      .object [(.string "next", referenceTo "#/Link"), (.string "label", referenceTo "#/Label")],
      referenceTo "#/Link", .string "#/Link", referenceTo "#/Label", .string "#/Label"] :=
    forall_within (by decide) (fun _ mem => mem) u within
  obtain ⟨es, entries, found⟩ := refers
  simp only [List.mem_cons, List.not_mem_nil, or_false] at mem
  obtain rfl | rfl | rfl | rfl | rfl | rfl | rfl | rfl := mem
  all_goals cases entries
  all_goals cases found
  · exact ⟨rfl, .inl rfl⟩
  · exact ⟨rfl, .inl rfl⟩
  · exact ⟨rfl, .inr rfl⟩

theorem bareReferences_linkedList : BareReferences {} [referenceTo "#/Link", linkedList] :=
  fun _ within _ refers => (refers_linkedList within refers).1

theorem answersReferences_linkedList :
    AnswersReferences {} [referenceTo "#/Link", linkedList] linkedList := by
  rintro ref ⟨u, within, refers⟩
  obtain rfl | rfl := (refers_linkedList within refers).2
  · exact ⟨_, resolve_link⟩
  · exact ⟨_, resolve_label⟩

/-- The premises hold of the list. -/
theorem dereference_breakCycles_linkedList :
    (referenceTo "#/Link").isTree = true ∧ linkedList.isTree = true
      ∧ BareReferences {} [referenceTo "#/Link", linkedList]
      ∧ AnswersReferences {} [referenceTo "#/Link", linkedList] linkedList
      ∧ ∃ copy marked, (dereference {} (referenceTo "#/Link") linkedList).result = .ok copy
        ∧ (breakCycles {} (referenceTo "#/Link") (some linkedList)).result = .ok marked
        ∧ Inlined {} linkedList [] (referenceTo "#/Link") copy marked :=
  ⟨by decide, by decide, bareReferences_linkedList, answersReferences_linkedList,
    dereference_breakCycles (by decide) (by decide) bareReferences_linkedList
      answersReferences_linkedList⟩

end SchemaCodegen
