import SchemaCodegen.Proofs.Reference.Inlined

/-!
# What dereferencing leaves

Dereferencing leaves a reference for one of two reasons: it does not resolve, or it came back on
the way to where it stands.  The way is not seen in the result, but it is a chain of references
in the document, each one inside the target of the one before (`LeadsTo`); so a reference that
came back lies on a cycle of that relation (`nothing_or_onCycle_of_holds_copy`).

Where no cycle can be reached, only references that do not resolve are left, and dereferencing
again changes nothing.

### What is load-bearing

References must resolve to objects.  Below the key `$ref` of an object that is no reference, a
reference could otherwise resolve to a text, and the copy would be a reference that nobody
wrote (`string?_copies`).
-/

namespace SchemaCodegen

open Relation

variable {g : Anchors} {document v copy marked : Value} {roots : List Value}
  {taken fresh : List String} {active : List Nat} {es : Entries} {ref : String}

/-! ### Chains of references -/

/-- `LeadsTo g document r s`: the target of the reference `r` holds the reference `s`. -/
def LeadsTo (g : Anchors) (document : Value) (r s : String) : Prop :=
  ∃ target, (resolve g r document).result = .ok (some target) ∧ Holds g target s

/-- The references that resolve, refer to objects. -/
def RefersToObjects (g : Anchors) (roots : List Value) (document : Value) : Prop :=
  ∀ ref target, Occurs g roots ref → (resolve g ref document).result = .ok (some target) →
    g.isObject target = true

theorem string?_of_isObject (object : g.isObject v = true) : v.string? = none := by
  cases v with
  | scalar => cases object
  | _ => rfl

/-! ### Holding a reference -/

theorem Holds.cases_head (holds : Holds g v ref) :
    Refers g v ref ∨ ∃ u, PartOf g v u ∧ Holds g u ref := by
  obtain ⟨u, inside, refers⟩ := holds
  obtain rfl | ⟨w, part, rest⟩ := inside.cases_head
  · exact .inl refers
  · exact .inr ⟨w, part, u, rest, refers⟩

theorem holds_list {xs : List Value} (holds : Holds g (.list xs) ref) :
    ∃ x ∈ xs, Holds g x ref := by
  obtain ⟨_, entries, -⟩ | ⟨u, part, below⟩ := holds.cases_head
  · cases entries
  · obtain ⟨_, items, mem⟩ | ⟨_, _, entries, -⟩ := part
    · cases items
      exact ⟨u, mem, below⟩
    · cases entries

theorem holds_object (holds : Holds g (.object es) ref) :
    Entries.string? es "$ref" = some ref ∨ ∃ e ∈ es, Holds g e.2 ref := by
  obtain ⟨_, entries, found⟩ | ⟨u, part, below⟩ := holds.cases_head
  · cases entries
    exact .inl found
  · obtain ⟨_, items, -⟩ | ⟨_, key, entries, mem⟩ := part
    · cases items
    · cases entries
      exact .inr ⟨_, mem, below⟩

theorem not_holds_leaf (isLeaf : v.IsLeaf g) : ¬ Holds g v ref := by
  intro holds
  obtain ⟨_, entries, -⟩ | ⟨_, ⟨_, items, -⟩ | ⟨_, _, entries, -⟩, -⟩ := holds.cases_head
  · cases isLeaf.2.symm.trans entries
  · cases isLeaf.1.symm.trans items
  · cases isLeaf.2.symm.trans entries

/-! ### The copy -/

section Copy

variable (trees : ∀ root ∈ roots, root.isTree = true) (document_mem : document ∈ roots)

include document_mem

/-- The target of a reference is within the roots. -/
theorem within_of_resolve {target : Value}
    (found : (resolve g ref document).result = .ok (some target)) : Within g roots target :=
  ⟨document, document_mem, inside_of_resolve found⟩

include trees in
/-- The copy of a tree is a tree. -/
theorem Inlined.isTree_copy (h : Inlined g document taken v copy marked)
    (within : Within g roots v) : copy.isTree = true := by
  induction h with
  | repeated => exact within.isTree trees
  | unresolved => exact within.isTree trees
  | resolved _ found _ ih => exact ih (within_of_resolve document_mem found)
  | list _ ih =>
      rw [Value.isTree, areTrees_iff]
      intro x mem
      obtain ⟨row, at_row, rfl⟩ := List.mem_map.1 mem
      exact ih row at_row (within.part (.inl ⟨_, rfl, List.mem_map_of_mem at_row⟩))
  | object _ _ ih =>
      rw [Value.isTree, haveTrees_iff]
      intro e mem
      obtain ⟨row, at_row, rfl⟩ := List.mem_map.1 mem
      exact ih row at_row (within.part (.inr ⟨_, row.1, rfl, List.mem_map_of_mem at_row⟩))
  | leaf => exact within.isTree trees

section Objects

variable (objects : RefersToObjects g roots document)

include objects

/-- The copy of an object is an object. -/
theorem Inlined.isObject_copy (h : Inlined g document taken v copy marked)
    (within : Within g roots v) (object : g.isObject v = true) : g.isObject copy = true := by
  induction h with
  | repeated => exact object
  | unresolved => exact object
  | @resolved _ ref target _ _ _ found _ ih =>
      have occurs : Occurs g roots ref := ⟨_, within, refers_referenceTo g ref⟩
      exact ih (within_of_resolve document_mem found) (objects ref target occurs found)
  | list => cases object
  | object => rfl
  | leaf => exact object

/-- A copy that is a text is the copy of that text. -/
theorem Inlined.string?_source {text : String} (h : Inlined g document taken v copy marked)
    (within : Within g roots v) (is_text : copy.string? = some text) : v.string? = some text := by
  cases h with
  | @resolved _ ref target _ _ _ found below =>
      have occurs : Occurs g roots ref := ⟨_, within, refers_referenceTo g ref⟩
      have object := below.isObject_copy document_mem objects
        (within_of_resolve document_mem found) (objects ref target occurs found)
      rw [string?_of_isObject object] at is_text
      cases is_text
  | leaf => exact is_text
  | _ => cases is_text

/-- Copying makes no object a reference. -/
theorem string?_copies {rows : List (Scalar × Copies)}
    (each : ∀ row ∈ rows, Inlined g document taken row.2.source row.2.copy row.2.marked)
    (within : ∀ row ∈ rows, Within g roots row.2.source)
    (plain : Entries.string? (Copies.sources rows) "$ref" = none) :
    Entries.string? (Copies.copies rows) "$ref" = none := by
  unfold Entries.string? at plain ⊢
  induction rows with
  | nil => rfl
  | cons row rows ih =>
      obtain ⟨here, later⟩ := List.forall_mem_cons.1 each
      obtain ⟨here_within, later_within⟩ := List.forall_mem_cons.1 within
      rw [Copies.copies, List.map_cons, Entries.get?_cons]
      rw [Copies.sources, List.map_cons, Entries.get?_cons] at plain
      by_cases key : row.1 = .string "$ref"
      · rw [if_pos key] at plain ⊢
        cases text : row.2.copy.string? with
        | none => exact text
        | some s =>
            have is_text := here.string?_source document_mem objects here_within text
            exact absurd (is_text.symm.trans plain) (by simp)
      · rw [if_neg key] at plain ⊢
        exact ih later later_within plain

/-- A reference in the copy does not resolve or lies on a cycle, and a chain of references leads
to it from one in the source. -/
theorem nothing_or_onCycle_of_holds_copy (h : Inlined g document taken v copy marked)
    (within : Within g roots v)
    (chain : ∀ r ∈ taken, ∀ s, Holds g v s → TransGen (LeadsTo g document) r s)
    (holds : Holds g copy ref) :
    ((resolve g ref document).result = .ok none ∨ TransGen (LeadsTo g document) ref ref)
      ∧ ∃ s, Holds g v s ∧ ReflTransGen (LeadsTo g document) s ref := by
  induction h with
  | repeated again =>
      cases eq_of_holds_referenceTo holds
      exact ⟨.inr (chain ref again ref holds), ref, holds, .refl⟩
  | unresolved new nothing =>
      cases eq_of_holds_referenceTo holds
      exact ⟨.inl nothing, ref, holds, .refl⟩
  | @resolved taken r target _ _ _ found _ ih =>
      -- Every reference taken leads on into the target, and so does the one that is followed.
      have here : Holds g (referenceTo r) r := ⟨_, .refl, refers_referenceTo g r⟩
      have chain_below (r' : String) (mem : r' ∈ r :: taken) (s : String)
          (below : Holds g target s) : TransGen (LeadsTo g document) r' s := by
        have last : LeadsTo g document r s := ⟨target, found, below⟩
        obtain rfl | earlier := List.mem_cons.1 mem
        · exact .single last
        · exact (chain r' earlier r here).tail last
      obtain ⟨reason, s, below, leads⟩ := ih (within_of_resolve document_mem found)
        chain_below holds
      exact ⟨reason, r, here, .head ⟨target, found, below⟩ leads⟩
  | @list _ rows _ ih =>
      obtain ⟨x, mem, below⟩ := holds_list holds
      obtain ⟨row, at_row, rfl⟩ := List.mem_map.1 mem
      have part : PartOf g (.list (rows.map Copies.source)) row.source :=
        .inl ⟨_, rfl, List.mem_map_of_mem at_row⟩
      obtain ⟨reason, s, held, leads⟩ := ih row at_row (within.part part)
        (fun r mem s held => chain r mem s (.of_part part held)) below
      exact ⟨reason, s, .of_part part held, leads⟩
  | @object _ rows plain each ih =>
      have part {row : Scalar × Copies} (at_row : row ∈ rows) :
          PartOf g (.object (Copies.sources rows)) row.2.source :=
        .inr ⟨_, row.1, rfl, List.mem_map_of_mem at_row⟩
      obtain own | ⟨e, mem, below⟩ := holds_object holds
      · rw [string?_copies document_mem objects each
          (fun row at_row => within.part (part at_row)) plain] at own
        cases own
      · obtain ⟨row, at_row, rfl⟩ := List.mem_map.1 mem
        obtain ⟨reason, s, held, leads⟩ := ih row at_row (within.part (part at_row))
          (fun r mem s held => chain r mem s (.of_part (part at_row) held)) below
        exact ⟨reason, s, .of_part (part at_row) held, leads⟩
  | leaf isLeaf => exact absurd holds (not_holds_leaf isLeaf)

end Objects

end Copy

/-! ### Nothing to inline -/

/-- A tree in which no reference resolves is its own copy. -/
theorem result_value_of_unresolved (tree : v.isTree = true)
    (nothing : ∀ r, Holds g v r → (resolve g r document).result = .ok none) :
    ((Inlining.plain g document).value g fresh active v).result = .ok v := by
  induction v, tree using Value.isTree_induct (g := g) with
  | leaf v _ isLeaf =>
      rw [Inlining.value_leaf isLeaf]
      rfl
  | list xs tree ih =>
      rw [Inlining.value_list]
      refine Traced.result_bind_eq_ok.2 ⟨xs, Traced.result_mapM_eq_ok.2 ?_, rfl⟩
      refine List.forall₂_same.2 fun x mem => ?_
      have part : PartOf g (.list xs) x := .inl ⟨xs, rfl, mem⟩
      exact ih x mem (part.isTree tree) fun r held => nothing r (.of_part part held)
  | object es tree ih =>
      cases reference : Entries.string? es "$ref" with
      | none =>
          rw [Inlining.value_object reference]
          refine Traced.result_bind_eq_ok.2 ⟨es, Traced.result_mapM_eq_ok.2 ?_, rfl⟩
          refine List.forall₂_same.2 fun e mem => Traced.result_bind_eq_ok.2 ⟨e.2, ?_, rfl⟩
          have part : PartOf g (.object es) e.2 := .inr ⟨es, e.1, rfl, mem⟩
          exact ih e mem (part.isTree tree) fun r held => nothing r (.of_part part held)
      | some r =>
          have unresolved := nothing r ⟨_, .refl, es, rfl, reference⟩
          by_cases new : r ∈ fresh
          · rw [Inlining.value_fresh reference new]
            refine Traced.result_bind_eq_ok.2 ⟨none, ?_, rfl⟩
            rw [Inlining.result_target_plain, unresolved]
          · rw [Inlining.value_repeated reference new]
            rfl

/-- **What dereferencing leaves.**  In trees whose reference objects have no other key and
resolve, if at all, to objects, dereferencing ends.  Every reference left in the result does not
resolve or lies on a cycle; where no cycle can be reached from the value, no reference is left
that resolves, and dereferencing the result gives it back. -/
theorem dereference_leaves (tree : v.isTree = true) (document_tree : document.isTree = true)
    (bare : BareReferences g [v, document]) (answers : AnswersReferences g [v, document] document)
    (objects : RefersToObjects g [v, document] document) :
    ∃ copy, (dereference g v document).result = .ok copy
      ∧ (∀ r, Holds g copy r →
          (resolve g r document).result = .ok none ∨ TransGen (LeadsTo g document) r r)
      ∧ ((∀ r s, Holds g v r → ReflTransGen (LeadsTo g document) r s →
            ¬ TransGen (LeadsTo g document) s s) →
          (∀ r, Holds g copy r → (resolve g r document).result = .ok none)
            ∧ (dereference g copy document).result = .ok copy) := by
  obtain ⟨row, copied⟩ := exists_copied_start tree document_tree bare answers
  have inlined : Inlined g document [] v row.copy row.marked := copied.source ▸ copied.inlined
  have trees : ∀ root ∈ [v, document], root.isTree = true := by
    simp [tree, document_tree]
  have document_mem : document ∈ [v, document] := by simp
  have within : Within g [v, document] v := .of_mem List.mem_cons_self
  have reason (r : String) (holds : Holds g row.copy r) :=
    nothing_or_onCycle_of_holds_copy document_mem objects inlined within
      (fun _ mem => absurd mem List.not_mem_nil) holds
  refine ⟨row.copy, copied.plain, fun r holds => (reason r holds).1, fun acyclic => ?_⟩
  have nothing : ∀ r, Holds g row.copy r → (resolve g r document).result = .ok none := by
    intro r holds
    obtain ⟨unresolved | onCycle, s, held, leads⟩ := reason r holds
    · exact unresolved
    · exact absurd onCycle (acyclic s r held leads)
  have copy_tree := inlined.isTree_copy trees document_mem within
  exact ⟨nothing, result_value_of_unresolved copy_tree nothing⟩

theorem refersToObjects_linkedList :
    RefersToObjects {} [referenceTo "#/Link", linkedList] linkedList := by
  rintro ref target ⟨u, within, refers⟩ found
  obtain rfl | rfl := (refers_linkedList within refers).2
  · cases resolve_link.symm.trans found
    rfl
  · cases resolve_label.symm.trans found

/-- The premises hold of a list that refers to itself. -/
theorem dereference_leaves_linkedList :
    (referenceTo "#/Link").isTree = true ∧ linkedList.isTree = true
      ∧ BareReferences {} [referenceTo "#/Link", linkedList]
      ∧ AnswersReferences {} [referenceTo "#/Link", linkedList] linkedList
      ∧ RefersToObjects {} [referenceTo "#/Link", linkedList] linkedList
      ∧ ∃ copy, (dereference {} (referenceTo "#/Link") linkedList).result = .ok copy
        ∧ (∀ r, Holds {} copy r →
            (resolve {} r linkedList).result = .ok none ∨ TransGen (LeadsTo {} linkedList) r r)
        ∧ ((∀ r s, Holds {} (referenceTo "#/Link") r → ReflTransGen (LeadsTo {} linkedList) r s →
              ¬ TransGen (LeadsTo {} linkedList) s s) →
            (∀ r, Holds {} copy r → (resolve {} r linkedList).result = .ok none)
              ∧ (dereference {} copy linkedList).result = .ok copy) :=
  ⟨by decide, by decide, bareReferences_linkedList, answersReferences_linkedList,
    refersToObjects_linkedList,
    dereference_leaves (by decide) (by decide) bareReferences_linkedList
      answersReferences_linkedList refersToObjects_linkedList⟩

end SchemaCodegen
