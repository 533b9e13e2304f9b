import SchemaCodegen.Documentation.Label
import SchemaCodegen.Proofs.Data.Copy
import SchemaCodegen.Proofs.Schema.Positions

/-!
# Schemas that have a label

The label of an array is that of its items followed by `[]`, and recognising the shape of the
array does not show whether the items lead back to it: the repeat is cut in the node, but the
label is asked of the items anew.  So a graph whose every schema has a node may have schemas
without a label.

`labelWithin` is this recursion with nothing but a limit on its depth.  Its steps are `ItemsOf`;
it comes to a label unless the steps lead into a cycle (`EndlessItems`), and then no limit is
enough (`labelWithin_of_endless`).  `labelBelow`, which remembers the arrays on the way, returns
the same labels and stops where an array comes again (`hasLabel_or_endless`).

### What may contain itself

Only items are gone into.  An object that contains itself as a property, a member or a value for
other keys has a label, and so has an array of such objects.  Where no container is inside itself,
every schema has one (`not_endlessItems_of_loopless`).
-/

namespace SchemaCodegen

open Relation Traced

variable {g : Anchors} {active inner : List Nat} {u v array items schema : Value} {node : Node}
  {below : Value → Traced String}

/-! ### Items -/

/-- The items of a node are what the step to items leads to. -/
theorem Node.below?_items (node : Node) : node.below? g .items = node.items? := by
  cases node with
  | composition f c members =>
      have no_field (own : Node) : own.field? .items = none := by cases own <;> rfl
      cases form : formOf g f.keywords with
      | intersection => simp [Node.below?, form, no_field, Node.items?]
      | _ => simp [Node.below?, form, Node.items?]
  | _ => rfl

/-- A schema has a node with items exactly when its keywords lead to items. -/
theorem isSome_items? (found : (Node.ofSchema g v).result = .ok node) :
    node.items?.isSome = (g.below? v .items).isSome := by
  have root : HasNode g [] v node := found
  rw [← Node.below?_items (g := g) node]
  cases entries : g.entries? v with
  | none =>
      unfold HasNode at root
      rw [classify_of_no_object entries] at root
      cases root
      rw [Anchors.below?, entries]
      split <;> rfl
  | some es =>
      have new : ∀ n ∈ ([] : List Nat), v ≠ .aliasTo n := by simp
      obtain ⟨inner, enters⟩ := exists_enter?_of_new entries new
      unfold HasNode at root
      rw [classify_of_enter? enters entries] at root
      rw [Anchors.below?, entries]
      exact isSome_eq_of_rel (rel_below? root .items)

/-- The items are under the keyword. -/
theorem get?_of_below?_items (leads : g.below? v .items = some u) :
    ∃ es, g.entries? v = some es ∧ Entries.get? es "items" = some u := by
  obtain ⟨es, entries, leads⟩ := Option.bind_eq_some_iff.1 leads
  refine ⟨es, entries, ?_⟩
  unfold Entries.below? at leads
  cases form : formOf g es with
  | array =>
      rw [form] at leads
      exact (Option.filter_eq_some_iff.1 leads).1
  | _ =>
      rw [form] at leads
      cases leads

/-- `ItemsOf g array items`: the label of the array is made from that of its items. -/
structure ItemsOf (g : Anchors) (array items : Value) : Prop where
  unmarked : markedReference? g array = none
  leads : g.below? array .items = some items
  object : g.isObject items = true

/-- `EndlessItems g schema`: going from arrays to their items leads from the schema to an array
that is inside its own items. -/
def EndlessItems (g : Anchors) (schema : Value) : Prop :=
  ∃ array, ReflTransGen (ItemsOf g) schema array ∧ TransGen (ItemsOf g) array array

theorem EndlessItems.of_itemsOf (step : ItemsOf g array items) (endless : EndlessItems g items) :
    EndlessItems g array := by
  obtain ⟨last, way, loop⟩ := endless
  exact ⟨last, .head step way, loop⟩

/-- A way without an end can be gone one step further. -/
theorem EndlessItems.exists_itemsOf (endless : EndlessItems g array) :
    ∃ items, ItemsOf g array items ∧ EndlessItems g items := by
  obtain ⟨last, way, loop⟩ := endless
  obtain rfl | ⟨items, step, way⟩ := way.cases_head
  · obtain ⟨items, step, back⟩ := TransGen.head'_iff.1 loop
    exact ⟨items, step, array, back, loop⟩
  · exact ⟨items, step, last, way, loop⟩

/-! ### One schema at a time -/

/-- The label of a schema, where `below` labels the items of an array. -/
def labelBy (g : Anchors) (below : Value → Traced String) (schema : Value) : Traced String :=
  match markedReference? g schema with
  | some ref => pure (markerLabel ref)
  | none => do
    let node ← Node.ofSchema g schema
    match g.below? schema .items with
    | none => pure (node.ownLabel g)
    | some items => if g.isObject items then do pure ((← below items) ++ "[]") else pure "any[]"

/-- The label of a schema, if it lies no deeper than a limit. -/
def labelWithin (g : Anchors) : (limit : Nat) → (schema : Value) → Traced String
  | 0, _ => fail .tooDeep
  | limit + 1, schema => labelBy g (labelWithin g limit) schema

/-- The label of an array waits for that of its items. -/
theorem labelBy_of_itemsOf (step : ItemsOf g array items) :
    labelBy g below array
      = Node.ofSchema g array >>= fun _ => below items >>= fun label => pure (label ++ "[]") := by
  simp only [labelBy, step.unmarked, step.leads, step.object, if_true]

/-- Any other schema has a label at once. -/
theorem exists_labelBy (last : ∀ items, ¬ ItemsOf g v items) :
    ∃ found label, found.result = .ok label ∧ ∀ below, labelBy g below v = found := by
  unfold labelBy
  cases marked : markedReference? g v with
  | some ref => exact ⟨_, _, rfl, fun _ => rfl⟩
  | none =>
      obtain ⟨node, found⟩ := exists_classify g [] v
      cases leads : g.below? v .items with
      | none => exact ⟨_, _, result_bind_eq_ok.2 ⟨node, found, rfl⟩, fun _ => rfl⟩
      | some items =>
          have no_object : ¬ g.isObject items := fun object => last items ⟨marked, leads, object⟩
          simp only [if_neg no_object]
          exact ⟨_, _, result_bind_eq_ok.2 ⟨node, found, rfl⟩, fun _ => rfl⟩

/-! ### Remembering the arrays on the way -/

/-- Items are labelled below their array, unless that is on the way to itself. -/
theorem labelBelow_eq : labelBelow g active v = match markedReference? g v with
    | some ref => pure (markerLabel ref)
    | none => Node.ofSchema g v >>= fun node => match g.below? v .items with
      | none => pure (node.ownLabel g)
      | some items => match g.enter? active v with
        | none => fail .tooDeep
        | some inner =>
          if g.isObject items then labelBelow g inner items >>= fun label => pure (label ++ "[]")
          else pure "any[]" := by
  rw [labelBelow]
  cases marked : markedReference? g v with
  | some ref => rfl
  | none =>
      obtain ⟨node, found⟩ := exists_classify g [] v
      refine bind_congr_of_ok found ?_
      have same := isSome_items? found
      cases leads : g.below? v .items with
      | none =>
          rw [leads, Option.isSome_none] at same
          rw [if_pos (by simpa using same)]
      | some items =>
          rw [leads, Option.isSome_some] at same
          obtain ⟨es, entries, at_key⟩ := get?_of_below?_items leads
          rw [if_neg (by simp [Option.isSome_iff_ne_none.1 same])]
          split
          · next missing => cases entries.symm.trans missing
          · next es' entries' =>
              cases entries.symm.trans entries'
              split
              · next missing => cases at_key.symm.trans missing
              · next items' at_key' =>
                  cases at_key.symm.trans at_key'
                  split
                  · next cut => rw [cut]
                  · next inner enters => rw [enters]

/-- A schema that is entered is labelled from the labels inside it. -/
theorem labelBelow_of_enter? (enters : g.enter? active v = some inner) :
    labelBelow g active v = labelBy g (labelBelow g inner) v := by
  rw [labelBelow_eq, labelBy, enters]

/-- What is no object has a label, although it is not entered. -/
theorem labelBelow_of_no_object (none : g.entries? v = none) (below : Value → Traced String) :
    labelBelow g active v = labelBy g below v := by
  have no_items : g.below? v .items = .none := by rw [Anchors.below?, none, Option.bind_none]
  rw [labelBelow_eq, labelBy, no_items]

/-- An array that comes again has no label. -/
theorem labelBelow_of_active {n : Nat} (mem : n ∈ active) (step : ItemsOf g (.aliasTo n) items) :
    (labelBelow g active (.aliasTo n)).result = .error .tooDeep := by
  have cut : g.enter? active (.aliasTo n) = none := if_neg fun fresh => fresh.2 mem
  obtain ⟨node, found⟩ := exists_classify g [] (.aliasTo n)
  rw [labelBelow_eq, step.unmarked, step.leads, cut]
  exact result_bind_eq_error.2 (.inr ⟨node, found, rfl⟩)

/-! ### Labels or cycles -/

/-- `HasLabel g active v`: there is a label, and from some limit on it is found within the limit. -/
structure HasLabel (g : Anchors) (active : List Nat) (v : Value) : Prop where
  returns : ∃ label, (labelBelow g active v).result = .ok label
  settles : ∃ limit, ∀ n, limit ≤ n → labelWithin g n v = labelBelow g active v

/-- What is no array with items is labelled. -/
theorem hasLabel_of_last (last : ∀ items, ¬ ItemsOf g v items)
    (labels : labelBelow g active v = labelBy g below v) : HasLabel g active v := by
  obtain ⟨found, label, ok, always⟩ := exists_labelBy last
  rw [always below] at labels
  refine ⟨⟨label, labels ▸ ok⟩, 1, fun n positive => ?_⟩
  obtain ⟨limit, rfl⟩ : ∃ limit, n = limit + 1 := ⟨n - 1, by omega⟩
  exact (always (labelWithin g limit)).trans labels.symm

/-- An array is labelled when its items are. -/
theorem HasLabel.of_itemsOf (step : ItemsOf g v u) (enters : g.enter? active v = some inner)
    (labelled : HasLabel g inner u) : HasLabel g active v := by
  obtain ⟨⟨label, ok⟩, limit, settled⟩ := labelled
  obtain ⟨node, found⟩ := exists_classify g [] v
  have labels := (labelBelow_of_enter? enters).trans (labelBy_of_itemsOf step)
  refine ⟨⟨label ++ "[]", ?_⟩, limit + 1, fun n later => ?_⟩
  · rw [labels]
    exact result_bind_eq_ok.2 ⟨node, found, result_bind_eq_ok.2 ⟨label, ok, rfl⟩⟩
  · obtain ⟨m, rfl⟩ : ∃ m, n = m + 1 := ⟨n - 1, by omega⟩
    rw [labels, labelWithin, labelBy_of_itemsOf step, settled m (by omega)]

/-- An array fails when its items do. -/
theorem labelBy_of_error (step : ItemsOf g v u) (fails : (below u).result = .error .tooDeep) :
    (labelBy g below v).result = .error .tooDeep := by
  obtain ⟨node, found⟩ := exists_classify g [] v
  rw [labelBy_of_itemsOf step]
  exact result_bind_eq_error.2 (.inr ⟨node, found, result_bind_eq_error.2 (.inl fails)⟩)

/-- **Labels or cycles.**  Below arrays whose items lead to it, a schema is labelled, or it is too
deep and items lead from it into a cycle. -/
theorem hasLabel_or_endless (lead : ∀ n ∈ active, TransGen (ItemsOf g) (.aliasTo n) v) :
    HasLabel g active v ∨
      (labelBelow g active v).result = .error .tooDeep ∧ EndlessItems g v := by
  induction active, v using classify_induct (g := g) with
  | entered active v inner es enters entries below =>
      by_cases goes_on : ∃ u, ItemsOf g v u
      · obtain ⟨u, step⟩ := goes_on
        obtain ⟨es', entries', at_key⟩ := get?_of_below?_items step.leads
        cases entries.symm.trans entries'
        have lead_inner : ∀ n ∈ inner, TransGen (ItemsOf g) (.aliasTo n) u := by
          intro n mem
          obtain before | rfl := (mem_of_enter? enters).1 mem
          · exact (lead n before).tail step
          · exact .single step
        obtain labelled | ⟨fails, endless⟩ := below u (Entries.weight_le_of_get? at_key) lead_inner
        · exact .inl (labelled.of_itemsOf step enters)
        · rw [labelBelow_of_enter? enters]
          exact .inr ⟨labelBy_of_error step fails, endless.of_itemsOf step⟩
      · exact .inl (hasLabel_of_last (not_exists.1 goes_on) (labelBelow_of_enter? enters))
  | cut active n es mem entries =>
      have loop := lead n mem
      obtain ⟨items, step, -⟩ := TransGen.head'_iff.1 loop
      exact .inr ⟨labelBelow_of_active mem step, _, .refl, loop⟩
  | no_object active v none =>
      have last (items : Value) : ¬ ItemsOf g v items := by
        intro step
        obtain ⟨es, entries, -⟩ := get?_of_below?_items step.leads
        cases none.symm.trans entries
      exact .inl (hasLabel_of_last last (labelBelow_of_no_object none fun _ => fail .tooDeep))

/-- Where items lead into a cycle no limit is enough. -/
theorem labelWithin_of_endless (endless : EndlessItems g schema) (limit : Nat) :
    (labelWithin g limit schema).result = .error .tooDeep := by
  induction limit generalizing schema with
  | zero => rfl
  | succ limit ih =>
      obtain ⟨items, step, further⟩ := endless.exists_itemsOf
      exact labelBy_of_error step (ih further)

theorem HasLabel.not_endless (labelled : HasLabel g active v) : ¬ EndlessItems g v := by
  intro endless
  obtain ⟨⟨label, ok⟩, limit, settled⟩ := labelled
  rw [← settled limit le_rfl, labelWithin_of_endless endless] at ok
  cases ok

/-! ### Graphs without cycles -/

/-- The copy of an array holds that of its items. -/
theorem ItemsOf.partOf_unshare (step : ItemsOf g array items)
    (tree : (g.unshare array).isTree = true) :
    PartOf {} (g.unshare array) (g.unshare items) := by
  obtain ⟨es, entries, at_key⟩ := get?_of_below?_items step.leads
  have copied : Entries.get? (g.expandEntries [] es) "items" = some (g.unshare items) := by
    rw [get?_expandEntries, at_key]
    rfl
  refine .inr ⟨g.expandEntries [] es, .string "items", ?_, Entries.mem_of_get? copied⟩
  rw [entries?_unshare tree, entries, Option.map_some]

/-- `CopyWeighs g n v`: the copy of the value is a tree of that weight. -/
def CopyWeighs (g : Anchors) (n : Nat) (v : Value) : Prop :=
  (g.unshare v).isTree = true ∧ (g.unshare v).weight = n

theorem CopyWeighs.of_itemsOf (n : Nat) (array items : Value) (weighs : CopyWeighs g n array)
    (step : ItemsOf g array items) : ∃ m < n, CopyWeighs g m items := by
  obtain ⟨tree, rfl⟩ := weighs
  have part := step.partOf_unshare tree
  exact ⟨_, part.weight_lt tree, part.isTree tree, rfl⟩

/-- Where no container is inside itself, items do not lead into a cycle. -/
theorem not_endlessItems_of_loopless (loopless : Loopless g schema) : ¬ EndlessItems g schema := by
  rintro ⟨array, way, loop⟩
  have weighs : CopyWeighs g _ schema := ⟨isTree_unshare_iff.2 loopless, rfl⟩
  exact not_transGen_of_way CopyWeighs.of_itemsOf weighs way loop

/-! ### Any graph -/

/-- At the root no array is on the way. -/
theorem hasLabel_or_endless_root (g : Anchors) (schema : Value) :
    HasLabel g [] schema ∨ (typeLabel g schema).result = .error .tooDeep ∧ EndlessItems g schema :=
  hasLabel_or_endless fun _ mem => absurd mem List.not_mem_nil

/-- Items that lead into a cycle are too deep. -/
theorem typeLabel_of_endless (endless : EndlessItems g schema) :
    (typeLabel g schema).result = .error .tooDeep := by
  obtain labelled | ⟨fails, -⟩ := hasLabel_or_endless_root g schema
  · exact absurd endless labelled.not_endless
  · exact fails

/-- **Labels of a graph**, in which containers may be shared and may contain themselves.  There is
always a node for a schema.  There is a label unless arrays lead, from items to items, into a cycle;
then every limit is too deep.  Where no container is inside itself they never do. -/
theorem typeLabel_found_or_endless (g : Anchors) (schema : Value) :
    (∃ node, (Node.ofSchema g schema).result = .ok node)
      ∧ (¬ EndlessItems g schema → ∃ label, (typeLabel g schema).result = .ok label
        ∧ ∃ limit, ∀ n, limit ≤ n → labelWithin g n schema = typeLabel g schema)
      ∧ (EndlessItems g schema → (typeLabel g schema).result = .error .tooDeep
        ∧ ∀ limit, (labelWithin g limit schema).result = .error .tooDeep)
      ∧ (Loopless g schema → ¬ EndlessItems g schema) := by
  refine ⟨exists_classify g [] schema, fun finite => ?_, fun endless => ?_,
    not_endlessItems_of_loopless⟩
  · obtain ⟨⟨label, ok⟩, settled⟩ | ⟨-, endless⟩ := hasLabel_or_endless_root g schema
    · exact ⟨label, ok, settled⟩
    · exact absurd endless finite
  · exact ⟨typeLabel_of_endless endless, labelWithin_of_endless endless⟩

/-! ### Lists of lists -/

/-- A list whose items are the list itself. -/
def nestedLists : Anchors :=
  ⟨[.object [(.string "type", .scalar (.string "array")), (.string "items", .anchor 0)]]⟩

/-- What the list says of itself. -/
def nestedKeywords : Entries :=
  [(.string "type", .string "array"), (.string "items", .aliasTo 0)]

theorem entries?_nestedLists : nestedLists.entries? (.aliasTo 0) = some nestedKeywords := rfl

theorem factsOf_nestedKeywords :
    factsOf nestedLists nestedKeywords = { keywords := nestedKeywords, type := some "array" } := by
  have stated : statedType nestedLists nestedKeywords = (some "array", false) := by
    rw [statedType]
    show (some ((Value.string "array").shown nestedLists), false) = _
    rw [Value.shown_string]
  rw [factsOf, stated]
  rfl

theorem formOf_nestedKeywords : formOf nestedLists nestedKeywords = .array := by
  rw [formOf, factsOf_nestedKeywords]
  rfl

theorem itemsOf_nestedLists : ItemsOf nestedLists (.aliasTo 0) (.aliasTo 0) where
  unmarked := by decide
  leads := by
    rw [Anchors.below?, entries?_nestedLists, Option.bind_some, Entries.below?]
    · rfl
    · exact formOf_nestedKeywords
  object := rfl

/-- The node of the list has items, which are cut. -/
theorem ofSchema_nestedLists : (Node.ofSchema nestedLists (.aliasTo 0)).result
    = .ok (.array { keywords := nestedKeywords, type := some "array" }
      (some (.unknown { keywords := nestedKeywords }))) := by
  have enters : nestedLists.enter? [] (.aliasTo 0) = some [0] := rfl
  have at_items : Entries.get? nestedKeywords "items" = some (.aliasTo 0) := rfl
  rw [Node.ofSchema, classify_of_enter? enters entries?_nestedLists, Node.ofEntries,
    formOf_nestedKeywords, factsOf_nestedKeywords, itemsOf_of_get? at_items rfl,
    classify_of_active (List.mem_singleton_self 0) entries?_nestedLists]
  rfl

/-- A list that is inside its own items has a node, in which the items are cut, and no label,
whatever the limit. -/
theorem nestedLists_not_labelled :
    (Node.ofSchema nestedLists (.aliasTo 0)).result
        = .ok (.array { keywords := nestedKeywords, type := some "array" }
          (some (.unknown { keywords := nestedKeywords })))
      ∧ (¬ ∃ label, (typeLabel nestedLists (.aliasTo 0)).result = .ok label)
      ∧ ∀ limit, (labelWithin nestedLists limit (.aliasTo 0)).result = .error .tooDeep := by
  have endless : EndlessItems nestedLists (.aliasTo 0) :=
    ⟨_, .refl, .single itemsOf_nestedLists⟩
  refine ⟨ofSchema_nestedLists, ?_, labelWithin_of_endless endless⟩
  rintro ⟨label, ok⟩
  cases (typeLabel_of_endless endless).symm.trans ok

end SchemaCodegen
