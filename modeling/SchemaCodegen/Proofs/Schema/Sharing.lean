import SchemaCodegen.Proofs.Data.Copy
import SchemaCodegen.Proofs.Schema.Alike
import SchemaCodegen.Proofs.Schema.Positions

/-!
# Sharing does not show

A schema is recognised below the objects on the way from the root, not below all objects met
before.  So a container that is met twice in different places is recognised twice; only where it
is met inside itself is it cut (`Proofs/Schema/Positions`).

Where the copy in which nothing is shared is a tree, every keyword of the copy leads to the copy
of what the keyword leads to in the data (`listAt?_copy`, `objectAt?_copy`).  Hence the data and
the copy agree in what is recognised in them (`schemasBeside_copy`), and they have the same node
(`classify_unshare`).
-/

namespace SchemaCodegen

variable {g h : Anchors} {active inner : List Nat} {es : Entries} {v : Value} {key : String}

/-- The node with copies of all data that it keeps. -/
def Node.unshared (g : Anchors) (node : Node) : Node :=
  node.recast (g.expandEntries []) g.unshare

/-! ### The keywords of a copy -/

theorem get?_copy : Entries.get? (g.expandEntries [] es) key
    = (Entries.get? es key).map g.unshare := get?_expandEntries

theorem has_copy : Entries.has (g.expandEntries [] es) key = Entries.has es key := by
  unfold Entries.has
  rw [get?_copy, Option.isSome_map]

theorem isSet_copy : Entries.isSet (g.expandEntries [] es) key = Entries.isSet es key := by
  unfold Entries.isSet
  rw [get?_copy]
  cases Entries.get? es key with
  | none => rfl
  | some v => exact isTrue_unshare

section Copy

variable (tree : (g.unshare (.object es)).isTree = true)

include tree

theorem isTree_of_get? (found : Entries.get? es key = some v) : (g.unshare v).isTree = true :=
  (partOf_of_get? found).isTree_unshare tree

/-- The list under a key of the copy. -/
theorem listAt?_copy (key : String) :
    h.listAt? (g.expandEntries [] es) key = (g.listAt? es key).map (List.map g.unshare) := by
  unfold Anchors.listAt?
  rw [get?_copy]
  cases found : Entries.get? es key with
  | none => rfl
  | some v => exact items?_unshare (isTree_of_get? tree found)

/-- The object under a key of the copy. -/
theorem objectAt?_copy (key : String) :
    h.objectAt? (g.expandEntries [] es) key = (g.objectAt? es key).map (g.expandEntries []) := by
  unfold Anchors.objectAt?
  rw [get?_copy]
  cases found : Entries.get? es key with
  | none => rfl
  | some v => exact entries?_unshare (isTree_of_get? tree found)

theorem requiredNames_copy : requiredNames h (g.expandEntries [] es) = requiredNames g es := by
  unfold requiredNames
  rw [listAt?_copy tree]
  cases g.listAt? es "required" with
  | none => rfl
  | some xs =>
      have strings : Value.string? ∘ g.unshare = Value.string? := funext fun _ => string?_expand
      rw [Option.map_some]
      dsimp only
      rw [List.filterMap_map, strings]

theorem statedType_copy : statedType h (g.expandEntries [] es) = statedType g es := by
  unfold statedType
  rw [get?_copy]
  cases found : Entries.get? es "type" with
  | none => rfl
  | some v =>
      have copied := isTree_of_get? tree found
      rw [Option.map_some]
      dsimp only
      rw [items?_unshare copied, isNull_unshare, shown_unshare copied]
      cases items : g.items? v with
      | none => rfl
      | some xs =>
          have strings (t : Value) : (g.unshare t).string? = t.string? := string?_expand
          simp only [Option.map_some, List.find?_map, List.any_map, List.isEmpty_map,
            Function.comp_def, strings]
          cases first : xs.find? fun t => t.string? != some "null" with
          | none => rfl
          | some t =>
              have part : PartOf g v t := .inl ⟨xs, items, List.mem_of_find?_eq_some first⟩
              simp only [Option.map_some, shown_unshare (part.isTree_unshare copied)]

/-- The copy says the same besides its shape. -/
theorem factsOf_copy :
    factsOf h (g.expandEntries [] es) = (factsOf g es).recast (g.expandEntries []) := by
  unfold factsOf
  rw [statedType_copy tree, string?_expandEntries, isSet_copy, isSet_copy]
  rfl

theorem compositionOf?_copy :
    compositionOf? h (g.expandEntries [] es) = compositionOf? g es := by
  unfold compositionOf?
  simp only [listAt?_copy tree, Option.isSome_map]

/-- The copy has the same shape. -/
theorem formOf_copy : formOf h (g.expandEntries [] es) = (formOf g es).recast g.unshare := by
  have bearing : Entries.has (g.expandEntries [] es) = Entries.has es := funext fun _ => has_copy
  unfold formOf
  simp only [bearing, factsOf_copy tree, string?_expandEntries, listAt?_copy tree,
    objectAt?_copy tree, compositionOf?_copy tree, Option.isSome_map, Facts.recast]
  -- Whatever the conditions say, the two sides choose alike; only an enumeration has data.
  cases Entries.string? es "$ref" with
  | some ref =>
      simp only [Bool.apply_cond (Form.recast g.unshare)]
      rfl
  | none =>
      cases g.listAt? es "enum" <;> cases compositionOf? g es <;>
        simp only [Bool.apply_cond (Form.recast g.unshare)] <;> rfl

end Copy

/-! ### Two readings of one graph -/

/-- The data is read with copies of all that its nodes keep. -/
def sharedReading (g : Anchors) (active : List Nat) : Reading where
  anchors := g
  active := active
  keywords := g.expandEntries []
  listed := g.unshare

/-- A copy is read as it is. -/
def plainReading : Reading where
  anchors := {}

theorem plainReading_recast (x : Traced Node) : plainReading.recast <$> x = x := by
  have same : plainReading.recast = id := funext Node.recast_id
  rw [same, id_map]

/-- What stands beside its image. -/
theorem rel_map_right {α β : Type} {R : α → β → Prop} {f : α → β} {x : Option α}
    (each : ∀ a, x = some a → R a (f a)) : Option.Rel R x (x.map f) := by
  cases x with
  | none => exact .none
  | some a => exact .some (each a rfl)

theorem forall₂_map_right {α β : Type} {R : α → β → Prop} {f : α → β} {xs : List α}
    (each : ∀ x ∈ xs, R x (f x)) : List.Forall₂ R xs (xs.map f) := by
  rw [List.forall₂_map_right_iff, List.forall₂_same]
  exact each

/-- The copy of a container that is entered goes on with that of its entries. -/
theorem isTree_expand_of_enter? (enters : g.enter? active v = some inner)
    (entries : g.entries? v = some es) (tree : (g.expand active v).isTree = true) :
    (g.expand inner (.object es)).isTree = true := by
  cases v with
  | object fs =>
      cases entries
      cases enters
      exact tree
  | aliasTo n =>
      obtain ⟨new, c, found, same⟩ := entered_of_isTree tree
      rw [same] at tree
      rw [entries?_eq_some, look_of_container? found] at entries
      rw [Anchors.enter?, if_pos ⟨Anchors.lt_size_of_container? found, new⟩] at enters
      cases enters
      rw [← entries]
      exact tree
  | _ => cases entries

/-- A schema and its copy agree in what is recognised in them, as soon as what is inside has the
nodes of its copies. -/
theorem schemasBeside_copy (tree : (g.expand inner (.object es)).isTree = true)
    (below : ∀ u : Value, u.weight ≤ Value.entryWeights es → (g.expand inner u).isTree = true →
      Node.classify {} [] (g.unshare u) = Node.unshared g <$> Node.classify g inner u) :
    SchemasBeside (· = ·) (sharedReading g inner) plainReading es (g.expandEntries [] es) := by
  have copied : (g.unshare (.object es)).isTree = true := isTree_unshare_of_expand tree
  have part {u w : Value} (component : PartOf g u w) (tree : (g.expand inner u).isTree = true) :
      (g.expand inner w).isTree = true := Component.isTree_expand (.inl component) tree
  have alike (u : Value) (light : u.weight ≤ Value.entryWeights es)
      (tree : (g.expand inner u).isTree = true) :
      ValuesBeside (· = ·) (sharedReading g inner) plainReading u (g.unshare u) := {
    null := isNull_unshare
    flag := bool?_unshare
    object := isObject_unshare (isTree_unshare_of_expand tree)
    node := Traced.beside_of_eq ((plainReading_recast _).trans (below u light tree)) }
  have nested (key : String) :
      Option.Rel (ValuesBeside (· = ·) (sharedReading g inner) plainReading)
        (Entries.get? es key) (Entries.get? (g.expandEntries [] es) key) := by
    rw [get?_copy]
    refine rel_map_right fun u found => ?_
    exact alike u (Entries.weight_le_of_get? found) (part (partOf_of_get? found) tree)
  refine {
    facts := factsOf_copy copied
    form := (Form.recast_id _).trans (formOf_copy copied)
    required := requiredNames_copy copied
    items := nested "items"
    additional := nested "additionalProperties"
    properties := ?_
    members := fun c => ?_ }
  · show Option.Rel _ (g.objectAt? es "properties") _
    rw [plainReading, objectAt?_copy copied]
    refine rel_map_right fun ps found => ?_
    rw [expandEntries_eq_map]
    refine forall₂_map_right fun p mem => ⟨rfl, ?_⟩
    obtain ⟨object, at_key, entries⟩ := Option.bind_eq_some_iff.1 found
    have object_tree := part (partOf_of_get? at_key) tree
    exact alike p.2 (Anchors.weight_le_of_objectAt? found mem)
      (part (.inr ⟨ps, p.1, entries, mem⟩) object_tree)
  · show Option.Rel _ (g.listAt? es c.keyword) _
    rw [plainReading, listAt?_copy copied]
    refine rel_map_right fun vs found => forall₂_map_right fun u mem => ?_
    obtain ⟨list, at_key, items⟩ := Option.bind_eq_some_iff.1 found
    have list_tree := part (partOf_of_get? at_key) tree
    exact alike u (Anchors.weight_le_of_listAt? found mem) (part (.inl ⟨vs, items, mem⟩) list_tree)

/-- Below containers that the copy has entered too, data whose copy is a tree has the node of the
copy. -/
theorem classify_unshare (tree : (g.expand active v).isTree = true) :
    Node.classify {} [] (g.unshare v) = Node.unshared g <$> Node.classify g active v := by
  induction active, v using classify_induct (g := g) with
  | entered active v inner es enters entries below =>
      have inner_tree := isTree_expand_of_enter? enters entries tree
      have copied : g.unshare v = .object (g.expandEntries [] es) := by
        rw [← unshare_look (isTree_unshare_of_expand tree), entries?_eq_some.1 entries,
          unshare_object]
      rw [copied, Node.classify, classify_of_enter? enters entries]
      exact (plainReading_recast _).symm.trans (schemasBeside_copy inner_tree below).node_eq
  | cut active n es mem entries => exact absurd mem (entered_of_isTree tree).1
  | no_object active v none =>
      have copied := isTree_unshare_of_expand tree
      have no_object : ({} : Anchors).entries? (g.unshare v) = .none := by
        rw [entries?_unshare copied, none]
        rfl
      rw [classify_of_no_object none, classify_of_no_object no_object, look_of_isTree copied,
        ← unshare_look copied, isNull_unshare, map_pure]
      split
      · rfl
      · rw [Node.unshared, Node.recast, Facts.recast, Anchors.expandEntries]

/-! ### Any graph -/

/-- **Recognition of a graph**, in which containers may be shared and may contain themselves.
There is always a node.  The schemas inside have nodes up to the first repetition on the way to
them; an object is cut where it is its own ancestor and nowhere else, and any other object keeps
its keywords and has the shape that they give.  The graph has a copy in which nothing is shared
as soon as no container is inside itself, and then the copy has the same node. -/
theorem ofSchema_of_graph (g : Anchors) (schema : Value) :
    ∃ node, (Node.ofSchema g schema).result = .ok node ∧
      (∀ path, (node.at? g path).isSome ↔ (g.at? schema path).isSome ∧
        ∀ earlier later, path = earlier ++ later → later ≠ [] → ¬ Repeats g schema earlier) ∧
      (∀ path v es m, g.at? schema path = some v → g.entries? v = some es →
        node.at? g path = some m →
        (m.IsCut g ↔ Repeats g schema path) ∧
        (Repeats g schema path → m = .unknown { keywords := es }) ∧
        (¬ Repeats g schema path → m.facts.keywords = es ∧ m.kind = (formOf g es).kind)) ∧
      ((g.unshare schema).isTree = true ↔ Loopless g schema) ∧
      (Loopless g schema →
        Node.ofSchema {} (g.unshare schema) = Node.unshared g <$> Node.ofSchema g schema) := by
  obtain ⟨node, found⟩ := exists_classify g [] schema
  refine ⟨node, found, isSome_at?_iff found, fun path v es m at_path entries leads => ?_,
    isTree_unshare_iff, fun loopless => classify_unshare (isTree_unshare_iff.2 loopless)⟩
  exact ⟨isCut_iff_repeats found leads at_path entries,
    fun repeats => (node_of_repeats found leads at_path entries repeats).1,
    node_of_not_repeats found leads at_path entries⟩

end SchemaCodegen
