import Mathlib
import SchemaCodegen.Proofs.Compose.Simplified
import SchemaCodegen.Proofs.Data.Entries

/-!
# Objects that are open by a schema

An object allows any further properties by `true` under `additionalProperties`, or by a schema there
that says nothing of their shape, such as the empty one.  Types make no difference between the two,
wherever in a schema the object stands.  Validators make one exactly when the object has properties
of its own: then they let further properties pass in the one case and drop them in the other
(`open_objects_rendered`).

### What is load-bearing

* All schemas around the object hold it among their keywords, so their data differs too.  This is
  never looked up, and `consultedReading` forgets it; only the nodes at the object are left to
  differ.
* To be rendered alike is a relation that goes through the nodes around (`compatible_typedAlike`,
  `compatible_validatedAlike`), so that one induction serves both renderers
  (`valuesBeside_of_reopened`).
* The call that lets properties pass is longer than the one that admits `null`.  So the texts of two
  validators differ also where the one ends as if it admitted `null` already (`text_finished_ne`).
-/

namespace SchemaCodegen

variable {g : Anchors} {active : List Nat} {R : Node → Node → Prop} {e hole es : Entries}
  {key : String} {u u' v v' : Value}

namespace Traced

variable {α γ δ : Type} {S : γ → δ → Prop}

/-- After the same step, whatever follows any result of it. -/
theorem beside_bind_self {x : Traced α} {f : α → Traced γ} {h : α → Traced δ}
    (next : ∀ a, x.result = .ok a → Beside S (f a) (h a)) : Beside S (x >>= f) (x >>= h) := by
  have first : Beside (fun a b => a = b ∧ x.result = .ok a) x x := by
    obtain ⟨result, notices⟩ := x
    cases result with
    | error failure => exact .error
    | ok a => exact .ok ⟨rfl, rfl⟩
  refine first.bind ?_
  rintro a _ ⟨rfl, found⟩
  exact next a found

end Traced

open Traced (Beside beside_pure beside_refl)

/-! ### A value put in under a keyword -/

theorem get?_put_of_ne {other : String} (ne : other ≠ key) :
    Entries.get? (Entries.put es (.string key) u') other = Entries.get? es other := by
  rw [Entries.get?_put, if_neg]
  rintro ⟨⟩
  exact ne rfl

theorem get?_put_self : Entries.get? (Entries.put es (.string key) u') key = some u' := by
  rw [Entries.get?_put, if_pos rfl]

/-- What stands under each keyword before and after. -/
theorem rel_get?_put {S : Value → Value → Prop} {other : String}
    (found : Entries.get? es key = some u) (refl : ∀ v, S v v) (here : other = key → S u u') :
    Option.Rel S (Entries.get? es other)
      (Entries.get? (Entries.put es (.string key) u') other) := by
  by_cases same : other = key
  · subst same
    rw [found, get?_put_self]
    exact .some (here rfl)
  · rw [get?_put_of_ne same]
    cases Entries.get? es other with
    | none => exact .none
    | some v => exact .some (refl v)

/-- What is found in values side by side. -/
theorem rel_bind {α β : Type} {S : α → α → Prop} {T : β → β → Prop} {x y : Option α}
    {f f' : α → Option β} (rel : Option.Rel S x y)
    (inside : ∀ a b, S a b → Option.Rel T (f a) (f' b)) : Option.Rel T (x.bind f) (y.bind f') := by
  cases rel with
  | none => exact .none
  | some here => exact inside _ _ here

/-- A value under a keyword that is never looked up is forgotten. -/
theorem consulted_put (never : key ∉ consultedKeywords) :
    Entries.consulted (Entries.put es (.string key) u') = Entries.consulted es := by
  have forgotten : ¬ (Scalar.string key).isConsulted = true := mt List.contains_iff_mem.1 never
  unfold Entries.consulted
  induction es with
  | nil => rw [Entries.put, List.filter_cons, if_neg forgotten]
  | cons entry es ih =>
      obtain ⟨k, w⟩ := entry
      rw [Entries.put]
      split
      · next same =>
          rw [Entries.sameKey_string.1 same, List.filter_cons, List.filter_cons, if_neg forgotten,
            if_neg forgotten]
      · rw [List.filter_cons, List.filter_cons, ih]

theorem factsOf_put (place : key ∈ schemaKeywords) :
    factsOf g (Entries.put es (.string key) u')
      = { factsOf g es with keywords := Entries.put es (.string key) u' } := by
  have apart : ∀ key ∈ schemaKeywords, key ∉ factKeywords := by decide
  exact factsOf_congr fun other mem => get?_put_of_ne (ne_of_mem_of_not_mem mem (apart key place))

theorem consulted_factsOf_put (place : key ∈ schemaKeywords) :
    (factsOf g (Entries.put es (.string key) u')).consulted = (factsOf g es).consulted := by
  have never : ∀ key ∈ schemaKeywords, key ∉ consultedKeywords := by decide
  rw [factsOf_put place]
  unfold Facts.consulted
  dsimp only
  rw [consulted_put (never key place)]
  rfl

theorem requiredNames_put (place : key ∈ schemaKeywords) :
    requiredNames g (Entries.put es (.string key) u') = requiredNames g es := by
  have ne : "required" ≠ key := by
    rintro rfl
    exact absurd place (by decide)
  unfold requiredNames Anchors.listAt?
  rw [get?_put_of_ne ne]

/-- A keyword that stands for schemas keeps the shape as long as what is under it stays an object or
a list. -/
theorem formOf_put (found : Entries.get? es key = some u) (place : key ∈ schemaKeywords)
    (properties : (g.objectAt? (Entries.put es (.string key) u') "properties").isSome
      = (g.objectAt? es "properties").isSome)
    (members : ∀ c : Combinator, (g.listAt? (Entries.put es (.string key) u') c.keyword).isSome
      = (g.listAt? es c.keyword).isSome) :
    formOf g (Entries.put es (.string key) u') = formOf g es := by
  have apart : ∀ key ∈ schemaKeywords, "$ref" ≠ key ∧ "enum" ≠ key := by decide
  have has (other : String) :
      Entries.has (Entries.put es (.string key) u') other = Entries.has es other :=
    isSome_eq_of_rel (rel_get?_put (S := fun _ _ => True) found (fun _ => trivial) fun _ => trivial)
  refine formOf_congr (factsOf_put place) (fun other _ => has other) ?_ ?_ properties members
  · unfold Entries.string?
    rw [get?_put_of_ne (apart key place).1]
  · unfold Anchors.listAt?
    rw [get?_put_of_ne (apart key place).2]

/-! ### Schemas around a value -/

/-- `PartsBeside R r key u u'`: the values stand under a keyword for schemas, and the nodes of these
schemas are in the relation. -/
structure PartsBeside (R : Node → Node → Prop) (r : Reading) (key : String) (u u' : Value) :
    Prop where
  single : key = "items" ∨ key = "additionalProperties" → ValuesBeside R r r u u'
  fields : key = "properties" → Option.Rel
    (List.Forall₂ fun p p' => p'.1 = p.1 ∧ ValuesBeside R r r p.2 p'.2)
    (r.anchors.entries? u) (r.anchors.entries? u')
  members : ∀ c : Combinator, c.keyword = key →
    Option.Rel (List.Forall₂ (ValuesBeside R r r)) (r.anchors.items? u) (r.anchors.items? u')

theorem valuesBeside_refl (refl : ∀ node, R node node) (r : Reading) (v : Value) :
    ValuesBeside R r r v v := ⟨rfl, rfl, rfl, beside_refl refl _⟩

/-- Schemas that differ in what is put in under a keyword. -/
theorem schemasBeside_put (refl : ∀ node, R node node) (found : Entries.get? es key = some u)
    (place : key ∈ schemaKeywords) (parts : PartsBeside R (consultedReading g active) key u u') :
    SchemasBeside R (consultedReading g active) (consultedReading g active) es
      (Entries.put es (.string key) u') := by
  have same (v : Value) := valuesBeside_refl refl (consultedReading g active) v
  have properties : Option.Rel
      (List.Forall₂ fun p p' => p'.1 = p.1
        ∧ ValuesBeside R (consultedReading g active) (consultedReading g active) p.2 p'.2)
      (g.objectAt? es "properties")
      (g.objectAt? (Entries.put es (.string key) u') "properties") := by
    refine rel_bind (S := fun w w' => Option.Rel _ (g.entries? w) (g.entries? w'))
      (rel_get?_put found (fun w => ?_) fun at_key => parts.fields at_key.symm) fun _ _ => id
    cases g.entries? w with
    | none => exact .none
    | some ps => exact .some (List.forall₂_same.2 fun p _ => ⟨rfl, same p.2⟩)
  have members (c : Combinator) : Option.Rel
      (List.Forall₂ (ValuesBeside R (consultedReading g active) (consultedReading g active)))
      (g.listAt? es c.keyword) (g.listAt? (Entries.put es (.string key) u') c.keyword) := by
    refine rel_bind (S := fun w w' => Option.Rel _ (g.items? w) (g.items? w'))
      (rel_get?_put found (fun w => ?_) fun at_key => parts.members c at_key) fun _ _ => id
    cases g.items? w with
    | none => exact .none
    | some vs => exact .some (List.forall₂_same.2 fun v _ => same v)
  exact {
    facts := consulted_factsOf_put place
    form := congrArg (Form.recast fun v => v) (formOf_put found place
      (isSome_eq_of_rel properties) fun c => isSome_eq_of_rel (members c))
    required := requiredNames_put place
    items := rel_get?_put found same fun at_key => parts.single (.inl at_key.symm)
    additional := rel_get?_put found same fun at_key => parts.single (.inr at_key.symm)
    properties := properties
    members := members }

/-! ### One object reopened -/

/-- `Reopened e hole v v'`: a schema in which the object `hole` stands somewhere, and the same
schema where the object has `e` under `additionalProperties`. -/
inductive Reopened (e hole : Entries) : Value → Value → Prop
  | here : Reopened e hole (.object hole)
      (.object (Entries.put hole (.string "additionalProperties") (.object e)))
  | single {es : Entries} {key : String} {v v' : Value}
      (place : key = "items" ∨ key = "additionalProperties") (found : Entries.get? es key = some v)
      (inside : Reopened e hole v v') :
      Reopened e hole (.object es) (.object (Entries.put es (.string key) v'))
  | property {es before after : Entries} {name : Scalar} {v v' : Value}
      (found : Entries.get? es "properties" = some (.object (before ++ (name, v) :: after)))
      (inside : Reopened e hole v v') :
      Reopened e hole (.object es) (.object (Entries.put es (.string "properties")
        (.object (before ++ (name, v') :: after))))
  | member {es : Entries} {before after : List Value} {v v' : Value} (c : Combinator)
      (found : Entries.get? es c.keyword = some (.list (before ++ v :: after)))
      (inside : Reopened e hole v v') :
      Reopened e hole (.object es) (.object (Entries.put es (.string c.keyword)
        (.list (before ++ v' :: after))))

/-- Schemas with nodes side by side may stand in the same places. -/
theorem valuesBeside_of_entries
    (beside : Beside R ((consultedReading g active).node (.object es))
      ((consultedReading g active).node (.object e))) :
    ValuesBeside R (consultedReading g active) (consultedReading g active) (.object es)
      (.object e) := ⟨rfl, rfl, rfl, beside⟩

/-- The node of an object that is read is that of its keywords. -/
theorem node_object (r : Reading) (es : Entries) : r.node (.object es) = r.schema es := by
  rw [← r.recast_ofEntries_eq, Reading.node, Node.classify]

theorem forall₂_replaced {α : Type} {S : α → α → Prop} (refl : ∀ a, S a a) (before after : List α)
    {a b : α} (here : S a b) : List.Forall₂ S (before ++ a :: after) (before ++ b :: after) :=
  List.rel_append (List.forall₂_same.2 fun a _ => refl a)
    (.cons here (List.forall₂_same.2 fun a _ => refl a))

/-- **Reopening one object**: a relation that goes through the nodes around the object holds of the
whole nodes when it holds at the object. -/
theorem valuesBeside_of_reopened (compatible : Compatible R)
    (at_hole : Beside R ((consultedReading g active).node (.object hole))
      ((consultedReading g active).node
        (.object (Entries.put hole (.string "additionalProperties") (.object e)))))
    (reopened : Reopened e hole v v') :
    ValuesBeside R (consultedReading g active) (consultedReading g active) v v' := by
  have around {es : Entries} {key : String} {u u' : Value} (found : Entries.get? es key = some u)
      (place : key ∈ schemaKeywords) (parts : PartsBeside R (consultedReading g active) key u u') :
      ValuesBeside R (consultedReading g active) (consultedReading g active) (.object es)
        (.object (Entries.put es (.string key) u')) := by
    have beside := (schemasBeside_put compatible.refl found place parts).beside_node compatible
    rw [Reading.recast_ofEntries_eq, Reading.recast_ofEntries_eq, ← node_object, ← node_object]
      at beside
    exact valuesBeside_of_entries beside
  have same (v : Value) := valuesBeside_refl compatible.refl (consultedReading g active) v
  induction reopened with
  | here => exact valuesBeside_of_entries at_hole
  | @single es key v v' place found _ ih =>
      have in_schema : key ∈ schemaKeywords := by rcases place with rfl | rfl <;> decide
      refine around found in_schema ⟨fun _ => ih, ?_, ?_⟩
      · rintro rfl
        exact absurd place (by decide)
      · rintro c rfl
        exact absurd place (by cases c <;> decide)
  | @property es before after name v v' found _ ih =>
      refine around found (by decide) ⟨fun place => absurd place (by decide), fun _ => .some ?_, ?_⟩
      · exact forall₂_replaced (fun p => ⟨rfl, same p.2⟩) before after ⟨rfl, ih⟩
      · intro c at_key
        exact absurd at_key (by cases c <;> decide)
  | @member es before after v v' c found _ ih =>
      have in_schema : c.keyword ∈ schemaKeywords := by cases c <;> decide
      refine around found in_schema ⟨?_, ?_, fun _ _ => .some ?_⟩
      · intro place
        exact absurd place (by cases c <;> decide)
      · intro at_key
        exact absurd at_key (by cases c <;> decide)
      · exact forall₂_replaced same before after ih

/-! ### The object itself -/

/-- An object as it is read, by what it allows besides its properties. -/
theorem node_of_additional {r : Reading} {additional : Additional} (form : r.form es = .object)
    (allows : r.additional es = pure additional) :
    r.node (.object es) = (fun ps => .object { r.facts es with type := some "object" } ps
      (requiredNames r.anchors es) additional) <$> r.properties es := by
  rw [node_object, Reading.schema, form]
  dsimp only
  rw [Reading.object, allows]
  simp only [pure_bind, map_eq_pure_bind]

/-- A schema that says nothing of a shape is an empty one. -/
theorem formOf_of_unshaped (unshaped : ∀ key ∈ shapeKeywords, Entries.has e key = false) :
    formOf g e = .empty := by
  have bearing : shapeKeywords.any (Entries.has e) = false := by
    rw [List.any_eq_false]
    intro key mem
    rw [unshaped key mem]
    decide
  unfold formOf
  rw [bearing]
  rfl

theorem additional_of_flag {r : Reading} {allowed : Bool}
    (opens : Entries.get? hole "additionalProperties" = some (.bool allowed)) :
    r.additional hole = pure (.flag allowed) := by
  rw [Reading.additional, additionalOf_of_found opens]
  rfl

theorem additional_of_unshaped {r : Reading}
    (unshaped : ∀ key ∈ shapeKeywords, Entries.has e key = false)
    (opens : Entries.get? es "additionalProperties" = some (.object e)) :
    r.additional es = pure (.schema (.empty (r.facts e))) := by
  have empty : Node.classify r.anchors r.active (.object e)
      = pure (.empty (factsOf r.anchors e)) := by
    rw [Node.classify, Node.ofEntries, formOf_of_unshaped unshaped]
  rw [Reading.additional, additionalOf_of_get? opens rfl rfl, empty]
  rfl

theorem properties_congr {r : Reading} {es' : Entries}
    (same : r.anchors.objectAt? es' "properties" = r.anchors.objectAt? es "properties") :
    r.properties es' = r.properties es := by
  unfold Reading.properties
  cases at_key : r.anchors.objectAt? es "properties" with
  | none => rw [propertiesOf_of_none at_key, propertiesOf_of_none (same.trans at_key)]
  | some ps => rw [propertiesOf_of_objectAt? at_key, propertiesOf_of_objectAt? (same.trans at_key)]

/-- An object has properties in its node when it has some. -/
theorem eq_nil_of_properties {r : Reading} {ps : List (String × Node)}
    (found : (r.properties es).result = .ok ps) :
    ps = [] ↔ (r.anchors.objectAt? es "properties").getD [] = [] := by
  obtain ⟨fields, at_fields, rfl⟩ := Traced.result_map_eq_ok.1 found
  have as_many := (forall₂_propertiesOf at_fields).length_eq
  rw [List.map_eq_nil_iff, ← List.length_eq_zero_iff, ← as_many, List.length_eq_zero_iff]

/-- Objects that differ only in what they allow besides their properties. -/
theorem beside_objects {r : Reading} {es' : Entries} {additional additional' : Additional}
    (form : r.form es = .object) (form' : r.form es' = .object) (facts : r.facts es' = r.facts es)
    (required : requiredNames r.anchors es' = requiredNames r.anchors es)
    (properties : r.properties es' = r.properties es) (allows : r.additional es = pure additional)
    (allows' : r.additional es' = pure additional')
    (same : ∀ f ps required, (r.properties es).result = .ok ps →
      (r.node (.object es)).result = .ok (.object f ps required additional) →
      R (.object f ps required additional) (.object f ps required additional')) :
    Beside R (r.node (.object es)) (r.node (.object es')) := by
  have node := node_of_additional form allows
  rw [node, node_of_additional form' allows', facts, required, properties, map_eq_pure_bind,
    map_eq_pure_bind]
  refine Traced.beside_bind_self fun ps found => beside_pure (same _ ps _ found ?_)
  rw [node]
  exact Traced.result_map_eq_ok.2 ⟨ps, found, rfl⟩

/-- The nodes at the object are the same, except for what is allowed besides the properties. -/
theorem beside_hole (unshaped : ∀ key ∈ shapeKeywords, Entries.has e key = false)
    (opens : Entries.get? hole "additionalProperties" = some (.bool true))
    (form : formOf g hole = .object)
    (same : ∀ f f' ps required, ((consultedReading g active).properties hole).result = .ok ps →
      ((consultedReading g active).node (.object hole)).result
        = .ok (.object f ps required (.flag true)) →
      R (.object f ps required (.flag true)) (.object f ps required (.schema (.empty f')))) :
    Beside R ((consultedReading g active).node (.object hole))
      ((consultedReading g active).node
        (.object (Entries.put hole (.string "additionalProperties") (.object e)))) := by
  have in_schema : "additionalProperties" ∈ schemaKeywords := by decide
  have properties : g.objectAt? (Entries.put hole (.string "additionalProperties") (.object e))
      "properties" = g.objectAt? hole "properties" := by
    unfold Anchors.objectAt?
    rw [get?_put_of_ne (by decide)]
  have members (c : Combinator) :
      g.listAt? (Entries.put hole (.string "additionalProperties") (.object e)) c.keyword
        = g.listAt? hole c.keyword := by
    unfold Anchors.listAt?
    rw [get?_put_of_ne (by cases c <;> decide)]
  have form' : formOf g (Entries.put hole (.string "additionalProperties") (.object e))
      = .object := by
    rw [formOf_put opens in_schema (by rw [properties]) fun c => by rw [members], form]
  exact beside_objects (congrArg (Form.recast fun v => v) form)
    (congrArg (Form.recast fun v => v) form') (consulted_factsOf_put in_schema)
    (requiredNames_put in_schema) (properties_congr properties) (additional_of_flag opens)
    (additional_of_unshaped unshaped get?_put_self) fun f ps required => same f _ ps required

/-! ### Types -/

namespace TypeScript

variable {c : Context}

/-- The nodes have the same type, also as properties and as what further properties are. -/
structure TypedAlike (c : Context) (node node' : Node) : Prop where
  facts : node'.facts = node.facts
  kind : node'.kind = node.kind
  type : TypeExpr.ofNode c node' = TypeExpr.ofNode c node

theorem typesOf_congr {members members' : List Node}
    (alike : List.Forall₂ (TypedAlike c) members members') :
    typesOf c members' = typesOf c members := by
  induction alike with
  | nil => rfl
  | cons here _ ih => rw [typesOf, typesOf, here.type, ih]

theorem fieldsOf_congr (f : Facts) (required : List String) {ps ps' : List (String × Node)}
    (alike : FieldsBeside (TypedAlike c) ps ps') :
    fieldsOf c f required ps' = fieldsOf c f required ps := by
  induction alike with
  | nil => rfl
  | @cons p p' ps ps' here _ ih =>
      obtain ⟨same_name, here⟩ := here
      rw [fieldsOf, fieldsOf, same_name, here.type, ih]
      unfold spokenDescription? Node.description? Node.isSet Node.get?
      rw [here.facts]

theorem indexOf_congr {additional additional' : Additional}
    (alike : AdditionalBeside (TypedAlike c) additional additional') :
    indexOf c additional' = indexOf c additional := by
  cases alike with
  | unstated => rfl
  | flag allowed => rfl
  | schema here => rw [indexOf, indexOf, here.type, here.kind]

/-- Nodes around nodes of the same type have the same type. -/
theorem compatible_typedAlike (c : Context) : Compatible (TypedAlike c) where
  refl _ := ⟨rfl, rfl, rfl⟩
  array items := by
    refine ⟨rfl, rfl, ?_⟩
    cases items with
    | none => rfl
    | some here => rw [TypeExpr.ofNode, TypeExpr.ofNode, here.type]
  object fields additional := by
    refine ⟨rfl, rfl, ?_⟩
    have same_fields (f : Facts) (required : List String) := fieldsOf_congr f required fields
    have same_index := indexOf_congr additional
    cases fields with
    | cons here later =>
        rw [TypeExpr.ofNode, TypeExpr.ofNode, same_fields, same_index]
    | nil =>
        cases additional with
        | unstated => rfl
        | flag allowed => rfl
        | schema here => rw [TypeExpr.ofNode, TypeExpr.ofNode, here.type, here.kind]
  composition {_ k _ _} members := by
    refine ⟨rfl, rfl, ?_⟩
    have same_members := typesOf_congr members
    cases k with
    | allOf => rw [TypeExpr.ofNode, TypeExpr.ofNode, same_members]
    | _ =>
        rw [TypeExpr.ofNode, TypeExpr.ofNode, same_members]
        · rintro ⟨⟩
        · rintro ⟨⟩

/-- Types make no difference between `true` and an empty schema. -/
theorem typedAlike_open (f f' : Facts) (ps : List (String × Node)) (required : List String) :
    TypedAlike c (.object f ps required (.flag true))
      (.object f ps required (.schema (.empty f'))) := by
  refine ⟨rfl, rfl, ?_⟩
  cases ps with
  | nil => rfl
  | cons p ps => rfl

/-- Reopening an object changes no type. -/
theorem typeText_reopened (unshaped : ∀ key ∈ shapeKeywords, Entries.has e key = false)
    (opens : Entries.get? hole "additionalProperties" = some (.bool true))
    (form : formOf c.anchors hole = .object) (reopened : Reopened e hole v v') :
    typeText c v' = typeText c v := by
  have beside : ValuesBeside (TypedAlike c) (consultedReading c.anchors [])
      (consultedReading c.anchors []) v v' :=
    valuesBeside_of_reopened (compatible_typedAlike c)
      (beside_hole unshaped opens form fun f f' ps required _ _ => typedAlike_open f f' ps required)
      reopened
  have same : typeOf c v = typeOf c v' := by
    rw [typeOf_eq_bind, typeOf_eq_bind]
    refine (beside.node.bind (S := (· = ·)) fun node node' alike => ?_).eq
    rw [alike.type]
    exact beside_refl (fun _ => rfl) _
  rw [typeText, typeText, same]

end TypeScript

/-! ### Validators -/

namespace Zod

variable {c : Context}

/-- The nodes have the same validator, also as what further properties are. -/
structure ValidatedAlike (c : Context) (node node' : Node) : Prop where
  kind : node'.kind = node.kind
  validator : Validator.ofNode c node' = Validator.ofNode c node

theorem validatorsOf_congr {members members' : List Node}
    (alike : List.Forall₂ (ValidatedAlike c) members members') :
    validatorsOf c members' = validatorsOf c members := by
  induction alike with
  | nil => rfl
  | cons here _ ih => rw [validatorsOf, validatorsOf, here.validator, ih]

theorem fieldsOf_congr (required : List String) {ps ps' : List (String × Node)}
    (alike : FieldsBeside (ValidatedAlike c) ps ps') :
    fieldsOf c required ps' = fieldsOf c required ps := by
  induction alike with
  | nil => rfl
  | @cons p p' ps ps' here _ ih =>
      obtain ⟨same_name, here⟩ := here
      rw [fieldsOf, fieldsOf, same_name, here.validator, ih]

theorem closedBy_congr {additional additional' : Additional} (v : Validator)
    (alike : AdditionalBeside (ValidatedAlike c) additional additional') :
    closedBy c v additional' = closedBy c v additional := by
  cases alike with
  | unstated => rfl
  | flag allowed => rfl
  | schema here => rw [closedBy, closedBy, here.validator, here.kind]

/-- Nodes around nodes with the same validator have the same validator. -/
theorem compatible_validatedAlike (c : Context) : Compatible (ValidatedAlike c) where
  refl _ := ⟨rfl, rfl⟩
  array items := by
    refine ⟨rfl, ?_⟩
    cases items with
    | none => rfl
    | some here =>
        rw [Validator.ofNode, Validator.ofNode, here.validator]
        rfl
  object fields additional := by
    refine ⟨rfl, ?_⟩
    have same_fields (required : List String) := fieldsOf_congr required fields
    cases fields with
    | cons here later =>
        rw [Validator.ofNode, Validator.ofNode, same_fields]
        refine bind_congr fun found => ?_
        rw [closedBy_congr _ additional]
    | nil =>
        cases additional with
        | unstated => rfl
        | flag allowed => rfl
        | schema here => rw [Validator.ofNode, Validator.ofNode, here.validator, here.kind]
  composition {_ k _ _} members := by
    refine ⟨rfl, ?_⟩
    have same_members := validatorsOf_congr members
    cases k with
    | allOf => rw [Validator.ofNode, Validator.ofNode, same_members]
    | _ =>
        rw [Validator.ofNode, Validator.ofNode, same_members]
        · rintro ⟨⟩
        · rintro ⟨⟩

section Open

variable (f f' : Facts) (p : String × Node) (ps : List (String × Node)) (required : List String)

/-- The validator of an object with properties that lets others pass. -/
theorem ofNode_passing : Validator.ofNode c (.object f (p :: ps) required (.flag true))
    = (fun fields => finished c (.object f [] required .unstated)
        (.call (.object fields) "passthrough" "")) <$> fieldsOf c required (p :: ps) := by
  rw [Validator.ofNode, map_eq_pure_bind]
  rfl

/-- The validator of an object with properties and an empty schema for others. -/
theorem ofNode_dropping : Validator.ofNode c (.object f (p :: ps) required (.schema (.empty f')))
    = (fun fields => finished c (.object f [] required .unstated) (.object fields))
        <$> fieldsOf c required (p :: ps) := by
  rw [Validator.ofNode, map_eq_pure_bind]
  rfl

end Open

/-- Admitting `null` makes a text longer by at most one call. -/
theorem length_withNullable (text : String) : text.length ≤ (withNullable text).length
    ∧ (withNullable text).length ≤ text.length + 11 := by
  have call : nullableCall.length = 11 := by decide
  unfold withNullable
  split
  · omega
  · rw [String.length_append]
    omega

/-- What is longer by more than the call that admits `null` is still longer when finished. -/
theorem text_finished_ne {node : Node} {shorter longer : Validator}
    (more : (shorter.text 0).length + 11 < (longer.text 0).length) :
    (finished c node longer).text 0 ≠ (finished c node shorter).text 0 := by
  have described_more : ((described c node shorter).text 0).length + 11
      < ((described c node longer).text 0).length := by
    unfold described
    split
    · split
      · exact more
      · rw [text_call, text_call]
        simp only [String.length_append]
        omega
    · exact more
  intro same
  have lengths := congrArg String.length same
  unfold finished admitNull at lengths
  split at lengths
  · rw [text_nullable, text_nullable] at lengths
    have at_least := (length_withNullable ((described c node longer).text 0)).1
    have at_most := (length_withNullable ((described c node shorter).text 0)).2
    omega
  · omega

theorem text_of_validatorOf {validator : Validator}
    (found : (validatorOf c v).result = .ok validator) :
    (validatorText c v).result = .ok (validator.text 0) :=
  Traced.result_bind_eq_ok.2 ⟨validator, found, rfl⟩

/-- The text of a validator is that of the validator of the node. -/
theorem validatorText_eq_ok {text : String} : (validatorText c v).result = .ok text ↔
    ∃ node validator, ((consultedReading c.anchors []).node v).result = .ok node
      ∧ (Validator.ofNode c node).result = .ok validator ∧ validator.text 0 = text := by
  rw [validatorText, validatorOf_eq_bind, Traced.result_bind_eq_ok]
  constructor
  · rintro ⟨validator, validates, same⟩
    obtain ⟨node, at_node, validates⟩ := Traced.result_bind_eq_ok.1 validates
    exact ⟨node, validator, at_node, validates, Except.ok.inj same⟩
  · rintro ⟨node, validator, at_node, validates, rfl⟩
    exact ⟨validator, Traced.result_bind_eq_ok.2 ⟨node, at_node, validates⟩, rfl⟩

/-- Reopening an object without properties, or without a validator, changes no validator. -/
theorem validatorText_reopened (unshaped : ∀ key ∈ shapeKeywords, Entries.has e key = false)
    (opens : Entries.get? hole "additionalProperties" = some (.bool true))
    (form : formOf c.anchors hole = .object)
    (bare : (c.anchors.objectAt? hole "properties").getD [] = []
      ∨ ∀ text, (validatorText c (.object hole)).result ≠ .ok text)
    (reopened : Reopened e hole v v') : validatorText c v' = validatorText c v := by
  have at_hole : ∀ f f' ps required,
      ((consultedReading c.anchors []).properties hole).result = .ok ps →
      ((consultedReading c.anchors []).node (.object hole)).result
        = .ok (.object f ps required (.flag true)) →
      ValidatedAlike c (.object f ps required (.flag true))
        (.object f ps required (.schema (.empty f'))) := by
    intro f f' ps required properties node
    refine ⟨rfl, ?_⟩
    cases ps with
    | nil => rfl
    | cons p ps =>
        have some_property := mt (eq_nil_of_properties properties).2 (List.cons_ne_nil p ps)
        have fails := bare.resolve_left some_property
        rw [ofNode_passing, ofNode_dropping]
        cases fields : (fieldsOf c required (p :: ps)).result with
        | error failure =>
            generalize fieldsOf c required (p :: ps) = x at fields
            obtain ⟨result, notices⟩ := x
            cases fields
            rfl
        | ok found =>
            have validates : (Validator.ofNode c (.object f (p :: ps) required (.flag true))).result
                = .ok (finished c (.object f [] required .unstated)
                  (.call (.object found) "passthrough" "")) := by
              rw [ofNode_passing, Traced.result_map, fields]
              rfl
            exact absurd (validatorText_eq_ok.2 ⟨_, _, node, validates, rfl⟩) (fails _)
  have beside := (valuesBeside_of_reopened (compatible_validatedAlike c)
    (beside_hole unshaped opens form at_hole) reopened).node
  have same : validatorOf c v = validatorOf c v' := by
    rw [validatorOf_eq_bind, validatorOf_eq_bind]
    refine (beside.bind (S := (· = ·)) fun node node' alike => ?_).eq
    rw [alike.validator]
    exact beside_refl (fun _ => rfl) _
  rw [validatorText, validatorText, same]

/-- Nodes of one object with properties, which is open by `true` and by an empty schema. -/
def OpenBothWays (node node' : Node) : Prop :=
  ∃ f f' p ps required, node = .object f (p :: ps) required (.flag true)
    ∧ node' = .object f (p :: ps) required (.schema (.empty f'))

/-- Reopening an object with properties changes its validator. -/
theorem validatorText_reopened_ne (unshaped : ∀ key ∈ shapeKeywords, Entries.has e key = false)
    (opens : Entries.get? hole "additionalProperties" = some (.bool true))
    (form : formOf c.anchors hole = .object)
    (some_property : (c.anchors.objectAt? hole "properties").getD [] ≠ []) {text : String}
    (found : (validatorText c (.object hole)).result = .ok text) :
    (validatorText c
        (.object (Entries.put hole (.string "additionalProperties") (.object e)))).result
      ≠ .ok text := by
  have beside : Beside OpenBothWays ((consultedReading c.anchors []).node (.object hole))
      ((consultedReading c.anchors []).node
        (.object (Entries.put hole (.string "additionalProperties") (.object e)))) := by
    refine beside_hole unshaped opens form ?_
    intro f f' ps required properties _
    obtain ⟨p, ps, rfl⟩ :=
      List.exists_cons_of_ne_nil (mt (eq_nil_of_properties properties).1 some_property)
    exact ⟨f, f', p, ps, required, rfl, rfl⟩
  intro found'
  obtain ⟨node, longer, at_node, validates, rfl⟩ := validatorText_eq_ok.1 found
  obtain ⟨node', shorter, at_node', validates', same⟩ := validatorText_eq_ok.1 found'
  obtain ⟨f, f', p, ps, required, rfl, rfl⟩ := beside.related at_node at_node'
  rw [ofNode_passing] at validates
  rw [ofNode_dropping] at validates'
  obtain ⟨fields, at_fields, rfl⟩ := Traced.result_map_eq_ok.1 validates
  obtain ⟨fields', at_fields', rfl⟩ := Traced.result_map_eq_ok.1 validates'
  obtain rfl := Except.ok.inj (at_fields.symm.trans at_fields')
  refine text_finished_ne ?_ same.symm
  have call : ".".length + "passthrough".length + "(".length + "".length + ")".length = 14 := by
    decide
  rw [text_call]
  simp only [String.length_append]
  omega

end Zod

/-! ### Both renderers -/

/-- **An object that is open by a schema** has the same type as one that is open by `true`, wherever
it stands.  Its validator is the same, wherever it stands, exactly when the object has no properties
of its own, or no validator at all. -/
theorem open_objects_rendered (unshaped : ∀ key ∈ shapeKeywords, Entries.has e key = false)
    (opens : Entries.get? hole "additionalProperties" = some (.bool true)) :
    (∀ c : TypeScript.Context, formOf c.anchors hole = .object → ∀ v v', Reopened e hole v v' →
      TypeScript.typeText c v' = TypeScript.typeText c v)
    ∧ ∀ c : Zod.Context, formOf c.anchors hole = .object →
      ((∀ v v', Reopened e hole v v' → Zod.validatorText c v' = Zod.validatorText c v)
        ↔ (c.anchors.objectAt? hole "properties").getD [] = []
          ∨ ∀ text, (Zod.validatorText c (.object hole)).result ≠ .ok text) := by
  refine ⟨?_, ?_⟩
  · intro c form v v' reopened
    exact TypeScript.typeText_reopened unshaped opens form reopened
  · intro c form
    constructor
    · intro same
      by_contra neither
      obtain ⟨some_property, validated⟩ := not_or.1 neither
      obtain ⟨text, found⟩ := not_forall_not.1 validated
      refine Zod.validatorText_reopened_ne unshaped opens form some_property found ?_
      rw [same _ _ .here, found]
    · intro bare v v' reopened
      exact Zod.validatorText_reopened unshaped opens form bare reopened

/-- A ticket has a title, and may have anything else that is stated. -/
def ticket (others : Value) : Entries :=
  [(.string "type", .string "object"),
   (.string "properties",
     .object [(.string "title", .object [(.string "type", .string "string")])]),
   (.string "additionalProperties", others)]

/-- A ticket that is open by `true`. -/
def openTicket : Entries := ticket (.bool true)

/-- Types without options. -/
def plainTypes : TypeScript.Context := ⟨{}, none, {}, false⟩

/-- Validators without options. -/
def plainValidators : Zod.Context := ⟨{}, none, {}, false⟩

/-- A ticket that is open by the empty schema. -/
def reopenedTicket : Entries := ticket (.object [])

/-- The validator of the properties of a ticket. -/
def ticketValidator : Zod.Validator := .object [.mk "title" true (.base "z.string()")]

theorem formOf_openTicket : formOf {} openTicket = .object := by
  cbv

theorem validatorOf_openTicket : (Zod.validatorOf plainValidators (.object openTicket)).result
    = .ok (.call ticketValidator "passthrough" "") := by
  cbv

/-- The validator of a ticket that is open by the empty schema drops what that of a ticket that is
open by `true` lets pass. -/
theorem openTicket_validated_differently :
    formOf {} openTicket = .object
      ∧ Reopened [] openTicket (.object openTicket) (.object reopenedTicket)
      ∧ (Zod.validatorText plainValidators (.object openTicket)).result
        = .ok "z.object(\x7b\n  title: z.string().optional(),\n\x7d).passthrough()"
      ∧ (Zod.validatorText plainValidators (.object reopenedTicket)).result
        = .ok "z.object(\x7b\n  title: z.string().optional(),\n\x7d)" := by
  have passing : (Zod.Validator.call ticketValidator "passthrough" "").text 0
      = "z.object(\x7b\n  title: z.string().optional(),\n\x7d).passthrough()" := by
    decide +kernel
  have dropping : ticketValidator.text 0
      = "z.object(\x7b\n  title: z.string().optional(),\n\x7d)" := by
    decide +kernel
  have reopened : (Zod.validatorOf plainValidators (.object reopenedTicket)).result
      = .ok ticketValidator := by
    cbv
  refine ⟨formOf_openTicket, .here, ?_, ?_⟩
  · exact (Zod.text_of_validatorOf validatorOf_openTicket).trans (congrArg Except.ok passing)
  · exact (Zod.text_of_validatorOf reopened).trans (congrArg Except.ok dropping)

/-- Where a ticket stands, its type is the same in both cases; its validator is not. -/
theorem open_objects_rendered_openTicket :
    (∀ key ∈ shapeKeywords, Entries.has [(.string "description", .string "Anything")] key = false)
      ∧ Entries.get? openTicket "additionalProperties" = some (.bool true)
      ∧ (∀ v v', Reopened [(.string "description", .string "Anything")] openTicket v v' →
        TypeScript.typeText plainTypes v' = TypeScript.typeText plainTypes v)
      ∧ ¬ ∀ v v', Reopened [(.string "description", .string "Anything")] openTicket v v' →
        Zod.validatorText plainValidators v' = Zod.validatorText plainValidators v := by
  have unshaped : ∀ key ∈ shapeKeywords,
      Entries.has [(.string "description", .string "Anything")] key = false := by decide
  have opens : Entries.get? openTicket "additionalProperties" = some (.bool true) := rfl
  obtain ⟨types, validators⟩ := open_objects_rendered unshaped opens
  refine ⟨unshaped, opens, types plainTypes formOf_openTicket, ?_⟩
  rw [validators plainValidators formOf_openTicket]
  rintro (none | fails)
  · cases none
  · exact fails _ (Zod.text_of_validatorOf validatorOf_openTicket)

end SchemaCodegen
