import SchemaCodegen.Proofs.Json.Data
import SchemaCodegen.Proofs.Schema.Classify

/-!
# The nodes of JSON schemas

A schema that is JSON data always has a node, since nothing in it is shared and no part is cut as a
repetition.  What the nodes in it say, their keywords and the values of enumerations, has each
property of the schema that passes on to its parts (`gives_ofSchema`).
-/

namespace SchemaCodegen

open Traced

variable {g : Anchors} {active : List Nat} {es : Entries} {facts : Facts} {P : Value → Prop}

/-- A property of JSON data that passes on to parts. -/
structure Inherited (g : Anchors) (P : Value → Prop) : Prop where
  isJson : ∀ {v}, P v → v.isJson = true
  part : ∀ {v u}, P v → PartOf g v u → P u
  nothing : P (.object [])

/-- What the node says has the property: its keywords and, if it is an enumeration, its values. -/
def Node.Says (P : Value → Prop) : Node → Prop
  | .enumeration facts values => P (.object facts.keywords) ∧ ∀ v ∈ values, P v
  | node => P (.object node.facts.keywords)

/-- What the nodes in a node say has the property. -/
def Node.SayAll (P : Value → Prop) (node : Node) : Prop := ∀ part ∈ node.preorder, part.Says P

theorem Node.Says.keywords {node : Node} (said : node.Says P) : P (.object node.facts.keywords) := by
  cases node with
  | enumeration facts values => exact said.1
  | _ => exact said

theorem inherited_isJson (g : Anchors) : Inherited g (·.isJson = true) :=
  ⟨id, fun json part => part.isJson json, rfl⟩

section Inherited

variable (inherited : Inherited g P) (has : P (.object es))

include inherited has

theorem Inherited.get? {key : String} {v : Value} (found : Entries.get? es key = some v) : P v :=
  inherited.part has (partOf_of_get? found)

/-- The items of the list under a key have the property. -/
theorem Inherited.listAt? {key : String} {xs : List Value} (found : g.listAt? es key = some xs) :
    ∀ x ∈ xs, P x := by
  obtain ⟨list, at_key, items⟩ := Option.bind_eq_some_iff.1 found
  exact fun x mem => inherited.part (inherited.get? has at_key) (.inl ⟨xs, items, mem⟩)

/-- The object under a key has the property. -/
theorem Inherited.objectAt? {key : String} {fs : Entries}
    (found : g.objectAt? es key = some fs) : P (.object fs) := by
  obtain ⟨object, at_key, entries⟩ := Option.bind_eq_some_iff.1 found
  have object_has := inherited.get? has at_key
  rwa [eq_object_of_entries? (isTree_of_isJson _ (inherited.isJson object_has)) entries]
    at object_has

end Inherited

/-! ### Parts -/

theorem sayAll_object {properties : List (String × Node)} {required : List String}
    {additional : Additional} (said : P (.object facts.keywords))
    (each : ∀ p ∈ properties, p.2.SayAll P) (others : ∀ part ∈ additional.preorder, part.Says P) :
    (Node.object facts properties required additional).SayAll P := by
  intro part mem
  rw [Node.preorder, List.mem_cons, List.mem_append, mem_preorderFields] at mem
  obtain rfl | ⟨p, at_p, inside⟩ | inside := mem
  · exact said
  · exact each p at_p part inside
  · exact others part inside

theorem sayAll_composition {c : Combinator} {members : List Node}
    (said : P (.object facts.keywords)) (each : ∀ m ∈ members, m.SayAll P) :
    (Node.composition facts c members).SayAll P := by
  intro part mem
  rw [Node.preorder, List.mem_cons, mem_preorderMembers] at mem
  obtain rfl | ⟨m, at_m, inside⟩ := mem
  · exact said
  · exact each m at_m part inside

/-- A node without parts. -/
theorem sayAll_leaf {node : Node} (leaf : node.preorder = [node]) (said : node.Says P) :
    node.SayAll P := by
  intro part mem
  rw [leaf, List.mem_singleton] at mem
  subst mem
  exact said

/-- An object whose shape is an enumeration lists its values under `enum`. -/
theorem listAt?_of_formOf {values : List Value} (form : formOf g es = .enumeration values) :
    g.listAt? es "enum" = some values := by
  unfold formOf at form
  simp only [cond_eq_ite] at form
  repeat' split at form
  all_goals cases form
  next found => exact found

/-! ### Keywords -/

section Keywords

variable (inherited : Inherited g P)
  (below : ∀ v : Value, v.weight ≤ Value.entryWeights es → P v →
    (Node.classify g active v).Gives (Node.SayAll P))
  (has : P (.object es))

include inherited below has

theorem gives_itemsOf :
    (Node.itemsOf g active es).Gives fun items => ∀ item ∈ items, item.SayAll P :=
  gives_items fun v found => below v (Entries.weight_le_of_get? found) (inherited.get? has found)

theorem gives_membersOf (key : String) :
    (Node.membersOf g active es key).Gives fun members => ∀ m ∈ members, m.SayAll P :=
  gives_members fun _ found v mem =>
    below v (Anchors.weight_le_of_listAt? found mem) (inherited.listAt? has found v mem)

theorem gives_propertiesOf :
    (Node.propertiesOf g active es).Gives fun (properties : List (String × Node)) =>
      ∀ p ∈ properties, p.2.SayAll P :=
  gives_properties fun ps found p mem =>
    below p.2 (Anchors.weight_le_of_objectAt? found mem)
      (inherited.part (inherited.objectAt? has found) (.inr ⟨ps, p.1, rfl, mem⟩))

theorem gives_additionalOf :
    (Node.additionalOf g active es).Gives fun additional =>
      ∀ part ∈ additional.preorder, part.Says P := by
  have given := gives_additional fun v found =>
    below v (Entries.weight_le_of_get? found) (inherited.get? has found)
  refine given.imp fun additional said part mem => ?_
  cases additional with
  | schema node => exact said node rfl part mem
  | _ => cases mem

theorem gives_ofFields {facts : Facts} (said : facts.keywords = es) :
    (Node.ofFields g active es facts).Gives (Node.SayAll P) := by
  subst said
  rw [Node.ofFields]
  exact (gives_propertiesOf inherited below has).bind fun _ each =>
    (gives_additionalOf inherited below has).bind fun _ others =>
      gives_pure (sayAll_object has each others)

/-- The node of a schema with the given keywords, by its shape. -/
theorem gives_ofEntries : (Node.ofEntries g active es).Gives (Node.SayAll P) := by
  rw [Node.ofEntries]
  cases form : formOf g es with
  | array =>
      refine (gives_itemsOf inherited below has).bind fun items each => gives_pure ?_
      cases items with
      | none => exact sayAll_leaf rfl has
      | some item =>
          intro part mem
          rw [Node.preorder, List.mem_cons] at mem
          obtain rfl | inside := mem
          · exact has
          · exact each item rfl part inside
  | object => exact gives_ofFields inherited below has rfl
  | intersection =>
      refine (gives_ofFields inherited below has rfl).bind fun own own_says => ?_
      refine (gives_membersOf inherited below has "allOf").bind fun members each => gives_pure ?_
      refine sayAll_composition has fun m mem => ?_
      obtain joined | last := List.mem_append.1 mem
      · exact each m joined
      · cases List.mem_singleton.1 last
        exact own_says
  | composition c =>
      exact (gives_membersOf inherited below has _).bind fun _ each =>
        gives_pure (sayAll_composition has each)
  | enumeration values =>
      have listed := inherited.listAt? has (listAt?_of_formOf form)
      exact gives_pure (sayAll_leaf rfl ⟨has, listed⟩)
  | _ => exact gives_pure (sayAll_leaf rfl has)

end Keywords

/-- JSON data has a node below any active anchors, which it does not have itself. -/
theorem gives_classify (inherited : Inherited g P) (active : List Nat) (v : Value) (has : P v) :
    (Node.classify g active v).Gives (Node.SayAll P) := by
  induction weight : v.weight using Nat.strongRecOn generalizing v with
  | _ weight lighter =>
      subst weight
      cases v with
      | object es =>
          rw [Node.classify]
          refine gives_ofEntries inherited
            (fun u small u_has => lighter u.weight ?_ u u_has rfl) has
          rw [Value.weight]
          exact Nat.lt_succ_of_le small
      | scalar s =>
          cases s with
          | null =>
              rw [Node.classify]
              exact gives_pure (sayAll_leaf rfl inherited.nothing)
          | _ =>
              simp only [Node.classify]
              exact gives_pure (sayAll_leaf rfl inherited.nothing)
      | list xs =>
          simp only [Node.classify]
          exact gives_pure (sayAll_leaf rfl inherited.nothing)
      | _ => cases inherited.isJson has

/-- **A JSON schema has a node**, and what the nodes in it say has the property that the schema
has. -/
theorem gives_ofSchema (inherited : Inherited g P) {schema : Value} (has : P schema) :
    (Node.ofSchema g schema).Gives (Node.SayAll P) := gives_classify inherited [] schema has

end SchemaCodegen
