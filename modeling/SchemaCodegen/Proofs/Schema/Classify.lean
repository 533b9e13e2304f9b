import SchemaCodegen.Proofs.Descent
import SchemaCodegen.Proofs.Reference.Occurrences
import SchemaCodegen.Schema.Classify

/-!
# The references of a schema node

References are leaves of a node.  Each one comes from an object inside the data that the node
was recognised from (`holds_of_mem_preorder`), whichever keyword leads there.  The converse
fails on purpose: data that no shape looks into, such as an example, may hold references
too.

A value is recognised in one of three ways, as an object that is entered, as one that is cut, or
as no object; `classify_induct` is the induction along them.  There is always a node
(`exists_classify`).
-/

namespace SchemaCodegen

variable {g : Anchors} {active : List Nat} {es : Entries} {f : Facts} {ref : String}

/-- `Traces g active v ref`: the nodes of `v` below the active anchors have the reference only
where `v` holds it. -/
def Traces (g : Anchors) (active : List Nat) (v : Value) (ref : String) : Prop :=
  ∀ node f, (Node.classify g active v).result = .ok node →
    Node.reference f ref ∈ node.preorder → Holds g v ref

/-! ### Keywords -/

/-- The value under a key is part of the object. -/
theorem partOf_of_get? {key : String} {v : Value} (h : Entries.get? es key = some v) :
    PartOf g (.object es) v := .inr ⟨es, _, rfl, Entries.mem_of_get? h⟩

/-- What an item of the list under a key holds, the object holds. -/
theorem Holds.of_listAt? {key : String} {xs : List Value} {v : Value}
    (found : g.listAt? es key = some xs) (mem : v ∈ xs) (holds : Holds g v ref) :
    Holds g (.object es) ref := by
  obtain ⟨list, at_key, items⟩ := Option.bind_eq_some_iff.1 found
  exact .of_part (partOf_of_get? at_key) (.of_part (.inl ⟨xs, items, mem⟩) holds)

/-- What a value of the object under a key holds, the object holds. -/
theorem Holds.of_objectAt? {key : String} {fs : Entries} {e : Scalar × Value}
    (found : g.objectAt? es key = some fs) (mem : e ∈ fs) (holds : Holds g e.2 ref) :
    Holds g (.object es) ref := by
  obtain ⟨object, at_key, entries⟩ := Option.bind_eq_some_iff.1 found
  exact .of_part (partOf_of_get? at_key) (.of_part (.inr ⟨fs, e.1, entries, mem⟩) holds)

/-- An entry of a list that may be missing. -/
theorem exists_of_mem_getD {α : Type} {o : Option (List α)} {x : α} (mem : x ∈ o.getD []) :
    ∃ xs, o = some xs ∧ x ∈ xs := by
  cases o with
  | none => cases mem
  | some xs => exact ⟨xs, rfl, mem⟩

/-- An object whose shape is a reference has it under `$ref`. -/
theorem string?_of_formOf (form : formOf g es = .reference ref) :
    Entries.string? es "$ref" = some ref := by
  unfold formOf at form
  simp only [cond_eq_ite] at form
  cases found : Entries.string? es "$ref" with
  | some text =>
      simp only [found] at form
      split at form
      · cases form
        rfl
      · cases form
  | none =>
      simp only [found] at form
      repeat' split at form
      all_goals cases form

/-- A reference is one whatever else is said beside it. -/
theorem formOf_of_reference (refers : Entries.string? es "$ref" = some ref) :
    formOf g es = .reference ref := by
  have shaped : shapeKeywords.any (Entries.has es) = true := by
    refine List.any_eq_true.2 ⟨"$ref", List.mem_cons_self, ?_⟩
    obtain ⟨v, at_key, -⟩ := Option.bind_eq_some_iff.1 refers
    exact Option.isSome_iff_exists.2 ⟨v, at_key⟩
  unfold formOf
  rw [shaped, refers]
  rfl

/-! ### Keywords and their nodes -/

theorem exists_weighed? {key : String} {v : Value} (found : Entries.get? es key = some v) :
    ∃ w, Entries.weighed? es key = some w ∧ w.1 = v := by
  rw [← Entries.map_val_weighed?, Option.map_eq_some_iff] at found
  exact found

/-- Without `items` nothing is said of them. -/
theorem itemsOf_of_none (missing : Entries.get? es "items" = none) :
    Node.itemsOf g active es = pure none := by
  rw [← Entries.map_val_weighed?, Option.map_eq_none_iff] at missing
  rw [Node.itemsOf, missing]

/-- The node of the items, where the keyword is there. -/
theorem itemsOf_of_found {v : Value} (found : Entries.get? es "items" = some v) :
    Node.itemsOf g active es
      = if v.isNull then pure none else some <$> Node.classify g active v := by
  obtain ⟨w, weighed, rfl⟩ := exists_weighed? found
  rw [Node.itemsOf, weighed]
  rfl

/-- The node of the items that are stated. -/
theorem itemsOf_of_get? {v : Value} (found : Entries.get? es "items" = some v)
    (stated : v.isNull = false) : Node.itemsOf g active es = some <$> Node.classify g active v := by
  rw [itemsOf_of_found found, stated]
  rfl

/-- The nodes of the schemas in a list. -/
theorem membersOf_of_listAt? {key : String} {vs : List Value}
    (found : g.listAt? es key = some vs) :
    Node.membersOf g active es key = vs.mapM (Node.classify g active) := by
  rw [Node.membersOf]
  split
  · next us same =>
      cases found.symm.trans same
      exact Traced.mapM_attach vs (Node.classify g active)
  · next none => cases found.symm.trans none

/-- Without a list of schemas there are no nodes. -/
theorem membersOf_of_none {key : String} (none : g.listAt? es key = none) :
    Node.membersOf g active es key = pure [] := by
  rw [Node.membersOf]
  split
  · next vs found => cases none.symm.trans found
  · rfl

/-- The nodes of the properties in an object. -/
theorem propertiesOf_of_objectAt? {ps : Entries}
    (found : g.objectAt? es "properties" = some ps) :
    Node.propertiesOf g active es
      = ps.mapM (fun p => do pure (p.1.shown, ← Node.classify g active p.2)) := by
  rw [Node.propertiesOf]
  split
  · next qs same =>
      cases found.symm.trans same
      exact Traced.mapM_attach ps fun p => do pure (p.1.shown, ← Node.classify g active p.2)
  · next none => cases found.symm.trans none

/-- Without `properties` there are none. -/
theorem propertiesOf_of_none (none : g.objectAt? es "properties" = none) :
    Node.propertiesOf g active es = pure [] := by
  rw [Node.propertiesOf]
  split
  · next ps found => cases none.symm.trans found
  · rfl

/-- Without `additionalProperties` nothing is said. -/
theorem additionalOf_of_none (none : Entries.get? es "additionalProperties" = none) :
    Node.additionalOf g active es = pure .unstated := by
  rw [← Entries.map_val_weighed?, Option.map_eq_none_iff] at none
  rw [Node.additionalOf, none]

/-- What an object allows besides its properties, where the keyword is there. -/
theorem additionalOf_of_found {v : Value}
    (found : Entries.get? es "additionalProperties" = some v) :
    Node.additionalOf g active es = match v.bool? with
      | some b => pure (.flag b)
      | none =>
        if g.isObject v then .schema <$> Node.classify g active v else pure .unstated := by
  obtain ⟨w, weighed, rfl⟩ := exists_weighed? found
  rw [Node.additionalOf, weighed]
  rfl

/-- The node of what an object allows, where that is a schema. -/
theorem additionalOf_of_get? {v : Value}
    (found : Entries.get? es "additionalProperties" = some v) (object : g.isObject v = true)
    (no_flag : v.bool? = none) :
    Node.additionalOf g active es = .schema <$> Node.classify g active v := by
  rw [additionalOf_of_found found, no_flag, object]
  rfl

/-! ### What nodes are made of

Each node below that of a schema is the node of a value under one of the keywords. -/

/-- `HasNode g active v node`: the node is that of `v` below the active anchors. -/
def HasNode (g : Anchors) (active : List Nat) (v : Value) (node : Node) : Prop :=
  (Node.classify g active v).result = .ok node

/-- The node of what is allowed besides properties. -/
def Additional.node? : Additional → Option Node
  | .schema node => some node
  | _ => none

/-- A flag is no object. -/
theorem isObject_of_bool? {v : Value} {b : Bool} (flag : v.bool? = some b) :
    g.isObject v = false := by
  cases v with
  | scalar s => rfl
  | _ => cases flag

/-- The items that are stated have their node. -/
theorem rel_itemsOf {items : Option Node}
    (found : (Node.itemsOf g active es).result = .ok items) :
    Option.Rel (HasNode g active) ((Entries.get? es "items").filter fun v => !v.isNull) items := by
  cases at_key : Entries.get? es "items" with
  | none =>
      rw [itemsOf_of_none at_key] at found
      cases found
      exact .none
  | some v =>
      rw [itemsOf_of_found at_key] at found
      rw [Option.filter_some]
      cases null : v.isNull with
      | true =>
          rw [null] at found
          cases found
          exact .none
      | false =>
          rw [null] at found
          obtain ⟨node, here, rfl⟩ := Traced.result_map_eq_ok.1 found
          exact .some here

/-- The members have their nodes. -/
theorem forall₂_membersOf {key : String} {members : List Node}
    (found : (Node.membersOf g active es key).result = .ok members) :
    List.Forall₂ (HasNode g active) ((g.listAt? es key).getD []) members := by
  cases at_key : g.listAt? es key with
  | none =>
      rw [membersOf_of_none at_key] at found
      cases found
      exact .nil
  | some vs =>
      rw [membersOf_of_listAt? at_key] at found
      exact Traced.result_mapM_eq_ok.1 found

/-- The properties have their nodes, under the texts of their keys. -/
theorem forall₂_propertiesOf {properties : List (String × Node)}
    (found : (Node.propertiesOf g active es).result = .ok properties) :
    List.Forall₂ (fun p field => field.1 = p.1.shown ∧ HasNode g active p.2 field.2)
      ((g.objectAt? es "properties").getD []) properties := by
  cases at_key : g.objectAt? es "properties" with
  | none =>
      rw [propertiesOf_of_none at_key] at found
      cases found
      exact .nil
  | some ps =>
      rw [propertiesOf_of_objectAt? at_key] at found
      refine (Traced.result_mapM_eq_ok.1 found).imp fun p field here => ?_
      obtain ⟨node, there, same⟩ := Traced.result_bind_eq_ok.1 here
      cases same
      exact ⟨rfl, there⟩

/-- What is allowed besides properties has a node where it is an object. -/
theorem rel_additionalOf {additional : Additional}
    (found : (Node.additionalOf g active es).result = .ok additional) :
    Option.Rel (HasNode g active) ((Entries.get? es "additionalProperties").filter g.isObject)
      additional.node? := by
  cases at_key : Entries.get? es "additionalProperties" with
  | none =>
      rw [additionalOf_of_none at_key] at found
      cases found
      exact .none
  | some v =>
      rw [additionalOf_of_found at_key] at found
      rw [Option.filter_some]
      cases flag : v.bool? with
      | some b =>
          rw [flag] at found
          cases found
          rw [isObject_of_bool? flag]
          exact .none
      | none =>
          rw [flag] at found
          cases object : g.isObject v with
          | false =>
              rw [object] at found
              cases found
              exact .none
          | true =>
              rw [object] at found
              obtain ⟨node, here, rfl⟩ := Traced.result_map_eq_ok.1 found
              exact .some here

/-- What the node of an object is made of. -/
theorem ofFields_eq_ok {facts : Facts} {node : Node}
    (found : (Node.ofFields g active es facts).result = .ok node) :
    ∃ properties additional,
      (Node.propertiesOf g active es).result = .ok properties ∧
      (Node.additionalOf g active es).result = .ok additional ∧
      node = .object { facts with type := some "object" } properties (requiredNames g es)
        additional := by
  rw [Node.ofFields] at found
  obtain ⟨properties, from_properties, found⟩ := Traced.result_bind_eq_ok.1 found
  obtain ⟨additional, from_additional, same⟩ := Traced.result_bind_eq_ok.1 found
  cases same
  exact ⟨properties, additional, from_properties, from_additional, rfl⟩

/-! ### One schema at a time

What recognising a value does is settled by whether it is an object, and whether it can be
entered. -/

/-- The stored object behind an alias. -/
theorem exists_container_of_entries? {n : Nat} (entries : g.entries? (.aliasTo n) = some es) :
    ∃ fs, g.container? n = some (.object fs) ∧ es = fs.map fun e => (e.1, e.2.value) := by
  rw [entries?_eq_some] at entries
  cases found : g.container? n with
  | none =>
      rw [Anchors.look, found] at entries
      cases entries
  | some c =>
      rw [look_of_container? found] at entries
      cases c with
      | object fs =>
          cases entries
          exact ⟨fs, rfl, rfl⟩
      | _ => cases entries

/-- An object that is entered is recognised by its entries. -/
theorem classify_of_enter? {inner : List Nat} {v : Value}
    (enters : g.enter? active v = some inner) (entries : g.entries? v = some es) :
    Node.classify g active v = Node.ofEntries g inner es := by
  cases v with
  | object fs =>
      cases entries
      cases enters
      rw [Node.classify]
  | aliasTo n =>
      obtain ⟨fs, found, rfl⟩ := exists_container_of_entries? entries
      rw [Anchors.enter?, Option.ite_none_right_eq_some] at enters
      obtain ⟨⟨-, new⟩, same⟩ := enters
      cases same
      rw [Node.classify]
      split
      · next missing => cases missing.symm.trans found
      · next fs' found' =>
          cases found.symm.trans found'
          exact dif_neg new
      · next c no_object found' =>
          cases found.symm.trans found'
          exact absurd rfl (no_object fs)
  | _ => cases entries

/-- An object that is active already is cut. -/
theorem classify_of_active {n : Nat} (mem : n ∈ active)
    (entries : g.entries? (.aliasTo n) = some es) :
    Node.classify g active (.aliasTo n) = (do
      Traced.note .containsItself
      pure (.unknown { keywords := es })) := by
  obtain ⟨fs, found, rfl⟩ := exists_container_of_entries? entries
  rw [Node.classify]
  split
  · next missing => cases missing.symm.trans found
  · next fs' found' =>
      cases found.symm.trans found'
      exact dif_pos mem
  · next c no_object found' =>
      cases found.symm.trans found'
      exact absurd rfl (no_object fs)

/-- What is no object has a node that says nothing. -/
theorem classify_of_no_object {v : Value} (none : g.entries? v = none) :
    Node.classify g active v = pure (if (g.look v).isNull then .absent else .unknown {}) := by
  cases v with
  | object fs => cases none
  | aliasTo n =>
      rw [Node.classify]
      split
      · next missing => simp [Anchors.look, missing, Value.isNull]
      · next fs found =>
          rw [Anchors.entries?, look_of_container? found] at none
          cases none
      · next c no_object found =>
          rw [look_of_container? found]
          cases c with
          | object fs => exact absurd rfl (no_object fs)
          | _ => rfl
  | scalar s =>
      cases s with
      | null =>
          rw [Node.classify]
          rfl
      | _ =>
          simp only [Node.classify]
          rfl
  | _ =>
      simp only [Node.classify]
      rfl

/-- Induction along the recognition of a schema: an object is entered, or it is active already and
cut; anything else has no parts. -/
theorem classify_induct {motive : List Nat → Value → Prop}
    (entered : ∀ active v inner es, g.enter? active v = some inner → g.entries? v = some es →
      (∀ u : Value, u.weight ≤ Value.entryWeights es → motive inner u) → motive active v)
    (cut : ∀ active n es, n ∈ active → g.entries? (.aliasTo n) = some es →
      motive active (.aliasTo n))
    (no_object : ∀ active v, g.entries? v = none → motive active v)
    (active : List Nat) (v : Value) : motive active v := by
  cases entries : g.entries? v with
  | none => exact no_object active v entries
  | some es =>
      cases enters : g.enter? active v with
      | some inner =>
          refine entered active v inner es enters entries fun u light => ?_
          have descends := Anchors.lex_of_enter? enters fun plain =>
            Nat.lt_of_le_of_lt light (Anchors.entryWeights_lt_of_entries? entries plain)
          exact classify_induct entered cut no_object inner u
      | none =>
          cases v with
          | aliasTo n =>
              obtain ⟨fs, found, -⟩ := exists_container_of_entries? entries
              have stored := Anchors.lt_size_of_container? found
              have mem : n ∈ active := by simpa [Anchors.enter?, stored] using enters
              exact cut active n es mem entries
          | _ => cases enters
termination_by (g.unseen active, v.weight)
decreasing_by exact descends

/-- Inside a value its own anchor is active too. -/
theorem mem_of_enter? {inner : List Nat} {v : Value} {n : Nat}
    (enters : g.enter? active v = some inner) : n ∈ inner ↔ n ∈ active ∨ v = .aliasTo n := by
  cases v with
  | aliasTo m =>
      rw [Anchors.enter?, Option.ite_none_right_eq_some] at enters
      obtain ⟨-, same⟩ := enters
      cases same
      rw [List.mem_cons, or_comm, Value.aliasTo.injEq, eq_comm]
  | _ =>
      cases enters
      simp

/-- An object that is none of the active ones is entered. -/
theorem exists_enter?_of_new {v : Value} (entries : g.entries? v = some es)
    (new : ∀ n ∈ active, v ≠ .aliasTo n) : ∃ inner, g.enter? active v = some inner := by
  cases v with
  | aliasTo n =>
      obtain ⟨fs, found, -⟩ := exists_container_of_entries? entries
      have fresh : n ∉ active := fun mem => new n mem rfl
      exact ⟨n :: active, if_pos ⟨Anchors.lt_size_of_container? found, fresh⟩⟩
  | _ => exact ⟨active, rfl⟩

/-- An object that is not entered is one of the active ones. -/
theorem exists_active_of_cut {v : Value} (entries : g.entries? v = some es)
    (cut : g.enter? active v = none) : ∃ n ∈ active, v = .aliasTo n := by
  by_contra none
  obtain ⟨inner, enters⟩ :=
    exists_enter?_of_new entries fun n mem same => none ⟨n, mem, same⟩
  cases cut.symm.trans enters

/-- An object that is entered for the first time is recognised by its entries. -/
theorem exists_classify_eq {v : Value} (entries : g.entries? v = some es)
    (new : ∀ n ∈ active, v ≠ .aliasTo n) :
    ∃ inner, Node.classify g active v = Node.ofEntries g inner es
      ∧ ∀ n ∈ inner, n ∈ active ∨ v = .aliasTo n := by
  obtain ⟨inner, enters⟩ := exists_enter?_of_new entries new
  exact ⟨inner, classify_of_enter? enters entries, fun n mem => (mem_of_enter? enters).1 mem⟩

/-! ### Primitive shapes -/

/-- Only a primitive shape gives a primitive node. -/
theorem formOf_of_primitive (found : (Node.ofEntries g active es).result = .ok (.primitive f)) :
    formOf g es = .primitive := by
  rw [Node.ofEntries] at found
  cases form : formOf g es with
  | primitive => rfl
  | array =>
      rw [form] at found
      obtain ⟨items, -, found⟩ := Traced.result_bind_eq_ok.1 found
      cases found
  | object =>
      rw [form, Node.ofFields] at found
      obtain ⟨properties, -, found⟩ := Traced.result_bind_eq_ok.1 found
      obtain ⟨additional, -, found⟩ := Traced.result_bind_eq_ok.1 found
      cases found
  | intersection =>
      rw [form] at found
      obtain ⟨own, -, found⟩ := Traced.result_bind_eq_ok.1 found
      obtain ⟨members, -, found⟩ := Traced.result_bind_eq_ok.1 found
      cases found
  | composition combinator =>
      rw [form] at found
      obtain ⟨members, -, found⟩ := Traced.result_bind_eq_ok.1 found
      cases found
  | _ =>
      rw [form] at found
      cases found

/-- A primitive shape has no reference, no list of values and no list of schemas to join. -/
theorem unjoined_of_primitive (form : formOf g es = .primitive) :
    Entries.string? es "$ref" = none ∧ g.listAt? es "enum" = none
      ∧ ∀ combinator ∈ Combinator.all, g.listAt? es combinator.keyword = none := by
  unfold formOf at form
  simp only [cond_eq_ite] at form
  cases at_ref : Entries.string? es "$ref" with
  | some ref =>
      rw [at_ref] at form
      split at form <;> cases form
  | none =>
      cases at_enum : g.listAt? es "enum" with
      | some values =>
          simp only [at_ref, at_enum] at form
          repeat' split at form
          all_goals cases form
      | none =>
          cases joined : compositionOf? g es with
          | some combinator =>
              simp only [at_ref, at_enum, joined] at form
              repeat' split at form
              all_goals cases form
          | none =>
              refine ⟨rfl, rfl, fun combinator mem => ?_⟩
              simpa using List.find?_eq_none.1 joined combinator mem

/-! ### Parts of a node -/

theorem mem_preorderFields {node : Node} {fields : List (String × Node)} :
    node ∈ Node.preorderFields fields ↔ ∃ field ∈ fields, node ∈ field.2.preorder := by
  induction fields with
  | nil => simp [Node.preorderFields]
  | cons field fields ih => simp [Node.preorderFields, ih]

theorem mem_preorderMembers {node : Node} {members : List Node} :
    node ∈ Node.preorderMembers members ↔ ∃ member ∈ members, node ∈ member.preorder := by
  induction members with
  | nil => simp [Node.preorderMembers]
  | cons member members ih => simp [Node.preorderMembers, ih]

section Object

/-! ### Objects

Each keyword leads to data that weighs no more than the entries; what holds for that holds
for the object. -/

variable (below : ∀ v, v.weight ≤ Value.entryWeights es → Traces g active v ref)

include below

/-- The references of items are held. -/
theorem holds_of_itemsOf {item : Node}
    (h : (Node.itemsOf g active es).result = .ok (some item))
    (mem : Node.reference f ref ∈ item.preorder) : Holds g (.object es) ref := by
  obtain ⟨-, none⟩ | ⟨v, node, stated, same, here⟩ := cases_of_rel (rel_itemsOf h)
  · cases none
  · cases same
    obtain ⟨found, -⟩ := Option.filter_eq_some_iff.1 stated
    exact .of_part (partOf_of_get? found) (below v (Entries.weight_le_of_get? found) _ _ here mem)

/-- The references of the schemas that a keyword joins are held. -/
theorem holds_of_membersOf {key : String} {members : List Node}
    (h : (Node.membersOf g active es key).result = .ok members)
    (mem : Node.reference f ref ∈ Node.preorderMembers members) : Holds g (.object es) ref := by
  obtain ⟨member, at_member, inside⟩ := mem_preorderMembers.1 mem
  obtain ⟨v, at_v, here⟩ := exists_of_mem_left (forall₂_membersOf h).flip at_member
  obtain ⟨vs, found, at_v⟩ := exists_of_mem_getD at_v
  exact .of_listAt? found at_v (below v (Anchors.weight_le_of_listAt? found at_v) _ _ here inside)

/-- The references of properties are held. -/
theorem holds_of_propertiesOf {properties : List (String × Node)}
    (h : (Node.propertiesOf g active es).result = .ok properties)
    (mem : Node.reference f ref ∈ Node.preorderFields properties) :
    Holds g (.object es) ref := by
  obtain ⟨field, at_field, inside⟩ := mem_preorderFields.1 mem
  obtain ⟨p, at_p, -, here⟩ := exists_of_mem_left (forall₂_propertiesOf h).flip at_field
  obtain ⟨ps, found, at_p⟩ := exists_of_mem_getD at_p
  have small := Anchors.weight_le_of_objectAt? found at_p
  exact .of_objectAt? found at_p (below p.2 small _ _ here inside)

/-- The references of what is allowed besides properties are held. -/
theorem holds_of_additionalOf {additional : Additional}
    (h : (Node.additionalOf g active es).result = .ok additional)
    (mem : Node.reference f ref ∈ additional.preorder) : Holds g (.object es) ref := by
  obtain ⟨-, none⟩ | ⟨v, node, object, same, here⟩ := cases_of_rel (rel_additionalOf h)
  · cases additional with
    | schema node => cases none
    | _ => cases mem
  · obtain ⟨found, -⟩ := Option.filter_eq_some_iff.1 object
    cases additional with
    | schema node =>
        cases same
        exact .of_part (partOf_of_get? found)
          (below v (Entries.weight_le_of_get? found) _ _ here mem)
    | _ => cases mem

/-- The references of an object node are held. -/
theorem holds_of_ofFields {facts : Facts} {node : Node}
    (h : (Node.ofFields g active es facts).result = .ok node)
    (mem : Node.reference f ref ∈ node.preorder) : Holds g (.object es) ref := by
  obtain ⟨properties, additional, from_properties, from_additional, rfl⟩ := ofFields_eq_ok h
  rw [Node.preorder, List.mem_cons, List.mem_append] at mem
  obtain same | in_properties | in_additional := mem
  · cases same
  · exact holds_of_propertiesOf below from_properties in_properties
  · exact holds_of_additionalOf below from_additional in_additional

/-- The references of a node with the given keywords are held. -/
theorem holds_of_ofEntries {node : Node}
    (h : (Node.ofEntries g active es).result = .ok node)
    (mem : Node.reference f ref ∈ node.preorder) : Holds g (.object es) ref := by
  rw [Node.ofEntries] at h
  cases form : formOf g es with
  | reference found =>
      rw [form] at h
      cases h
      rw [Node.preorder, List.mem_singleton] at mem
      cases mem
      exact ⟨_, .refl, es, rfl, string?_of_formOf form⟩
  | array =>
      rw [form] at h
      obtain ⟨items, from_items, same⟩ := Traced.result_bind_eq_ok.1 h
      cases same
      cases items with
      | none =>
          rw [Node.preorder, List.mem_singleton] at mem
          cases mem
      | some item =>
          rw [Node.preorder, List.mem_cons] at mem
          obtain same | inside := mem
          · cases same
          · exact holds_of_itemsOf below from_items inside
  | object =>
      rw [form] at h
      exact holds_of_ofFields below h mem
  | intersection =>
      rw [form] at h
      obtain ⟨own, from_own, h⟩ := Traced.result_bind_eq_ok.1 h
      obtain ⟨members, from_members, same⟩ := Traced.result_bind_eq_ok.1 h
      cases same
      rw [Node.preorder, List.mem_cons, mem_preorderMembers] at mem
      obtain same | ⟨member, at_member, inside⟩ := mem
      · cases same
      · obtain joined | last := List.mem_append.1 at_member
        · exact holds_of_membersOf below from_members (mem_preorderMembers.2 ⟨_, joined, inside⟩)
        · cases List.mem_singleton.1 last
          exact holds_of_ofFields below from_own inside
  | composition c =>
      rw [form] at h
      obtain ⟨members, from_members, same⟩ := Traced.result_bind_eq_ok.1 h
      cases same
      rw [Node.preorder, List.mem_cons] at mem
      obtain same | inside := mem
      · cases same
      · exact holds_of_membersOf below from_members inside
  | _ =>
      rw [form] at h
      cases h
      rw [Node.preorder, List.mem_singleton] at mem
      cases mem

end Object

/-- A node without parts that is no reference has none. -/
theorem not_mem_unknown {facts : Facts} :
    Node.reference f ref ∉ (Node.unknown facts).preorder := by
  simp [Node.preorder]

theorem not_mem_absent : Node.reference f ref ∉ Node.absent.preorder := by
  simp [Node.preorder]

/-- The nodes of a value have only references that the value holds. -/
theorem traces (g : Anchors) (ref : String) (active : List Nat) (v : Value) :
    Traces g active v ref := by
  induction active, v using classify_induct (g := g) with
  | entered active v inner es enters entries below =>
      intro node f h mem
      rw [classify_of_enter? enters entries] at h
      refine .of_look ?_
      rw [entries?_eq_some.1 entries]
      exact holds_of_ofEntries below h mem
  | cut active n es active_already entries =>
      intro node f h mem
      rw [classify_of_active active_already entries] at h
      cases h
      exact absurd mem not_mem_unknown
  | no_object active v none =>
      intro node f h mem
      rw [classify_of_no_object none] at h
      cases h
      split at mem
      · exact absurd mem not_mem_absent
      · exact absurd mem not_mem_unknown

/-- The references of the node of a schema are references in the schema. -/
theorem mem_references_of_mem_preorder {schema : Value} {node : Node}
    (h : (Node.ofSchema g schema).result = .ok node)
    (mem : Node.reference f ref ∈ node.preorder) : ref ∈ g.references schema :=
  (traces g ref [] schema node f h mem).mem_references

/-! ### Recognition has a result

A container that is met inside itself is cut, and nothing else is in the way of a node.  What the
nodes of the schemas inside have, is had by the nodes under each keyword. -/

section Keywords

open Traced

variable {Q : Node → Prop}

theorem gives_items (below : ∀ v, Entries.get? es "items" = some v →
    (Node.classify g active v).Gives Q) :
    (Node.itemsOf g active es).Gives fun items => ∀ item ∈ items, Q item := by
  cases found : Entries.get? es "items" with
  | none =>
      rw [itemsOf_of_none found]
      exact gives_pure nofun
  | some v =>
      rw [itemsOf_of_found found]
      split
      · exact gives_pure nofun
      · refine (below v found).map fun node has item mem => ?_
        cases mem
        exact has

theorem gives_members {key : String} (below : ∀ vs, g.listAt? es key = some vs → ∀ v ∈ vs,
    (Node.classify g active v).Gives Q) :
    (Node.membersOf g active es key).Gives fun members => ∀ m ∈ members, Q m := by
  cases found : g.listAt? es key with
  | none =>
      rw [membersOf_of_none found]
      exact gives_pure nofun
  | some vs =>
      rw [membersOf_of_listAt? found]
      exact gives_mapM (below vs found)

theorem gives_properties (below : ∀ ps, g.objectAt? es "properties" = some ps → ∀ p ∈ ps,
    (Node.classify g active p.2).Gives Q) :
    (Node.propertiesOf g active es).Gives fun (properties : List (String × Node)) =>
      ∀ p ∈ properties, Q p.2 := by
  cases found : g.objectAt? es "properties" with
  | none =>
      rw [propertiesOf_of_none found]
      exact gives_pure nofun
  | some ps =>
      rw [propertiesOf_of_objectAt? found]
      exact gives_mapM fun p mem => (below ps found p mem).bind fun _ has => gives_pure has

theorem gives_additional (below : ∀ v, Entries.get? es "additionalProperties" = some v →
    (Node.classify g active v).Gives Q) :
    (Node.additionalOf g active es).Gives fun additional =>
      ∀ node, additional = .schema node → Q node := by
  have unstated : (pure .unstated : Traced Additional).Gives fun additional =>
      ∀ node, additional = .schema node → Q node := gives_pure fun node same => by cases same
  cases found : Entries.get? es "additionalProperties" with
  | none =>
      rw [additionalOf_of_none found]
      exact unstated
  | some v =>
      rw [additionalOf_of_found found]
      split
      · exact gives_pure fun node same => by cases same
      · split
        · refine (below v found).map fun node has other same => ?_
          cases same
          exact has
        · exact unstated

end Keywords

section Result

open Traced

variable (below : ∀ v : Value, v.weight ≤ Value.entryWeights es →
  (Node.classify g active v).Gives fun _ => True)

include below

theorem completes_membersOf (key : String) :
    (Node.membersOf g active es key).Gives fun members => ∀ m ∈ members, True :=
  gives_members fun _ found v mem => below v (Anchors.weight_le_of_listAt? found mem)

theorem completes_ofFields (facts : Facts) :
    (Node.ofFields g active es facts).Gives fun _ => True := by
  have properties := gives_properties fun _ found p mem =>
    below p.2 (Anchors.weight_le_of_objectAt? found mem)
  have additional := gives_additional fun v found => below v (Entries.weight_le_of_get? found)
  rw [Node.ofFields]
  exact properties.bind fun _ _ => additional.bind fun _ _ => gives_pure trivial

theorem completes_ofEntries : (Node.ofEntries g active es).Gives fun _ => True := by
  rw [Node.ofEntries]
  cases formOf g es with
  | array =>
      have items := gives_items fun v found => below v (Entries.weight_le_of_get? found)
      exact items.bind fun _ _ => gives_pure trivial
  | object => exact completes_ofFields below _
  | intersection =>
      exact (completes_ofFields below _).bind fun _ _ =>
        (completes_membersOf below _).bind fun _ _ => gives_pure trivial
  | composition c => exact (completes_membersOf below _).bind fun _ _ => gives_pure trivial
  | _ => exact gives_pure trivial

end Result

/-- **Every value has a node**, whatever contains itself. -/
theorem exists_classify (g : Anchors) (active : List Nat) (v : Value) :
    ∃ node, (Node.classify g active v).result = .ok node := by
  suffices given : (Node.classify g active v).Gives fun _ => True by
    obtain ⟨node, found, -⟩ := given
    exact ⟨node, found⟩
  induction active, v using classify_induct (g := g) with
  | entered active v inner es enters entries below =>
      rw [classify_of_enter? enters entries]
      exact completes_ofEntries below
  | cut active n es mem entries =>
      rw [classify_of_active mem entries]
      exact ⟨_, rfl, trivial⟩
  | no_object active v none =>
      rw [classify_of_no_object none]
      exact Traced.gives_pure trivial

/-- Recognising the shape of a schema never goes too deep. -/
theorem ends_classify (g : Anchors) (active : List Nat) (v : Value) :
    (Node.classify g active v).Ends := by
  obtain ⟨node, found⟩ := exists_classify g active v
  exact Traced.ends_of_ok found

end SchemaCodegen
