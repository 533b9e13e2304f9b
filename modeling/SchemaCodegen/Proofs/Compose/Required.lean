import Mathlib
import SchemaCodegen.Proofs.Compose.Members
import SchemaCodegen.Proofs.TypeScript.Parts
import SchemaCodegen.Proofs.TypeScript.Strict
import SchemaCodegen.Proofs.Zod.Complete
import SchemaCodegen.Proofs.Zod.Written

/-!
# Required properties of joined schemas

Which properties of a schema with `allOf` are required is found in two ways.  Merging unites the
required names of all parts, while the translations keep the parts apart: each object asks its own
required names, and only for its own properties.

So a name that one part requires for a property of another part is required in the merged schema,
and optional in the translations.  What a part demands of its own properties is required in all of
them (`demands_bind_everywhere`).
-/

namespace SchemaCodegen

variable {g : Anchors} {active : List Nat} {d : Option Entries} {schema v m : Value}
  {es fs : Entries} {name : String} {node : Node}

/-! ### Parts of a joined schema -/

/-- The entries have a property of the name, and require it. -/
def Demands (g : Anchors) (es : Entries) (name : String) : Prop :=
  Entries.hasKey (propertiesIn g es) (.string name) = true ∧ name ∈ requiredNames g es

/-- The entries are those of a member, or those of the schema itself, where an object has them. -/
inductive ObjectPart (g : Anchors) (schema : Value) (fs : Entries) : Prop
  | own (entries : g.entries? schema = some fs)
  | member {m : Value} (is_member : IsMember g schema m) (entries : g.entries? m = some fs)
      (form : formOf g fs = .object)

/-- A schema that joins the members of `allOf`, which are all given in place. -/
structure JoinsInPlace (g : Anchors) (schema : Value) (es : Entries) : Prop where
  entries : g.entries? schema = some es
  form : formOf g es = .intersection ∨ formOf g es = .composition .allOf
  inPlace : ∀ m, IsMember g schema m → ∃ fs, g.entries? m = some fs
    ∧ Entries.string? fs "$ref" = none ∧ NoMembers g fs

/-! ### The node of a joined schema -/

/-- An object node has a property of the name, and requires it. -/
def Node.Demands (name : String) : Node → Prop
  | .object _ properties required _ => (∃ inner, (name, inner) ∈ properties) ∧ name ∈ required
  | _ => False

/-- The node of an object demands what its entries demand. -/
theorem demands_ofFields {facts : Facts}
    (found : (Node.ofFields g active es facts).result = .ok node) (demands : Demands g es name) :
    node.Demands name := by
  obtain ⟨has, required⟩ := demands
  rw [Node.ofFields] at found
  obtain ⟨properties, from_properties, found⟩ := Traced.result_bind_eq_ok.1 found
  obtain ⟨additional, -, found⟩ := Traced.result_bind_eq_ok.1 found
  cases found
  refine ⟨?_, required⟩
  unfold propertiesIn at has
  cases at_key : g.objectAt? es "properties" with
  | none => simp [at_key, Entries.hasKey] at has
  | some ps =>
      rw [at_key, Option.getD_some, Entries.hasKey_string] at has
      obtain ⟨value, at_name⟩ := Option.isSome_iff_exists.1 has
      rw [propertiesOf_of_objectAt? at_key] at from_properties
      obtain ⟨property, mem, here⟩ := exists_of_mem_left
        (Traced.result_mapM_eq_ok.1 from_properties) (Entries.mem_of_get? at_name)
      obtain ⟨inner, -, same⟩ := Traced.result_bind_eq_ok.1 here
      cases same
      exact ⟨inner, mem⟩

/-- A mere composition has no properties. -/
theorem objectAt?_of_composition {c : Combinator} (form : formOf g es = .composition c) :
    g.objectAt? es "properties" = none := by
  unfold formOf at form
  simp only [cond_eq_ite] at form
  repeat' split at form
  all_goals cases form
  next no_object _ _ _ _ =>
    rw [← Option.not_isSome_iff_eq_none]
    intro has
    simp [has] at no_object

/-- A joined schema that demands a property itself has properties beside its members. -/
theorem JoinsInPlace.intersection (joins : JoinsInPlace g schema es)
    (demands : Demands g es name) : formOf g es = .intersection := by
  obtain form | form := joins.form
  · exact form
  · have has := demands.1
    rw [propertiesIn, objectAt?_of_composition form] at has
    cases has

/-- The node of a joined schema joins the nodes of its members, and one of its own properties. -/
theorem JoinsInPlace.exists_nodes (joins : JoinsInPlace g schema es)
    (found : (Node.ofSchema g schema).result = .ok node) :
    ∃ inner facts nodes, node = .composition facts .allOf nodes
      ∧ (∀ n ∈ inner, schema = .aliasTo n)
      ∧ (∃ members, (Node.membersOf g inner es "allOf").result = .ok members
          ∧ ∀ n ∈ members, n ∈ nodes)
      ∧ (formOf g es = .intersection → ∃ facts own,
          (Node.ofFields g inner es facts).result = .ok own ∧ own ∈ nodes) := by
  have nothing_entered : ∀ n ∈ ([] : List Nat), schema ≠ .aliasTo n := nofun
  obtain ⟨inner, same, new⟩ := exists_classify_eq joins.entries nothing_entered
  have entered : ∀ n ∈ inner, schema = .aliasTo n := fun n mem => by simpa using new n mem
  rw [Node.ofSchema, same, Node.ofEntries] at found
  obtain form | form := joins.form
  · rw [form] at found
    obtain ⟨own, from_own, found⟩ := Traced.result_bind_eq_ok.1 found
    obtain ⟨members, from_members, found⟩ := Traced.result_bind_eq_ok.1 found
    cases found
    exact ⟨inner, _, _, rfl, entered,
      ⟨members, from_members, fun n mem => List.mem_append_left _ mem⟩,
      fun _ => ⟨_, own, from_own, List.mem_append_right _ List.mem_cons_self⟩⟩
  · rw [form] at found
    obtain ⟨members, from_members, found⟩ := Traced.result_bind_eq_ok.1 found
    cases found
    refine ⟨inner, _, _, rfl, entered, ⟨members, from_members, fun n mem => mem⟩, fun other => ?_⟩
    cases form.symm.trans other

/-- **The node keeps the parts apart.**  What an object among the parts demands is demanded by one
of the nodes that are joined. -/
theorem exists_demanding_node (joins : JoinsInPlace g schema es) (part : ObjectPart g schema fs)
    (demands : Demands g fs name) (found : (Node.ofSchema g schema).result = .ok node) :
    ∃ facts nodes, node = .composition facts .allOf nodes ∧ ∃ n ∈ nodes, n.Demands name := by
  obtain ⟨inner, facts, nodes, rfl, entered, ⟨members, from_members, joined⟩, own_joined⟩ :=
    joins.exists_nodes found
  refine ⟨facts, nodes, rfl, ?_⟩
  cases part with
  | own entries =>
      cases joins.entries.symm.trans entries
      obtain ⟨own_facts, own, from_own, mem⟩ := own_joined (joins.intersection demands)
      exact ⟨own, mem, demands_ofFields from_own demands⟩
  | @member m is_member entries form =>
      obtain ⟨es', values, entries', at_key, at_m⟩ := is_member
      cases joins.entries.symm.trans entries'
      rw [membersOf_of_listAt? at_key] at from_members
      obtain ⟨n, mem, from_m⟩ := exists_of_mem_left (Traced.result_mapM_eq_ok.1 from_members) at_m
      refine ⟨n, joined n mem, ?_⟩
      -- A member that is entered already would be the schema itself, which is no plain object.
      have new : ∀ k ∈ inner, m ≠ .aliasTo k := by
        rintro k at_k rfl
        cases (entered k at_k ▸ joins.entries).symm.trans entries
        obtain other | other := joins.form <;> cases form.symm.trans other
      obtain ⟨deeper, same, -⟩ := exists_classify_eq entries new
      rw [same, Node.ofEntries, form] at from_m
      exact demands_ofFields from_m demands

/-! ### Types -/

namespace TypeScript

variable {c : Context} {e : TypeExpr}

/-- The property stands in the object type without a question mark. -/
def TypeExpr.Mandates (name : String) : TypeExpr → Prop
  | .structure fields _ =>
    ∃ comment readOnly type, Field.mk comment readOnly name false type ∈ fields
  | .nullable inner => inner.Mandates name
  | _ => False

/-- The type is an intersection, a member of which mandates the property. -/
def TypeExpr.JoinsMandate (name : String) : TypeExpr → Prop
  | .intersection members => ∃ member ∈ members, member.Mandates name
  | .nullable inner => inner.JoinsMandate name
  | _ => False

/-- At each depth the text has the line of the property in a member, where it is not optional. -/
def TypeExpr.WritesMandate (name : String) (e : TypeExpr) : Prop :=
  ∃ member ∈ e.members, ∃ field ∈ member.fields, field.head = (name, false)
    ∧ ∀ depth, Text.HasLine (e.text depth) (field.line (depth + 1))

theorem exists_mem_fields_of_mandates : (e : TypeExpr) → e.Mandates name →
    ∃ field ∈ e.fields, field.head = (name, false)
  | .structure _ _, ⟨_, _, _, mem⟩ => ⟨_, mem, rfl⟩
  | .nullable inner, mandates => exists_mem_fields_of_mandates inner mandates

theorem exists_mem_members_of_joinsMandate : (e : TypeExpr) → e.JoinsMandate name →
    ∃ member ∈ e.members, member.Mandates name
  | .intersection _, joins => joins
  | .nullable inner, joins => exists_mem_members_of_joinsMandate inner joins

/-- What a member mandates is written. -/
theorem TypeExpr.JoinsMandate.writes (joins : e.JoinsMandate name) : e.WritesMandate name := by
  obtain ⟨member, mem, mandates⟩ := exists_mem_members_of_joinsMandate e joins
  obtain ⟨field, at_field, head⟩ := exists_mem_fields_of_mandates member mandates
  exact ⟨member, mem, field, at_field, head, fun depth =>
    hasLine_of_mem_members (hasLine_of_mem_fields depth member at_field) e mem⟩

theorem mandates_admitNull {facts : Facts} (mandates : e.Mandates name) :
    (admitNull facts e).Mandates name := by
  unfold admitNull
  split
  · exact mandates
  · exact mandates

theorem typesOf_eq_mapM (nodes : List Node) : typesOf c nodes = nodes.mapM (TypeExpr.ofNode c) := by
  induction nodes with
  | nil => rfl
  | cons node nodes ih => rw [typesOf, List.mapM_cons, ih]

/-- The fields are the properties in order, optional unless they are required. -/
theorem heads_fieldsOf {facts : Facts} {required : List String}
    {properties : List (String × Node)} {fields : List Field}
    (found : (fieldsOf c facts required properties).result = .ok fields) :
    fields.map Field.head = properties.map fun p => (p.1, !required.contains p.1) := by
  induction properties generalizing fields with
  | nil =>
      cases found
      rfl
  | cons property properties ih =>
      obtain ⟨other, node⟩ := property
      rw [fieldsOf] at found
      obtain ⟨type, -, found⟩ := Traced.result_bind_eq_ok.1 found
      obtain ⟨rest, from_rest, found⟩ := Traced.result_bind_eq_ok.1 found
      cases found
      rw [List.map_cons, List.map_cons, ih from_rest]
      rfl

theorem exists_field {facts : Facts} {required : List String} {properties : List (String × Node)}
    {fields : List Field} {inner : Node} (mem : (name, inner) ∈ properties)
    (found : (fieldsOf c facts required properties).result = .ok fields) :
    ∃ comment readOnly type,
      Field.mk comment readOnly name (!required.contains name) type ∈ fields := by
  have head : (name, !required.contains name) ∈ fields.map Field.head := by
    rw [heads_fieldsOf found]
    exact List.mem_map.2 ⟨_, mem, rfl⟩
  obtain ⟨⟨comment, readOnly, _, _, type⟩, at_field, same⟩ := List.mem_map.1 head
  cases same
  exact ⟨comment, readOnly, type, at_field⟩

/-- The type of an object mandates what its node demands. -/
theorem mandates_ofNode (demands : node.Demands name)
    (found : (TypeExpr.ofNode c node).result = .ok e) : e.Mandates name := by
  cases node with
  | object facts properties required additional =>
      obtain ⟨⟨inner, mem⟩, is_required⟩ := demands
      cases properties with
      | nil => cases mem
      | cons property properties =>
          rw [TypeExpr.ofNode] at found
          obtain ⟨fields, from_fields, found⟩ := Traced.result_bind_eq_ok.1 found
          obtain ⟨index, -, found⟩ := Traced.result_bind_eq_ok.1 found
          cases found
          refine mandates_admitNull ?_
          obtain ⟨comment, readOnly, type, at_field⟩ := exists_field mem from_fields
          rw [List.contains_iff_mem.2 is_required] at at_field
          exact ⟨comment, readOnly, type, at_field⟩
  | _ => cases demands

theorem joinsMandate_ofNode {facts : Facts} {nodes : List Node} (mem : node ∈ nodes)
    (demands : node.Demands name)
    (found : (TypeExpr.ofNode c (.composition facts .allOf nodes)).result = .ok e) :
    e.JoinsMandate name := by
  rw [TypeExpr.ofNode] at found
  obtain ⟨types, each, found⟩ := Traced.result_bind_eq_ok.1 found
  cases found
  rw [typesOf_eq_mapM] at each
  obtain ⟨type, at_type, here⟩ := exists_of_mem_left (Traced.result_mapM_eq_ok.1 each) mem
  have mandates := mandates_ofNode demands here
  unfold admitNull
  split
  · exact ⟨type, at_type, mandates⟩
  · exact ⟨type, at_type, mandates⟩

end TypeScript

/-! ### Validators -/

namespace Zod

variable {c : Context} {v : Validator}

/-- The property stands in the object validator, and is not optional. -/
def Validator.Mandates (name : String) : Validator → Prop
  | .object fields => ∃ validator, Field.mk name false validator ∈ fields
  | .call inner _ _ => inner.Mandates name
  | .catchall inner _ => inner.Mandates name
  | .nullable inner => inner.Mandates name
  | _ => False

/-- The validator is an intersection, a member of which mandates the property. -/
def Validator.JoinsMandate (name : String) : Validator → Prop
  | .intersection members => ∃ member ∈ members, member.Mandates name
  | .call inner _ _ => inner.JoinsMandate name
  | .nullable inner => inner.JoinsMandate name
  | _ => False

/-- At each depth the text has the line of the property in a member, where it is not optional. -/
def Validator.WritesMandate (name : String) (v : Validator) : Prop :=
  ∃ member ∈ v.members, ∃ field ∈ member.fields, field.head = (name, false)
    ∧ ∀ depth, Text.HasLine (v.text depth) (field.line (depth + 1))

theorem exists_mem_fields_of_mandates : (v : Validator) → v.Mandates name →
    ∃ field ∈ v.fields, field.head = (name, false)
  | .object _, ⟨_, mem⟩ => ⟨_, mem, rfl⟩
  | .call inner _ _, mandates => exists_mem_fields_of_mandates inner mandates
  | .catchall inner _, mandates => exists_mem_fields_of_mandates inner mandates
  | .nullable inner, mandates => exists_mem_fields_of_mandates inner mandates

theorem exists_mem_members_of_joinsMandate : (v : Validator) → v.JoinsMandate name →
    ∃ member ∈ v.members, member.Mandates name
  | .intersection _, joins => joins
  | .call inner _ _, joins => exists_mem_members_of_joinsMandate inner joins
  | .nullable inner, joins => exists_mem_members_of_joinsMandate inner joins

/-- What a member mandates is written. -/
theorem Validator.JoinsMandate.writes (joins : v.JoinsMandate name) : v.WritesMandate name := by
  obtain ⟨member, mem, mandates⟩ := exists_mem_members_of_joinsMandate v joins
  obtain ⟨field, at_field, head⟩ := exists_mem_fields_of_mandates member mandates
  exact ⟨member, mem, field, at_field, head, fun depth =>
    hasLine_of_mem_members (hasLine_of_mem_fields depth member at_field) v mem⟩

/-- A validator is finished by calls around it. -/
theorem finished_cases {P : Validator → Prop} (holds : P v)
    (call : ∀ inner method argument, P inner → P (.call inner method argument))
    (nullable : ∀ inner, P inner → P (.nullable inner)) (node : Node) :
    P (finished c node v) := by
  have said : P (described c node v) := by
    unfold described
    split
    · split
      · exact holds
      · exact call v _ _ holds
    · exact holds
  unfold finished admitNull
  split
  · exact nullable _ said
  · exact said

theorem validatorsOf_eq_mapM (nodes : List Node) :
    validatorsOf c nodes = nodes.mapM (Validator.ofNode c) := by
  induction nodes with
  | nil => rfl
  | cons node nodes ih => rw [validatorsOf, List.mapM_cons, ih]

/-- The fields are the properties in order, optional unless they are required. -/
theorem heads_fieldsOf {required : List String} {properties : List (String × Node)}
    {fields : List Field} (found : (fieldsOf c required properties).result = .ok fields) :
    fields.map Field.head = properties.map fun p => (p.1, !required.contains p.1) := by
  induction properties generalizing fields with
  | nil =>
      cases found
      rfl
  | cons property properties ih =>
      obtain ⟨other, node⟩ := property
      rw [fieldsOf] at found
      obtain ⟨validator, -, found⟩ := Traced.result_bind_eq_ok.1 found
      obtain ⟨rest, from_rest, found⟩ := Traced.result_bind_eq_ok.1 found
      cases found
      rw [List.map_cons, List.map_cons, ih from_rest]
      rfl

theorem exists_field {required : List String} {properties : List (String × Node)}
    {fields : List Field} {inner : Node} (mem : (name, inner) ∈ properties)
    (found : (fieldsOf c required properties).result = .ok fields) :
    ∃ validator, Field.mk name (!required.contains name) validator ∈ fields := by
  have head : (name, !required.contains name) ∈ fields.map Field.head := by
    rw [heads_fieldsOf found]
    exact List.mem_map.2 ⟨_, mem, rfl⟩
  obtain ⟨⟨_, _, validator⟩, at_field, same⟩ := List.mem_map.1 head
  cases same
  exact ⟨validator, at_field⟩

/-- What is allowed besides the properties does not change what an object mandates. -/
theorem mandates_closedBy {object : Validator} {additional : Additional}
    (mandates : object.Mandates name)
    (found : (closedBy c object additional).result = .ok v) : v.Mandates name := by
  cases additional with
  | unstated =>
      cases found
      exact mandates
  | flag allowed =>
      cases allowed with
      | true =>
          cases found
          exact mandates
      | false =>
          cases found
          split
          · exact mandates
          · exact mandates
  | schema node =>
      rw [closedBy] at found
      obtain ⟨others, -, found⟩ := Traced.result_bind_eq_ok.1 found
      cases found
      split
      · exact mandates
      · exact mandates

/-- The validator of an object mandates what its node demands. -/
theorem mandates_ofNode (demands : node.Demands name)
    (found : (Validator.ofNode c node).result = .ok v) : v.Mandates name := by
  cases node with
  | object facts properties required additional =>
      obtain ⟨⟨inner, mem⟩, is_required⟩ := demands
      cases properties with
      | nil => cases mem
      | cons property properties =>
          rw [Validator.ofNode] at found
          obtain ⟨fields, from_fields, found⟩ := Traced.result_bind_eq_ok.1 found
          obtain ⟨closed, from_closed, found⟩ := Traced.result_bind_eq_ok.1 found
          cases found
          obtain ⟨validator, at_field⟩ := exists_field mem from_fields
          rw [List.contains_iff_mem.2 is_required] at at_field
          have object : (Validator.object fields).Mandates name := ⟨validator, at_field⟩
          exact finished_cases (mandates_closedBy object from_closed)
            (fun _ _ _ holds => holds) (fun _ holds => holds) _
  | _ => cases demands

theorem joinsMandate_ofNode {facts : Facts} {nodes : List Node} (mem : node ∈ nodes)
    (demands : node.Demands name)
    (found : (Validator.ofNode c (.composition facts .allOf nodes)).result = .ok v) :
    v.JoinsMandate name := by
  rw [Validator.ofNode] at found
  obtain ⟨validators, each, found⟩ := Traced.result_bind_eq_ok.1 found
  cases found
  rw [validatorsOf_eq_mapM] at each
  obtain ⟨validator, at_validator, here⟩ :=
    exists_of_mem_left (Traced.result_mapM_eq_ok.1 each) mem
  have joined : (Validator.intersection validators).JoinsMandate name :=
    ⟨validator, at_validator, mandates_ofNode demands here⟩
  exact finished_cases joined (fun _ _ _ holds => holds) (fun _ holds => holds) _

end Zod

/-! ### Merging -/

/-- A schema that joins members has a list of them. -/
theorem JoinsInPlace.exists_listAt? (joins : JoinsInPlace g schema es) :
    ∃ members, g.listAt? es "allOf" = some members := by
  rw [← Option.isSome_iff_exists]
  obtain form | form := joins.form
  · unfold formOf at form
    simp only [cond_eq_ite] at form
    repeat' split at form
    all_goals cases form
    next joined => exact (Bool.and_eq_true_iff.1 joined).2
  · unfold formOf at form
    simp only [cond_eq_ite] at form
    repeat' split at form
    all_goals cases form
    next joined =>
      have has := List.find?_some joined
      exact has

/-- A member that is given in place is merged as it is. -/
theorem memberPart_of_entries {fresh : List String} {inner : List Nat}
    (entries : g.entries? m = some fs) (plain : Entries.string? fs "$ref" = none)
    (none : NoMembers g fs) : memberPart g d fresh inner m = pure (some fs) := by
  have no_reference : reference? g m = .none := by
    rw [reference?, entries]
    exact plain
  have object : g.isObject m = true := by
    rw [Anchors.isObject, entries]
    rfl
  rw [memberPart, no_reference]
  dsimp only
  rw [if_pos object, collapse_of_noMembers entries none]
  rfl

/-- Members that are given in place are merged, one after the other, with the schema itself. -/
theorem JoinsInPlace.exists_merged (joins : JoinsInPlace g schema es) (d : Option Entries) :
    ∃ parts : List Entries, (∀ fs, fs ∈ parts ↔ ∃ m, IsMember g schema m ∧ g.entries? m = some fs)
      ∧ (mergeAllOf g schema d).result
        = .ok (joinOwn g (parts.foldl (mergeSchemas g) []) es) := by
  obtain ⟨members, at_key⟩ := joins.exists_listAt?
  obtain ⟨inner, entered⟩ := exists_enter?_of_new joins.entries (List.forall_mem_nil _)
  have each : ∀ m ∈ members, ∃ fs, g.entries? m = some fs
      ∧ ∀ fresh, memberPart g d fresh inner m = pure (some fs) := by
    intro m mem
    obtain ⟨fs, entries, plain, none⟩ := joins.inPlace m ⟨es, members, joins.entries, at_key, mem⟩
    exact ⟨fs, entries, fun fresh => memberPart_of_entries entries plain none⟩
  obtain ⟨parts, aligned⟩ := exists_forall₂ each
  refine ⟨parts, fun fs => ⟨fun mem => ?_, ?_⟩, ?_⟩
  · obtain ⟨m, at_m, entries, -⟩ := exists_of_mem_left aligned.flip mem
    exact ⟨m, ⟨es, members, joins.entries, at_key, at_m⟩, entries⟩
  · rintro ⟨m, ⟨es', members', entries', at_key', at_m⟩, entries⟩
    cases joins.entries.symm.trans entries'
    cases at_key.symm.trans at_key'
    obtain ⟨fs', mem, same, -⟩ := exists_of_mem_left aligned at_m
    cases entries.symm.trans same
    exact mem
  · rw [mergeAllOf, collapse_of_listAt? joins.entries at_key entered]
    refine Traced.result_bind_eq_ok.2 ⟨parts.map some, Traced.result_mapM_eq_ok.2 ?_, ?_⟩
    · rw [List.forall₂_map_right_iff]
      exact aligned.imp fun _ _ both => by rw [both.2]; rfl
    · rw [List.filterMap_map]
      simp

/-- What one of the parts says, the merged schema says. -/
theorem JoinsInPlace.said_by_merged {Q : Entries → Prop} (joins : JoinsInPlace g schema es)
    (keyed : KeyedOnce g [schema]) (unites : Unites g Q) (part : ObjectPart g schema fs)
    (said : Q fs) {merged : Entries} (found : (mergeAllOf g schema d).result = .ok merged) :
    Q merged := by
  obtain ⟨parts, mem_parts, same⟩ := joins.exists_merged d
  cases found.symm.trans same
  have within : Within g [schema] schema := .of_mem List.mem_cons_self
  rw [unites.joinOwn (keyed schema within es joins.entries)]
  cases part with
  | own entries =>
      cases joins.entries.symm.trans entries
      exact .inr said
  | @member m is_member entries form =>
      refine .inl ((unites.foldl fun part mem => ?_).2
        (.inr ⟨fs, (mem_parts fs).2 ⟨m, is_member, entries⟩, said⟩))
      obtain ⟨m', is_member', entries'⟩ := (mem_parts part).1 mem
      exact keyed m' (within.inside is_member'.inside.to_reflTransGen) part entries'

/-! ### All translations -/

/-- **Required everywhere.**  What an object among the parts of a schema demands of its own
properties, the merged schema demands; and its property is not optional in a member of the type,
nor in a member of the validator, and is so written.  Of a JSON schema there are both, without
strict references and with numbers that can be written. -/
theorem demands_bind_everywhere (joins : JoinsInPlace g schema es) (keyed : KeyedOnce g [schema])
    (part : ObjectPart g schema fs) (demands : Demands g fs name) :
    (∀ d, ∃ merged, (mergeAllOf g schema d).result = .ok merged ∧ Demands g merged name)
      ∧ (∀ c : TypeScript.Context, c.anchors = g → ∀ e,
          (TypeScript.typeOf c schema).result = .ok e →
            e.JoinsMandate name ∧ e.WritesMandate name)
      ∧ (∀ c : Zod.Context, c.anchors = g → ∀ v,
          (Zod.validatorOf c schema).result = .ok v →
            v.JoinsMandate name ∧ v.WritesMandate name)
      ∧ (schema.isJson = true → ∀ d options, ∃ e,
          (TypeScript.typeOf ⟨g, d, options, false⟩ schema).result = .ok e)
      ∧ ∀ c : Zod.Context, c.anchors = g → c.strictReferences = false → Zod.Writable c schema →
          ∃ v, (Zod.validatorOf c schema).result = .ok v := by
  refine ⟨fun d => ?_, ?_, ?_, fun json d options => TypeScript.exists_typeOf g d options json,
    fun c _ lenient writable => Zod.exists_validatorOf lenient writable⟩
  · obtain ⟨parts, -, found⟩ := joins.exists_merged d
    exact ⟨_, found,
      joins.said_by_merged keyed (unites_hasProperty (.string name)) part demands.1 found,
      joins.said_by_merged keyed (unites_requires name) part demands.2 found⟩
  · rintro c rfl e typed
    obtain ⟨node, found, typed⟩ := Traced.result_bind_eq_ok.1 typed
    obtain ⟨facts, nodes, rfl, n, mem, n_demands⟩ := exists_demanding_node joins part demands found
    have joins := TypeScript.joinsMandate_ofNode mem n_demands typed
    exact ⟨joins, joins.writes⟩
  · rintro c rfl v validated
    obtain ⟨node, found, validated⟩ := Traced.result_bind_eq_ok.1 validated
    obtain ⟨facts, nodes, rfl, n, mem, n_demands⟩ := exists_demanding_node joins part demands found
    have joins := Zod.joinsMandate_ofNode mem n_demands validated
    exact ⟨joins, joins.writes⟩

/-- Something with a name, which it requires. -/
def namedEntries : Entries := [(.string "properties",
    .object [(.string "name", .object [(.string "type", .string "string")])]),
  (.string "required", .list [.string "name"])]

/-- Something with a name and an age. -/
def agedEntries : Entries := [(.string "allOf", .list [.object namedEntries]),
  (.string "properties", .object [(.string "age", .object [(.string "type", .string "integer")])])]

theorem joinsInPlace_aged : JoinsInPlace {} (.object agedEntries) agedEntries where
  entries := rfl
  form := .inl rfl
  inPlace := by
    rintro m ⟨es, members, entries, at_key, mem⟩
    cases entries
    cases at_key
    cases List.mem_singleton.1 mem
    exact ⟨_, rfl, rfl, rfl⟩

theorem demands_bind_everywhere_aged :
    JoinsInPlace {} (.object agedEntries) agedEntries
      ∧ KeyedOnce {} [.object agedEntries]
      ∧ ObjectPart {} (.object agedEntries) namedEntries
      ∧ Demands {} namedEntries "name"
      ∧ (∀ d, ∃ merged, (mergeAllOf {} (.object agedEntries) d).result = .ok merged
          ∧ Demands {} merged "name")
      ∧ (∀ c : TypeScript.Context, c.anchors = {} → ∀ e,
          (TypeScript.typeOf c (.object agedEntries)).result = .ok e →
            e.JoinsMandate "name" ∧ e.WritesMandate "name")
      ∧ (∀ c : Zod.Context, c.anchors = {} → ∀ v,
          (Zod.validatorOf c (.object agedEntries)).result = .ok v →
            v.JoinsMandate "name" ∧ v.WritesMandate "name")
      ∧ ((Value.object agedEntries).isJson = true → ∀ d options, ∃ e,
          (TypeScript.typeOf ⟨{}, d, options, false⟩ (.object agedEntries)).result = .ok e)
      ∧ ∀ c : Zod.Context, c.anchors = {} → c.strictReferences = false →
          Zod.Writable c (.object agedEntries) →
          ∃ v, (Zod.validatorOf c (.object agedEntries)).result = .ok v := by
  have keyed : KeyedOnce {} [.object agedEntries] := forall_within (by decide) (by decide)
  have part : ObjectPart {} (.object agedEntries) namedEntries :=
    .member ⟨agedEntries, _, rfl, rfl, List.mem_cons_self⟩ rfl rfl
  have demands : Demands {} namedEntries "name" := ⟨rfl, by decide⟩
  exact ⟨joinsInPlace_aged, keyed, part, demands,
    demands_bind_everywhere joinsInPlace_aged keyed part demands⟩

/-- The property `a` is declared by the first member and required by the second one. -/
def splitEntries : Entries := [(.string "allOf", .list
  [.object [(.string "type", .string "object"), (.string "properties",
    .object [(.string "a", .object [(.string "type", .string "string")])])],
   .object [(.string "type", .string "object"), (.string "required", .list [.string "a"])]])]

theorem joinsInPlace_split : JoinsInPlace {} (.object splitEntries) splitEntries where
  entries := rfl
  form := .inr rfl
  inPlace := by
    rintro m ⟨es, members, entries, at_key, mem⟩
    cases entries
    cases at_key
    obtain rfl | mem := List.mem_cons.1 mem
    · exact ⟨_, rfl, rfl, rfl⟩
    · cases List.mem_singleton.1 mem
      exact ⟨_, rfl, rfl, rfl⟩

/-- The type of the joined members. -/
def splitType : TypeScript.TypeExpr := .intersection
  [.structure [.mk none false "a" true (.builtin "string")] none, .openRecord]

/-- The validator of the joined members. -/
def splitValidator : Zod.Validator := .intersection
  [.object [.mk "a" true (.base "z.string()")], .openRecord]

/-- What a part requires of the property of another part binds in the merged schema only. -/
theorem splitEntries_optional :
    JoinsInPlace {} (.object splitEntries) splitEntries
      ∧ (∃ merged, (mergeAllOf {} (.object splitEntries) none).result = .ok merged
          ∧ Demands {} merged "a")
      ∧ (TypeScript.typeOf ⟨{}, none, {}, false⟩ (.object splitEntries)).result = .ok splitType
      ∧ splitType.text 0 = "\x7b\n  a?: string;\n\x7d & Record<string, any>"
      ∧ ¬ splitType.JoinsMandate "a"
      ∧ (Zod.validatorOf ⟨{}, none, {}, false⟩ (.object splitEntries)).result = .ok splitValidator
      ∧ ¬ splitValidator.JoinsMandate "a" := by
  refine ⟨joinsInPlace_split, ⟨_, by cbv, by decide, by decide⟩, by cbv, by decide +kernel, ?_,
    by cbv, ?_⟩
  · simp [splitType, TypeScript.TypeExpr.JoinsMandate, TypeScript.TypeExpr.Mandates]
  · simp [splitValidator, Zod.Validator.JoinsMandate, Zod.Validator.Mandates]

end SchemaCodegen
