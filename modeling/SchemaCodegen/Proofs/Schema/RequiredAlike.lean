import Mathlib
import SchemaCodegen.Documentation.Markdown
import SchemaCodegen.Form.Fields
import SchemaCodegen.Proofs.Compose.Flattening
import SchemaCodegen.Proofs.Compose.Required
import SchemaCodegen.Proofs.Mock.Ending
import SchemaCodegen.Proofs.Mock.Yielding

/-!
# Required properties are the same everywhere

Which properties of an object are required is asked for by the type, the validator, the form, the
flattened leaves, the documentation and the sample data, each on its own way to the list under
`required`.  For an object that is no composition they all say what the list says
(`required_alike`), whatever stands under `required`: only its texts count, and only in a list.

### What is load-bearing

All ways end at `requiredNames` of the same entries: nothing is collapsed, as there is no `allOf`,
and nothing gives the sample before the shape does.  A leaf of the flattened schema says whether
its last property is required, so this is about the object itself only for leaves whose path is one
segment (`flattenWithin_leaves`).
-/

namespace SchemaCodegen

variable {g : Anchors} {schema v : Value} {es ps : Entries} {names : List String} {name : String}
  {node : Node}

/-! ### Plain objects -/

/-- The keywords that a plain object does without: they join schemas, or give values. -/
def absentKeywords : List String := ["allOf", "oneOf", "anyOf", "enum", "example", "examples"]

/-- An object schema with properties of the names, which joins no schemas and gives no values. -/
structure PlainObject (g : Anchors) (schema : Value) (es ps : Entries) (names : List String) :
    Prop where
  entries : g.entries? schema = some es
  form : formOf g es = .object
  properties : g.objectAt? es "properties" = some ps
  keys : Entries.keys ps = names.map Scalar.string
  plain : ∀ key ∈ absentKeywords, Entries.get? es key = none

/-- The name is a text in a list under `required`. -/
def Requires (g : Anchors) (es : Entries) (name : String) : Prop :=
  ∃ xs, g.listAt? es "required" = some xs ∧ .string name ∈ xs

/-- Names in order, each with whether it is optional: those that are not required are. -/
def MarksRequired (g : Anchors) (es : Entries) (names : List String)
    (marks : List (String × Bool)) : Prop :=
  List.Forall₂ (fun name mark => mark.1 = name ∧ (mark.2 = false ↔ Requires g es name)) names marks

theorem contains_requiredNames : (requiredNames g es).contains name = true ↔ Requires g es name :=
  List.contains_iff_mem.trans mem_requiredNames

theorem any_requiredNames :
    (requiredNames g es).any (Scalar.string · == Scalar.string name) = true
      ↔ Requires g es name := by
  rw [← contains_requiredNames, List.any_eq_true, List.contains_iff_mem]
  simp

/-- Marking by the required names. -/
theorem marksRequired_map :
    MarksRequired g es names
      (names.map fun name => (name, !(requiredNames g es).contains name)) := by
  refine List.forall₂_map_right_iff.2 (List.forall₂_same.2 fun name _ => ⟨rfl, ?_⟩)
  rw [Bool.not_eq_false', contains_requiredNames]

namespace PlainObject

variable (plain : PlainObject g schema es ps names)

include plain

theorem listAt?_eq_none {key : String} (absent : key ∈ absentKeywords) :
    g.listAt? es key = none := by
  rw [Anchors.listAt?, plain.plain key absent]
  rfl

theorem noMembers : NoMembers g es := plain.listAt?_eq_none (by decide)

theorem no_reference : Entries.string? es "$ref" = none := by
  cases refers : Entries.string? es "$ref" with
  | none => rfl
  | some ref => cases plain.form.symm.trans (formOf_of_reference refers)

theorem exists_name {p : Scalar × Value} (mem : p ∈ ps) : ∃ name ∈ names, p.1 = .string name := by
  have at_key : p.1 ∈ Entries.keys ps := List.mem_map_of_mem mem
  rw [plain.keys] at at_key
  obtain ⟨name, at_name, same⟩ := List.mem_map.1 at_key
  exact ⟨name, at_name, same.symm⟩

theorem reference?_eq : reference? g schema = none := by
  rw [reference?, plain.entries]
  exact plain.no_reference

/-- The node of a plain object has its properties in order, and its required names. -/
theorem exists_node (found : (Node.ofSchema g schema).result = .ok node) :
    ∃ facts properties additional,
      node = .object facts properties (requiredNames g es) additional
        ∧ properties.map (·.1) = names := by
  have nothing_entered : ∀ n ∈ ([] : List Nat), schema ≠ .aliasTo n := nofun
  obtain ⟨inner, same, -⟩ := exists_classify_eq plain.entries nothing_entered
  rw [Node.ofSchema, same, Node.ofEntries, plain.form] at found
  obtain ⟨properties, additional, from_properties, -, rfl⟩ := ofFields_eq_ok found
  refine ⟨_, properties, additional, rfl, ?_⟩
  have aligned := forall₂_propertiesOf from_properties
  rw [plain.properties, Option.getD_some] at aligned
  have shown : properties.map (·.1) = ps.map fun p => p.1.shown :=
    map_eq_of_forall₂ (List.forall₂_map_left_iff.2 (aligned.imp fun _ _ both => both.1))
  have keys : ps.map (fun p => p.1.shown) = (Entries.keys ps).map Scalar.shown := by
    rw [Entries.keys, List.map_map]
    rfl
  rw [shown, keys, plain.keys, List.map_map]
  exact List.map_id _

end PlainObject

/-! ### Types -/

namespace TypeScript

variable {c : Context} {e : TypeExpr}

theorem fields_admitNull (f : Facts) (e : TypeExpr) : (admitNull f e).fields = e.fields := by
  unfold admitNull
  split
  · rfl
  · rfl

/-- The type of an object has its properties in order, optional unless they are required. -/
theorem heads_ofNode {f : Facts} {properties : List (String × Node)} {required : List String}
    {additional : Additional}
    (found : (TypeExpr.ofNode c (.object f properties required additional)).result = .ok e) :
    e.fields.map Field.head = properties.map fun p => (p.1, !required.contains p.1) := by
  cases properties with
  | cons property properties =>
      rw [TypeExpr.ofNode] at found
      obtain ⟨fields, from_fields, found⟩ := Traced.result_bind_eq_ok.1 found
      obtain ⟨index, -, found⟩ := Traced.result_bind_eq_ok.1 found
      cases found
      rw [fields_admitNull]
      exact heads_fieldsOf from_fields
  | nil =>
      cases additional with
      | schema node =>
          rw [TypeExpr.ofNode] at found
          obtain ⟨values, -, found⟩ := Traced.result_bind_eq_ok.1 found
          cases found
          rw [fields_admitNull]
          split
          · rfl
          · rfl
      | _ =>
          cases found
          rw [fields_admitNull]
          rfl

end TypeScript

/-! ### Validators -/

namespace Zod

variable {c : Context}

theorem fields_finished (v : Validator) (node : Node) :
    (finished c node v).fields = v.fields :=
  finished_cases (P := fun w => w.fields = v.fields) rfl (fun _ _ _ same => same)
    (fun _ same => same) node

/-- What is allowed besides the properties does not change them. -/
theorem fields_closedBy {object closed : Validator} {additional : Additional}
    (found : (closedBy c object additional).result = .ok closed) :
    closed.fields = object.fields := by
  cases additional with
  | unstated =>
      cases found
      rfl
  | flag allowed =>
      cases allowed with
      | true =>
          cases found
          rfl
      | false =>
          cases found
          split
          · rfl
          · rfl
  | schema node =>
      rw [closedBy] at found
      obtain ⟨others, -, found⟩ := Traced.result_bind_eq_ok.1 found
      cases found
      split
      · rfl
      · rfl

/-- The validator of an object has its properties in order, optional unless they are required. -/
theorem heads_ofNode {f : Facts} {properties : List (String × Node)} {required : List String}
    {additional : Additional} {v : Validator}
    (found : (Validator.ofNode c (.object f properties required additional)).result = .ok v) :
    v.fields.map Field.head = properties.map fun p => (p.1, !required.contains p.1) := by
  cases properties with
  | cons property properties =>
      rw [Validator.ofNode] at found
      obtain ⟨fields, from_fields, found⟩ := Traced.result_bind_eq_ok.1 found
      obtain ⟨closed, from_closed, found⟩ := Traced.result_bind_eq_ok.1 found
      cases found
      rw [fields_finished, fields_closedBy from_closed]
      exact heads_fieldsOf from_fields
  | nil =>
      cases additional with
      | schema node =>
          rw [Validator.ofNode] at found
          obtain ⟨values, -, found⟩ := Traced.result_bind_eq_ok.1 found
          cases found
          rw [fields_finished]
          split
          · rfl
          · rfl
      | _ =>
          cases found
          rw [fields_finished]
          rfl

end Zod

/-! ### Forms -/

/-- A field says whether its property is required. -/
theorem of_fieldOf? {d : Option Entries} {options : FormOptions} {required : List String}
    {count : Nat} {p : (Scalar × Value) × Nat} {order : Int} {field : FormField}
    (found : (fieldOf? g d options required count p).result = .ok (some (order, field))) :
    p.1.1 = .string field.name ∧ field.required = required.contains field.name := by
  obtain ⟨⟨key, given⟩, index⟩ := p
  rw [fieldOf?] at found
  obtain ⟨target, -, found⟩ := Traced.result_bind_eq_ok.1 found
  dsimp only at found
  split at found
  · cases found
  · obtain ⟨hints, -, found⟩ := Traced.result_bind_eq_ok.1 found
    split at found
    · cases found
    · obtain ⟨node, -, found⟩ := Traced.result_bind_eq_ok.1 found
      split at found
      · cases found
        exact ⟨rfl, rfl⟩
      · cases found

theorem PlainObject.required_of_formFields (plain : PlainObject g schema es ps names)
    {options : FormOptions} {fields : List FormField}
    (found : (formFields g schema none options).result = .ok fields) :
    ∀ field ∈ fields, field.name ∈ names ∧ (field.required = true ↔ Requires g es field.name) := by
  have object : g.isObject schema = true := by
    rw [Anchors.isObject, plain.entries]
    rfl
  rw [formFields, followed, if_pos object, pure_bind] at found
  dsimp only at found
  rw [mergeAllOf, collapse_of_noMembers plain.entries plain.noMembers, pure_bind] at found
  rw [plain.properties] at found
  obtain ⟨parts, each, found⟩ := Traced.result_bind_eq_ok.1 found
  cases found
  intro field mem
  obtain ⟨⟨order, field⟩, in_parts, rfl⟩ := List.mem_map.1 mem
  rw [List.mem_mergeSort, List.mem_filterMap] at in_parts
  obtain ⟨part, at_part, same⟩ := in_parts
  obtain rfl : part = some (order, field) := same
  obtain ⟨p, at_p, from_p⟩ := Traced.exists_of_mem_mapM each at_part
  obtain ⟨key, required⟩ := of_fieldOf? from_p
  obtain ⟨name, at_name, same⟩ := plain.exists_name (List.fst_mem_of_mem_zipIdx at_p)
  cases key.symm.trans same
  exact ⟨at_name, required ▸ contains_requiredNames⟩

/-! ### Flattening -/

theorem of_mem_leafAt {segments : List String} {required : Bool} {leaf : FlatField}
    (mem : leaf ∈ leafAt segments required es) :
    leaf.segments = segments ∧ leaf.required = required := by
  unfold leafAt at mem
  split at mem
  · cases mem
  · rw [List.mem_singleton.1 mem]
    exact ⟨rfl, rfl⟩

/-- The leaves of a schema are behind its path, and one at its path is required as the schema
is. -/
theorem flattenWithin_leaves {d : Option Entries} {limit : Nat} {segments seen : List String}
    {required : Bool} {leaves : List FlatField}
    (found : (flattenWithin g d limit segments required seen v).result = .ok leaves) :
    ∀ leaf ∈ leaves, segments <+: leaf.segments
      ∧ (leaf.segments = segments → leaf.required = required) := by
  induction limit generalizing segments required seen v leaves with
  | zero => cases found
  | succ limit ih =>
      -- A leaf behind a longer path is not at this one.
      have behind {segment : String} {leaf : FlatField}
          (longer : segments ++ [segment] <+: leaf.segments) :
          segments <+: leaf.segments ∧ (leaf.segments = segments → leaf.required = required) := by
        refine ⟨(List.prefix_append _ _).trans longer, fun same => ?_⟩
        have := longer.length_le
        simp [same] at this
      have here {fs : Entries} : ∀ leaf ∈ leafAt segments required fs, segments <+: leaf.segments
          ∧ (leaf.segments = segments → leaf.required = required) := by
        intro leaf mem
        obtain ⟨same, marked⟩ := of_mem_leafAt mem
        exact ⟨same ▸ List.prefix_rfl, fun _ => marked⟩
      cases flattensTo_of_flattenWithin found with
      | leaf => exact here
      | properties expanded properties each =>
          intro leaf mem
          obtain ⟨part, at_part, at_leaf⟩ := List.mem_flatten.1 mem
          obtain ⟨p, -, from_p⟩ := exists_of_mem_left each.flip at_part
          exact behind (ih from_p leaf at_leaf).1
      | items _ _ _ _ _ _ below => exact fun leaf mem => behind (ih below leaf mem).1

theorem PlainObject.required_of_flattenSchema (plain : PlainObject g schema es ps names)
    {leaves : List FlatField} (found : (flattenSchema g schema none "").result = .ok leaves) :
    ∀ leaf ∈ leaves, ∀ name, leaf.segments = [name] →
      (leaf.required = true ↔ Requires g es name) := by
  have whole : opened g none schema = pure (some es) := by
    unfold opened
    rw [plain.entries]
    exact if_neg (by rw [plain.noMembers]; nofun)
  rw [flattenSchema, descentLimit, flattenWithin_succ, expandSchema_of_plain plain.reference?_eq,
    whole] at found
  change (flattenExpanded g none [] false schema 899 (some es, [])).result = _ at found
  rw [flattenExpanded_of_properties plain.properties] at found
  obtain ⟨parts, each, found⟩ := Traced.result_bind_eq_ok.1 found
  cases found
  intro leaf mem name alone
  obtain ⟨part, at_part, at_leaf⟩ := List.mem_flatten.1 mem
  obtain ⟨p, at_p, from_p⟩ := Traced.exists_of_mem_mapM each at_part
  obtain ⟨longer, marked⟩ := flattenWithin_leaves from_p leaf at_leaf
  obtain ⟨n, -, key⟩ := plain.exists_name at_p
  rw [key] at longer marked
  rw [alone] at longer marked
  have same : n = name := by simpa [Scalar.shown] using longer
  subst same
  rw [marked rfl, any_requiredNames]

/-! ### Documentation -/

/-- The row of a property answers whether it is required. -/
theorem of_propertyRow {u : Value} {row : String}
    (found : (Markdown.propertyRow g (requiredNames g es) (.string name, u)).result = .ok row) :
    ∃ type answer description, row = Markdown.row [Markdown.cell name, type, answer, description]
      ∧ (answer = "Yes" ↔ Requires g es name) ∧ (answer = "No" ↔ ¬ Requires g es name) := by
  rw [Markdown.propertyRow] at found
  obtain ⟨type, -, found⟩ := Traced.result_bind_eq_ok.1 found
  cases found
  refine ⟨_, _, _, rfl, ?_⟩
  rw [← any_requiredNames]
  split
  · next required => simp [required]
  · next optional => simp [optional]

theorem PlainObject.rows_of_sectionText (plain : PlainObject g schema es ps names) {title : Scalar}
    {text : String} (found : (Markdown.sectionText g title schema none).result = .ok text) :
    ∃ above rows, text = "\n".intercalate (above ++ Markdown.tableHead ++ rows)
      ∧ List.Forall₂ (fun name row => ∃ type answer description,
          row = Markdown.row [Markdown.cell name, type, answer, description]
            ∧ (answer = "Yes" ↔ Requires g es name) ∧ (answer = "No" ↔ ¬ Requires g es name))
        names rows := by
  have keywords : Markdown.sectionKeywords g schema none = pure es := by
    unfold Markdown.sectionKeywords
    rw [plain.entries]
    exact if_neg (by rw [plain.noMembers]; nofun)
  rw [Markdown.sectionText, keywords, pure_bind, plain.properties] at found
  obtain ⟨rows, each, found⟩ := Traced.result_bind_eq_ok.1 found
  cases found
  refine ⟨_, rows, rfl, ?_⟩
  have by_keys : List.Forall₂ (fun key row => ∀ name, key = Scalar.string name →
      ∃ type answer description, row = Markdown.row [Markdown.cell name, type, answer, description]
        ∧ (answer = "Yes" ↔ Requires g es name) ∧ (answer = "No" ↔ ¬ Requires g es name))
      (Entries.keys ps) rows := by
    refine List.forall₂_map_left_iff.2 ((Traced.result_mapM_eq_ok.1 each).imp ?_)
    rintro ⟨_, u⟩ row here name rfl
    exact of_propertyRow here
  rw [plain.keys] at by_keys
  exact (List.forall₂_map_left_iff.1 by_keys).imp fun name row answers => answers name rfl

/-! ### Samples -/

/-- Samples under the keys of a list. -/
theorem keys_of_mapM {run : Scalar × Value → Mock.Sampling Value} {entries : Entries}
    {source rest : Option Twister}
    (found : ((ps.mapM fun p => do pure (p.1, ← run p)).run source).result = .ok (entries, rest)) :
    Entries.keys entries = Entries.keys ps := by
  have under_key (p : Scalar × Value) :
      (do pure (p.1, ← run p) : Mock.Sampling (Scalar × Value)).Yields fun e => e.1 = p.1 :=
    Mock.Sampling.yields_bind fun v => Mock.Sampling.yields_pure rfl
  have aligned := Mock.Sampling.yields_mapM (fun p _ => under_key p) source entries rest found
  exact map_eq_of_forall₂ (List.forall₂_map_left_iff.2 aligned)

theorem PlainObject.bare {c : Mock.Context} (plain : PlainObject c.anchors schema es ps names) :
    Mock.Bare c es where
  plain := plain.no_reference
  no_example := by
    have no_example : Mock.exampleOf? c.anchors es = none := by
      rw [Mock.exampleOf?, plain.plain "example" (by decide)]
      dsimp only
      rw [plain.listAt?_eq_none (by decide)]
      rfl
    rw [no_example, ite_self]
  no_values := by rw [plain.listAt?_eq_none (by decide), Option.getD_none]

/-- A plain object is sampled by its properties. -/
theorem PlainObject.sampleWithin_eq {c : Mock.Context}
    (plain : PlainObject c.anchors schema es ps names) (shallow : 0 < c.options.maxDepth)
    (limit : Nat) : Mock.sampleWithin c (limit + 1) [] 0 schema
      = Mock.sampleShape c [] 0 schema es limit :=
  Mock.sampleWithin_of_unjoined plain.entries shallow plain.bare fun combinator _ =>
    plain.listAt?_eq_none (by cases combinator <;> decide)

/-- A sample without optional properties has the keys of the required ones, in order. -/
theorem PlainObject.keys_of_sample {c : Mock.Context}
    (plain : PlainObject c.anchors schema es ps names)
    (demanded : c.options.includeOptional = false) (shallow : 0 < c.options.maxDepth)
    (found : (Mock.sample c schema).result = .ok v) :
    ∃ entries, v = .object entries ∧ ∀ name, .string name ∈ Entries.keys entries
      ↔ name ∈ names ∧ Requires c.anchors es name := by
  obtain ⟨⟨v, rest⟩, ran, found⟩ := Traced.result_bind_eq_ok.1 found
  cases found
  rw [Mock.descentLimit, plain.sampleWithin_eq shallow, Mock.sampleShape, StateT.run_bind] at ran
  obtain ⟨⟨node, behind⟩, lifted, ran⟩ := Traced.result_bind_eq_ok.1 ran
  obtain ⟨node, from_schema, lifted⟩ := Traced.result_bind_eq_ok.1 lifted
  cases lifted
  obtain ⟨facts, properties, additional, rfl, -⟩ := plain.exists_node from_schema
  dsimp only [Node.kind] at ran
  rw [Mock.sampleFields, plain.properties] at ran
  dsimp only at ran
  rw [StateT.run_bind] at ran
  obtain ⟨⟨entries, behind⟩, sampled, ran⟩ := Traced.result_bind_eq_ok.1 ran
  cases ran
  refine ⟨entries, rfl, fun name => ?_⟩
  rw [keys_of_mapM sampled, Entries.keys, List.mem_map]
  constructor
  · rintro ⟨p, mem, key⟩
    obtain ⟨at_p, wanted⟩ := List.mem_filter.1 mem
    obtain ⟨n, at_n, same⟩ := plain.exists_name at_p
    cases same.symm.trans key
    rw [demanded, Bool.false_or, key] at wanted
    exact ⟨at_n, any_requiredNames.1 wanted⟩
  · rintro ⟨at_name, required⟩
    have at_key : Scalar.string name ∈ Entries.keys ps :=
      plain.keys ▸ List.mem_map_of_mem at_name
    obtain ⟨p, at_p, key⟩ := List.mem_map.1 at_key
    refine ⟨p, List.mem_filter.2 ⟨at_p, ?_⟩, key⟩
    rw [demanded, Bool.false_or, key]
    exact any_requiredNames.2 required

/-! ### All of them -/

theorem PlainObject.heads_of_typeOf {c : TypeScript.Context} {e : TypeScript.TypeExpr}
    (plain : PlainObject c.anchors schema es ps names)
    (found : (TypeScript.typeOf c schema).result = .ok e) :
    e.fields.map TypeScript.Field.head
      = names.map fun name => (name, !(requiredNames c.anchors es).contains name) := by
  obtain ⟨node, classified, found⟩ := Traced.result_bind_eq_ok.1 found
  obtain ⟨facts, properties, additional, rfl, rfl⟩ := plain.exists_node classified
  rw [TypeScript.heads_ofNode found, List.map_map]
  rfl

theorem PlainObject.heads_of_validatorOf {c : Zod.Context} {v : Zod.Validator}
    (plain : PlainObject c.anchors schema es ps names)
    (found : (Zod.validatorOf c schema).result = .ok v) :
    v.fields.map Zod.Field.head
      = names.map fun name => (name, !(requiredNames c.anchors es).contains name) := by
  obtain ⟨node, classified, found⟩ := Traced.result_bind_eq_ok.1 found
  obtain ⟨facts, properties, additional, rfl, rfl⟩ := plain.exists_node classified
  rw [Zod.heads_ofNode found, List.map_map]
  rfl

/-- The type, the validator, the form, the flattened leaves, the documentation and the sample
without optional properties of an object, each read for the properties that it takes as required.
The texts of the type and of the validator have a line for each property, with the mark of optional
ones where they take it as such.  A form may leave properties out, and a property that has leaves of
its own is none. -/
structure RequiredAlike (g : Anchors) (schema : Value) (es : Entries) (names : List String) :
    Prop where
  types : ∀ c : TypeScript.Context, c.anchors = g → ∀ e,
    (TypeScript.typeOf c schema).result = .ok e →
      MarksRequired g es names (e.fields.map TypeScript.Field.head)
        ∧ ∀ field ∈ e.fields, ∀ depth, Text.HasLine (e.text depth) (field.line (depth + 1))
  validators : ∀ c : Zod.Context, c.anchors = g → ∀ v, (Zod.validatorOf c schema).result = .ok v →
    MarksRequired g es names (v.fields.map Zod.Field.head)
      ∧ ∀ field ∈ v.fields, ∀ depth, Text.HasLine (v.text depth) (field.line (depth + 1))
  same_order : ∀ c : TypeScript.Context, c.anchors = g → ∀ e,
    (TypeScript.typeOf c schema).result = .ok e →
      ∀ c' : Zod.Context, c'.anchors = g → ∀ v, (Zod.validatorOf c' schema).result = .ok v →
        e.fields.map TypeScript.Field.head = v.fields.map Zod.Field.head
  forms : ∀ options fields, (formFields g schema none options).result = .ok fields →
    ∀ field ∈ fields, field.name ∈ names ∧ (field.required = true ↔ Requires g es field.name)
  leaves : ∀ leaves, (flattenSchema g schema none "").result = .ok leaves →
    ∀ leaf ∈ leaves, ∀ name, leaf.segments = [name] →
      (leaf.required = true ↔ Requires g es name)
  rows : ∀ title text, (Markdown.sectionText g title schema none).result = .ok text →
    ∃ above rows, text = "\n".intercalate (above ++ Markdown.tableHead ++ rows)
      ∧ List.Forall₂ (fun name row => ∃ type answer description,
          row = Markdown.row [Markdown.cell name, type, answer, description]
            ∧ (answer = "Yes" ↔ Requires g es name) ∧ (answer = "No" ↔ ¬ Requires g es name))
        names rows
  samples : ∀ c : Mock.Context, c.anchors = g → c.options.includeOptional = false →
    0 < c.options.maxDepth → ∀ v, (Mock.sample c schema).result = .ok v →
      ∃ entries, v = .object entries ∧ ∀ name, .string name ∈ Entries.keys entries
        ↔ name ∈ names ∧ Requires g es name

/-- **Required alike.**  All that is made of a plain object agrees which properties are required:
those whose name is a text in a list under `required`.  The type and the validator list the same
properties, in their order, and write a line for each. -/
theorem required_alike (plain : PlainObject g schema es ps names) :
    RequiredAlike g schema es names where
  types := by
    rintro c rfl e found
    rw [plain.heads_of_typeOf found]
    exact ⟨marksRequired_map, fun field mem depth =>
      TypeScript.hasLine_of_mem_fields depth e mem⟩
  validators := by
    rintro c rfl v found
    rw [plain.heads_of_validatorOf found]
    exact ⟨marksRequired_map, fun field mem depth => Zod.hasLine_of_mem_fields depth v mem⟩
  same_order := by
    rintro c rfl e typed c' same v validated
    rw [plain.heads_of_typeOf typed, ← same]
    exact ((same ▸ plain).heads_of_validatorOf validated).symm
  forms _ _ := plain.required_of_formFields
  leaves _ := plain.required_of_flattenSchema
  rows _ _ := plain.rows_of_sectionText
  samples := by
    rintro c rfl demanded shallow v found
    exact plain.keys_of_sample demanded shallow found

/-- The properties of an account, with what a form shows. -/
def accountProperties : Entries := [
  (.string "id", .object [(.string "type", .string "integer"), (.string "title", .string "Number"),
    (.string "x-ui-component", .string "number")]),
  (.string "name", .object [(.string "type", .string "string"), (.string "title", .string "Name"),
    (.string "x-ui-component", .string "text")])]

/-- An account, which requires its number and things that are no properties of it. -/
def accountEntries : Entries := [
  (.string "type", .string "object"), (.string "properties", .object accountProperties),
  (.string "required", .list [.string "id", .int 5, .string "owner"])]

theorem plainObject_account :
    PlainObject {} (.object accountEntries) accountEntries accountProperties ["id", "name"] where
  entries := rfl
  form := by cbv
  properties := rfl
  keys := rfl
  plain := by decide

theorem required_alike_account :
    PlainObject {} (.object accountEntries) accountEntries accountProperties ["id", "name"]
      ∧ Requires {} accountEntries "id" ∧ ¬ Requires {} accountEntries "name"
      ∧ (∃ e, (TypeScript.typeOf ⟨{}, none, {}, false⟩ (.object accountEntries)).result = .ok e)
      ∧ (∃ v, (Zod.validatorOf ⟨{}, none, {}, false⟩ (.object accountEntries)).result = .ok v)
      ∧ (∃ fields, (formFields {} (.object accountEntries) none {}).result = .ok fields)
      ∧ (∃ leaves, (flattenSchema {} (.object accountEntries) none "").result = .ok leaves)
      ∧ (∃ text, (Markdown.sectionText {} (.string "Account") (.object accountEntries) none).result
        = .ok text)
      ∧ (∃ v, (Mock.sample ⟨{}, none, { includeOptional := false }⟩
        (.object accountEntries)).result = .ok v)
      ∧ RequiredAlike {} (.object accountEntries) accountEntries ["id", "name"] := by
  refine ⟨plainObject_account, ⟨_, rfl, by simp⟩, ?_, ⟨_, by cbv⟩, ⟨_, by cbv⟩, ⟨_, by cbv⟩,
    ⟨_, by cbv⟩, ⟨_, by cbv⟩, ⟨_, by cbv⟩, required_alike plainObject_account⟩
  rintro ⟨xs, at_key, mem⟩
  cases at_key
  simp at mem

end SchemaCodegen
