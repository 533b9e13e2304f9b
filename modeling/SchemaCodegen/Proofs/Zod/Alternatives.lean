import Mathlib
import SchemaCodegen.Proofs.Compose.Required
import SchemaCodegen.Proofs.Zod.Written

/-!
# The alternatives of a union

A union offers a schema when one of its alternatives is the identifier of the schema, whatever
stands behind that.  The type of `oneOf` or `anyOf` has an alternative for each member of the list,
so it offers every known schema that the list refers to.

The validator has its alternatives from the list too, unless a discriminator maps values to schemas
that are all known (`Context.mappedNames?`): then the mapped schemas are the alternatives, one for
each value, and the list is not looked at (`alternatives_ofNode`).  A schema that the list refers to
and the mapping leaves out is an alternative of the type only (`validator_omits_dog`).
-/

namespace SchemaCodegen

variable {g : Anchors} {active : List Nat} {d : Option Entries} {schema m : Value}
  {es fs : Entries} {name ref : String} {k : Combinator} {members : List Value} {f : Facts}
  {nodes : List Node} {node : Node}

/-! ### Members that refer to a schema -/

/-- A member of the list refers to the schema of the name, which is known. -/
def ListsSchema (g : Anchors) (d : Option Entries) (members : List Value) (name : String) : Prop :=
  ∃ m ∈ members, ∃ ref, reference? g m = some ref ∧ TypeScript.knownName? d ref = some name

/-- A union has a node for each member of its list, and references are leaves. -/
theorem exists_reference_node (entries : g.entries? schema = some es)
    (form : formOf g es = .composition k) (found : (Node.ofSchema g schema).result = .ok node) :
    ∃ nodes, node = .composition (factsOf g es) k nodes
      ∧ ∀ members, g.listAt? es k.keyword = some members → ∀ m ∈ members, ∀ ref,
          reference? g m = some ref → ∃ f, Node.reference f ref ∈ nodes := by
  have nothing_entered : ∀ n ∈ ([] : List Nat), schema ≠ .aliasTo n := nofun
  obtain ⟨inner, same, new⟩ := exists_classify_eq entries nothing_entered
  rw [Node.ofSchema, same, Node.ofEntries, form] at found
  obtain ⟨nodes, from_members, found⟩ := Traced.result_bind_eq_ok.1 found
  cases found
  refine ⟨nodes, rfl, fun members listed m mem ref refers => ?_⟩
  rw [membersOf_of_listAt? listed] at from_members
  obtain ⟨n, at_n, from_m⟩ := exists_of_mem_left (Traced.result_mapM_eq_ok.1 from_members) mem
  obtain ⟨fs, m_entries, at_ref⟩ := reference?_eq_some.1 refers
  have m_form : formOf g fs = .reference ref := formOf_of_reference at_ref
  -- A member that is entered already would be the union itself, which is no reference.
  have m_new : ∀ n ∈ inner, m ≠ .aliasTo n := by
    rintro n at_inner rfl
    obtain old | itself := new n at_inner
    · cases old
    · cases (itself ▸ entries).symm.trans m_entries
      cases form.symm.trans m_form
  obtain ⟨deeper, m_same, -⟩ := exists_classify_eq m_entries m_new
  rw [m_same, Node.ofEntries, m_form] at from_m
  cases from_m
  exact ⟨_, at_n⟩

/-! ### Types -/

namespace TypeScript

variable {c : Context} {e : TypeExpr}

/-- The schema whose identifier a type begins with. -/
def TypeExpr.schema? : TypeExpr → Option String
  | .named schema => some schema
  | .nullable inner => inner.schema?
  | _ => none

/-- The alternatives of a union, which may admit `null` besides. -/
def TypeExpr.alternatives : TypeExpr → List TypeExpr
  | .union members => members
  | .nullable inner => inner.alternatives
  | _ => []

/-- One of the alternatives is the schema of the name. -/
def TypeExpr.Offers (name : String) (e : TypeExpr) : Prop :=
  ∃ a ∈ e.alternatives, a.schema? = some name

/-- One of the alternatives is written as the identifier of the schema, with what may stand behind
it, and stands in the text as it is written. -/
def TypeExpr.WritesAlternative (name : String) (e : TypeExpr) : Prop :=
  ∃ a ∈ e.alternatives, ∃ more, ∀ depth, a.text depth = typeName name ++ more
    ∧ (a.text depth).toList <:+: (e.text depth).toList

theorem exists_text_of_schema? : (e : TypeExpr) → e.schema? = some name →
    ∃ more, ∀ depth, e.text depth = typeName name ++ more
  | .named _, named => by
      obtain rfl := Option.some.inj named
      exact ⟨"", fun _ => String.append_empty.symm⟩
  | .nullable inner, named => by
      obtain ⟨more, same⟩ := exists_text_of_schema? inner named
      obtain alone | added := withNull_eq (typeName name ++ more)
      · exact ⟨more, fun depth => by rw [text_nullable, same, alone]⟩
      · refine ⟨more ++ " | null", fun depth => ?_⟩
        rw [text_nullable, same, added, String.append_assoc]

theorem infix_text_of_mem_alternatives {a : TypeExpr} (depth : Nat) : (e : TypeExpr) →
    a ∈ e.alternatives → (a.text depth).toList <:+: (e.text depth).toList
  | .union _, mem => infix_joined mem
  | .nullable inner, mem =>
      (infix_text_of_mem_alternatives depth inner mem).trans (prefix_withNull _).isInfix

/-- What a type offers, it writes. -/
theorem TypeExpr.Offers.writes (offers : e.Offers name) : e.WritesAlternative name := by
  obtain ⟨a, mem, schema⟩ := offers
  obtain ⟨more, same⟩ := exists_text_of_schema? a schema
  exact ⟨a, mem, more, fun depth => ⟨same depth, infix_text_of_mem_alternatives depth e mem⟩⟩

theorem schema?_admitNull (f : Facts) (e : TypeExpr) : (admitNull f e).schema? = e.schema? := by
  unfold admitNull
  split
  · rfl
  · rfl

theorem alternatives_admitNull (f : Facts) (e : TypeExpr) :
    (admitNull f e).alternatives = e.alternatives := by
  unfold admitNull
  split
  · rfl
  · rfl

/-- The type of a reference to a known schema is its identifier. -/
theorem schema?_of_reference (known : knownName? c.dictionary ref = some name)
    (found : (TypeExpr.ofNode c (.reference f ref)).result = .ok e) : e.schema? = some name := by
  rw [TypeExpr.ofNode, Context.reference, known] at found
  cases found
  rw [schema?_admitNull]
  rfl

/-- The alternatives of a type are the types of the members. -/
theorem alternatives_ofNode (choice : k ≠ .allOf)
    (found : (TypeExpr.ofNode c (.composition f k nodes)).result = .ok e) :
    (nodes.mapM (TypeExpr.ofNode c)).result = .ok e.alternatives := by
  rw [← typesOf_eq_mapM]
  rw [TypeExpr.ofNode] at found
  · obtain ⟨types, each, found⟩ := Traced.result_bind_eq_ok.1 found
    cases found
    rw [alternatives_admitNull]
    exact each
  · exact choice

end TypeScript

/-! ### Validators -/

namespace Zod

variable {c : Context} {v : Validator} {property : String} {mapping : Entries}

/-- The schema whose identifier a validator begins with. -/
def Validator.schema? : Validator → Option String
  | .named schema => some schema
  | .tagged schema _ _ => some schema
  | .nullable inner => inner.schema?
  | _ => none

/-- The alternatives of a union, discriminated or not, with what is called on it. -/
def Validator.alternatives : Validator → List Validator
  | .union members => members
  | .discriminated _ members => members
  | .call inner _ _ => inner.alternatives
  | .nullable inner => inner.alternatives
  | _ => []

/-- One of the alternatives is the schema of the name. -/
def Validator.Offers (name : String) (v : Validator) : Prop :=
  ∃ a ∈ v.alternatives, a.schema? = some name

/-- One of the alternatives is written as the identifier of the schema, with what may stand behind
it, and stands in the text as it is written. -/
def Validator.WritesAlternative (name : String) (v : Validator) : Prop :=
  ∃ a ∈ v.alternatives, ∃ more, ∀ depth, a.text depth = validatorName name ++ more
    ∧ (a.text depth).toList <:+: (v.text depth).toList

theorem exists_text_of_schema? : (v : Validator) → v.schema? = some name →
    ∃ more, ∀ depth, v.text depth = validatorName name ++ more
  | .named _, named => by
      obtain rfl := Option.some.inj named
      exact ⟨"", fun _ => String.append_empty.symm⟩
  | .tagged _ field literal, named => by
      obtain rfl := Option.some.inj named
      refine ⟨".extend(\x7b " ++ propertyName field ++ ": " ++ literalCall literal ++ " \x7d)",
        fun depth => ?_⟩
      change _ ++ _ ++ _ ++ _ ++ _ ++ _ = _
      simp only [String.append_assoc]
  | .nullable inner, named => by
      obtain ⟨more, same⟩ := exists_text_of_schema? inner named
      simp only [text_nullable, same]
      unfold withNullable
      split
      · exact ⟨more, fun _ => rfl⟩
      · exact ⟨more ++ nullableCall, fun _ => String.append_assoc⟩

/-- An alternative that is written alike at all depths stands in the text. -/
theorem infix_text_of_mem_alternatives {a : Validator} {text : String}
    (same : ∀ depth, a.text depth = text) (depth : Nat) : (v : Validator) → a ∈ v.alternatives →
    text.toList <:+: (v.text depth).toList
  | .union _, mem => infix_unionText (same depth ▸ text_mem_memberTexts depth mem)
  | .discriminated _ _, mem =>
      infix_text_discriminated (same (depth + 1) ▸ text_mem_memberTexts (depth + 1) mem)
  | .call inner _ _, mem =>
      (infix_text_of_mem_alternatives same depth inner mem).trans (infix_text_call ..)
  | .nullable inner, mem =>
      (infix_text_of_mem_alternatives same depth inner mem).trans (infix_withNullable _)

/-- What a validator offers, it writes. -/
theorem Validator.Offers.writes (offers : v.Offers name) : v.WritesAlternative name := by
  obtain ⟨a, mem, schema⟩ := offers
  obtain ⟨more, same⟩ := exists_text_of_schema? a schema
  refine ⟨a, mem, more, fun depth => ⟨same depth, ?_⟩⟩
  rw [same depth]
  exact infix_text_of_mem_alternatives same depth v mem

/-- The known schema that a value of a mapping names. -/
def mappedName? (d : Option Entries) (target : Value) : Option String :=
  target.string?.bind fun ref => TypeScript.knownName? d (mappedReference ref)

/-- The schemas that the mapping of a discriminator names, one for each value.  Nothing without a
mapping, and when one of its values names no known schema. -/
def Context.mappedNames? (c : Context) (node : Node) : Option (List String) :=
  match discriminator? c.anchors node with
  | none => none
  | some (_, []) => none
  | some (_, mapping) => mapping.mapM fun e => mappedName? c.dictionary e.2

theorem mappedNames?_of_mapping (found : discriminator? c.anchors node = some (property, mapping))
    (stated : mapping ≠ []) :
    c.mappedNames? node = mapping.mapM fun e => mappedName? c.dictionary e.2 := by
  rw [Context.mappedNames?, found]
  cases mapping with
  | nil => exact absurd rfl stated
  | cons entry rest => rfl

theorem alternatives_finished (v : Validator) (node : Node) :
    (finished c node v).alternatives = v.alternatives :=
  finished_cases (P := fun w => w.alternatives = v.alternatives) rfl (fun _ _ _ same => same)
    (fun _ same => same) node

/-- The validator of a reference to a known schema is its identifier. -/
theorem schema?_of_reference (known : TypeScript.knownName? c.dictionary ref = some name)
    (found : (Validator.ofNode c (.reference f ref)).result = .ok v) : v.schema? = some name := by
  rw [Validator.ofNode, Context.name?, known] at found
  cases found
  unfold admitNull
  split
  · rfl
  · rfl

theorem name?_eq_ok {found : Option String} (named : (c.name? ref).result = .ok found) :
    found = TypeScript.knownName? c.dictionary ref := by
  unfold Context.name? at named
  split at named
  · next known =>
      cases named
      exact known.symm
  · next unknown =>
      split at named
      · cases named
      · cases named
        exact unknown.symm

/-- The members by a mapping are the schemas that it names, unless one of them is not known. -/
theorem schemas_of_taggedMembers {tagged : Option (List Validator)}
    (found : (taggedMembers c property mapping).result = .ok tagged) :
    tagged.map (List.map Validator.schema?)
      = (mapping.mapM fun e => mappedName? c.dictionary e.2).map (List.map some) := by
  induction mapping generalizing tagged with
  | nil =>
      cases found
      rfl
  | cons entry rest ih =>
      rw [List.mapM_cons]
      unfold taggedMembers at found
      split at found
      · next nothing => cases nothing
      · next key ref rest same =>
          cases same
          obtain ⟨name?, named, found⟩ := Traced.result_bind_eq_ok.1 found
          cases name?_eq_ok named
          rw [mappedName?, Value.string?, Option.bind_some]
          cases known : TypeScript.knownName? c.dictionary (mappedReference ref) with
          | none =>
              rw [known] at found
              cases found
              rfl
          | some name =>
              rw [known] at found
              obtain ⟨literal, -, found⟩ := Traced.result_bind_eq_ok.1 found
              obtain ⟨others, from_rest, found⟩ := Traced.result_bind_eq_ok.1 found
              cases found
              have later := ih from_rest
              cases names : rest.mapM fun e => mappedName? c.dictionary e.2 with
              | none =>
                  rw [names, Option.map_none, Option.map_eq_none_iff] at later
                  rw [later]
                  rfl
              | some names =>
                  rw [names, Option.map_some, Option.map_eq_some_iff] at later
                  obtain ⟨vs, rfl, same⟩ := later
                  exact congrArg (fun schemas => some (some name :: schemas)) same
      · next first _ no_text same =>
          cases same
          cases found
          have no_name : mappedName? c.dictionary entry.2 = none := by
            obtain ⟨key, target⟩ := entry
            cases target with
            | scalar s =>
                cases s with
                | string ref => exact absurd rfl (no_text key ref)
                | _ => rfl
            | _ => rfl
          rw [no_name]
          rfl

/-- The alternatives of a validator are the schemas that a mapping names, or the validators of the
members. -/
theorem alternatives_ofNode (choice : k ≠ .allOf)
    (found : (Validator.ofNode c (.composition f k nodes)).result = .ok v) :
    match c.mappedNames? (.composition f k []) with
    | some names => v.alternatives.map Validator.schema? = names.map some
    | none => (nodes.mapM (Validator.ofNode c)).result = .ok v.alternatives := by
  rw [← validatorsOf_eq_mapM]
  rw [Validator.ofNode] at found
  · split at found
    · next undiscriminated =>
        obtain ⟨vs, each, found⟩ := Traced.result_bind_eq_ok.1 found
        cases found
        rw [Context.mappedNames?, undiscriminated, alternatives_finished]
        exact each
    · next unmapped =>
        obtain ⟨vs, each, found⟩ := Traced.result_bind_eq_ok.1 found
        cases found
        rw [Context.mappedNames?, unmapped, alternatives_finished]
        dsimp only
        split
        · exact each
        · exact each
    · next property mapping stated mapped =>
        obtain ⟨tagged, from_mapping, found⟩ := Traced.result_bind_eq_ok.1 found
        have schemas := schemas_of_taggedMembers from_mapping
        rw [mappedNames?_of_mapping mapped stated]
        cases tagged with
        | some vs =>
            cases found
            obtain ⟨names, all_known, same⟩ := Option.map_eq_some_iff.1 schemas.symm
            rw [all_known, alternatives_finished]
            exact same.symm
        | none =>
            obtain ⟨vs, each, found⟩ := Traced.result_bind_eq_ok.1 found
            cases found
            rw [Option.map_eq_none_iff.1 schemas.symm, alternatives_finished]
            exact each
  · exact choice

end Zod

/-! ### Both unions -/

/-- **What a union offers.**  The type of `oneOf` or `anyOf` offers each known schema that the list
refers to.  The validator does too, unless the discriminator maps its values to schemas that are
all known; then the alternatives are these schemas, in the order of the mapping.  What is offered is
written by its identifier.  Of a JSON schema there are both, without strict references and with
numbers that can be written. -/
theorem unions_offer (entries : g.entries? schema = some es)
    (form : formOf g es = .composition k) (choice : k ≠ .allOf)
    (listed : g.listAt? es k.keyword = some members) :
    (∀ c : TypeScript.Context, c.anchors = g → ∀ e, (TypeScript.typeOf c schema).result = .ok e →
        ∀ name, ListsSchema g c.dictionary members name → e.Offers name ∧ e.WritesAlternative name)
      ∧ (∀ c : Zod.Context, c.anchors = g → ∀ v, (Zod.validatorOf c schema).result = .ok v →
          (c.mappedNames? (.composition (factsOf g es) k []) = none →
              ∀ name, ListsSchema g c.dictionary members name →
                v.Offers name ∧ v.WritesAlternative name)
            ∧ ∀ names, c.mappedNames? (.composition (factsOf g es) k []) = some names →
              v.alternatives.map Zod.Validator.schema? = names.map some
                ∧ ∀ name ∈ names, v.WritesAlternative name)
      ∧ (schema.isJson = true → ∀ d options, ∃ e,
          (TypeScript.typeOf ⟨g, d, options, false⟩ schema).result = .ok e)
      ∧ ∀ c : Zod.Context, c.anchors = g → c.strictReferences = false → Zod.Writable c schema →
          ∃ v, (Zod.validatorOf c schema).result = .ok v := by
  refine ⟨?_, ?_, fun json d options => TypeScript.exists_typeOf g d options json,
    fun c _ lenient writable => Zod.exists_validatorOf lenient writable⟩
  · rintro c rfl e typed name ⟨m, mem, ref, refers, known⟩
    obtain ⟨node, found, typed⟩ := Traced.result_bind_eq_ok.1 typed
    obtain ⟨nodes, rfl, leaves⟩ := exists_reference_node entries form found
    obtain ⟨f, at_leaf⟩ := leaves members listed m mem ref refers
    obtain ⟨a, at_a, from_leaf⟩ := exists_of_mem_left
      (Traced.result_mapM_eq_ok.1 (TypeScript.alternatives_ofNode choice typed)) at_leaf
    have offers : e.Offers name := ⟨a, at_a, TypeScript.schema?_of_reference known from_leaf⟩
    exact ⟨offers, offers.writes⟩
  · rintro c rfl v validated
    obtain ⟨node, found, validated⟩ := Traced.result_bind_eq_ok.1 validated
    obtain ⟨nodes, rfl, leaves⟩ := exists_reference_node entries form found
    have alternatives := Zod.alternatives_ofNode choice validated
    constructor
    · rintro unmapped name ⟨m, mem, ref, refers, known⟩
      rw [unmapped] at alternatives
      obtain ⟨f, at_leaf⟩ := leaves members listed m mem ref refers
      obtain ⟨a, at_a, from_leaf⟩ := exists_of_mem_left
        (Traced.result_mapM_eq_ok.1 alternatives) at_leaf
      have offers : v.Offers name := ⟨a, at_a, Zod.schema?_of_reference known from_leaf⟩
      exact ⟨offers, offers.writes⟩
    · intro names mapped
      rw [mapped] at alternatives
      refine ⟨alternatives, fun name mem => Zod.Validator.Offers.writes (List.mem_map.1 ?_)⟩
      rw [alternatives]
      exact List.mem_map_of_mem mem

/-- Cats and dogs. -/
def animalMembers : List Value :=
  [referenceTo "#/components/schemas/Cat", referenceTo "#/components/schemas/Dog"]

/-- An animal is a cat or a dog, and only the kind of cats is mapped. -/
def animalEntries : Entries := [
  (.string "oneOf", .list animalMembers),
  (.string "discriminator", .object [(.string "propertyName", .string "kind"),
    (.string "mapping", .object [(.string "cat", .string "Cat")])])]

/-- The schemas of the animals. -/
def animalSchemas : Entries := [(.string "Cat", .object [(.string "type", .string "object")]),
  (.string "Dog", .object [(.string "type", .string "object")])]

theorem unions_offer_animals :
    Anchors.entries? {} (.object animalEntries) = some animalEntries
      ∧ formOf {} animalEntries = .composition .oneOf
      ∧ Combinator.oneOf ≠ .allOf
      ∧ Anchors.listAt? {} animalEntries "oneOf" = some animalMembers
      ∧ (∀ c : TypeScript.Context, c.anchors = {} → ∀ e,
          (TypeScript.typeOf c (.object animalEntries)).result = .ok e → ∀ name,
            ListsSchema {} c.dictionary animalMembers name →
              e.Offers name ∧ e.WritesAlternative name)
      ∧ (∀ c : Zod.Context, c.anchors = {} → ∀ v,
          (Zod.validatorOf c (.object animalEntries)).result = .ok v →
            (c.mappedNames? (.composition (factsOf {} animalEntries) .oneOf []) = none →
                ∀ name, ListsSchema {} c.dictionary animalMembers name →
                  v.Offers name ∧ v.WritesAlternative name)
              ∧ ∀ names, c.mappedNames? (.composition (factsOf {} animalEntries) .oneOf [])
                  = some names →
                v.alternatives.map Zod.Validator.schema? = names.map some
                  ∧ ∀ name ∈ names, v.WritesAlternative name)
      ∧ ((Value.object animalEntries).isJson = true → ∀ d options, ∃ e,
          (TypeScript.typeOf ⟨{}, d, options, false⟩ (.object animalEntries)).result = .ok e)
      ∧ ∀ c : Zod.Context, c.anchors = {} → c.strictReferences = false →
          Zod.Writable c (.object animalEntries) →
          ∃ v, (Zod.validatorOf c (.object animalEntries)).result = .ok v :=
  ⟨rfl, rfl, by decide, rfl, unions_offer rfl rfl (by decide) rfl⟩

/-- The type of animals. -/
def animalType : TypeScript.TypeExpr := .union [.named "Cat", .named "Dog"]

/-- The validator of animals. -/
def animalValidator : Zod.Validator := .discriminated "kind" [.tagged "Cat" "kind" "'cat'"]

/-- The validator of animals has no alternative for dogs, which the type has. -/
theorem validator_omits_dog :
    formOf {} animalEntries = .composition .oneOf
      ∧ Anchors.listAt? {} animalEntries "oneOf" = some animalMembers
      ∧ ListsSchema {} (some animalSchemas) animalMembers "Dog"
      ∧ (TypeScript.typeOf ⟨{}, some animalSchemas, {}, false⟩ (.object animalEntries)).result
        = .ok animalType
      ∧ animalType.Offers "Dog"
      ∧ (Zod.validatorOf ⟨{}, some animalSchemas, {}, false⟩ (.object animalEntries)).result
        = .ok animalValidator
      ∧ animalValidator.text 0 = "z.discriminatedUnion('kind', [\n"
        ++ "  CatSchema.extend(\x7b kind: z.literal('cat') \x7d),\n])"
      ∧ ¬ animalValidator.Offers "Dog" := by
  refine ⟨rfl, rfl, ⟨_, List.mem_cons_of_mem _ List.mem_cons_self, _, rfl, by decide⟩, by cbv,
    ⟨.named "Dog", List.mem_cons_of_mem _ List.mem_cons_self, rfl⟩, by cbv, by decide +kernel, ?_⟩
  rintro ⟨a, mem, dog⟩
  cases List.mem_singleton.1 mem
  exact absurd (Option.some.inj dog) (by decide)

end SchemaCodegen
